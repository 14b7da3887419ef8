/- digest: Writers that append to a stream and readers that restore a memory from it. -/

import Mathlib.Data.Set.Basic

set_option autoImplicit false
set_option relaxedAutoImplicit false

namespace CZet.Lib.StreamCodec

variable {A B S ι : Type}

abbrev Writer (S : Type) := List S → Option (List S)

/-- A reader of values `B` at addresses `A`: it changes the memory and consumes input. -/
abbrev Reader (A B S : Type) := (A → B) × List S → Option ((A → B) × List S)

def writeAll (w : ι → Writer S) (is : List ι) : Writer S :=
  fun out => is.foldlM (fun out i => w i out) out

def readAll (r : ι → Reader A B S) (is : List ι) : Reader A B S :=
  fun st => is.foldlM (fun st i => r i st) st

theorem writeAll_congr {w w' : ι → Writer S} {is : List ι} (h : ∀ i ∈ is, w i = w' i) :
    writeAll w is = writeAll w' is := by
  funext out
  induction is generalizing out with
  | nil => rfl
  | cons i is ih =>
      have hrest : writeAll w is = writeAll w' is :=
        funext fun out => ih (fun j hj => h j (List.mem_cons_of_mem _ hj)) out
      have hcons : ∀ v : ι → Writer S, writeAll v (i :: is) out = v i out >>= writeAll v is :=
        fun _ => List.foldlM_cons
      rw [hcons, hcons, hrest, h i (List.mem_cons_self ..)]

theorem writeAll_refuse {w : ι → Writer S} {is : List ι} {i : ι} (hi : i ∈ is)
    (h : ∀ out, w i out = none) (out : List S) : writeAll w is out = none := by
  induction is generalizing out with
  | nil => cases hi
  | cons j is ih =>
      have hcons : writeAll w (j :: is) out = w j out >>= writeAll w is := List.foldlM_cons
      rw [hcons]
      rcases List.mem_cons.mp hi with rfl | hi
      · rw [h]
        rfl
      · cases hj : w j out with
        | none => rfl
        | some out' => exact ih hi out'

section Restoring

/-- What the writer appends, the reader takes off the input, and it restores the covered part of
the written memory and nothing else. -/
def RoundTrip (m : A → B) (covered : Set A) (w : Writer S) (r : Reader A B S) : Prop :=
  ∀ out out', w out = some out' → ∃ bytes, out' = out ++ bytes ∧ ∀ m' rest,
    ∃ m'', r (m', bytes ++ rest) = some (m'', rest) ∧
      (∀ k ∈ covered, m'' k = m k) ∧ ∀ k ∉ covered, m'' k = m' k

variable {m : A → B}

theorem RoundTrip.refuse (covered : Set A) {w : Writer S} (r : Reader A B S)
    (h : ∀ out, w out = none) : RoundTrip m covered w r := by
  intro out out' hw
  rw [h out] at hw
  cases hw

theorem RoundTrip.skip {covered : Set A} (hempty : ∀ k, k ∉ covered) {w : Writer S}
    {r : Reader A B S} (hw : ∀ out, w out = some out) (hr : ∀ st, r st = some st) :
    RoundTrip m covered w r := by
  intro out out' hout
  rw [hw out] at hout
  cases hout
  refine ⟨[], (List.append_nil out).symm, fun m' rest => ⟨m', hr _, ?_, fun _ _ => rfl⟩⟩
  intro k hk
  exact absurd hk (hempty k)

/-- Two writers in a row: a location that both cover is restored twice, to the same value. -/
theorem RoundTrip.seq {c₁ c₂ : Set A} {w₁ w₂ : Writer S} {r₁ r₂ : Reader A B S}
    (h₁ : RoundTrip m c₁ w₁ r₁) (h₂ : RoundTrip m c₂ w₂ r₂) :
    RoundTrip m (c₁ ∪ c₂) (fun out => w₁ out >>= w₂) (fun st => r₁ st >>= r₂) := by
  intro out out' hw
  obtain ⟨mid, hw₁, hw₂⟩ := Option.bind_eq_some_iff.mp hw
  obtain ⟨bytes₁, rfl, hr₁⟩ := h₁ out mid hw₁
  obtain ⟨bytes₂, rfl, hr₂⟩ := h₂ _ out' hw₂
  refine ⟨bytes₁ ++ bytes₂, List.append_assoc _ _ _, fun m' rest => ?_⟩
  obtain ⟨m₁, hread₁, hin₁, hout₁⟩ := hr₁ m' (bytes₂ ++ rest)
  obtain ⟨m₂, hread₂, hin₂, hout₂⟩ := hr₂ m₁ rest
  refine ⟨m₂, ?_, ?_, ?_⟩
  · rw [List.append_assoc]
    exact Option.bind_eq_some_iff.mpr ⟨_, hread₁, hread₂⟩
  · rintro k (hk | hk)
    · by_cases hk₂ : k ∈ c₂
      · exact hin₂ k hk₂
      · rw [hout₂ k hk₂, hin₁ k hk]
    · exact hin₂ k hk
  · intro k hk
    rw [Set.mem_union, not_or] at hk
    rw [hout₂ k hk.2, hout₁ k hk.1]

theorem RoundTrip.all {covered : ι → Set A} {w : ι → Writer S} {r : ι → Reader A B S}
    (is : List ι) (h : ∀ i ∈ is, RoundTrip m (covered i) (w i) (r i)) :
    RoundTrip m {k | ∃ i ∈ is, k ∈ covered i} (writeAll w is) (readAll r is) := by
  induction is with
  | nil =>
      refine RoundTrip.skip ?_ (fun _ => rfl) (fun _ => rfl)
      rintro k ⟨i, hi, -⟩
      cases hi
  | cons i is ih =>
      have hcons : {k | ∃ j ∈ i :: is, k ∈ covered j} =
          covered i ∪ {k | ∃ j ∈ is, k ∈ covered j} := by
        ext k
        simp
      rw [hcons]
      exact (h i (List.mem_cons_self ..)).seq (ih fun j hj => h j (List.mem_cons_of_mem _ hj))

end Restoring

section Accepting

/-- Whether the writer refuses does not depend on what is written. -/
def WritesSome (n : Option Nat) (w : Writer S) : Prop := ∀ out, (w out).isSome = n.isSome

/-- The reader consumes `n` symbols, and refuses when there are less. -/
def ReadsSome (n : Option Nat) (r : Reader A B S) : Prop :=
  ∀ m input, (r (m, input)).map Prod.snd =
    n.bind fun k => if k ≤ input.length then some (input.drop k) else none

/-- The length of two writings in a row. -/
def addLength (n₁ n₂ : Option Nat) : Option Nat :=
  n₁.bind fun k₁ => n₂.map fun k₂ => k₁ + k₂

def sumLengths (n : ι → Option Nat) (is : List ι) : Option Nat :=
  is.foldr (fun i total => addLength (n i) total) (some 0)

theorem isSome_sumLengths {n : ι → Option Nat} (is : List ι) :
    (sumLengths n is).isSome = true ↔ ∀ i ∈ is, (n i).isSome = true := by
  induction is with
  | nil => simp [sumLengths]
  | cons i is ih =>
      have hcons : sumLengths n (i :: is) = addLength (n i) (sumLengths n is) := rfl
      rw [hcons, List.forall_mem_cons, ← ih]
      cases n i <;> cases sumLengths n is <;> simp [addLength]

theorem WritesSome.seq {n₁ n₂ : Option Nat} {w₁ w₂ : Writer S} (h₁ : WritesSome n₁ w₁)
    (h₂ : WritesSome n₂ w₂) : WritesSome (addLength n₁ n₂) (fun out => w₁ out >>= w₂) := by
  intro out
  have hfirst := h₁ out
  cases hw : w₁ out with
  | none =>
      cases n₁ with
      | none => simp [addLength, hw]
      | some k => simp [hw] at hfirst
  | some mid =>
      cases n₁ with
      | none => simp [hw] at hfirst
      | some k => simpa [addLength, hw] using h₂ mid

theorem WritesSome.all {n : ι → Option Nat} {w : ι → Writer S} (is : List ι)
    (h : ∀ i ∈ is, WritesSome (n i) (w i)) : WritesSome (sumLengths n is) (writeAll w is) := by
  induction is with
  | nil => exact fun _ => rfl
  | cons i is ih =>
      exact (h i (List.mem_cons_self ..)).seq (ih fun j hj => h j (List.mem_cons_of_mem _ hj))

theorem ReadsSome.seq {n₁ n₂ : Option Nat} {r₁ r₂ : Reader A B S} (h₁ : ReadsSome n₁ r₁)
    (h₂ : ReadsSome n₂ r₂) : ReadsSome (addLength n₁ n₂) (fun st => r₁ st >>= r₂) := by
  intro m input
  have hfirst := h₁ m input
  cases hr : r₁ (m, input) with
  | none =>
      rw [hr, Option.map_none] at hfirst
      cases n₁ with
      | none => simp [addLength, hr]
      | some k₁ =>
          simp only [Option.bind_some] at hfirst
          split at hfirst
          · cases hfirst
          · rename_i hshort
            cases n₂ with
            | none => simp [addLength, hr]
            | some k₂ =>
                have hshort' : ¬ k₁ + k₂ ≤ input.length := by omega
                simp [addLength, hr, hshort']
  | some st =>
      obtain ⟨m₁, input₁⟩ := st
      rw [hr, Option.map_some] at hfirst
      cases n₁ with
      | none => cases hfirst
      | some k₁ =>
          simp only [Option.bind_some] at hfirst
          split at hfirst
          · rename_i hlong
            obtain rfl := Option.some.inj hfirst
            have hsecond := h₂ m₁ (input.drop k₁)
            cases n₂ with
            | none => simpa [addLength, hr] using hsecond
            | some k₂ =>
                have hiff : k₂ ≤ input.length - k₁ ↔ k₁ + k₂ ≤ input.length := by omega
                simpa [addLength, hr, hiff, List.drop_drop] using hsecond
          · cases hfirst

theorem ReadsSome.all {n : ι → Option Nat} {r : ι → Reader A B S} (is : List ι)
    (h : ∀ i ∈ is, ReadsSome (n i) (r i)) : ReadsSome (sumLengths n is) (readAll r is) := by
  induction is with
  | nil =>
      intro m input
      simp [sumLengths, readAll]
  | cons i is ih =>
      exact (h i (List.mem_cons_self ..)).seq (ih fun j hj => h j (List.mem_cons_of_mem _ hj))

theorem ReadsSome.accepts_iff {n : Option Nat} {r : Reader A B S} (h : ReadsSome n r) (m : A → B)
    (x : S) :
    n.isSome = true ↔ ∃ k, ∀ input, k ≤ input.length → (r (m, input)).isSome = true := by
  cases n with
  | none =>
      refine iff_of_false (by simp) ?_
      rintro ⟨k, hk⟩
      have hlong := hk (List.replicate k x) (Nat.le_of_eq List.length_replicate.symm)
      have hnone : (r (m, List.replicate k x)).map Prod.snd = none := h m _
      rw [Option.map_eq_none_iff] at hnone
      rw [hnone] at hlong
      cases hlong
  | some n =>
      refine iff_of_true rfl ⟨n, fun input hlong => ?_⟩
      have hread := h m input
      rw [Option.bind_some, if_pos hlong] at hread
      rw [← Option.isSome_map, hread]
      rfl

end Accepting

section Appending

/-- Texts in a row; `none` when one of them is refused. -/
def concatAll (texts : ι → Option (List S)) : List ι → Option (List S)
  | [] => some []
  | i :: is => (texts i).bind fun text => (concatAll texts is).map (text ++ ·)

theorem concatAll_singleton (texts : ι → Option (List S)) (i : ι) :
    concatAll texts [i] = texts i := by
  rw [concatAll, concatAll]
  cases texts i with
  | none => rfl
  | some text => exact congrArg some (List.append_nil text)

/-- The writer appends a text that does not depend on what is written. -/
def Appends (text : Option (List S)) (w : Writer S) : Prop := ∀ out, w out = text.map (out ++ ·)

theorem concatAll_eq_none_iff {texts : ι → Option (List S)} {is : List ι} :
    concatAll texts is = none ↔ ∃ i ∈ is, texts i = none := by
  induction is with
  | nil => simp [concatAll]
  | cons i is ih =>
      rw [concatAll]
      cases htext : texts i with
      | none => exact iff_of_true rfl ⟨i, List.mem_cons_self .., htext⟩
      | some text => simp [htext, ih]

theorem Appends.all {texts : ι → Option (List S)} {w : ι → Writer S} (is : List ι)
    (h : ∀ i ∈ is, Appends (texts i) (w i)) : Appends (concatAll texts is) (writeAll w is) := by
  intro out
  induction is generalizing out with
  | nil => exact congrArg some (List.append_nil out).symm
  | cons i is ih =>
      have hcons : writeAll w (i :: is) out = w i out >>= writeAll w is := List.foldlM_cons
      have hrest : writeAll w is = fun out => (concatAll texts is).map (out ++ ·) :=
        funext fun out => ih (fun j hj => h j (List.mem_cons_of_mem _ hj)) out
      rw [hcons, h i (List.mem_cons_self ..), hrest, concatAll]
      cases texts i with
      | none => rfl
      | some text =>
          cases concatAll texts is with
          | none => rfl
          | some rest => simp [List.append_assoc]

/-- Texts of the same lengths are the same in a row when each of them is, or when one is refused. -/
theorem concatAll_eq_iff {texts texts' : ι → Option (List S)} {is : List ι}
    (hlen : ∀ i ∈ is, (texts i).map List.length = (texts' i).map List.length) :
    (concatAll texts is).map List.length = (concatAll texts' is).map List.length ∧
      (concatAll texts is = concatAll texts' is ↔
        concatAll texts is = none ∨ ∀ i ∈ is, texts i = texts' i) := by
  induction is with
  | nil => exact ⟨rfl, iff_of_true rfl (Or.inr fun i hi => by cases hi)⟩
  | cons i is ih =>
      obtain ⟨hrest, hiff⟩ := ih fun j hj => hlen j (List.mem_cons_of_mem _ hj)
      have hfirst := hlen i (List.mem_cons_self ..)
      rw [concatAll, concatAll, List.forall_mem_cons]
      cases htext : texts i with
      | none =>
          rw [htext, Option.map_none] at hfirst
          rw [Option.map_eq_none_iff.mp hfirst.symm]
          exact ⟨rfl, iff_of_true rfl (Or.inl rfl)⟩
      | some text =>
          rw [htext] at hfirst
          obtain ⟨text', htext', hsame⟩ := Option.map_eq_some_iff.mp hfirst.symm
          rw [htext']
          simp only [Option.bind_some]
          cases hall : concatAll texts is with
          | none =>
              rw [hall, Option.map_none] at hrest
              rw [Option.map_eq_none_iff.mp hrest.symm]
              exact ⟨rfl, iff_of_true rfl (Or.inl rfl)⟩
          | some rest =>
              rw [hall] at hrest hiff
              obtain ⟨rest', hall', hlength⟩ := Option.map_eq_some_iff.mp hrest.symm
              rw [hall'] at hiff ⊢
              simp only [Option.map_some, List.length_append, hsame, hlength, true_and,
                Option.some.injEq, reduceCtorEq, false_or] at hiff ⊢
              rw [← hiff]
              constructor
              · exact fun heq => List.append_inj heq hsame.symm
              · rintro ⟨rfl, rfl⟩
                rfl

end Appending

end CZet.Lib.StreamCodec
