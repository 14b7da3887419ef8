/- digest: Writers and readers that visit the addresses of a list in order, and when what is read is
     written again. -/

import CZet.Lib.StreamCodec
import Mathlib.Data.List.Nodup
import Mathlib.Data.List.ProdSigma
import Mathlib.Logic.Nontrivial.Defs

set_option autoImplicit false
set_option relaxedAutoImplicit false

namespace CZet.Lib.AddressTrace

open CZet.Lib.StreamCodec

variable {A B ι : Type}

/-- The values stored at the addresses, one after the other. -/
def storeAll [DecidableEq A] (m : A → B) : List A → List B → A → B
  | a :: cells, b :: values => storeAll (Function.update m a b) cells values
  | _, _ => m

section Storing

variable [DecidableEq A]

theorem storeAll_of_notMem {cells : List A} {a : A} (ha : a ∉ cells) (m : A → B) (values : List B) :
    storeAll m cells values a = m a := by
  induction cells generalizing m values with
  | nil => rfl
  | cons c cells ih =>
      rw [List.mem_cons, not_or] at ha
      cases values with
      | nil => rfl
      | cons b values =>
          rw [storeAll, ih ha.2, Function.update_of_ne ha.1]

theorem storeAll_append {cells : List A} {values : List B} (hlen : values.length = cells.length)
    (cells' : List A) (values' : List B) (m : A → B) :
    storeAll m (cells ++ cells') (values ++ values') =
      storeAll (storeAll m cells values) cells' values' := by
  induction cells generalizing m values with
  | nil =>
      obtain rfl := List.length_eq_zero_iff.mp hlen
      cases cells' <;> rfl
  | cons a cells ih =>
      cases values with
      | nil => cases hlen
      | cons b values => exact ih (Nat.succ.inj hlen) (Function.update m a b)

theorem map_storeAll {cells : List A} (hnodup : cells.Nodup) {values : List B}
    (hlen : values.length = cells.length) (m : A → B) :
    cells.map (storeAll m cells values) = values := by
  induction cells generalizing m values with
  | nil => exact (List.length_eq_zero_iff.mp hlen).symm
  | cons a cells ih =>
      rw [List.nodup_cons] at hnodup
      cases values with
      | nil => cases hlen
      | cons b values =>
          rw [List.map_cons, storeAll, storeAll_of_notMem hnodup.1, Function.update_self,
            ih hnodup.2 (Nat.succ.inj hlen)]

theorem storeAll_getElem? {cells : List A} (hnodup : cells.Nodup) {values : List B}
    (hlen : values.length = cells.length) {i : Nat} {a : A} (ha : cells[i]? = some a) (m : A → B) :
    values[i]? = some (storeAll m cells values a) := by
  have hat := congrArg (fun l => l[i]?) (map_storeAll hnodup hlen m)
  rw [← hat]
  show (cells.map _)[i]? = _
  rw [List.getElem?_map, ha]
  rfl

theorem map_storeAll_iff [Nontrivial B] (cells : List A) (m : A → B) :
    (∀ values : List B, values.length = cells.length →
      cells.map (storeAll m cells values) = values) ↔ cells.Nodup := by
  refine ⟨fun h => ?_, fun hnodup values hlen => map_storeAll hnodup hlen m⟩
  obtain ⟨b, c, hbc⟩ := exists_pair_ne B
  rw [List.nodup_iff_injective_get]
  intro i j hsame
  by_contra hij
  let values := List.ofFn fun k : Fin cells.length => if k = i then b else c
  have hvalues := h values (List.length_ofFn)
  have hat : ∀ k : Fin cells.length,
      storeAll m cells values (cells.get k) = if k = i then b else c := by
    intro k
    have hk := congrArg (fun l => l[k.val]?) hvalues
    simpa [values] using hk
  have hi := hat i
  have hj := hat j
  rw [if_pos rfl] at hi
  rw [if_neg (Ne.symm hij)] at hj
  apply hbc
  rw [← hi, ← hj]
  exact congrArg _ hsame

end Storing

section Tracing

variable [DecidableEq A]

/-- The writer appends what the memory has at the addresses of the trace, and the reader stores what
it takes off the input there; both refuse without a trace. -/
structure Traced (trace : Option (List A)) (w : (A → B) → Writer B) (r : Reader A B B) : Prop where
  writes : ∀ m out, w m out = trace.map fun t => out ++ t.map m
  reads : ∀ m input, r (m, input) = trace.bind fun t =>
    if t.length ≤ input.length then
      some (storeAll m t (input.take t.length), input.drop t.length)
    else none

theorem Traced.refuse : Traced (A := A) (B := B) none (fun _ _ => none) fun _ => none :=
  ⟨fun _ _ => rfl, fun _ _ => rfl⟩

theorem Traced.skip : Traced (A := A) (B := B) (some []) (fun _ out => some out) fun st => some st :=
  ⟨fun _ out => congrArg some (List.append_nil out).symm, fun _ _ => rfl⟩

theorem Traced.seq {t₁ t₂ : Option (List A)} {w₁ w₂ : (A → B) → Writer B} {r₁ r₂ : Reader A B B}
    (h₁ : Traced t₁ w₁ r₁) (h₂ : Traced t₂ w₂ r₂) :
    Traced (t₁.bind fun a => t₂.map (a ++ ·)) (fun m out => w₁ m out >>= w₂ m)
      (fun st => r₁ st >>= r₂) := by
  constructor
  · intro m out
    rw [h₁.writes]
    cases t₁ with
    | none => rfl
    | some a =>
        show w₂ m (out ++ a.map m) = _
        rw [h₂.writes]
        cases t₂ with
        | none => rfl
        | some b => simp
  · intro m input
    rw [h₁.reads]
    cases t₁ with
    | none => rfl
    | some a =>
        simp only [Option.bind_some]
        split
        next hlong =>
          show r₂ (_, _) = _
          rw [h₂.reads]
          cases t₂ with
          | none => rfl
          | some b =>
              have hiff : b.length ≤ (input.drop a.length).length ↔
                  (a ++ b).length ≤ input.length := by
                rw [List.length_drop, List.length_append]
                omega
              have htake : input.take (a ++ b).length =
                  input.take a.length ++ (input.drop a.length).take b.length := by
                rw [List.length_append, List.take_add]
              have hlen : (input.take a.length).length = a.length := by
                rw [List.length_take]
                omega
              simp only [Option.map_some, Option.bind_some, hiff, htake]
              rw [storeAll_append hlen, List.drop_drop, List.length_append]
        next hshort =>
          cases t₂ with
          | none => rfl
          | some b =>
              have hshort' : ¬ (a ++ b).length ≤ input.length := by
                rw [List.length_append]
                omega
              simp only [Option.map_some, Option.bind_some, if_neg hshort']
              rfl

theorem Traced.all {traces : ι → Option (List A)} {w : (A → B) → ι → Writer B}
    {r : ι → Reader A B B} (is : List ι) (h : ∀ i ∈ is, Traced (traces i) (w · i) (r i)) :
    Traced (concatAll traces is) (fun m => writeAll (w m) is) (readAll r is) := by
  induction is with
  | nil => exact Traced.skip
  | cons i is ih =>
      exact (h i (List.mem_cons_self ..)).seq (ih fun j hj => h j (List.mem_cons_of_mem _ hj))

/-- What is read is written again exactly when the trace does not repeat an address. -/
theorem Traced.rewrites_iff [Nontrivial B] [Nonempty B] {trace : Option (List A)}
    {w : (A → B) → Writer B} {r : Reader A B B} (h : Traced trace w r) :
    (∀ m input m' rest, r (m, input) = some (m', rest) →
      ∃ bytes, w m' [] = some bytes ∧ input = bytes ++ rest) ↔ ∀ t ∈ trace, t.Nodup := by
  cases trace with
  | none =>
      refine iff_of_true ?_ (fun t ht => by cases ht)
      intro m input m' rest hread
      rw [h.reads] at hread
      cases hread
  | some t =>
      have hread : ∀ m input, r (m, input) = if t.length ≤ input.length then
          some (storeAll m t (input.take t.length), input.drop t.length) else none := h.reads
      have hwrite : ∀ m, w m [] = some (t.map m) := fun m => h.writes m []
      constructor
      · intro hagain t' ht'
        obtain rfl := Option.mem_some.mp ht'
        obtain ⟨b⟩ := ‹Nonempty B›
        rw [← map_storeAll_iff t fun _ => b]
        intro values hlen
        have hloaded : r (fun _ => b, values) = some (storeAll (fun _ => b) t values, []) := by
          rw [hread, if_pos hlen.ge, ← hlen, List.take_length, List.drop_length]
        obtain ⟨bytes, hbytes, hinput⟩ := hagain _ _ _ _ hloaded
        rw [hwrite, Option.some.injEq] at hbytes
        rw [hbytes, hinput, List.append_nil]
      · intro hnodup m input m' rest hloaded
        rw [hread] at hloaded
        split at hloaded
        next hlong =>
          obtain ⟨rfl, rfl⟩ := Prod.mk.inj (Option.some.inj hloaded)
          have hlen : (input.take t.length).length = t.length := by
            rw [List.length_take]
            omega
          refine ⟨input.take t.length, ?_, (List.take_append_drop _ _).symm⟩
          rw [hwrite, map_storeAll (hnodup t rfl) hlen]
        next => cases hloaded

end Tracing

section Overlaps

variable {traces : ι → Option (List A)} {covered : ι → A → Prop} {is : List ι} {t : List A}

theorem mem_concatAll_iff (hcovered : ∀ i ∈ is, ∀ u ∈ traces i, ∀ a, a ∈ u ↔ covered i a)
    (ht : concatAll traces is = some t) (a : A) : a ∈ t ↔ ∃ i ∈ is, covered i a := by
  induction is generalizing t with
  | nil =>
      obtain rfl := Option.some.inj ht
      simp
  | cons i is ih =>
      obtain ⟨u, hu, hrest⟩ := Option.bind_eq_some_iff.mp ht
      obtain ⟨v, hv, rfl⟩ := Option.map_eq_some_iff.mp hrest
      rw [List.forall_mem_cons] at hcovered
      rw [List.mem_append, ih hcovered.2 hv, List.exists_mem_cons_iff, hcovered.1 u hu]

theorem nodup_concatAll_iff {apart : ι → Prop}
    (hcovered : ∀ i ∈ is, ∀ u ∈ traces i, ∀ a, a ∈ u ↔ covered i a)
    (hapart : ∀ i ∈ is, ∀ u ∈ traces i, (u.Nodup ↔ apart i))
    (ht : concatAll traces is = some t) :
    t.Nodup ↔ (∀ i ∈ is, apart i) ∧ is.Pairwise fun i j => ∀ a, covered i a → ¬ covered j a := by
  induction is generalizing t with
  | nil =>
      obtain rfl := Option.some.inj ht
      simp
  | cons i is ih =>
      obtain ⟨u, hu, hrest⟩ := Option.bind_eq_some_iff.mp ht
      obtain ⟨v, hv, rfl⟩ := Option.map_eq_some_iff.mp hrest
      rw [List.forall_mem_cons] at hcovered hapart
      have hdisjoint : List.Disjoint u v ↔ ∀ j ∈ is, ∀ a, covered i a → ¬ covered j a := by
        simp only [List.Disjoint, hcovered.1 u hu, mem_concatAll_iff hcovered.2 hv]
        constructor
        · exact fun h j hj a hi hja => h hi ⟨j, hj, hja⟩
        · rintro h a hi ⟨j, hj, hja⟩
          exact h j hj a hi hja
      rw [List.nodup_append', ih hcovered.2 hapart.2 hv, List.forall_mem_cons, List.pairwise_cons,
        hdisjoint, hapart.1 u hu]
      tauto

end Overlaps

end CZet.Lib.AddressTrace
