/- source: stdlib/utils/hashmap.h (hmap_put, hmap_del, hmap_rehash)
   digest: The hash map when memory runs out, and how large its table becomes. -/

import CZet.Stdlib.HashMap

set_option autoImplicit false
set_option relaxedAutoImplicit false

namespace CZet.Stdlib

variable {V : Type}

/-- `hmap_put` with the tests of its pointers. -/
def hmapPutPtr (alloc : Nat → Bool) (m : Hmap V) (key : Option Key) (val : Option V) :
    Option (Int × Hmap V) :=
  match key, val with
  | some key, some val => hmapPut alloc 2 m key val
  | _, _ => some (-1, m)

/-- The maps of the runs from `hmap_init` in which every map meets `P`; each call has an outcome of
`calloc` of its own. -/
inductive RunWithin (P : Hmap V → Prop) : Hmap V → Prop
  | init (h : P hmapInit) : RunWithin P hmapInit
  | step {m m' : Hmap V} (hrun : RunWithin P m) (alloc : Nat → Bool) (op : HmapOp V)
      {out : List (HmapResult V)} (hstep : hmapStep alloc op m = some (out, m')) (h : P m') :
      RunWithin P m'

/-- What one operation does to the map that a table stands for, and to the size of the table. -/
theorem step_represents {alloc : Nat → Bool} {op : HmapOp V} {m m' : Hmap V}
    {f : Finmap (fun _ : Key => V)} {out : List (HmapResult V)} (h : Represents m f)
    (hstep : hmapStep alloc op m = some (out, m')) :
    (∃ f', Represents m' f') ∧
      (m'.cap = m.cap ∨ m'.cap = m.cap * 2 ∧ m.cap * 7 ≤ (m.count + m.tombs + 1) * 10) := by
  cases op with
  | put key val =>
      obtain ⟨⟨rc, m₁⟩, hput, heq⟩ := Option.map_eq_some_iff.mp hstep
      cases heq
      rcases hmapPut_cases alloc h key val with ⟨hfail, -⟩ | ⟨m₂, hdone, h₂, hcap⟩
      · cases hput.symm.trans hfail
        exact ⟨⟨f, h⟩, Or.inl rfl⟩
      · cases hput.symm.trans hdone
        exact ⟨⟨_, h₂⟩, hcap⟩
  | get key =>
      obtain ⟨v, -, heq⟩ := Option.map_eq_some_iff.mp hstep
      cases heq
      exact ⟨⟨f, h⟩, Or.inl rfl⟩
  | del key =>
      obtain ⟨⟨rc, m₁⟩, hdel, heq⟩ := Option.map_eq_some_iff.mp hstep
      cases heq
      obtain ⟨m₂, hdone, h₂⟩ := hmapDel_erase h key
      obtain ⟨-, rfl⟩ := Prod.mk.inj (Option.some.inj (hdel.symm.trans hdone))
      refine ⟨⟨_, h₂⟩, Or.inl ?_⟩
      obtain ⟨⟨i, found⟩, -, hres⟩ := Option.bind_eq_some_iff.mp hdel
      cases found with
      | true =>
          obtain ⟨-, rfl⟩ := Prod.mk.inj (Option.some.inj hres)
          rfl
      | false =>
          obtain ⟨-, rfl⟩ := Prod.mk.inj (Option.some.inj hres)
          rfl
  | count =>
      cases hstep
      exact ⟨⟨f, h⟩, Or.inl rfl⟩

theorem RunWithin.represents {P : Hmap V → Prop} {m : Hmap V} (h : RunWithin P m) :
    P m ∧ ∃ f, Represents m f := by
  induction h with
  | init h => exact ⟨h, ∅, represents_empty ⟨4, Nat.le_refl 4, rfl⟩⟩
  | step _ alloc op hstep h ih =>
      obtain ⟨-, f, hf⟩ := ih
      exact ⟨h, (step_represents hf hstep).1⟩

section Runs

variable (P : Hmap V → Prop) [DecidablePred P]

/-- Operations with all the memory they need, as long as the maps meet `P`. -/
def runWithin (ops : List (HmapOp V)) (m : Hmap V) : Option (Hmap V) :=
  ops.foldlM (fun m op => ((hmapStep (fun _ => true) op m).map Prod.snd).filter fun m' => P m') m

variable {P}

theorem RunWithin.of_run {ops : List (HmapOp V)} {m m' : Hmap V} (hrun : RunWithin P m)
    (h : runWithin P ops m = some m') : RunWithin P m' := by
  induction ops generalizing m with
  | nil =>
      obtain rfl := Option.some.inj h
      exact hrun
  | cons op ops ih =>
      obtain ⟨m₁, hone, hrest⟩ := Option.bind_eq_some_iff.mp h
      obtain ⟨hmap, hP⟩ := Option.filter_eq_some_iff.mp hone
      obtain ⟨⟨out, m₂⟩, hstep, rfl⟩ := Option.map_eq_some_iff.mp hmap
      exact ih (hrun.step _ op hstep (of_decide_eq_true hP)) hrest

end Runs

/-- A put that returns -1 changes nothing, whichever maps it comes to; and a rehash that gets its
memory puts every entry into the new table, without a rehash inside. -/
theorem failed_put_unchanged {m : Hmap V} (h : RunWithin (fun _ => True) m) :
    (∀ alloc key val, ∃ rc m', hmapPutPtr alloc m key val = some (rc, m') ∧ (rc = 0 ∨ rc = -1) ∧
      (rc = -1 → m' = m)) ∧
    ∀ alloc : Nat → Bool, alloc (m.cap * 2) = true →
      ∃ m', hmapRehash alloc hmapPutInPlace m (m.cap * 2) = some (0, m') ∧
        (∀ alloc', hmapRehash alloc (hmapPut alloc' 1) m (m.cap * 2) = some (0, m')) ∧
        ∀ key val, m'.Holds key val ↔ m.Holds key val := by
  obtain ⟨-, f, hf⟩ := h.represents
  refine ⟨?_, ?_⟩
  · intro alloc key val
    cases key with
    | none => exact ⟨-1, m, rfl, Or.inr rfl, fun _ => rfl⟩
    | some key =>
        cases val with
        | none => exact ⟨-1, m, rfl, Or.inr rfl, fun _ => rfl⟩
        | some val =>
            rcases hmapPut_cases alloc hf key val with ⟨hfail, -⟩ | ⟨m', hdone, -, -⟩
            · exact ⟨-1, m, hfail, Or.inr rfl, fun _ => rfl⟩
            · exact ⟨0, m', hdone, Or.inl rfl, fun hrc => absurd hrc (by decide)⟩
  · intro alloc halloc
    obtain ⟨m', hplain, hput, h', -, -⟩ := hmapRehash_represents hf halloc
    refine ⟨m', hplain, hput, ?_⟩
    intro key val
    rw [← h'.lookup, hf.lookup]

/-- One key after the other: each is put in, and deleted again. -/
def churn (keys : List Key) : List (HmapOp Nat) := keys.flatMap fun key => [.put key 1, .del key]

/-- Eight entries and three deleted ones: the next put needs a larger table. Without memory it changes
nothing, and with memory the entries come into the new table. -/
theorem crowded_map_put_unchanged : ∃ m : Hmap Nat, RunWithin (fun _ => True) m ∧
    m.count = 8 ∧ m.tombs = 3 ∧
    hmapPutPtr (fun _ => false) m (some [120]) (some 9) = some (-1, m) ∧
    ∃ m', hmapRehash (fun _ => true) hmapPutInPlace m (m.cap * 2) = some (0, m') ∧
      m'.count = 8 ∧ m'.tombs = 0 ∧ ∀ key val, m'.Holds key val ↔ m.Holds key val := by
  have hrun : (runWithin (fun _ : Hmap Nat => True)
      (churn [[97], [98], [99]] ++ [.put [100] 1, .put [101] 2, .put [102] 3, .put [103] 4,
        .put [104] 5, .put [105] 6, .put [106] 7, .put [107] 8]) hmapInit).map
      (fun m => (m.count, m.tombs,
        (hmapPutPtr (fun _ => false) m (some [120]) (some 9)).map Prod.fst,
        (hmapRehash (fun _ => true) hmapPutInPlace m (m.cap * 2)).map
          fun r => (r.2.count, r.2.tombs))) = some (8, 3, some (-1), some (8, 0)) := by
    decide +kernel
  obtain ⟨m, hm, hvalues⟩ := Option.map_eq_some_iff.mp hrun
  simp only [Prod.mk.injEq] at hvalues
  obtain ⟨hcount, htombs, hput, hgrown⟩ := hvalues
  have hwithin := (RunWithin.init trivial).of_run hm
  obtain ⟨hfailed, hrehash⟩ := failed_put_unchanged hwithin
  refine ⟨m, hwithin, hcount, htombs, ?_, ?_⟩
  · obtain ⟨rc, m', hdone, -, hsame⟩ := hfailed (fun _ => false) (some [120]) (some 9)
    rw [hdone] at hput ⊢
    obtain rfl : rc = -1 := Option.some.inj hput
    rw [hsame rfl]
  · obtain ⟨m', hdone, -, hholds⟩ := hrehash (fun _ => true) rfl
    rw [hdone] at hgrown
    obtain ⟨hcount', htombs'⟩ := Prod.mk.inj (Option.some.inj hgrown)
    exact ⟨m', hdone, hcount', htombs', hholds⟩

/-- The capacity is bounded by the slots that are live or deleted at the same time. -/
theorem capacity_le (n : Nat) {m : Hmap V} (h : RunWithin (fun m => m.count + m.tombs ≤ n) m) :
    m.cap ≤ max 16 (4 * (n + 1)) := by
  induction h with
  | init _ => exact Nat.le_max_left _ _
  | step hrun alloc op hstep _ ih =>
      obtain ⟨hfill, f, hf⟩ := hrun.represents
      rcases (step_represents hf hstep).2 with hcap | ⟨hcap, hdue⟩
      · rw [hcap]
        exact ih
      · have hroom : 4 * (n + 1) ≤ max 16 (4 * (n + 1)) := Nat.le_max_right _ _
        omega

/-- Two keys are put in and one is deleted. -/
theorem two_keys_capacity : ∃ m : Hmap Nat, RunWithin (fun m => m.count + m.tombs ≤ 2) m ∧
    m.count = 1 ∧ m.cap ≤ max 16 (4 * (2 + 1)) := by
  have hrun : (runWithin (fun m : Hmap Nat => m.count + m.tombs ≤ 2)
      [.put [97] 1, .put [98] 2, .del [97]] hmapInit).map Hmap.count = some 1 := by
    decide +kernel
  obtain ⟨m, hm, hcount⟩ := Option.map_eq_some_iff.mp hrun
  have hwithin := (RunWithin.init (by decide)).of_run hm
  exact ⟨m, hwithin, hcount, capacity_le 2 hwithin⟩

/-- Twelve keys are put in, each but the last one deleted before the next. -/
theorem deleted_keys_grow_table : ¬ ∀ (n : Nat) (m : Hmap Nat),
    RunWithin (fun m => m.count ≤ n) m → m.cap ≤ max 16 (4 * (n + 1)) := by
  intro h
  have hrun : (runWithin (fun m : Hmap Nat => m.count ≤ 1)
      (churn [[97], [98], [99], [100], [101], [102], [103], [104], [105], [106], [107]] ++
        [.put [108] 1]) hmapInit).map Hmap.cap = some 32 := by
    decide +kernel
  obtain ⟨m, hm, hcap⟩ := Option.map_eq_some_iff.mp hrun
  have hbound := h 1 m ((RunWithin.init (by decide)).of_run hm)
  rw [hcap] at hbound
  exact absurd hbound (by decide)

end CZet.Stdlib
