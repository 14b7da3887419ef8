/- digest: A memo of fresh values under keys, with requests nested in the construction of a value:
     which requests of a run share a value. -/

import Mathlib.Data.List.Basic

set_option autoImplicit false
set_option relaxedAutoImplicit false

namespace CZet.Lib.KeyedMemo

variable {R K : Type}

/-- A request, and the requests made while its value is being built. -/
inductive Request (R : Type)
  | mk (r : R) (nested : List (Request R))

/-- The entries, newest first, the next fresh value, and the answers given so far. -/
structure Memo (R K : Type) where
  entries : List (K × Nat)
  next : Nat
  log : List (R × Nat)

def Memo.empty : Memo R K := ⟨[], 0, []⟩

def Memo.keys (m : Memo R K) : List K := m.entries.map Prod.fst

section Serve

variable [DecidableEq K]

mutual

/-- Answer a request from the entries, or build a fresh value for its key. -/
def serve (key : R → K) : Request R → Memo R K → Nat × Memo R K
  | .mk r nested, m =>
      match m.entries.lookup (key r) with
      | some v => (v, { m with log := m.log ++ [(r, v)] })
      | none =>
          let m' := serveAll key nested m
          (m'.next, { entries := (key r, m'.next) :: m'.entries, next := m'.next + 1,
                      log := m'.log ++ [(r, m'.next)] })

def serveAll (key : R → K) : List (Request R) → Memo R K → Memo R K
  | [], m => m
  | q :: qs, m => serveAll key qs (serve key q m).2

end

end Serve

mutual

/-- No request is nested in one with the same key. -/
def Request.NotSelfNested (key : R → K) (enclosing : List K) : Request R → Prop
  | .mk r nested => key r ∉ enclosing ∧ allNotSelfNested key (key r :: enclosing) nested

def allNotSelfNested (key : R → K) (enclosing : List K) : List (Request R) → Prop
  | [] => True
  | q :: qs => q.NotSelfNested key enclosing ∧ allNotSelfNested key enclosing qs

end

/-- The entries are a function from keys to distinct values, and hold every answer. -/
structure Memo.Consistent (key : R → K) (m : Memo R K) : Prop where
  bound : ∀ e ∈ m.entries, e.2 < m.next
  exact : ∀ e ∈ m.entries, ∀ f ∈ m.entries, e.2 = f.2 ↔ e.1 = f.1
  logged : ∀ a ∈ m.log, (key a.1, a.2) ∈ m.entries

theorem Memo.empty_consistent (key : R → K) : (Memo.empty : Memo R K).Consistent key :=
  ⟨by simp [Memo.empty], by simp [Memo.empty], by simp [Memo.empty]⟩

private theorem mem_of_lookup [DecidableEq K] {k : K} {v : Nat} {l : List (K × Nat)}
    (h : l.lookup k = some v) : (k, v) ∈ l := by
  obtain ⟨l₁, l₂, rfl, -⟩ := List.lookup_eq_some_iff.mp h
  simp

private theorem notMem_of_lookup_none [DecidableEq K] {k : K} {l : List (K × Nat)}
    (h : l.lookup k = none) :
    k ∉ l.map Prod.fst := by
  intro hmem
  obtain ⟨e, he, rfl⟩ := List.mem_map.mp hmem
  have := List.lookup_eq_none_iff.mp h e he
  simp at this

private theorem consistent_hit [DecidableEq K] {key : R → K} {m : Memo R K}
    (hm : m.Consistent key) {r : R}
    {v : Nat} (h : m.entries.lookup (key r) = some v) :
    Memo.Consistent key { m with log := m.log ++ [(r, v)] } where
  bound := hm.bound
  exact := hm.exact
  logged := by
    intro a ha
    rcases List.mem_append.mp ha with ha | ha
    · exact hm.logged a ha
    · obtain rfl := List.mem_singleton.mp ha
      exact mem_of_lookup h

private theorem consistent_fresh {key : R → K} {m : Memo R K} (hm : m.Consistent key) {r : R}
    (h : key r ∉ m.keys) :
    Memo.Consistent key { entries := (key r, m.next) :: m.entries, next := m.next + 1,
                          log := m.log ++ [(r, m.next)] } where
  bound := by
    intro e he
    rcases List.mem_cons.mp he with rfl | he
    · exact Nat.lt_succ_self _
    · exact Nat.lt_succ_of_lt (hm.bound e he)
  exact := by
    intro e he f hf
    have hold : ∀ g ∈ m.entries, g.2 ≠ m.next ∧ g.1 ≠ key r := by
      intro g hg
      refine ⟨Nat.ne_of_lt (hm.bound g hg), fun heq => h ?_⟩
      exact heq ▸ List.mem_map_of_mem hg
    rcases List.mem_cons.mp he with rfl | he <;> rcases List.mem_cons.mp hf with rfl | hf
    · simp
    · obtain ⟨hv, hk⟩ := hold f hf
      exact ⟨fun heq => absurd heq.symm hv, fun heq => absurd heq.symm hk⟩
    · obtain ⟨hv, hk⟩ := hold e he
      exact ⟨fun heq => absurd heq hv, fun heq => absurd heq hk⟩
    · exact hm.exact e he f hf
  logged := by
    intro a ha
    rcases List.mem_append.mp ha with ha | ha
    · exact List.mem_cons_of_mem _ (hm.logged a ha)
    · obtain rfl := List.mem_singleton.mp ha
      exact List.mem_cons_self

mutual

theorem serve_consistent [DecidableEq K] {key : R → K} (enclosing : List K) (q : Request R)
    (m : Memo R K)
    (hm : m.Consistent key) (hq : q.NotSelfNested key enclosing) :
    (serve key q m).2.Consistent key ∧
      ∀ k ∈ (serve key q m).2.keys, k ∈ m.keys ∨ k ∉ enclosing := by
  obtain ⟨r, nested⟩ := q
  obtain ⟨hr, hnested⟩ := hq
  cases hlook : m.entries.lookup (key r) with
  | some v =>
      simp only [serve, hlook]
      exact ⟨consistent_hit hm hlook, fun k hk => .inl hk⟩
  | none =>
      obtain ⟨hm', hkeys⟩ := serveAll_consistent (key r :: enclosing) nested m hm hnested
      have hfresh : key r ∉ (serveAll key nested m).keys := by
        intro hmem
        rcases hkeys _ hmem with hold | hnew
        · exact notMem_of_lookup_none hlook hold
        · exact hnew List.mem_cons_self
      simp only [serve, hlook]
      refine ⟨consistent_fresh hm' hfresh, ?_⟩
      intro k hk
      rcases List.mem_cons.mp hk with rfl | hk
      · exact .inr hr
      · exact (hkeys k hk).imp_right fun hnot hin => hnot (List.mem_cons_of_mem _ hin)

theorem serveAll_consistent [DecidableEq K] {key : R → K} (enclosing : List K) (qs : List (Request R))
    (m : Memo R K) (hm : m.Consistent key) (hqs : allNotSelfNested key enclosing qs) :
    (serveAll key qs m).Consistent key ∧
      ∀ k ∈ (serveAll key qs m).keys, k ∈ m.keys ∨ k ∉ enclosing := by
  cases qs with
  | nil =>
      simp only [serveAll]
      exact ⟨hm, fun k hk => .inl hk⟩
  | cons q qs =>
      obtain ⟨hq, hqs⟩ := hqs
      obtain ⟨hm', hkeys⟩ := serve_consistent enclosing q m hm hq
      obtain ⟨hm'', hkeys'⟩ := serveAll_consistent enclosing qs (serve key q m).2 hm' hqs
      simp only [serveAll]
      refine ⟨hm'', ?_⟩
      intro k hk
      rcases hkeys' k hk with hin | hout
      · exact hkeys k hin
      · exact .inr hout

end

mutual

theorem log_subset_serve [DecidableEq K] (key : R → K) (q : Request R) (m : Memo R K) :
    m.log ⊆ (serve key q m).2.log := by
  obtain ⟨r, nested⟩ := q
  cases hlook : m.entries.lookup (key r) with
  | some v =>
      simp only [serve, hlook]
      exact List.subset_append_left _ _
  | none =>
      simp only [serve, hlook]
      exact List.subset_append_of_subset_left _ (log_subset_serveAll key nested m)

theorem log_subset_serveAll [DecidableEq K] (key : R → K) (qs : List (Request R))
    (m : Memo R K) : m.log ⊆ (serveAll key qs m).log := by
  cases qs with
  | nil => simp only [serveAll, List.Subset.refl]
  | cons q qs =>
      simp only [serveAll]
      exact List.Subset.trans (log_subset_serve key q m) (log_subset_serveAll key qs _)

end

theorem serve_flat_cases [DecidableEq K] (key : R → K) (r : R) (m : Memo R K) :
    (∃ v, (key r, v) ∈ m.entries ∧
        serve key (.mk r []) m = (v, { m with log := m.log ++ [(r, v)] })) ∨
      (key r ∉ m.keys ∧
        serve key (.mk r []) m =
          (m.next, { entries := (key r, m.next) :: m.entries, next := m.next + 1,
                     log := m.log ++ [(r, m.next)] })) := by
  cases hlook : m.entries.lookup (key r) with
  | some v => exact .inl ⟨v, mem_of_lookup hlook, by simp only [serve, hlook]⟩
  | none => exact .inr ⟨notMem_of_lookup_none hlook, by simp only [serve, hlook, serveAll]⟩

theorem answer_mem_log [DecidableEq K] (key : R → K) (r : R) (nested : List (Request R))
    (m : Memo R K) :
    (r, (serve key (.mk r nested) m).1) ∈ (serve key (.mk r nested) m).2.log := by
  cases hlook : m.entries.lookup (key r) with
  | some v => simp [serve, hlook]
  | none => simp [serve, hlook]

/-- Two answers of a consistent memo are the same value exactly when their keys are equal. -/
theorem Memo.Consistent.answers_eq_iff {key : R → K} {m : Memo R K} (hm : m.Consistent key)
    {a b : R × Nat} (ha : a ∈ m.log) (hb : b ∈ m.log) : a.2 = b.2 ↔ key a.1 = key b.1 :=
  hm.exact _ (hm.logged a ha) _ (hm.logged b hb)

end CZet.Lib.KeyedMemo
