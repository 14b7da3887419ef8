/- digest: Paths as words of parts between separators: taking them apart, putting them together, and
     the paths that do not lead out of the place where they start. -/

import Mathlib.Data.List.Infix

set_option autoImplicit false
set_option relaxedAutoImplicit false

namespace CZet.Lib.PathNames

variable {α : Type} [DecidableEq α] {sep : α}

/-- The parts of a path that are not empty. -/
def parts (sep : α) (s : List α) : List (List α) := (s.splitOn sep).filter (· ≠ [])

/-- A list that can stand between separators. -/
def IsPart (sep : α) (c : List α) : Prop := c ≠ [] ∧ sep ∉ c

instance (sep : α) (c : List α) : Decidable (IsPart sep c) := inferInstanceAs (Decidable (_ ∧ _))

section Parts

theorem parts_nil : parts sep [] = [] := by
  rw [parts, List.splitOn_nil]
  rfl

theorem parts_of_isPart {c : List α} (hc : IsPart sep c) : parts sep c = [c] := by
  rw [parts, List.splitOn_eq_singleton hc.2]
  exact List.filter_cons_of_pos (decide_eq_true hc.1)

theorem parts_append_sep (a b : List α) : parts sep (a ++ sep :: b) = parts sep a ++ parts sep b := by
  rw [parts, List.splitOn_append_cons_self, List.filter_append]
  rfl

theorem isPart_of_mem_parts {s c : List α} (hc : c ∈ parts sep s) : c ∈ s.splitOn sep ∧ c ≠ [] := by
  rw [parts, List.mem_filter] at hc
  exact ⟨hc.1, of_decide_eq_true hc.2⟩

theorem parts_join {cs : List (List α)} (hcs : ∀ c ∈ cs, IsPart sep c) :
    parts sep ([sep].intercalate cs) = cs := by
  cases cs with
  | nil => exact parts_nil
  | cons c cs =>
      rw [parts, List.splitOn_intercalate sep (fun d hd => (hcs d hd).2) (List.cons_ne_nil c cs)]
      exact List.filter_eq_self.mpr fun d hd => decide_eq_true (hcs d hd).1

theorem mem_splitOn_iff {s c : List α} (hc : sep ∉ c) :
    c ∈ s.splitOn sep ↔ ∃ a b, s = a ++ c ++ b ∧ (a = [] ∨ ∃ a', a = a' ++ [sep]) ∧
      (b = [] ∨ ∃ b', b = sep :: b') := by
  constructor
  · intro hmem
    have hjoin : ∀ cs : List (List α), c ∈ cs → ∃ a b, [sep].intercalate cs = a ++ c ++ b ∧
        (a = [] ∨ ∃ a', a = a' ++ [sep]) ∧ (b = [] ∨ ∃ b', b = sep :: b') := by
      intro cs
      induction cs with
      | nil => exact fun hin => absurd hin List.not_mem_nil
      | cons d cs ih =>
          intro hin
          by_cases hcs : cs = []
          · obtain rfl : c = d := by simpa [hcs] using hin
            exact ⟨[], [], by simp [hcs], Or.inl rfl, Or.inl rfl⟩
          · rw [List.intercalate_cons_of_ne_nil hcs]
            rcases List.mem_cons.mp hin with rfl | hrest
            · exact ⟨[], sep :: [sep].intercalate cs, by simp, Or.inl rfl, Or.inr ⟨_, rfl⟩⟩
            · obtain ⟨a, b, heq, ha, hb⟩ := ih hrest
              refine ⟨d ++ sep :: a, b, by simp [heq], Or.inr ?_, hb⟩
              rcases ha with rfl | ⟨a', rfl⟩
              · exact ⟨d, rfl⟩
              · exact ⟨d ++ sep :: a', by simp⟩
    have hwhole := hjoin (s.splitOn sep) hmem
    rwa [List.intercalate_splitOn] at hwhole
  · rintro ⟨a, b, rfl, ha, hb⟩
    have hright : c ∈ (c ++ b).splitOn sep := by
      rcases hb with rfl | ⟨b', rfl⟩
      · rw [List.append_nil, List.splitOn_eq_singleton hc]
        exact List.mem_singleton_self c
      · rw [List.splitOn_append_cons_self_of_not_mem hc]
        exact List.mem_cons_self
    rcases ha with rfl | ⟨a', rfl⟩
    · exact hright
    · rw [List.append_assoc, List.append_assoc, List.singleton_append,
        List.splitOn_append_cons_self]
      exact List.mem_append_right _ hright

end Parts

section Inside

/-- What the parts of a path mean: one stands for the same place, one for the place above. -/
structure Dots (sep : α) where
  here : List α
  up : List α
  here_isPart : IsPart sep here
  up_isPart : IsPart sep up
  here_ne_up : here ≠ up

variable (d : Dots sep)

/-- The steps of a path. -/
def steps (s : List α) : List (List α) := (parts sep s).filter (· ≠ d.here)

/-- No prefix of the steps leads up more often than down. -/
def StaysInside (s : List α) : Prop :=
  ∀ p, p <+: steps d s → p.count d.up ≤ p.countP (· ≠ d.up)

variable {d}

theorem staysInside_of_not_mem {s : List α} (h : d.up ∉ s.splitOn sep) : StaysInside d s := by
  intro p hp
  have hzero : p.count d.up = 0 := by
    rw [List.count_eq_zero]
    intro hmem
    have hstep : d.up ∈ steps d s := hp.subset hmem
    rw [steps, List.mem_filter] at hstep
    exact h (isPart_of_mem_parts hstep.1).1
  rw [hzero]
  exact Nat.zero_le _

theorem not_staysInside_up (b : List α) : ¬ StaysInside d (d.up ++ sep :: b) := by
  intro hinside
  have hsteps : steps d (d.up ++ sep :: b) = d.up :: steps d b := by
    rw [steps, parts_append_sep, parts_of_isPart d.up_isPart, List.singleton_append]
    exact List.filter_cons_of_pos (decide_eq_true d.here_ne_up.symm)
  have hfirst := hinside [d.up] (hsteps ▸ List.prefix_append [d.up] (steps d b))
  simp at hfirst

theorem StaysInside.of_append {a b : List α} (h : StaysInside d (a ++ sep :: b)) :
    StaysInside d a := by
  intro p hp
  apply h
  rw [steps, parts_append_sep, List.filter_append]
  exact hp.trans (List.prefix_append _ _)

end Inside

end CZet.Lib.PathNames
