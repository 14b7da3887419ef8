/- digest: Runs whose events each lower a well-founded measure have finitely many events; the
     multiset measure of a queue in which an item is replaced by finitely many smaller ones. -/

import Mathlib.Data.Multiset.DershowitzManna
import Mathlib.Data.Nat.Find

set_option autoImplicit false
set_option relaxedAutoImplicit false

namespace CZet.Lib.Cascade

section Events

variable {M : Type} {lt : M → M → Prop}

/-- A step that is no event leaves the measure alone or lowers it; an event lowers it. -/
structure Descends (lt : M → M → Prop) (measure : Nat → M) (count : Nat → Nat) (n : Nat) : Prop where
  lowers : measure (n + 1) = measure n ∨ lt (measure (n + 1)) (measure n)
  counts : count (n + 1) = count n ∨
    lt (measure (n + 1)) (measure n) ∧ count (n + 1) = count n + 1

private theorem bounded_from (wf : WellFounded lt) {measure : Nat → M} {count : Nat → Nat}
    (hstep : ∀ n, Descends lt measure count n) (m : M) :
    ∀ n, measure n = m → ∃ bound, ∀ k, n ≤ k → count k ≤ bound := by
  induction m using wf.induction with
  | _ m ih =>
      intro n hn
      by_cases hlow : ∃ k, n ≤ k ∧ lt (measure (k + 1)) (measure k)
      · -- the measure is still `m` at the first step that lowers it
        classical
        have hfind := Nat.find_spec hlow
        have hmin : ∀ j, n ≤ j → j < Nat.find hlow → ¬ lt (measure (j + 1)) (measure j) :=
          fun j hj hlt hdown => Nat.find_min hlow hlt ⟨hj, hdown⟩
        have hsame : ∀ j, n ≤ j → j ≤ Nat.find hlow → measure j = m ∧ count j = count n := by
          intro j hj
          induction j, hj using Nat.le_induction with
          | base => exact fun _ => ⟨hn, rfl⟩
          | succ j hj ihj =>
              intro hle
              obtain ⟨hm, hc⟩ := ihj (by omega)
              have hno := hmin j hj (by omega)
              refine ⟨((hstep j).lowers.resolve_right hno).trans hm, ?_⟩
              exact ((hstep j).counts.resolve_right fun h => hno h.1).trans hc
        obtain ⟨hm, hc⟩ := hsame _ hfind.1 le_rfl
        obtain ⟨bound, hbound⟩ := ih _ (hm ▸ hfind.2) (Nat.find hlow + 1) rfl
        refine ⟨max bound (count n), ?_⟩
        intro k hk
        by_cases hle : k ≤ Nat.find hlow
        · exact (hsame k hk hle).2.le.trans (le_max_right _ _)
        · exact (hbound k (by omega)).trans (le_max_left _ _)
      · refine ⟨count n, ?_⟩
        intro k hk
        induction k, hk using Nat.le_induction with
        | base => exact le_rfl
        | succ k hk ihk =>
            have hno : ¬ lt (measure (k + 1)) (measure k) := fun h => hlow ⟨k, hk, h⟩
            rw [(hstep k).counts.resolve_right fun h => hno h.1]
            exact ihk

theorem count_bounded (wf : WellFounded lt) {measure : Nat → M} {count : Nat → Nat}
    (hstep : ∀ n, Descends lt measure count n) : ∃ bound, ∀ n, count n ≤ bound := by
  obtain ⟨bound, hbound⟩ := bounded_from wf hstep (measure 0) 0 rfl
  exact ⟨bound, fun n => hbound n (Nat.zero_le n)⟩

end Events

section Queue

variable {α : Type}

/-- The measure of a queue: the multiset of the weights of its items. -/
def weights (weight : α → Nat) (queue : List α) : Multiset Nat := (queue.map weight : List Nat)

/-- Items taken from the front leave the measure alone or lower it. -/
theorem weights_drop (weight : α → Nat) (queue : List α) (n : Nat) :
    weights weight (queue.drop n) = weights weight queue ∨
      Multiset.IsDershowitzMannaLT (weights weight (queue.drop n)) (weights weight queue) := by
  by_cases hnil : queue.take n = []
  · left
    have hsplit := List.take_append_drop n queue
    rw [hnil, List.nil_append] at hsplit
    rw [hsplit]
  · right
    refine ⟨weights weight (queue.drop n), 0, weights weight (queue.take n), ?_, ?_, ?_, ?_⟩
    · simpa [weights] using hnil
    · exact (add_zero _).symm
    · rw [weights, weights, weights, Multiset.coe_add, ← List.map_append, Multiset.coe_eq_coe]
      exact (List.perm_append_comm.trans
        (List.Perm.of_eq (List.take_append_drop n queue))).symm.map weight
    · intro y hy
      exact absurd hy (Multiset.notMem_zero y)

/-- An item at the front is replaced, wherever in the queue, by finitely many lighter ones; the
items taken with it are gone. -/
theorem weights_replace (weight : α → Nat) {item : α} {queue new out : List α} {n : Nat}
    (hout : List.Perm out (new ++ (item :: queue).drop (n + 1)))
    (hnew : ∀ x ∈ new, weight x < weight item) :
    Multiset.IsDershowitzMannaLT (weights weight out) (weights weight (item :: queue)) := by
  refine ⟨weights weight ((item :: queue).drop (n + 1)), weights weight new,
    weights weight ((item :: queue).take (n + 1)), ?_, ?_, ?_, ?_⟩
  · simp [weights]
  · rw [weights, weights, weights, Multiset.coe_add, ← List.map_append, Multiset.coe_eq_coe]
    exact (hout.trans List.perm_append_comm).map weight
  · rw [weights, weights, weights, Multiset.coe_add, ← List.map_append, Multiset.coe_eq_coe]
    exact (List.perm_append_comm.trans
      (List.Perm.of_eq (List.take_append_drop (n + 1) (item :: queue)))).symm.map weight
  · intro y hy
    obtain ⟨x, hx, rfl⟩ := List.mem_map.mp (Multiset.mem_coe.mp hy)
    refine ⟨weight item, ?_, hnew x hx⟩
    simp [weights]

end Queue

end CZet.Lib.Cascade
