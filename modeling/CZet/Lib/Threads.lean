/- digest: Condition variables over the program points of a family of threads. -/

import Mathlib.Algebra.BigOperators.Group.Finset.Piecewise
import Mathlib.Algebra.Order.BigOperators.Group.Finset
import Mathlib.Data.Fintype.Card

set_option autoImplicit false
set_option relaxedAutoImplicit false

namespace CZet.Lib.Threads

/-- A condition variable: which program points are blocked on it and where a woken thread goes
on. -/
structure CondVar (S : Type) where
  blocked : S → Bool
  wake : S → S
  awake : ∀ s, blocked (wake s) = false
  other : ∀ s, blocked s = false → wake s = s

section Wakeups

variable {S ι : Type} (cv : CondVar S)

def broadcast (threads : ι → S) : ι → S := fun i => cv.wake (threads i)

theorem broadcast_apply (threads : ι → S) (i : ι) :
    broadcast cv threads i = threads i ∨
      cv.blocked (threads i) = true ∧ broadcast cv threads i = cv.wake (threads i) := by
  cases hblocked : cv.blocked (threads i) with
  | true => exact Or.inr ⟨rfl, rfl⟩
  | false => exact Or.inl (cv.other _ hblocked)

variable [Fintype ι] [DecidableEq ι]

/-- A signal wakes the chosen blocked thread; no thread can be chosen only when none is
blocked. -/
def signal (threads : ι → S) : Option ι → Option (ι → S)
  | none => if ∀ i, cv.blocked (threads i) = false then some threads else none
  | some i =>
      if cv.blocked (threads i) then some (Function.update threads i (cv.wake (threads i)))
      else none

variable {cv}

theorem signal_cases {threads threads' : ι → S} {pick : Option ι}
    (h : signal cv threads pick = some threads') :
    (∃ i, cv.blocked (threads i) = true ∧
      threads' = Function.update threads i (cv.wake (threads i))) ∨
    ((∀ i, cv.blocked (threads i) = false) ∧ threads' = threads) := by
  cases pick with
  | none =>
      simp only [signal, Option.ite_none_right_eq_some, Option.some.injEq] at h
      exact Or.inr ⟨h.1, h.2.symm⟩
  | some i =>
      simp only [signal, Option.ite_none_right_eq_some, Option.some.injEq] at h
      exact Or.inl ⟨i, h.1, h.2.symm⟩

theorem signal_apply {threads threads' : ι → S} {pick : Option ι}
    (h : signal cv threads pick = some threads') (i : ι) :
    threads' i = threads i ∨ cv.blocked (threads i) = true ∧ threads' i = cv.wake (threads i) := by
  rcases signal_cases h with ⟨j, hj, rfl⟩ | ⟨-, rfl⟩
  · by_cases hij : i = j
    · rw [hij, Function.update_self]
      exact Or.inr ⟨hj, rfl⟩
    · exact Or.inl (Function.update_of_ne hij _ _)
  · exact Or.inl rfl

theorem exists_awake_of_signal [Nonempty ι] {threads threads' : ι → S} {pick : Option ι}
    (h : signal cv threads pick = some threads') : ∃ i, cv.blocked (threads' i) = false := by
  rcases signal_cases h with ⟨j, -, rfl⟩ | ⟨hnone, rfl⟩
  · exact ⟨j, by rw [Function.update_self]; exact cv.awake _⟩
  · exact ⟨Classical.arbitrary ι, hnone _⟩

/-- A signal is always possible: it wakes a blocked thread, or there is none. -/
theorem exists_signal (threads : ι → S) :
    ∃ pick threads', signal cv threads pick = some threads' := by
  by_cases hnone : ∀ i, cv.blocked (threads i) = false
  · exact ⟨none, threads, if_pos hnone⟩
  · obtain ⟨i, hi⟩ := not_forall.mp hnone
    exact ⟨some i, _, if_pos (Bool.eq_true_of_not_eq_false hi)⟩

end Wakeups

section Totals

variable {S ι M : Type} [Fintype ι] [AddCommMonoid M]

theorem sum_update [DecidableEq ι] (f : S → M) (threads : ι → S) (i : ι) (s : S) :
    (∑ j, f (Function.update threads i s j)) + f (threads i) = (∑ j, f (threads j)) + f s := by
  have hrest : ∑ j ∈ Finset.univ.erase i, f (Function.update threads i s j) =
      ∑ j ∈ Finset.univ.erase i, f (threads j) := by
    refine Finset.sum_congr rfl fun j hj => ?_
    rw [Function.update_of_ne (Finset.ne_of_mem_erase hj)]
  rw [← Finset.add_sum_erase _ _ (Finset.mem_univ i),
    ← Finset.add_sum_erase _ (fun j => f (threads j)) (Finset.mem_univ i), hrest,
    Function.update_self]
  rw [add_comm (f s), add_comm (f (threads i)), add_right_comm]

/-- A signal adds no more to a total than one waking does. -/
theorem sum_signal_le [DecidableEq ι] {cv : CondVar S} {f : S → Nat}
    (hf : ∀ s, f (cv.wake s) ≤ f s + 1) {threads threads' : ι → S} {pick : Option ι}
    (h : signal cv threads pick = some threads') :
    ∑ i, f (threads' i) ≤ (∑ i, f (threads i)) + 1 := by
  rcases signal_cases h with ⟨i, -, rfl⟩ | ⟨-, rfl⟩
  · have hsum := sum_update f threads i (cv.wake (threads i))
    have hone := hf (threads i)
    omega
  · exact Nat.le_succ _

theorem sum_broadcast_le {cv : CondVar S} {f : S → Nat} (hf : ∀ s, f (cv.wake s) ≤ f s + 1)
    (threads : ι → S) :
    ∑ i, f (broadcast cv threads i) ≤ (∑ i, f (threads i)) + Fintype.card ι := by
  calc ∑ i, f (broadcast cv threads i) ≤ ∑ i, (f (threads i) + 1) :=
        Finset.sum_le_sum fun i _ => hf (threads i)
    _ = (∑ i, f (threads i)) + Fintype.card ι := by
        rw [Finset.sum_add_distrib, ← Finset.card_eq_sum_ones, Finset.card_univ]

theorem sum_congr_of_wake {cv : CondVar S} {f : S → M} (hf : ∀ s, f (cv.wake s) = f s)
    {threads threads' : ι → S}
    (h : ∀ i, threads' i = threads i ∨
      cv.blocked (threads i) = true ∧ threads' i = cv.wake (threads i)) :
    ∑ i, f (threads' i) = ∑ i, f (threads i) := by
  refine Finset.sum_congr rfl fun i _ => ?_
  rcases h i with heq | ⟨-, heq⟩
  · rw [heq]
  · rw [heq, hf]

end Totals

end CZet.Lib.Threads
