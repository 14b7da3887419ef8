/- digest: Words marked off by a delimiter: what a concatenation of them determines. -/

import Mathlib.InformationTheory.Coding.UniquelyDecodable
import Mathlib.Data.List.Basic

set_option autoImplicit false
set_option relaxedAutoImplicit false

namespace CZet.Lib.Delimited

open InformationTheory (UniquelyDecodable)

variable {α : Type}

/-- No word of the set is a proper prefix of another one. -/
def PrefixFree (S : Set (List α)) : Prop :=
  [] ∉ S ∧ ∀ u ∈ S, ∀ v ∈ S, u <+: v → u = v

theorem PrefixFree.eq_of_append_eq {S : Set (List α)} (hS : PrefixFree S) {u v x y : List α}
    (hu : u ∈ S) (hv : v ∈ S) (h : u ++ x = v ++ y) : u = v ∧ x = y := by
  have huv : u = v := by
    rcases List.prefix_or_prefix_of_prefix (List.prefix_append u x)
        (h ▸ List.prefix_append v y) with hpre | hpre
    · exact hS.2 u hu v hv hpre
    · exact (hS.2 v hv u hu hpre).symm
  subst huv
  exact ⟨rfl, List.append_cancel_left h⟩

theorem PrefixFree.uniquelyDecodable {S : Set (List α)} (hS : PrefixFree S) :
    UniquelyDecodable S := by
  intro us
  induction us with
  | nil =>
      intro vs _ hvs h
      cases vs with
      | nil => rfl
      | cons v vs =>
          have hv : v = [] := (List.append_eq_nil_iff.mp h.symm).1
          exact absurd (hv ▸ hvs v List.mem_cons_self) hS.1
  | cons u us ih =>
      intro vs hus hvs h
      cases vs with
      | nil =>
          have hu : u = [] := (List.append_eq_nil_iff.mp h).1
          exact absurd (hu ▸ hus u List.mem_cons_self) hS.1
      | cons v vs =>
          obtain ⟨rfl, hrest⟩ := hS.eq_of_append_eq (hus u List.mem_cons_self)
            (hvs v List.mem_cons_self) h
          rw [ih vs (fun w hw => hus w (List.mem_cons_of_mem _ hw))
            (fun w hw => hvs w (List.mem_cons_of_mem _ hw)) hrest]

/-- Words that end at their first `d`, or that have been cut off at `n` characters. -/
def terminated (d : α) (n : Nat) : Set (List α) :=
  { w | ∃ body, d ∉ body ∧ w = (body ++ [d]).take n }

theorem terminated_prefixFree (d : α) {n : Nat} (hn : 0 < n) : PrefixFree (terminated d n) := by
  refine ⟨?_, ?_⟩
  · rintro ⟨body, -, h⟩
    rcases List.take_eq_nil_iff.mp h.symm with hzero | hnil
    · omega
    · simp at hnil
  · rintro u ⟨body, hbody, rfl⟩ v ⟨body', hbody', rfl⟩ hpre
    refine hpre.eq_of_length (Nat.le_antisymm hpre.length_le ?_)
    by_contra hlt
    simp only [List.length_take, List.length_append, List.length_singleton] at hlt
    -- the shorter word is whole, so it puts its delimiter inside the body of the longer one
    have hwhole : (body ++ [d]).take n = body ++ [d] :=
      List.take_of_length_le (by rw [List.length_append, List.length_singleton]; omega)
    rw [hwhole] at hpre
    have hinside : body ++ [d] <+: body' := by
      have hlen : (body ++ [d]).length ≤ body'.length := by
        rw [List.length_append, List.length_singleton]
        omega
      exact List.prefix_of_prefix_length_le (hpre.trans (List.take_prefix n _))
        (List.prefix_append body' [d]) hlen
    exact hbody' (hinside.subset (by simp))

/-- Words that end at their first `d`. -/
def ended (d : α) : Set (List α) := { w | ∃ body, d ∉ body ∧ w = body ++ [d] }

theorem ended_prefixFree (d : α) : PrefixFree (ended d) := by
  refine ⟨by simp [ended], ?_⟩
  rintro u ⟨body, hbody, rfl⟩ v ⟨body', hbody', rfl⟩ hpre
  have hn : 0 < (body' ++ [d]).length := by simp
  refine (terminated_prefixFree d hn).2 _ ⟨body, hbody, ?_⟩ _ ⟨body', hbody', ?_⟩ hpre
  · exact (List.take_of_length_le hpre.length_le).symm
  · exact (List.take_of_length_le (Nat.le_refl _)).symm

/-- Words that start with `d` and have no further `d`. -/
def started (d : α) : Set (List α) := { w | ∃ body, d ∉ body ∧ w = d :: body }

theorem started_uniquelyDecodable (d : α) : UniquelyDecodable (started d) := by
  intro us vs hus hvs h
  -- read backwards, such words are terminated by `d`
  have hback : ∀ ws : List (List α), (∀ w ∈ ws, w ∈ started d) →
      ∀ w ∈ (ws.map List.reverse).reverse, w ∈ ended d := by
    intro ws hws w hw
    obtain ⟨w', hw', rfl⟩ := List.mem_map.mp (List.mem_reverse.mp hw)
    obtain ⟨body, hbody, rfl⟩ := hws w' hw'
    exact ⟨body.reverse, by simpa using hbody, by simp⟩
  have hrev : ((us.map List.reverse).reverse).flatten = ((vs.map List.reverse).reverse).flatten := by
    rw [← List.reverse_flatten, ← List.reverse_flatten, h]
  have heq := (ended_prefixFree d).uniquelyDecodable _ _ (hback us hus) (hback vs hvs) hrev
  exact (List.map_injective_iff.mpr List.reverse_injective) (List.reverse_injective heq)

/-- A list of words as far as it fits into `room` characters. -/
def fitting : Nat → List (List α) → List (List α)
  | _, [] => []
  | 0, _ :: _ => []
  | room + 1, w :: ws => w.take (room + 1) :: fitting (room + 1 - w.length) ws

theorem flatten_fitting (room : Nat) (ws : List (List α)) :
    (fitting room ws).flatten = ws.flatten.take room := by
  induction ws generalizing room with
  | nil => cases room <;> rfl
  | cons w ws ih =>
      cases room with
      | zero => rfl
      | succ room =>
          rw [fitting, List.flatten_cons, List.flatten_cons, ih, List.take_append]

theorem fitting_started {d : α} {ws : List (List α)} (hws : ∀ w ∈ ws, w ∈ started d)
    (room : Nat) : ∀ w ∈ fitting room ws, w ∈ started d := by
  induction ws generalizing room with
  | nil => cases room <;> simp [fitting]
  | cons w ws ih =>
      cases room with
      | zero => simp [fitting]
      | succ room =>
          intro u hu
          rcases List.mem_cons.mp hu with rfl | hu
          · obtain ⟨body, hbody, rfl⟩ := hws w List.mem_cons_self
            exact ⟨body.take room, fun hd => hbody (List.mem_of_mem_take hd), by simp⟩
          · exact ih (fun v hv => hws v (List.mem_cons_of_mem _ hv)) _ u hu

theorem fitting_cons_eq_iff (room : Nat) (w : List α) (us vs : List (List α)) :
    fitting room (w :: us) = fitting room (w :: vs) ↔
      fitting (room - w.length) us = fitting (room - w.length) vs := by
  cases room with
  | zero => cases us <;> cases vs <;> simp [fitting]
  | succ room => simp only [fitting, List.cons.injEq, true_and]

theorem fitting_cons_eq_iff_of_ne {room : Nat} {u v : List α} {us vs : List (List α)}
    (h : u ≠ v) :
    fitting room (u :: us) = fitting room (v :: vs) ↔ u.take room = v.take room := by
  cases room with
  | zero => simp [fitting]
  | succ room =>
      simp only [fitting, List.cons.injEq, and_iff_left_iff_imp]
      intro htake
      have hlen : min (room + 1) u.length = min (room + 1) v.length := by
        simpa using congrArg List.length htake
      have hlong : room + 1 ≤ u.length ∧ room + 1 ≤ v.length := by
        by_contra hshort
        apply h
        rw [← List.take_of_length_le (show u.length ≤ room + 1 by omega), htake,
          List.take_of_length_le (show v.length ≤ room + 1 by omega)]
      rw [Nat.sub_eq_zero_of_le hlong.1, Nat.sub_eq_zero_of_le hlong.2]
      cases us <;> cases vs <;> simp [fitting]

theorem take_flatten_eq_iff {d : α} {us vs : List (List α)} (hus : ∀ w ∈ us, w ∈ started d)
    (hvs : ∀ w ∈ vs, w ∈ started d) (room : Nat) :
    us.flatten.take room = vs.flatten.take room ↔ fitting room us = fitting room vs := by
  rw [← flatten_fitting, ← flatten_fitting]
  constructor
  · exact started_uniquelyDecodable d _ _ (fitting_started hus room) (fitting_started hvs room)
  · intro h
    rw [h]

end CZet.Lib.Delimited
