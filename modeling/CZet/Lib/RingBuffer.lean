/- digest: A ring buffer as a window of a cyclic array, and the queue that it holds. -/

import Mathlib.Data.List.Range
import Mathlib.Data.Nat.ModEq
import Mathlib.Logic.Function.Basic

set_option autoImplicit false
set_option relaxedAutoImplicit false

namespace CZet.Lib.RingBuffer

variable {α : Type}

/-- The slot `i` places behind the head. -/
def slot (cap head i : Nat) : Nat := (head + i) % cap

/-- The queue in `count` slots from `head` on, oldest first. -/
def contents (q : Nat → α) (cap head count : Nat) : List α :=
  (List.range count).map fun i => q (slot cap head i)

@[simp] theorem contents_zero (q : Nat → α) (cap head : Nat) : contents q cap head 0 = [] := rfl

theorem slot_ne_slot {cap head i count : Nat} (hi : i < count) (hcount : count < cap) :
    slot cap head i ≠ slot cap head count := by
  intro heq
  have hmod : Nat.ModEq cap i count := Nat.ModEq.add_left_cancel' head heq
  rw [Nat.ModEq, Nat.mod_eq_of_lt (hi.trans hcount), Nat.mod_eq_of_lt hcount] at hmod
  exact Nat.ne_of_lt hi hmod

theorem update_slot {cap head count : Nat} (hcount : count < cap) (q : Nat → α) (x : α) {i : Nat}
    (hi : i < count) :
    Function.update q (slot cap head count) x (slot cap head i) = q (slot cap head i) :=
  Function.update_of_ne (slot_ne_slot hi hcount) x q

theorem contents_push {cap head count : Nat} (hcount : count < cap) (q : Nat → α) (x : α) :
    contents (Function.update q (slot cap head count) x) cap head (count + 1) =
      contents q cap head count ++ [x] := by
  simp only [contents, List.range_succ, List.map_append, List.map_cons, List.map_nil,
    Function.update_self]
  refine congrArg (· ++ [x]) (List.map_congr_left fun i hi => ?_)
  exact update_slot hcount q x (List.mem_range.mp hi)

theorem contents_pop {cap head : Nat} (hhead : head < cap) (count : Nat) (q : Nat → α) :
    contents q cap head (count + 1) = q head :: contents q cap ((head + 1) % cap) count := by
  have hfirst : slot cap head 0 = head := Nat.mod_eq_of_lt hhead
  have hrest : ∀ i, slot cap head (i + 1) = slot cap ((head + 1) % cap) i := by
    intro i
    rw [slot, slot, Nat.mod_add_mod]
    congr 1
    omega
  simp only [contents, List.range_succ_eq_map, List.map_cons, List.map_map, hfirst]
  refine congrArg (q head :: ·) (List.map_congr_left fun i _ => ?_)
  exact congrArg q (hrest i)

/-- The tail follows the head: the slot behind the last one, after a push and after a pop. -/
theorem slot_succ (cap head count : Nat) :
    (slot cap head count + 1) % cap = slot cap head (count + 1) := by
  rw [slot, slot, Nat.mod_add_mod, Nat.add_assoc]

theorem slot_pop (cap head count : Nat) :
    slot cap ((head + 1) % cap) count = slot cap head (count + 1) := by
  rw [slot, slot, Nat.mod_add_mod]
  congr 1
  omega

end CZet.Lib.RingBuffer
