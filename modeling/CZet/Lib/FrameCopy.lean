/- digest: Frames of bytes that are copied one byte at a time, the frames written to and read from a
     buffer, and readers that never go back in the sequence of what was written. -/

import Mathlib.Data.List.Forall2
import Mathlib.Logic.Function.Basic

set_option autoImplicit false
set_option relaxedAutoImplicit false

namespace CZet.Lib.FrameCopy

section Copy

variable {n : Nat} {Byte : Type}

abbrev Frame (n : Nat) (Byte : Type) : Type := Fin n → Byte

/-- One byte of a `memcpy`; the bytes may be copied in any order. -/
def copyByte (src dst : Frame n Byte) (i : Fin n) : Frame n Byte :=
  Function.update dst i (src i)

scoped instance decidablePending (todo : List (Fin n)) (i : Fin n) : Decidable (i ∈ todo) :=
  inferInstance

/-- The bytes that are still to be copied behind the byte `i`. -/
def remaining (todo : List (Fin n)) (i : Fin n) : List (Fin n) := todo.filter (· ≠ i)

/-- All bytes but those still to be copied are in place. -/
def Copied (todo : List (Fin n)) (src dst : Frame n Byte) : Prop := ∀ i ∉ todo, dst i = src i

theorem copied_start (src dst : Frame n Byte) : Copied (List.finRange n) src dst := by
  intro i hi
  exact absurd (List.mem_finRange i) hi

theorem copied_step {todo : List (Fin n)} {src dst : Frame n Byte} (h : Copied todo src dst)
    (i : Fin n) : Copied (remaining todo i) src (copyByte src dst i) := by
  intro j hj
  by_cases hji : j = i
  · rw [hji, copyByte, Function.update_self]
  · have htodo : j ∉ todo := by
      intro hmem
      apply hj
      rw [remaining, List.mem_filter]
      exact ⟨hmem, by simpa using hji⟩
    rw [copyByte, Function.update_of_ne hji]
    exact h j htodo

theorem copied_all {src dst : Frame n Byte} (h : Copied [] src dst) : dst = src := by
  ext i
  exact h i List.not_mem_nil

end Copy

section Events

variable {α : Type}

/-- A write that is published, or a read that has come to its end. -/
inductive Event (α : Type)
  | write (v : α)
  | read (v : α)
  deriving DecidableEq

def writes (events : List (Event α)) : List α :=
  events.filterMap fun
    | .write v => some v
    | .read _ => none

def reads (events : List (Event α)) : List α :=
  events.filterMap fun
    | .write _ => none
    | .read v => some v

@[simp] theorem writes_append (events new : List (Event α)) :
    writes (events ++ new) = writes events ++ writes new := List.filterMap_append

@[simp] theorem reads_append (events new : List (Event α)) :
    reads (events ++ new) = reads events ++ reads new := List.filterMap_append

@[simp] theorem writes_nil : writes ([] : List (Event α)) = [] := rfl

@[simp] theorem reads_nil : reads ([] : List (Event α)) = [] := rfl

@[simp] theorem writes_write (v : α) : writes [Event.write v] = [v] := rfl

@[simp] theorem reads_write (v : α) : reads [Event.write v] = [] := rfl

@[simp] theorem writes_read (v : α) : writes [Event.read v] = [] := rfl

@[simp] theorem reads_read (v : α) : reads [Event.read v] = [v] := rfl

end Events

section Forward

variable {α : Type}

/-- The values read are taken from the sequence written, never further back than the value read
before, and none from behind the index `last`. -/
def Forward (written reads : List α) (last : Nat) : Prop :=
  ∃ indices : List Nat, indices.Pairwise (· ≤ ·) ∧ (∀ k ∈ indices, k ≤ last) ∧
    List.Forall₂ (fun k r => written[k]? = some r) indices reads

theorem forward_nil (written : List α) (last : Nat) : Forward written [] last :=
  ⟨[], List.Pairwise.nil, by simp, List.Forall₂.nil⟩

theorem Forward.later {written reads : List α} {last last' : Nat} (h : Forward written reads last)
    (hle : last ≤ last') : Forward written reads last' := by
  obtain ⟨indices, horder, hlast, hread⟩ := h
  exact ⟨indices, horder, fun k hk => Nat.le_trans (hlast k hk) hle, hread⟩

theorem Forward.write {written reads : List α} {last : Nat} (h : Forward written reads last)
    (new : List α) : Forward (written ++ new) reads last := by
  obtain ⟨indices, horder, hlast, hread⟩ := h
  refine ⟨indices, horder, hlast, hread.imp ?_⟩
  intro k r hk
  have hlt : k < written.length := (List.getElem?_eq_some_iff.mp hk).1
  rw [List.getElem?_append_left hlt, hk]

theorem Forward.read {written reads : List α} {last : Nat} {r : α}
    (h : Forward written reads last) (hr : written[last]? = some r) :
    Forward written (reads ++ [r]) last := by
  obtain ⟨indices, horder, hlast, hread⟩ := h
  refine ⟨indices ++ [last], ?_, ?_, ?_⟩
  · rw [List.pairwise_append]
    refine ⟨horder, List.pairwise_singleton _ _, ?_⟩
    intro k hk l hl
    rw [List.mem_singleton.mp hl]
    exact hlast k hk
  · intro k hk
    rcases List.mem_append.mp hk with hk | hk
    · exact hlast k hk
    · exact Nat.le_of_eq (List.mem_singleton.mp hk)
  · exact List.rel_append hread (List.Forall₂.cons hr List.Forall₂.nil)

theorem Forward.mem {written reads : List α} {last : Nat} (h : Forward written reads last) :
    ∀ r ∈ reads, r ∈ written := by
  obtain ⟨indices, -, -, hread⟩ := h
  induction hread with
  | nil => simp
  | cons hr hrest ih =>
      intro r hmem
      rcases List.mem_cons.mp hmem with rfl | hmem
      · exact List.mem_of_getElem? hr
      · exact ih r hmem

end Forward

end CZet.Lib.FrameCopy
