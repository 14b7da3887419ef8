/- digest: Runs of structured statements that complete normally, by a jump or out of fuel, with
     sequence, branch, loop and cleanup. -/

import Mathlib.Data.List.Basic

set_option autoImplicit false
set_option relaxedAutoImplicit false

namespace CZet.Lib.Control

variable {S V : Type}

/-- How a statement is left; `cut` is a run that has used up its fuel. -/
inductive Completion (V : Type)
  | normal
  | brk
  | cont
  | ret (value : V)
  | goto (label : String)
  | cut
  deriving DecidableEq

abbrev Run (S V : Type) := S → Completion V × S

def skip : Run S V := fun s => (.normal, s)

def leave (k : S → Completion V) : Run S V := fun s => (k s, s)

def step (f : S → S) : Run S V := fun s => (.normal, f s)

def seq (r t : Run S V) : Run S V := fun s =>
  match r s with
  | (.normal, s') => t s'
  | out => out

def seqAll : List (Run S V) → Run S V
  | [] => skip
  | r :: rs => seq r (seqAll rs)

def branch (c : S → Bool) (r t : Run S V) : Run S V := fun s => if c s then r s else t s

/-- The body is run at most `fuel` times; `test` says whether the condition comes before it. -/
def loop (c : S → Bool) (next : S → S) (r : Run S V) : Nat → Bool → Run S V
  | 0, _, s => (.cut, s)
  | fuel + 1, test, s =>
      if test && !c s then (.normal, s)
      else match r s with
        | (.normal, s') | (.cont, s') => loop c next r fuel true (next s')
        | (.brk, s') => (.normal, s')
        | out => out

/-- Go on with an exit when the cleanup has completed. -/
def resume (k : Completion V) : Completion V × S → Completion V × S
  | (.normal, s) => (k, s)
  | out => out

/-- The cleanup runs on every exit of the body, which is then resumed. -/
def protect (body cleanup : Run S V) : Run S V := fun s =>
  match body s with
  | (.cut, s') => (.cut, s')
  | (k, s') => resume k (cleanup s')

theorem seq_skip (r : Run S V) : seq r skip = r := by
  funext s
  unfold seq skip
  split
  · rename_i s' h
    exact h.symm
  · rfl

theorem seq_assoc (r t u : Run S V) : seq (seq r t) u = seq r (seq t u) := by
  funext s
  simp only [seq]
  cases r s with
  | mk k s' => cases k <;> rfl

theorem seqAll_append (rs ts : List (Run S V)) :
    seqAll (rs ++ ts) = seq (seqAll rs) (seqAll ts) := by
  induction rs with
  | nil => rfl
  | cons r rs ih => rw [List.cons_append, seqAll, seqAll, ih, seq_assoc]

theorem protect_skip (r : Run S V) : protect r skip = r := by
  funext s
  simp only [protect, skip]
  cases r s with
  | mk k s' => cases k <;> rfl

theorem protect_leave {k : Completion V} (hk : k ≠ .cut) (cleanup : Run S V) (s : S) :
    protect (leave fun _ => k) cleanup s = resume k (cleanup s) := by
  cases k with
  | cut => exact absurd rfl hk
  | _ => rfl

theorem protect_seq (r t c : Run S V) (s : S) :
    protect (seq r t) c s =
      match r s with
      | (.normal, s') => protect t c s'
      | (k, s') => protect (leave fun _ => k) c s' := by
  simp only [protect, seq, leave]
  cases r s with
  | mk k s' => cases k <;> rfl

end CZet.Lib.Control
