/- digest: Parsers that take a word off the front of their input, and the words that they take. -/

import Mathlib.Data.List.Basic

set_option autoImplicit false
set_option relaxedAutoImplicit false

namespace CZet.Lib.Recognizers

variable {τ ε α β : Type}

/-- A parser of a list of tokens: a value and the tokens left, or an error. -/
abbrev TokenParser (τ ε α : Type) := StateT (List τ) (Except ε) α

/-- The parser gives a value exactly on the inputs that start with a word of that value, and takes
the word. -/
def Recognises (p : TokenParser τ ε α) (L : α → List τ → Prop) : Prop :=
  ∀ ts a rest, p ts = .ok (a, rest) ↔ ∃ w, L a w ∧ ts = w ++ rest

/-- The next token, if `f` has a value for it. -/
def token (f : τ → Option α) (err : List τ → ε) : TokenParser τ ε α := fun ts =>
  match ts with
  | [] => .error (err [])
  | t :: rest =>
      match f t with
      | some a => .ok (a, rest)
      | none => .error (err (t :: rest))

/-- A choice made by looking ahead. -/
def branch (test : List τ → Bool) (p q : TokenParser τ ε α) : TokenParser τ ε α := fun ts =>
  if test ts then p ts else q ts

def refuse (err : List τ → ε) : TokenParser τ ε α := fun ts => .error (err ts)

section Rules

variable {p p' : TokenParser τ ε α} {q : α → TokenParser τ ε β} {L L' : α → List τ → Prop}
  {M : α → β → List τ → Prop}

theorem bind_run (p : TokenParser τ ε α) (q : α → TokenParser τ ε β) (ts : List τ) :
    (p >>= q) ts = (p ts).bind fun r => q r.1 r.2 := rfl

theorem Recognises.congr (h : Recognises p L) (hL : ∀ a w, L a w ↔ L' a w) : Recognises p L' := by
  intro ts a rest
  rw [h ts a rest]
  constructor
  · rintro ⟨w, hw, rfl⟩
    exact ⟨w, (hL a w).mp hw, rfl⟩
  · rintro ⟨w, hw, rfl⟩
    exact ⟨w, (hL a w).mpr hw, rfl⟩

theorem recognises_pure (a : α) :
    Recognises (pure a : TokenParser τ ε α) (fun b w => b = a ∧ w = []) := by
  intro ts b rest
  constructor
  · rintro ⟨rfl, rfl⟩
    exact ⟨[], ⟨rfl, rfl⟩, rfl⟩
  · rintro ⟨w, ⟨rfl, rfl⟩, rfl⟩
    rfl

theorem Recognises.bind (hp : Recognises p L) (hq : ∀ a, Recognises (q a) (M a)) :
    Recognises (p >>= q) (fun b w => ∃ a u v, L a u ∧ M a b v ∧ w = u ++ v) := by
  intro ts b rest
  rw [bind_run]
  constructor
  · intro h
    cases hfirst : p ts with
    | error e =>
        rw [hfirst] at h
        cases h
    | ok r =>
        obtain ⟨a, ts'⟩ := r
        rw [hfirst] at h
        obtain ⟨u, hu, rfl⟩ := (hp ts a ts').mp hfirst
        obtain ⟨v, hv, rfl⟩ := (hq a ts' b rest).mp h
        exact ⟨u ++ v, ⟨a, u, v, hu, hv, rfl⟩, (List.append_assoc u v rest).symm⟩
  · rintro ⟨w, ⟨a, u, v, hu, hv, rfl⟩, rfl⟩
    rw [List.append_assoc, (hp _ a (v ++ rest)).mpr ⟨u, hu, rfl⟩]
    exact (hq a _ b rest).mpr ⟨v, hv, rfl⟩

theorem recognises_token (f : τ → Option α) (err : List τ → ε) :
    Recognises (token f err) (fun a w => ∃ t, w = [t] ∧ f t = some a) := by
  intro ts a rest
  constructor
  · intro h
    cases ts with
    | nil => cases h
    | cons t ts =>
        rw [token] at h
        cases hf : f t with
        | none =>
            simp only [hf] at h
            cases h
        | some b =>
            simp only [hf] at h
            cases h
            exact ⟨[t], ⟨t, rfl, hf⟩, rfl⟩
  · rintro ⟨w, ⟨t, rfl, hf⟩, rfl⟩
    show token f err (t :: rest) = _
    rw [token]
    simp only [hf]

theorem recognises_refuse (err : List τ → ε) :
    Recognises (refuse err : TokenParser τ ε α) (fun _ _ => False) := by
  intro ts a rest
  constructor
  · intro h
    cases h
  · rintro ⟨w, h, -⟩
    exact h.elim

theorem Recognises.branch {test : List τ → Bool} (hp : Recognises p L) (hp' : Recognises p' L')
    (hyes : ∀ a w rest, L a w → test (w ++ rest) = test w)
    (hno : ∀ a w rest, L' a w → test (w ++ rest) = test w) :
    Recognises (branch test p p') (fun a w => if test w = true then L a w else L' a w) := by
  intro ts a rest
  rw [Recognizers.branch]
  constructor
  · intro h
    split at h
    · rename_i htest
      obtain ⟨w, hw, rfl⟩ := (hp ts a rest).mp h
      rw [hyes a w rest hw] at htest
      exact ⟨w, (if_pos htest).mpr hw, rfl⟩
    · rename_i htest
      obtain ⟨w, hw, rfl⟩ := (hp' ts a rest).mp h
      rw [hno a w rest hw] at htest
      exact ⟨w, (if_neg htest).mpr hw, rfl⟩
  · rintro ⟨w, hw, rfl⟩
    split at hw
    · rename_i htest
      rw [hyes a w rest hw, if_pos htest]
      exact (hp _ a rest).mpr ⟨w, hw, rfl⟩
    · rename_i htest
      rw [hno a w rest hw, if_neg htest]
      exact (hp' _ a rest).mpr ⟨w, hw, rfl⟩

end Rules

end CZet.Lib.Recognizers
