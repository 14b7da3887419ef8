/- digest: A program that sees a machine only through the answers to its calls, its guarded plays,
     and the transport of a play to a second machine that gives the same answers. -/

import Mathlib.Data.List.Basic

set_option autoImplicit false
set_option relaxedAutoImplicit false

namespace CZet.Lib.Interaction

variable {Call Ans S T O : Type}

/-- The next call of a program as a function of the answers it has got; `none` when it returns. -/
abbrev Program (Call Ans : Type) := List Ans → Option Call

/-- One call of a machine: its answer, its output and the next state, or a failed assertion. -/
abbrev Machine (Call Ans S O : Type) := Call → S → Option (Ans × List O × S)

/-- Play the program for at most `fuel` steps. -/
def play (step : Machine Call Ans S O) (next : Program Call Ans) :
    Nat → List Ans → S → Option (List O × S)
  | 0, _, _ => none
  | fuel + 1, hist, s =>
      match next hist with
      | none => some ([], s)
      | some c =>
          match step c s with
          | none => none
          | some (ans, out, s') =>
              match play step next fuel (hist ++ [ans]) s' with
              | none => none
              | some (outs, s'') => some (out ++ outs, s'')

/-- Every call of the play meets `guard`, which may look at the output from this call on. -/
def GuardedPlay (step : Machine Call Ans S O) (guard : Call → S → List O → Prop)
    (next : Program Call Ans) : Nat → List Ans → S → Prop
  | 0, _, _ => True
  | fuel + 1, hist, s =>
      ∀ c, next hist = some c → ∀ ans out s', step c s = some (ans, out, s') →
        (∀ outs s'', play step next fuel (hist ++ [ans]) s' = some (outs, s'') →
          guard c s (out ++ outs)) ∧
        GuardedPlay step guard next fuel (hist ++ [ans]) s'

theorem play_succ {step : Machine Call Ans S O} {next : Program Call Ans} {fuel : Nat}
    {hist : List Ans} {s t : S} {outs : List O}
    (h : play step next (fuel + 1) hist s = some (outs, t)) :
    (next hist = none ∧ outs = [] ∧ t = s) ∨
      ∃ c ans out s' rest, next hist = some c ∧ step c s = some (ans, out, s') ∧
        play step next fuel (hist ++ [ans]) s' = some (rest, t) ∧ outs = out ++ rest := by
  simp only [play] at h
  split at h
  · rename_i hnext
    simp only [Option.some.injEq, Prod.mk.injEq] at h
    exact .inl ⟨hnext, h.1.symm, h.2.symm⟩
  · rename_i c hnext
    split at h
    · simp at h
    · rename_i ans out s' hstep
      split at h
      · simp at h
      · rename_i rest s'' hrest
        simp only [Option.some.injEq, Prod.mk.injEq] at h
        obtain ⟨rfl, rfl⟩ := h
        exact .inr ⟨c, ans, out, s', rest, hnext, hstep, hrest, rfl⟩

theorem play_accumulates {step : Machine Call Ans S O} {guard : Call → S → List O → Prop}
    {next : Program Call Ans} {acc : S → List O → S → Prop} (hnil : ∀ s, acc s [] s)
    (happend : ∀ s out s' outs s'', acc s out s' → acc s' outs s'' → acc s (out ++ outs) s'')
    (hstep : ∀ c s ans out s' outs, guard c s (out ++ outs) → step c s = some (ans, out, s') →
      acc s out s')
    (fuel : Nat) (hist : List Ans) (s t : S) (outs : List O)
    (hguard : GuardedPlay step guard next fuel hist s)
    (hplay : play step next fuel hist s = some (outs, t)) : acc s outs t := by
  induction fuel generalizing hist s outs with
  | zero => simp [play] at hplay
  | succ fuel ih =>
      rcases play_succ hplay with ⟨-, rfl, rfl⟩ | ⟨c, ans, out, s', rest, hnext, hone, hrest, rfl⟩
      · exact hnil t
      · obtain ⟨hmeets, hguard'⟩ := hguard c hnext ans out s' hone
        exact happend s out s' rest t (hstep c s ans out s' rest (hmeets rest t hrest) hone)
          (ih (hist ++ [ans]) s' rest hguard' hrest)

/-- A second machine that answers every guarded call in the same way is played to the same
output.  The relation between the states is indexed by the output still to come. -/
theorem play_transport {step : Machine Call Ans S O} {step' : Machine Call Ans T O}
    {guard : Call → S → List O → Prop} {next : Program Call Ans} {R : List O → S → T → Prop}
    (hstep : ∀ c s t ans out rest s', R (out ++ rest) s t → guard c s (out ++ rest) →
      step c s = some (ans, out, s') → ∃ t', step' c t = some (ans, out, t') ∧ R rest s' t')
    (fuel : Nat) (hist : List Ans) (s s' : S) (t : T) (outs : List O)
    (hguard : GuardedPlay step guard next fuel hist s)
    (hplay : play step next fuel hist s = some (outs, s')) (hrel : R outs s t) :
    ∃ t', play step' next fuel hist t = some (outs, t') ∧ R [] s' t' := by
  induction fuel generalizing hist s t outs with
  | zero => simp [play] at hplay
  | succ fuel ih =>
      rcases play_succ hplay with
        ⟨hnext, rfl, rfl⟩ | ⟨c, ans, out, s₁, rest, hnext, hone, hrest, rfl⟩
      · exact ⟨t, by simp only [play, hnext], hrel⟩
      · obtain ⟨hmeets, hguard'⟩ := hguard c hnext ans out s₁ hone
        obtain ⟨t₁, hone', hrel₁⟩ :=
          hstep c s t ans out rest s₁ hrel (hmeets rest s' hrest) hone
        obtain ⟨t', hrest', hrel'⟩ := ih (hist ++ [ans]) s₁ t₁ rest hguard' hrest hrel₁
        exact ⟨t', by simp only [play, hnext, hone', hrest'], hrel'⟩

theorem guardedPlay_trivial (step : Machine Call Ans S O) (next : Program Call Ans) (fuel : Nat)
    (hist : List Ans) (s : S) : GuardedPlay step (fun _ _ _ => True) next fuel hist s := by
  induction fuel generalizing hist s with
  | zero => trivial
  | succ fuel ih => exact fun _ _ ans _ s' _ => ⟨fun _ _ _ => trivial, ih (hist ++ [ans]) s'⟩

theorem guardedPlay_call {step : Machine Call Ans S O} {guard : Call → S → List O → Prop}
    {next : Program Call Ans} {fuel : Nat} {hist : List Ans} {s s' t : S} {c : Call} {ans : Ans}
    {out outs : List O} (hnext : next hist = some c) (hstep : step c s = some (ans, out, s'))
    (hplay : play step next fuel (hist ++ [ans]) s' = some (outs, t))
    (hmeets : guard c s (out ++ outs))
    (hrest : GuardedPlay step guard next fuel (hist ++ [ans]) s') :
    GuardedPlay step guard next (fuel + 1) hist s := by
  intro c' hnext' ans' out' s₁ hstep'
  obtain rfl := Option.some.inj (hnext.symm.trans hnext')
  obtain ⟨rfl, rfl, rfl⟩ : ans = ans' ∧ out = out' ∧ s' = s₁ := by
    simpa using Option.some.inj (hstep.symm.trans hstep')
  refine ⟨?_, hrest⟩
  intro outs' t' hplay'
  obtain ⟨rfl, -⟩ := Prod.mk.inj (Option.some.inj (hplay.symm.trans hplay'))
  exact hmeets

theorem guardedPlay_return {step : Machine Call Ans S O} {guard : Call → S → List O → Prop}
    {next : Program Call Ans} {fuel : Nat} {hist : List Ans} {s : S} (hnext : next hist = none) :
    GuardedPlay step guard next (fuel + 1) hist s := by
  intro c hcall
  rw [hnext] at hcall
  exact absurd hcall (by simp)

end CZet.Lib.Interaction
