/- source: src/gcc/gcc/c/c-parser.cc (c_parser_external_declaration,
     c_parser_compound_statement_nostart, c_parser_statement_after_labels,
     c_parser_postfix_expression: the four uses of czet_macro_expand_depth)
   digest: The four places that expand macro invocations, the depth counter they share, and what
     it counts. -/

import Mathlib.Algebra.Order.BigOperators.Group.List
import Mathlib.Algebra.Order.Group.Nat
import CZet.Lib.Cascade
import CZet.Macro.Conservation

set_option autoImplicit false
set_option relaxedAutoImplicit false

namespace CZet

/-- `CZET_MACRO_MAX_DEPTH`. -/
def czetMacroMaxDepth : Nat := 200

/-- The functions that call `c_czet_try_invoke`. -/
inductive InvokeSite
  | externalDeclaration
  | compoundStatement
  | statementAfterLabels
  | postfixExpression
  deriving DecidableEq, Repr

/-- A call that the parser has still to make: of one of the four functions, or of another one. -/
inductive ParserCall (N : Type)
  | site (s : InvokeSite)
  | rule (n : N)
  deriving DecidableEq

/-- The control stack of the parser.  `leave` is the `czet_macro_expand_depth--` behind a nested
call; its argument, which the code does not have, is the nesting of the expansion that was
counted. -/
inductive ParserFrame (N : Type)
  | call (c : ParserCall N)
  | leave (nesting : Nat)

/-- A successful `c_czet_try_invoke`: `taken` tokens are gone, and the expansion stands behind
the `kept` tokens that had been looked ahead. -/
structure Invoked (T σ : Type) where
  taken : Nat
  kept : Nat
  expansion : List T
  hasInject : Bool
  state : σ
  deriving DecidableEq

/-- One move of a function that is none of the four. -/
structure ParserMove (N σ : Type) where
  consumed : Nat
  calls : List (ParserCall N)
  state : σ
  deriving DecidableEq

/-- The rest of the parser: `N` names its other functions and `σ` is its other state.  Nothing is
assumed of its grammar and of its recovery from errors. -/
structure ParserRules (T N σ : Type) where
  /-- The names of the macros of the translation unit. -/
  macroName : T → Bool
  tryInvoke : σ → List T → Option (Invoked T σ)
  rule : N → σ → List T → ParserMove N σ
  /-- What one of the four functions does when no invocation is recognised. -/
  otherwise : InvokeSite → N
  unaryExpression : N
  takes_name : ∀ st ts out, tryInvoke st ts = some out →
    0 < out.taken ∧ ∃ t rest, ts = t :: rest ∧ macroName t = true
  injects : ∀ st ts out, tryInvoke st ts = some out → out.expansion ≠ [] → out.hasInject = true

/-- A recognised invocation: how many expansions enclose it, and the counter at that point. -/
structure Recognition where
  nesting : Nat
  depth : Nat
  deriving DecidableEq, Repr

/-- The parser at work.  The number beside a token ahead says how many expansions it comes from,
and `counted` holds the nestings of the expansions that are in `czetMacroExpandDepth`; the code
has neither. -/
structure ParserState (T N σ : Type) where
  stack : List (ParserFrame N)
  ahead : List (T × Nat)
  czetMacroExpandDepth : Nat
  counted : List Nat
  errors : List String
  recognised : List Recognition
  state : σ

variable {T N σ : Type}

def ParserState.start (unit : List T) (first : ParserCall N) (st : σ) : ParserState T N σ where
  stack := [.call first]
  ahead := unit.map (·, 0)
  czetMacroExpandDepth := 0
  counted := []
  errors := []
  recognised := []
  state := st

/-- The nesting of the first token ahead. -/
def ParserState.nesting (s : ParserState T N σ) : Nat :=
  match s.ahead with
  | [] => 0
  | (_, n) :: _ => n

/-- The expansion takes the place of the invocation. -/
def ParserState.inject (s : ParserState T N σ) (out : Invoked T σ) : ParserState T N σ :=
  let behind := s.ahead.drop out.taken
  { s with
    ahead := behind.take out.kept ++ (out.expansion.map (·, s.nesting + 1) ++
      behind.drop out.kept)
    recognised := s.recognised ++ [⟨s.nesting, s.czetMacroExpandDepth⟩]
    state := out.state }

/-- `czet_macro_expand_depth++` for an expansion of the given nesting, then the frames. -/
def ParserState.enter (s : ParserState T N σ) (nesting : Nat) (stack : List (ParserFrame N)) :
    ParserState T N σ :=
  { s with
    stack := stack
    czetMacroExpandDepth := s.czetMacroExpandDepth + 1
    counted := nesting :: s.counted }

def ParserState.tooDeep (s : ParserState T N σ) (stack : List (ParserFrame N)) :
    ParserState T N σ :=
  { s with stack := stack, errors := s.errors ++ ["macro expansion nested too deeply"] }

/-- What the four functions do behind a successful `c_czet_try_invoke`. -/
def ParserState.invoke (g : ParserRules T N σ) (s : ParserState T N σ)
    (rest : List (ParserFrame N)) (out : Invoked T σ) : InvokeSite → ParserState T N σ
  | .externalDeclaration =>
      if out.hasInject then
        if s.czetMacroExpandDepth < czetMacroMaxDepth then
          (s.inject out).enter (s.nesting + 1)
            (.call (.site .externalDeclaration) :: .leave (s.nesting + 1) :: rest)
        else (s.inject out).tooDeep rest
      else { s.inject out with stack := rest }
  | .compoundStatement =>
      -- the loop goes on in every case, and nothing takes the increment back
      if out.hasInject then
        if s.czetMacroExpandDepth < czetMacroMaxDepth then
          (s.inject out).enter (s.nesting + 1) (.call (.site .compoundStatement) :: rest)
        else (s.inject out).tooDeep (.call (.site .compoundStatement) :: rest)
      else { s.inject out with stack := .call (.site .compoundStatement) :: rest }
  | .statementAfterLabels =>
      if out.hasInject then
        if s.czetMacroExpandDepth < czetMacroMaxDepth then
          (s.inject out).enter (s.nesting + 1)
            (.call (.site .statementAfterLabels) :: .leave (s.nesting + 1) :: rest)
        else (s.inject out).tooDeep rest
      else { s.inject out with stack := rest }
  | .postfixExpression =>
      if s.czetMacroExpandDepth < czetMacroMaxDepth then
        (s.inject out).enter (s.nesting + 1)
          (.call (.rule g.unaryExpression) :: .leave (s.nesting + 1) :: rest)
      else (s.inject out).tooDeep rest

/-- One step of the parser; it stays where it is once nothing is left to parse. -/
def ParserState.step (g : ParserRules T N σ) (s : ParserState T N σ) : ParserState T N σ :=
  match s.stack with
  | [] => s
  | .leave nesting :: rest =>
      { s with
        stack := rest
        czetMacroExpandDepth := s.czetMacroExpandDepth - 1
        counted := s.counted.erase nesting }
  | .call (.rule n) :: rest =>
      let move := g.rule n s.state (s.ahead.map Prod.fst)
      { s with
        stack := move.calls.map .call ++ rest
        ahead := s.ahead.drop move.consumed
        state := move.state }
  | .call (.site site) :: rest =>
      match g.tryInvoke s.state (s.ahead.map Prod.fst) with
      | none => { s with stack := .call (.rule (g.otherwise site)) :: rest }
      | some out => s.invoke g rest out site

/-- The state after `n` steps. -/
def ParserState.run (g : ParserRules T N σ) (s : ParserState T N σ) : Nat → ParserState T N σ
  | 0 => s
  | n + 1 => (s.run g n).step g

theorem run_step (g : ParserRules T N σ) (s : ParserState T N σ) (n : Nat) :
    s.run g (n + 1) = (s.step g).run g n := by
  induction n with
  | zero => rfl
  | succ n ih => rw [ParserState.run, ih, ParserState.run]

theorem run_add (g : ParserRules T N σ) (s : ParserState T N σ) (m n : Nat) :
    s.run g (m + n) = (s.run g m).run g n := by
  induction n with
  | zero => rfl
  | succ n ih => rw [Nat.add_succ, ParserState.run, ih, ParserState.run]

theorem step_rule (g : ParserRules T N σ) {s : ParserState T N σ} {n : N}
    {rest : List (ParserFrame N)} (hstack : s.stack = .call (.rule n) :: rest)
    {move : ParserMove N σ} (hmove : g.rule n s.state (s.ahead.map Prod.fst) = move) :
    s.step g = { s with
      stack := move.calls.map .call ++ rest
      ahead := s.ahead.drop move.consumed
      state := move.state } := by
  simp only [ParserState.step, hstack, hmove]

theorem step_invoked (g : ParserRules T N σ) {s : ParserState T N σ} {site : InvokeSite}
    {rest : List (ParserFrame N)} (hstack : s.stack = .call (.site site) :: rest)
    {out : Invoked T σ} (htry : g.tryInvoke s.state (s.ahead.map Prod.fst) = some out) :
    s.step g = s.invoke g rest out site := by
  simp only [ParserState.step, hstack, htry]

theorem step_notInvoked (g : ParserRules T N σ) {s : ParserState T N σ} {site : InvokeSite}
    {rest : List (ParserFrame N)} (hstack : s.stack = .call (.site site) :: rest)
    (htry : g.tryInvoke s.state (s.ahead.map Prod.fst) = none) :
    s.step g = { s with stack := .call (.rule (g.otherwise site)) :: rest } := by
  simp only [ParserState.step, hstack, htry]

theorem step_leave (g : ParserRules T N σ) {s : ParserState T N σ} {nesting : Nat}
    {rest : List (ParserFrame N)} (hstack : s.stack = .leave nesting :: rest) :
    s.step g = { s with
      stack := rest
      czetMacroExpandDepth := s.czetMacroExpandDepth - 1
      counted := s.counted.erase nesting } := by
  simp only [ParserState.step, hstack]

/-- The nestings of the nested calls that are still running. -/
def runningCalls (stack : List (ParserFrame N)) : List Nat :=
  stack.filterMap fun
    | .leave nesting => some nesting
    | .call _ => none

@[simp] theorem runningCalls_call (c : ParserCall N) (stack : List (ParserFrame N)) :
    runningCalls (.call c :: stack) = runningCalls stack := rfl

@[simp] theorem runningCalls_leave (nesting : Nat) (stack : List (ParserFrame N)) :
    runningCalls (.leave nesting :: stack) = nesting :: runningCalls stack := rfl

@[simp] theorem runningCalls_calls (calls : List (ParserCall N)) (stack : List (ParserFrame N)) :
    runningCalls (calls.map .call ++ stack) = runningCalls stack := by
  induction calls with
  | nil => rfl
  | cons c calls ih => exact ih

/-- How an invocation changes the counter: it is counted, nothing was injected, or the cap is
reached. -/
inductive InvokeTally (s s' : ParserState T N σ) (out : Invoked T σ) : Prop
  | entered (hcap : s.czetMacroExpandDepth < czetMacroMaxDepth)
      (hdepth : s'.czetMacroExpandDepth = s.czetMacroExpandDepth + 1)
      (hcounted : s'.counted = (s.nesting + 1) :: s.counted) (herrors : s'.errors = s.errors)
      (hrunning : runningCalls s'.stack = runningCalls s.stack ∨
        runningCalls s'.stack = (s.nesting + 1) :: runningCalls s.stack)
  | empty (hinject : out.hasInject = false)
      (hdepth : s'.czetMacroExpandDepth = s.czetMacroExpandDepth)
      (hcounted : s'.counted = s.counted) (herrors : s'.errors = s.errors)
      (hrunning : runningCalls s'.stack = runningCalls s.stack)
  | tooDeep (hcap : ¬ s.czetMacroExpandDepth < czetMacroMaxDepth)
      (hdepth : s'.czetMacroExpandDepth = s.czetMacroExpandDepth)
      (hcounted : s'.counted = s.counted)
      (hrunning : runningCalls s'.stack = runningCalls s.stack)

/-- Everything a step can do. -/
inductive StepCase (g : ParserRules T N σ) (s s' : ParserState T N σ) : Prop
  | other (n : Nat) (hahead : s'.ahead = s.ahead.drop n) (hrec : s'.recognised = s.recognised)
      (hdepth : s'.czetMacroExpandDepth = s.czetMacroExpandDepth)
      (hcounted : s'.counted = s.counted) (herrors : s'.errors = s.errors)
      (hrunning : runningCalls s'.stack = runningCalls s.stack)
  | leave (nesting : Nat) (rest : List (ParserFrame N)) (hstack : s.stack = .leave nesting :: rest)
      (hs' : s' = { s with
        stack := rest
        czetMacroExpandDepth := s.czetMacroExpandDepth - 1
        counted := s.counted.erase nesting })
  | invoked (site : InvokeSite) (rest : List (ParserFrame N)) (out : Invoked T σ)
      (hstack : s.stack = .call (.site site) :: rest)
      (htry : g.tryInvoke s.state (s.ahead.map Prod.fst) = some out)
      (hahead : s'.ahead = (s.inject out).ahead) (hrec : s'.recognised = (s.inject out).recognised)
      (htally : InvokeTally s s' out)

private theorem invoke_tally (g : ParserRules T N σ) (s : ParserState T N σ)
    (rest : List (ParserFrame N)) (out : Invoked T σ) (site : InvokeSite)
    (hstack : s.stack = .call (.site site) :: rest) :
    (s.invoke g rest out site).ahead = (s.inject out).ahead ∧
      (s.invoke g rest out site).recognised = (s.inject out).recognised ∧
      InvokeTally s (s.invoke g rest out site) out := by
  have hrest : runningCalls s.stack = runningCalls rest := by rw [hstack, runningCalls_call]
  by_cases hcap : s.czetMacroExpandDepth < czetMacroMaxDepth
  · cases hinject : out.hasInject with
    | true =>
        cases site with
        | compoundStatement =>
            simp only [ParserState.invoke, hinject, hcap, if_true]
            exact ⟨rfl, rfl, .entered hcap rfl rfl rfl (.inl hrest.symm)⟩
        | externalDeclaration | statementAfterLabels | postfixExpression =>
            simp only [ParserState.invoke, hinject, hcap, if_true]
            refine ⟨rfl, rfl, .entered hcap rfl rfl rfl (.inr ?_)⟩
            rw [hrest]
            rfl
    | false =>
        cases site with
        | postfixExpression =>
            simp only [ParserState.invoke, hcap, if_true]
            refine ⟨rfl, rfl, .entered hcap rfl rfl rfl (.inr ?_)⟩
            rw [hrest]
            rfl
        | externalDeclaration | statementAfterLabels | compoundStatement =>
            simp only [ParserState.invoke, hinject, Bool.false_eq_true, if_false]
            exact ⟨trivial, trivial, .empty hinject rfl rfl rfl hrest.symm⟩
  · cases hinject : out.hasInject with
    | true =>
        cases site <;>
          simp only [ParserState.invoke, hinject, hcap, if_true, if_false] <;>
          exact ⟨rfl, rfl, .tooDeep hcap rfl rfl hrest.symm⟩
    | false =>
        cases site with
        | postfixExpression =>
            simp only [ParserState.invoke, hcap, if_false]
            exact ⟨rfl, rfl, .tooDeep hcap rfl rfl hrest.symm⟩
        | externalDeclaration | statementAfterLabels | compoundStatement =>
            simp only [ParserState.invoke, hinject, Bool.false_eq_true, if_false]
            exact ⟨trivial, trivial, .empty hinject rfl rfl rfl hrest.symm⟩

theorem step_cases (g : ParserRules T N σ) (s : ParserState T N σ) : StepCase g s (s.step g) := by
  unfold ParserState.step
  split
  · exact .other 0 rfl rfl rfl rfl rfl rfl
  · rename_i nesting rest hstack
    exact .leave nesting rest hstack rfl
  · rename_i n rest hstack
    refine .other _ rfl rfl rfl rfl rfl ?_
    simp only [hstack, runningCalls_calls, runningCalls_call]
  · rename_i site rest hstack
    split
    · refine .other 0 rfl rfl rfl rfl rfl ?_
      simp only [hstack, runningCalls_call]
    · rename_i out htry
      obtain ⟨hahead, hrec, htally⟩ := invoke_tally g s rest out site hstack
      exact .invoked site rest out hstack htry hahead hrec htally

private theorem ahead_of_invoked {g : ParserRules T N σ} {s : ParserState T N σ}
    {out : Invoked T σ} (htry : g.tryInvoke s.state (s.ahead.map Prod.fst) = some out) :
    0 < out.taken ∧ ∃ t rest, s.ahead = (t, s.nesting) :: rest ∧ g.macroName t = true := by
  obtain ⟨hpos, t, rest, hts, hname⟩ := g.takes_name _ _ _ htry
  cases hahead : s.ahead with
  | nil => simp [hahead] at hts
  | cons first tail =>
      simp only [hahead, List.map_cons, List.cons.injEq] at hts
      refine ⟨hpos, first.1, tail, ?_, hts.1 ▸ hname⟩
      simp only [ParserState.nesting, hahead]

section Ending

private theorem mem_inject_ahead {s : ParserState T N σ} {out : Invoked T σ} {t : T × Nat}
    (ht : t ∈ (s.inject out).ahead) :
    t ∈ s.ahead ∨ t.1 ∈ out.expansion ∧ t.2 = s.nesting + 1 := by
  simp only [ParserState.inject, List.mem_append, List.mem_map] at ht
  rcases ht with hkept | ⟨x, hx, rfl⟩ | hrest
  · exact .inl (List.mem_of_mem_drop (List.mem_of_mem_take hkept))
  · exact .inr ⟨hx, rfl⟩
  · exact .inl (List.mem_of_mem_drop (List.mem_of_mem_drop hrest))

/-- Nothing is nested deeper than the number of expansions that were made. -/
structure NestedByExpansion (s : ParserState T N σ) : Prop where
  ahead : ∀ t ∈ s.ahead, t.2 ≤ s.recognised.length
  recognised : ∀ e ∈ s.recognised, e.nesting ≤ s.recognised.length

private theorem nestedByExpansion_step (g : ParserRules T N σ) {s : ParserState T N σ}
    (h : NestedByExpansion s) : NestedByExpansion (s.step g) := by
  rcases step_cases g s with ⟨n, hahead, hrec, -⟩ | ⟨l, rest, -, hs'⟩ |
    ⟨site, rest, out, -, htry, hahead, hrec, -⟩
  · refine ⟨fun t ht => ?_, by rw [hrec]; exact h.recognised⟩
    rw [hahead] at ht
    rw [hrec]
    exact h.ahead t (List.mem_of_mem_drop ht)
  · rw [hs']
    exact ⟨h.ahead, h.recognised⟩
  · obtain ⟨-, t, tail, hfirst, -⟩ := ahead_of_invoked htry
    have hnest : s.nesting ≤ s.recognised.length :=
      h.ahead (t, s.nesting) (hfirst ▸ List.mem_cons_self)
    have hlen : (s.step g).recognised.length = s.recognised.length + 1 := by
      rw [hrec, ParserState.inject, List.length_append, List.length_singleton]
    constructor
    · intro u hu
      rw [hlen]
      rcases mem_inject_ahead (hahead ▸ hu) with hold | ⟨-, hnew⟩
      · exact (h.ahead u hold).trans (Nat.le_succ _)
      · omega
    · intro e he
      rw [hlen]
      rw [hrec, ParserState.inject, List.mem_append, List.mem_singleton] at he
      rcases he with hold | rfl
      · exact (h.recognised e hold).trans (Nat.le_succ _)
      · exact hnest.trans (Nat.le_succ _)

private theorem nestedByExpansion_run (g : ParserRules T N σ) (unit : List T)
    (first : ParserCall N) (st : σ) (n : Nat) :
    NestedByExpansion ((ParserState.start unit first st).run g n) := by
  induction n with
  | zero =>
      constructor
      · intro t ht
        obtain ⟨x, -, rfl⟩ := List.mem_map.mp ht
        exact Nat.zero_le _
      · intro e he
        exact absurd he List.not_mem_nil
  | succ n ih => exact nestedByExpansion_step g ih

/-- An expansion nested at most `k` deep replaces a token ahead by lighter ones, where a token
weighs the less the deeper it is nested. -/
private theorem descends_step (g : ParserRules T N σ) (s : ParserState T N σ) (k : Nat)
    (hk : ∀ e ∈ (s.step g).recognised, e.nesting ≤ k) :
    let weight : T × Nat → Nat := fun t => k + 1 - t.2
    (Lib.Cascade.weights weight (s.step g).ahead = Lib.Cascade.weights weight s.ahead ∨
        Multiset.IsDershowitzMannaLT (Lib.Cascade.weights weight (s.step g).ahead)
          (Lib.Cascade.weights weight s.ahead)) ∧
      ((s.step g).recognised.length = s.recognised.length ∨
        Multiset.IsDershowitzMannaLT (Lib.Cascade.weights weight (s.step g).ahead)
          (Lib.Cascade.weights weight s.ahead) ∧
        (s.step g).recognised.length = s.recognised.length + 1) := by
  intro weight
  rcases step_cases g s with ⟨n, hahead, hrec, -⟩ | ⟨l, rest, -, hs'⟩ |
    ⟨site, rest, out, -, htry, hahead, hrec, -⟩
  · rw [hahead, hrec]
    exact ⟨Lib.Cascade.weights_drop weight s.ahead n, .inl rfl⟩
  · rw [hs']
    exact ⟨.inl rfl, .inl rfl⟩
  · obtain ⟨hpos, t, tail, hfirst, -⟩ := ahead_of_invoked htry
    have hlen : (s.step g).recognised.length = s.recognised.length + 1 := by
      rw [hrec, ParserState.inject, List.length_append, List.length_singleton]
    have hnest : s.nesting ≤ k := by
      refine hk ⟨s.nesting, s.czetMacroExpandDepth⟩ ?_
      rw [hrec]
      exact List.mem_append_right _ List.mem_cons_self
    obtain ⟨n, hn⟩ : ∃ n, out.taken = n + 1 := ⟨out.taken - 1, by omega⟩
    have hperm : (s.step g).ahead.Perm (out.expansion.map (·, s.nesting + 1) ++
        ((t, s.nesting) :: tail).drop (n + 1)) := by
      rw [hahead, ParserState.inject, hfirst, hn]
      calc List.Perm _ _ := List.perm_append_comm_assoc _ _ _
        List.Perm _ _ := by rw [List.take_append_drop]
    have hdown : Multiset.IsDershowitzMannaLT (Lib.Cascade.weights weight (s.step g).ahead)
        (Lib.Cascade.weights weight s.ahead) := by
      rw [hfirst]
      refine Lib.Cascade.weights_replace weight hperm ?_
      intro x hx
      obtain ⟨y, -, rfl⟩ := List.mem_map.mp hx
      show k + 1 - (s.nesting + 1) < k + 1 - s.nesting
      omega
    exact ⟨.inr hdown, .inr ⟨hdown, hlen⟩⟩

/-- Whatever the rest of the parser does, it expands finitely many invocations if and only if
the expansions it makes are nested to a bounded depth. -/
theorem expansion_ends_iff (g : ParserRules T N σ) (unit : List T) (first : ParserCall N)
    (st : σ) :
    (∃ bound, ∀ n, ((ParserState.start unit first st).run g n).recognised.length ≤ bound) ↔
      ∃ k, ∀ n, ∀ e ∈ ((ParserState.start unit first st).run g n).recognised, e.nesting ≤ k := by
  constructor
  · rintro ⟨bound, hbound⟩
    refine ⟨bound, ?_⟩
    intro n e he
    exact ((nestedByExpansion_run g unit first st n).recognised e he).trans (hbound n)
  · rintro ⟨k, hk⟩
    have hstep : ∀ n, Lib.Cascade.Descends Multiset.IsDershowitzMannaLT
        (fun n => Lib.Cascade.weights (fun t => k + 1 - t.2)
          ((ParserState.start unit first st).run g n).ahead)
        (fun n => ((ParserState.start unit first st).run g n).recognised.length) n := by
      intro n
      obtain ⟨hlowers, hcounts⟩ := descends_step g _ k (hk (n + 1))
      exact ⟨hlowers, hcounts⟩
    exact Lib.Cascade.count_bounded Multiset.wellFounded_isDershowitzMannaLT hstep

theorem ranked_macros_end (g : ParserRules T N σ) (rank : T → Nat)
    (hrank : ∀ st t rest out, g.tryInvoke st (t :: rest) = some out →
      ∀ u ∈ out.expansion, g.macroName u = true → rank u < rank t)
    (unit : List T) (first : ParserCall N) (st : σ) :
    ∃ bound, ∀ n, ((ParserState.start unit first st).run g n).recognised.length ≤ bound := by
  obtain ⟨top, htop⟩ : ∃ top, ∀ t ∈ unit, rank t ≤ top :=
    ⟨(unit.map rank).sum, fun t ht => List.le_sum_of_mem (List.mem_map_of_mem ht)⟩
  -- a macro name of rank `r` is nested at most `top - r` deep
  have hinv : ∀ n, (∀ t ∈ ((ParserState.start unit first st).run g n).ahead,
        g.macroName t.1 = true → t.2 + rank t.1 ≤ top) ∧
      ∀ e ∈ ((ParserState.start unit first st).run g n).recognised, e.nesting ≤ top := by
    intro n
    induction n with
    | zero =>
        constructor
        · intro t ht _
          obtain ⟨x, hx, rfl⟩ := List.mem_map.mp ht
          simpa using htop x hx
        · intro e he
          exact absurd he List.not_mem_nil
    | succ n ih =>
        obtain ⟨hahead₀, hrec₀⟩ := ih
        rcases step_cases g ((ParserState.start unit first st).run g n) with
          ⟨k, hahead, hrec, -⟩ | ⟨l, rest, -, hs'⟩ | ⟨site, rest, out, -, htry, hahead, hrec, -⟩
        · refine ⟨?_, by rw [ParserState.run, hrec]; exact hrec₀⟩
          intro t ht
          rw [ParserState.run, hahead] at ht
          exact hahead₀ t (List.mem_of_mem_drop ht)
        · rw [ParserState.run, hs']
          exact ⟨hahead₀, hrec₀⟩
        · obtain ⟨-, t, tail, hfirst, hname⟩ := ahead_of_invoked htry
          have hnest := hahead₀ _ (hfirst ▸ List.mem_cons_self) hname
          rw [hfirst, List.map_cons] at htry
          constructor
          · intro u hu huname
            rw [ParserState.run, hahead] at hu
            rcases mem_inject_ahead hu with hold | ⟨hmem, hlevel⟩
            · exact hahead₀ u hold huname
            · have hlt := hrank _ _ _ _ htry u.1 hmem huname
              simp only at hnest hlt
              omega
          · intro e he
            rw [ParserState.run, hrec, ParserState.inject, List.mem_append,
              List.mem_singleton] at he
            rcases he with hold | rfl
            · exact hrec₀ e hold
            · simp only at hnest ⊢
              omega
  exact (expansion_ends_iff g unit first st).mpr ⟨top, fun n => (hinv n).2⟩

end Ending

section Counting

/-- The condition on an invocation: every expansion in the counter encloses it, and at the cap
its own expansion holds no further macro name. -/
def InvokedInside (g : ParserRules T N σ) (s : ParserState T N σ) : Option (Invoked T σ) → Prop
  | none => True
  | some out =>
      (∀ n ∈ s.counted, n ≤ s.nesting) ∧
        (s.czetMacroExpandDepth < czetMacroMaxDepth ∨ ∀ t ∈ out.expansion, g.macroName t = false)

/-- The condition on the state before a step.  When a nested call returns, no macro name of the
expansion it was made for is still ahead; when an invocation is recognised, it is inside. -/
def CountsEnclosing (g : ParserRules T N σ) (s : ParserState T N σ) : Prop :=
  match s.stack with
  | .leave nesting :: _ => ∀ t ∈ s.ahead, g.macroName t.1 = true → t.2 < nesting
  | .call (.site _) :: _ =>
      InvokedInside g s (g.tryInvoke s.state (s.ahead.map Prod.fst))
  | _ => True

instance (g : ParserRules T N σ) (s : ParserState T N σ) :
    (out : Option (Invoked T σ)) → Decidable (InvokedInside g s out)
  | none => inferInstanceAs (Decidable True)
  | some out => inferInstanceAs (Decidable ((∀ n ∈ s.counted, n ≤ s.nesting) ∧
      (s.czetMacroExpandDepth < czetMacroMaxDepth ∨
        ∀ t ∈ out.expansion, g.macroName t = false)))

instance (g : ParserRules T N σ) :
    (s : ParserState T N σ) → Decidable (CountsEnclosing g s)
  | ⟨[], _, _, _, _, _, _⟩ => inferInstanceAs (Decidable True)
  | ⟨.leave nesting :: _, ahead, _, _, _, _, _⟩ =>
      inferInstanceAs (Decidable (∀ t ∈ ahead, g.macroName t.1 = true → t.2 < nesting))
  | ⟨.call (.site c) :: rest, ahead, depth, counted, errors, recognised, st⟩ =>
      inferInstanceAs (Decidable (InvokedInside g
        ⟨.call (.site c) :: rest, ahead, depth, counted, errors, recognised, st⟩
        (g.tryInvoke st (ahead.map Prod.fst))))
  | ⟨.call (.rule _) :: _, _, _, _, _, _, _⟩ => inferInstanceAs (Decidable True)

/-- The counter holds the expansions that enclose the macro names ahead. -/
structure Tallied (g : ParserRules T N σ) (s : ParserState T N σ) : Prop where
  depth : s.czetMacroExpandDepth = s.counted.length
  nodup : s.counted.Nodup
  positive : ∀ n ∈ s.counted, 1 ≤ n
  encloses : ∀ t ∈ s.ahead, g.macroName t.1 = true → ∀ n, 1 ≤ n → n ≤ t.2 → n ∈ s.counted
  running : ∀ n ∈ runningCalls s.stack, n ∈ s.counted
  running_nodup : (runningCalls s.stack).Nodup
  recognised : ∀ e ∈ s.recognised, e.depth = e.nesting
  errors : (∀ e ∈ s.recognised, e.nesting < czetMacroMaxDepth) → s.errors = []

private theorem tallied_start (g : ParserRules T N σ) (unit : List T) (first : ParserCall N)
    (st : σ) : Tallied g (ParserState.start unit first st) where
  depth := rfl
  nodup := List.nodup_nil
  positive n hn := absurd hn List.not_mem_nil
  encloses t ht _ n hpos hn := by
    obtain ⟨x, -, rfl⟩ := List.mem_map.mp ht
    simp only at hn
    omega
  running n hn := absurd hn List.not_mem_nil
  running_nodup := List.nodup_nil
  recognised e he := absurd he List.not_mem_nil
  errors _ := rfl

/-- At an invocation the counted expansions are exactly those that enclose it. -/
private theorem tallied_depth {g : ParserRules T N σ} {s : ParserState T N σ} (h : Tallied g s)
    {t : T} {tail : List (T × Nat)} (hfirst : s.ahead = (t, s.nesting) :: tail)
    (hname : g.macroName t = true) (hcounted : ∀ n ∈ s.counted, n ≤ s.nesting) :
    s.czetMacroExpandDepth = s.nesting := by
  have hmem : ∀ n, n ∈ s.counted ↔ n ∈ List.range' 1 s.nesting := by
    intro n
    rw [List.mem_range'_1]
    constructor
    · intro hn
      have hpos := h.positive n hn
      have hle := hcounted n hn
      omega
    · rintro ⟨hpos, hlt⟩
      exact h.encloses _ (hfirst ▸ List.mem_cons_self) hname n hpos (by omega)
  have hperm := (List.perm_ext_iff_of_nodup h.nodup List.nodup_range').mpr hmem
  rw [h.depth, hperm.length_eq, List.length_range']

private theorem tallied_leave {g : ParserRules T N σ} {s : ParserState T N σ} (h : Tallied g s)
    {nesting : Nat} {rest : List (ParserFrame N)} (hstack : s.stack = .leave nesting :: rest)
    (hdone : ∀ t ∈ s.ahead, g.macroName t.1 = true → t.2 < nesting) :
    Tallied g { s with
      stack := rest
      czetMacroExpandDepth := s.czetMacroExpandDepth - 1
      counted := s.counted.erase nesting } := by
  have hrunning := h.running
  have hnodup := h.running_nodup
  rw [hstack, runningCalls_leave] at hrunning hnodup
  obtain ⟨hfresh, hrest⟩ := List.nodup_cons.mp hnodup
  have hmem : nesting ∈ s.counted := hrunning nesting List.mem_cons_self
  constructor
  · show s.czetMacroExpandDepth - 1 = (s.counted.erase nesting).length
    rw [List.length_erase_of_mem hmem, h.depth]
  · exact h.nodup.erase nesting
  · exact fun n hn => h.positive n (List.mem_of_mem_erase hn)
  · intro t ht hname n hpos hn
    have hlt := hdone t ht hname
    exact (List.mem_erase_of_ne (by omega)).mpr (h.encloses t ht hname n hpos hn)
  · intro n hn
    have hne : n ≠ nesting := fun heq => hfresh (heq ▸ hn)
    exact (List.mem_erase_of_ne hne).mpr (hrunning n (List.mem_cons_of_mem _ hn))
  · exact hrest
  · exact h.recognised
  · exact h.errors

private theorem tallied_invoked {g : ParserRules T N σ} {s s' : ParserState T N σ}
    (h : Tallied g s) {out : Invoked T σ}
    (htry : g.tryInvoke s.state (s.ahead.map Prod.fst) = some out)
    (hahead : s'.ahead = (s.inject out).ahead) (hrec : s'.recognised = (s.inject out).recognised)
    (htally : InvokeTally s s' out) (hcounted : ∀ n ∈ s.counted, n ≤ s.nesting)
    (hcap : s.czetMacroExpandDepth < czetMacroMaxDepth ∨
      ∀ t ∈ out.expansion, g.macroName t = false) : Tallied g s' := by
  obtain ⟨-, t, tail, hfirst, hname⟩ := ahead_of_invoked htry
  have hdepth := tallied_depth h hfirst hname hcounted
  have hnew : ∀ e ∈ s'.recognised, e ∈ s.recognised ∨ e = ⟨s.nesting, s.czetMacroExpandDepth⟩ := by
    intro e he
    rw [hrec, ParserState.inject, List.mem_append, List.mem_singleton] at he
    exact he
  have hlast : (⟨s.nesting, s.czetMacroExpandDepth⟩ : Recognition) ∈ s'.recognised := by
    rw [hrec]
    exact List.mem_append_right _ List.mem_cons_self
  have hold : ∀ e ∈ s.recognised, e ∈ s'.recognised := by
    intro e he
    rw [hrec]
    exact List.mem_append_left _ he
  have hrecognised : ∀ e ∈ s'.recognised, e.depth = e.nesting := by
    intro e he
    rcases hnew e he with he | rfl
    · exact h.recognised e he
    · exact hdepth
  have hfresh : s.nesting + 1 ∉ s.counted := fun hmem => by
    have := hcounted _ hmem
    omega
  cases htally with
  | entered _ hd hc he hr =>
      refine ⟨by rw [hd, hc, h.depth, List.length_cons], by rw [hc]; exact h.nodup.cons hfresh,
        ?_, ?_, ?_, ?_, hrecognised, fun hlt => he.trans (h.errors fun e he => hlt e (hold e he))⟩
      · rw [hc]
        intro n hn
        rcases List.mem_cons.mp hn with rfl | hn
        · omega
        · exact h.positive n hn
      · rw [hc, hahead]
        intro u hu huname n hpos hn
        rcases mem_inject_ahead hu with hmem | ⟨-, hlevel⟩
        · exact List.mem_cons_of_mem _ (h.encloses u hmem huname n hpos hn)
        · by_cases heq : n = s.nesting + 1
          · exact heq ▸ List.mem_cons_self
          · refine List.mem_cons_of_mem _ ?_
            exact h.encloses _ (hfirst ▸ List.mem_cons_self) hname n hpos (by simp only; omega)
      · rw [hc]
        intro n hn
        rcases hr with hr | hr
        · exact List.mem_cons_of_mem _ (h.running n (hr ▸ hn))
        · rw [hr] at hn
          rcases List.mem_cons.mp hn with rfl | hn
          · exact List.mem_cons_self
          · exact List.mem_cons_of_mem _ (h.running n hn)
      · rcases hr with hr | hr
        · rw [hr]
          exact h.running_nodup
        · rw [hr]
          exact h.running_nodup.cons fun hmem => hfresh (h.running _ hmem)
  | empty hinject hd hc he hr =>
      have hexp : out.expansion = [] := by
        by_contra hne
        exact absurd (g.injects _ _ _ htry hne) (by simp [hinject])
      refine ⟨by rw [hd, hc, h.depth], hc ▸ h.nodup, hc ▸ h.positive, ?_, ?_, hr ▸ h.running_nodup,
        hrecognised, fun hlt => he.trans (h.errors fun e he => hlt e (hold e he))⟩
      · rw [hc, hahead]
        intro u hu
        rcases mem_inject_ahead hu with hmem | ⟨hmem, -⟩
        · exact h.encloses u hmem
        · simp [hexp] at hmem
      · rw [hc, hr]
        exact h.running
  | tooDeep hcap' hd hc hr =>
      refine ⟨by rw [hd, hc, h.depth], hc ▸ h.nodup, hc ▸ h.positive, ?_, ?_, hr ▸ h.running_nodup,
        hrecognised, ?_⟩
      · rw [hc, hahead]
        intro u hu huname
        rcases mem_inject_ahead hu with hmem | ⟨hmem, -⟩
        · exact h.encloses u hmem huname
        · exact absurd huname (by simp [hcap.resolve_left hcap' u.1 hmem])
      · rw [hc, hr]
        exact h.running
      · -- the counter is at the cap, and so is the nesting
        intro hlt
        have hnest : s.nesting < czetMacroMaxDepth := hlt _ hlast
        exact absurd (hdepth ▸ hnest) hcap'

private theorem tallied_step {g : ParserRules T N σ} {s : ParserState T N σ} (h : Tallied g s)
    (hcounts : CountsEnclosing g s) : Tallied g (s.step g) := by
  rcases step_cases g s with ⟨n, hahead, hrec, hd, hc, he, hr⟩ | ⟨l, rest, hstack, hs'⟩ |
    ⟨site, rest, out, hstack, htry, hahead, hrec, htally⟩
  · refine ⟨by rw [hd, hc, h.depth], hc ▸ h.nodup, hc ▸ h.positive, ?_, ?_, hr ▸ h.running_nodup,
      hrec ▸ h.recognised, by rw [hrec, he]; exact h.errors⟩
    · rw [hc, hahead]
      exact fun t ht => h.encloses t (List.mem_of_mem_drop ht)
    · rw [hc, hr]
      exact h.running
  · rw [hs']
    simp only [CountsEnclosing, hstack] at hcounts
    exact tallied_leave h hstack hcounts
  · simp only [CountsEnclosing, hstack, htry, InvokedInside] at hcounts
    exact tallied_invoked h htry hahead hrec htally hcounts.1 hcounts.2

/-- In a run all of whose steps meet the condition, the counter is the nesting wherever an
invocation is recognised, and no error is reported while the nesting stays below the cap. -/
theorem depth_counts_nesting (g : ParserRules T N σ) (unit : List T) (first : ParserCall N)
    (st : σ) (n : Nat)
    (hcounts : ∀ i < n, CountsEnclosing g ((ParserState.start unit first st).run g i)) :
    (∀ e ∈ ((ParserState.start unit first st).run g n).recognised, e.depth = e.nesting) ∧
      ((∀ e ∈ ((ParserState.start unit first st).run g n).recognised,
          e.nesting < czetMacroMaxDepth) →
        ((ParserState.start unit first st).run g n).errors = []) := by
  have htallied : Tallied g ((ParserState.start unit first st).run g n) := by
    induction n with
    | zero => exact tallied_start g unit first st
    | succ n ih =>
        exact tallied_step (ih fun i hi => hcounts i (by omega)) (hcounts n (by omega))
  exact ⟨htallied.recognised, htallied.errors⟩

end Counting

section TokenRules

/-- The argument list of an invocation, the number of its tokens, and the number of tokens that
stay looked ahead: behind a bare name the token that was peeked stays in front. -/
def invocationForm (name : CToken) : List CToken → Option (List CToken × Nat × Nat)
  | [] => some ([name], 1, 1)
  | less :: body =>
      if less.type = .less then
        (closeAngle 1 0 body).map fun n => (name :: body.take (n - 1), n + 2, 0)
      else some ([name], 1, 1)

/-- `c_czet_try_invoke` on the tokens ahead of a parser that has looked ahead at nothing. -/
def invokeAhead (macros : CzetMacroMap) (gen : Nat) : List CToken → Option (Invoked CToken Nat)
  | [] => none
  | name :: rest => do
      let mac ← invocable macros name
      let (args, taken, kept) ← invocationForm name rest
      let (exp, gen', _) ← (expandArms mac.params args gen mac.arms).join
      pure ⟨taken, kept, exp, !exp.isEmpty, gen'⟩

private theorem invocationForm_taken {name : CToken} {rest args : List CToken} {taken kept : Nat}
    (h : invocationForm name rest = some (args, taken, kept)) : 0 < taken := by
  unfold invocationForm at h
  split at h
  · simp only [Option.some.injEq, Prod.mk.injEq] at h
    omega
  · split at h
    · simp only [Option.map_eq_some_iff, Prod.mk.injEq] at h
      obtain ⟨n, -, -, rfl, -⟩ := h
      omega
    · simp only [Option.some.injEq, Prod.mk.injEq] at h
      omega

private theorem invokeAhead_some {macros : CzetMacroMap} {gen : Nat} {ts : List CToken}
    {out : Invoked CToken Nat} (h : invokeAhead macros gen ts = some out) :
    ∃ name rest, ts = name :: rest ∧ (invocable macros name).isSome = true ∧ 0 < out.taken ∧
      out.hasInject = !out.expansion.isEmpty := by
  cases ts with
  | nil => simp [invokeAhead] at h
  | cons name rest =>
      simp only [invokeAhead, Option.bind_eq_bind, Option.bind_eq_some_iff, Option.pure_def,
        Option.some.injEq] at h
      obtain ⟨mac, hmac, ⟨args, taken, kept⟩, hform, ⟨exp, gen', errors⟩, -, rfl⟩ := h
      exact ⟨name, rest, rfl, Option.isSome_of_eq_some hmac, invocationForm_taken hform, rfl⟩

/-- The token of a keyword; the code is not read. -/
def keywordToken (spelling : String) : CToken :=
  { type := .keyword, keyword := 1, value := .identifier spelling }

/-- The functions of a parser for units whose declarations and statements are read up to their
`;`, and whose function definitions are read up to their `{`. -/
inductive UnitRule
  | translationUnit | declaration | block | statement
  deriving DecidableEq, Repr

/-- The number of tokens through the first `;` or `{`. -/
def throughEnd (ts : List CToken) : Nat :=
  (ts.takeWhile fun t => decide (t.type ≠ .semicolon) && decide (t.type ≠ .openBrace)).length + 1

def unitRule (rule : UnitRule) (gen : Nat) (ts : List CToken) : ParserMove UnitRule Nat :=
  match rule with
  | .translationUnit =>
      ⟨0, if ts.isEmpty then [] else [.site .externalDeclaration, .rule .translationUnit], gen⟩
  | .declaration =>
      ⟨throughEnd ts, if (ts[throughEnd ts - 1]?).any fun t => decide (t.type = .openBrace)
        then [.site .compoundStatement] else [], gen⟩
  | .block =>
      if (ts.head?).all fun t => decide (t.type = .closeBrace) then ⟨1, [], gen⟩
      else ⟨0, [.site .statementAfterLabels, .site .compoundStatement], gen⟩
  | .statement => ⟨throughEnd ts, [], gen⟩

def unitRules (macros : CzetMacroMap) : ParserRules CToken UnitRule Nat where
  macroName t := (invocable macros t).isSome
  tryInvoke := invokeAhead macros
  rule := unitRule
  otherwise
    | .externalDeclaration => .declaration
    | .compoundStatement => .block
    | .statementAfterLabels | .postfixExpression => .statement
  unaryExpression := .statement
  takes_name gen ts out h := by
    obtain ⟨name, rest, rfl, hname, hpos, -⟩ := invokeAhead_some h
    exact ⟨hpos, name, rest, rfl, hname⟩
  injects gen ts out h hne := by
    obtain ⟨-, -, -, -, -, hinject⟩ := invokeAhead_some h
    simpa [hinject] using hne

/-- `_Macro M< $a: ident > { ( M $a ) { int $a ; M < $a > } };`. -/
def endlessMacro : CMacroDef where
  name := "M"
  params := [{ name := "$a", kind := .ident }]
  arms := [{ pattern := [nameToken "M", nameToken "$a"]
             expansion := [keywordToken "int", nameToken "$a", punctToken .semicolon,
               nameToken "M", punctToken .less, nameToken "$a", punctToken .greater]
             patternTree := some [.tok (nameToken "M"), .cap 0]
             expansionTree := some [.tok (keywordToken "int"), .cap 0, .tok (punctToken .semicolon),
               .tok (nameToken "M"), .tok (punctToken .less), .cap 0,
               .tok (punctToken .greater)] }]

/-- `M < x >`. -/
def invocationOfM : List CToken :=
  [nameToken "M", punctToken .less, nameToken "x", punctToken .greater]

private def beforeEndless (nesting : Nat) (recognised : List Recognition) :
    ParserState CToken UnitRule Nat where
  stack := [.call (.rule .translationUnit)]
  ahead := invocationOfM.map (·, nesting)
  czetMacroExpandDepth := 0
  counted := []
  errors := []
  recognised := recognised
  state := 0

/-- `int x ;`. -/
private def declarationOfX : List CToken :=
  [keywordToken "int", nameToken "x", punctToken .semicolon]

private theorem invokeAhead_endless :
    invokeAhead [("M", endlessMacro)] 0 invocationOfM =
      some ⟨4, 0, declarationOfX ++ invocationOfM, true, 0⟩ := by
  decide +kernel

private theorem endless_round (nesting : Nat) (recognised : List Recognition) :
    (beforeEndless nesting recognised).run (unitRules [("M", endlessMacro)]) 5 =
      beforeEndless (nesting + 1) (recognised ++ [⟨nesting, 0⟩]) := by
  have hnone : invokeAhead [("M", endlessMacro)] 0 (declarationOfX ++ invocationOfM) = none := by
    decide +kernel
  have hrule : unitRule .declaration 0 (declarationOfX ++ invocationOfM) = ⟨3, [], 0⟩ := by
    decide +kernel
  have hcap : (beforeEndless nesting recognised).czetMacroExpandDepth < czetMacroMaxDepth :=
    Nat.zero_lt_succ 199
  have hunit : unitRule .translationUnit 0 invocationOfM =
      ⟨0, [.site .externalDeclaration, .rule .translationUnit], 0⟩ := by
    decide
  rw [run_step, step_rule _ rfl hunit, run_step, step_invoked _ rfl invokeAhead_endless,
    ParserState.invoke, if_pos rfl, if_pos hcap, run_step, step_notInvoked _ rfl hnone, run_step,
    step_rule _ rfl hrule, run_step, step_leave _ rfl]
  have herase : List.erase [nesting + 1] (nesting + 1) = [] := List.erase_cons_head _ _
  exact congrArg (fun counted => { beforeEndless (nesting + 1) (recognised ++ [⟨nesting, 0⟩]) with
    counted := counted }) herase

/-- At file scope `M < x >` is expanded for ever. -/
theorem endless_macro_never_ends :
    ¬ ∃ bound, ∀ n, ((ParserState.start invocationOfM (.rule .translationUnit) 0).run
      (unitRules [("M", endlessMacro)]) n).recognised.length ≤ bound := by
  have hrounds : ∀ n, ∃ nesting recognised, recognised.length = n ∧
      (ParserState.start invocationOfM (.rule .translationUnit) 0).run
        (unitRules [("M", endlessMacro)]) (5 * n) = beforeEndless nesting recognised := by
    intro n
    induction n with
    | zero => exact ⟨0, [], rfl, rfl⟩
    | succ n ih =>
        obtain ⟨nesting, recognised, hlen, hrun⟩ := ih
        refine ⟨nesting + 1, recognised ++ [⟨nesting, 0⟩], by simp [hlen], ?_⟩
        rw [Nat.mul_succ, run_add, hrun, endless_round]
  rintro ⟨bound, hbound⟩
  obtain ⟨nesting, recognised, hlen, hrun⟩ := hrounds (bound + 1)
  have hle := hbound (5 * (bound + 1))
  rw [hrun] at hle
  have hcount : recognised.length ≤ bound := hle
  omega

/-- `M < x > ... M < x > }` with `n` invocations. -/
def invocationsOfM (n : Nat) : List CToken :=
  (List.replicate n invocationOfM).flatten ++ [punctToken .closeBrace]

/-- `int f ( ) { M < x > ... M < x > }` with `n` invocations. -/
def functionOfInvocations (n : Nat) : List CToken :=
  [keywordToken "int", nameToken "f", punctToken .openParen, punctToken .closeParen,
    punctToken .openBrace] ++ invocationsOfM n

private theorem invocationsOfM_succ (n : Nat) :
    invocationsOfM (n + 1) = invocationOfM ++ invocationsOfM n := by
  simp only [invocationsOfM, List.replicate_succ, List.flatten_cons, List.append_assoc]

private def statementOfX : List CToken := [nameToken "x", punctToken .semicolon]

private theorem invokeAhead_statement (rest : List CToken) :
    invokeAhead [("M", statementMacro)] 0 (invocationOfM ++ rest) =
      some ⟨4, 0, statementOfX, true, 0⟩ := by
  have hmac : invocable [("M", statementMacro)] (nameToken "M") = some statementMacro := rfl
  have hform : invocationForm (nameToken "M")
      (punctToken .less :: nameToken "x" :: punctToken .greater :: rest) =
      some ([nameToken "M", nameToken "x"], 4, 0) := rfl
  have harms : (expandArms statementMacro.params [nameToken "M", nameToken "x"] 0
      statementMacro.arms).join = some (statementOfX, 0, []) := by
    decide +kernel
  simp only [invocationOfM, List.cons_append, List.nil_append, invokeAhead, hmac, hform, harms,
    Option.bind_eq_bind, Option.bind_some, Option.pure_def]
  rfl

private def beforeStatements (depth n : Nat) (recognised : List Recognition) :
    ParserState CToken UnitRule Nat where
  stack := [.call (.site .compoundStatement), .call (.rule .translationUnit)]
  ahead := (invocationsOfM n).map (·, 0)
  czetMacroExpandDepth := depth
  counted := List.replicate depth 1
  errors := []
  recognised := recognised
  state := 0

private def insideStatement (depth n : Nat) (recognised : List Recognition) :
    ParserState CToken UnitRule Nat :=
  { beforeStatements depth n recognised with
    ahead := statementOfX.map (·, 1) ++ (invocationsOfM n).map (·, 0) }

private theorem map_fst_level (ts : List CToken) (n : Nat) :
    (ts.map (·, n)).map Prod.fst = ts := by
  rw [List.map_map]
  exact List.map_id ts

private theorem invoke_statements (depth n : Nat) (recognised : List Recognition) :
    (beforeStatements depth (n + 1) recognised).step (unitRules [("M", statementMacro)]) =
      (beforeStatements depth (n + 1) recognised).invoke (unitRules [("M", statementMacro)])
        [.call (.rule .translationUnit)] ⟨4, 0, statementOfX, true, 0⟩ .compoundStatement := by
  refine step_invoked _ rfl ?_
  show invokeAhead _ 0 (((invocationsOfM (n + 1)).map (·, 0)).map Prod.fst) = _
  rw [map_fst_level, invocationsOfM_succ, invokeAhead_statement]

private theorem statement_read (depth n : Nat) (recognised : List Recognition) :
    (insideStatement depth n recognised).run (unitRules [("M", statementMacro)]) 4 =
      beforeStatements depth n recognised := by
  have hahead : (insideStatement depth n recognised).ahead.map Prod.fst =
      statementOfX ++ invocationsOfM n := by
    simp only [insideStatement, List.map_append, map_fst_level]
  have hnone : (unitRules [("M", statementMacro)]).tryInvoke 0
      ((insideStatement depth n recognised).ahead.map Prod.fst) = none := by
    rw [hahead]
    rfl
  have hblock : (unitRules [("M", statementMacro)]).rule .block 0
      ((insideStatement depth n recognised).ahead.map Prod.fst) =
      ⟨0, [.site .statementAfterLabels, .site .compoundStatement], 0⟩ := by
    rw [hahead]
    rfl
  have hstatement : (unitRules [("M", statementMacro)]).rule .statement 0
      ((insideStatement depth n recognised).ahead.map Prod.fst) = ⟨2, [], 0⟩ := by
    rw [hahead]
    rfl
  rw [run_step, step_notInvoked _ rfl hnone, run_step, step_rule _ rfl hblock, run_step,
    step_notInvoked _ rfl hnone, run_step, step_rule _ rfl hstatement]
  rfl

private theorem statements_round (depth n : Nat) (recognised : List Recognition)
    (hcap : depth < czetMacroMaxDepth) :
    (beforeStatements depth (n + 1) recognised).run (unitRules [("M", statementMacro)]) 5 =
      beforeStatements (depth + 1) n (recognised ++ [⟨0, depth⟩]) := by
  have hcap' : (beforeStatements depth (n + 1) recognised).czetMacroExpandDepth <
      czetMacroMaxDepth := hcap
  have hinvoke : (beforeStatements depth (n + 1) recognised).step
      (unitRules [("M", statementMacro)]) =
      insideStatement (depth + 1) n (recognised ++ [⟨0, depth⟩]) := by
    rw [invoke_statements, ParserState.invoke, if_pos rfl, if_pos hcap']
    rfl
  rw [run_step, hinvoke, statement_read]

private theorem statements_rounds (n : Nat) (hn : n ≤ czetMacroMaxDepth) (rest : Nat) :
    ∃ recognised, (∀ e ∈ recognised, e.nesting = 0) ∧
      (beforeStatements 0 (n + rest) []).run (unitRules [("M", statementMacro)]) (5 * n) =
        beforeStatements n rest recognised := by
  induction n generalizing rest with
  | zero =>
      refine ⟨[], fun e he => absurd he List.not_mem_nil, ?_⟩
      rw [Nat.zero_add]
      rfl
  | succ n ih =>
      obtain ⟨recognised, hzero, hrun⟩ := ih (by omega) (rest + 1)
      refine ⟨recognised ++ [⟨0, n⟩], ?_, ?_⟩
      · intro e he
        rcases List.mem_append.mp he with he | he
        · exact hzero e he
        · rw [List.mem_singleton.mp he]
      · rw [Nat.mul_succ, run_add, show n + 1 + rest = n + (rest + 1) by omega, hrun,
          statements_round n rest recognised (by omega)]

/-- The 201st invocation in a function body is refused, though no expansion encloses another. -/
theorem sequential_invocations_too_deep :
    ∃ n, (∀ e ∈ ((ParserState.start (functionOfInvocations 201) (.rule .translationUnit) 0).run
        (unitRules [("M", statementMacro)]) n).recognised, e.nesting = 0) ∧
      ((ParserState.start (functionOfInvocations 201) (.rule .translationUnit) 0).run
        (unitRules [("M", statementMacro)]) n).errors = ["macro expansion nested too deeply"] := by
  obtain ⟨recognised, hzero, hrun⟩ := statements_rounds 200 le_rfl 1
  have hstart : (ParserState.start (functionOfInvocations 201) (.rule .translationUnit) 0).run
      (unitRules [("M", statementMacro)]) 3 = beforeStatements 0 201 [] := by
    rw [run_step, step_rule _ rfl rfl, run_step, step_notInvoked _ rfl rfl, run_step,
      step_rule _ rfl rfl]
    rfl
  have hcap : ¬ (beforeStatements 200 1 recognised).czetMacroExpandDepth < czetMacroMaxDepth :=
    Nat.lt_irrefl 200
  have hlast : (ParserState.start (functionOfInvocations 201) (.rule .translationUnit) 0).run
      (unitRules [("M", statementMacro)]) (3 + 5 * 200 + 1) =
      ((beforeStatements 200 1 recognised).inject ⟨4, 0, statementOfX, true, 0⟩).tooDeep
        [.call (.site .compoundStatement), .call (.rule .translationUnit)] := by
    rw [run_add, run_add, hstart, hrun, run_step, invoke_statements, ParserState.invoke,
      if_pos rfl, if_neg hcap]
    rfl
  refine ⟨3 + 5 * 200 + 1, ?_, ?_⟩
  · rw [hlast]
    intro e he
    rcases List.mem_append.mp he with he | he
    · exact hzero e he
    · rw [List.mem_singleton.mp he]
      rfl
  · rw [hlast]
    rfl

/-- `M < x >` is `N < x >`, and `N < x >` is `int x ;`. -/
private def chainedMacros : CzetMacroMap :=
  [("M", { name := "M", params := [{ name := "$a", kind := .ident }]
           arms := [{ pattern := [nameToken "M", nameToken "$a"]
                      expansion := [nameToken "N", punctToken .less, nameToken "$a",
                        punctToken .greater]
                      patternTree := some [.tok (nameToken "M"), .cap 0]
                      expansionTree := some [.tok (nameToken "N"), .tok (punctToken .less), .cap 0,
                        .tok (punctToken .greater)] }] }),
   ("N", { name := "N", params := [{ name := "$a", kind := .ident }]
           arms := [{ pattern := [nameToken "N", nameToken "$a"]
                      expansion := [keywordToken "int", nameToken "$a", punctToken .semicolon]
                      patternTree := some [.tok (nameToken "N"), .cap 0]
                      expansionTree := some [.tok (keywordToken "int"), .cap 0,
                        .tok (punctToken .semicolon)] }] })]

/-- Two file-scope expansions, one inside the other, are counted as they nest. -/
theorem chained_invocations_counted :
    ((ParserState.start invocationOfM (.rule .translationUnit) 0).run (unitRules chainedMacros)
        8).recognised = [⟨0, 0⟩, ⟨1, 1⟩] ∧
      (∀ e ∈ ((ParserState.start invocationOfM (.rule .translationUnit) 0).run
        (unitRules chainedMacros) 8).recognised, e.depth = e.nesting) ∧
      ((ParserState.start invocationOfM (.rule .translationUnit) 0).run (unitRules chainedMacros)
        8).errors = [] := by
  have hrec : ((ParserState.start invocationOfM (.rule .translationUnit) 0).run
      (unitRules chainedMacros) 8).recognised = [⟨0, 0⟩, ⟨1, 1⟩] := by decide +kernel
  obtain ⟨hdepth, herrors⟩ := depth_counts_nesting (unitRules chainedMacros) invocationOfM
    (.rule .translationUnit) 0 8 (by decide +kernel)
  exact ⟨hrec, hdepth, herrors (by rw [hrec]; decide)⟩

end TokenRules

end CZet
