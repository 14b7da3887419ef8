/- source: src/gcc/gcc/c/c-typeck.cc (czet_rewrite_binary_op, czet_rewrite_unary_op,
     czet_rewrite_modify_expr)
   digest: Evaluation of the rewritten trees: operands are evaluated once and `++` and `--` keep
     their C values exactly when no operand of theirs has an effect or moves. -/

import CZet.Operator.Rewrite
import Mathlib.Data.Option.Basic

set_option autoImplicit false
set_option relaxedAutoImplicit false

namespace CZet.Operator

/-- Memory, the builtin operations and the bodies of the overloads. -/
structure Machine (Addr Val Mem : Type) where
  varAddr : Nat → Addr
  tmpAddr : Nat → Nat → Addr
  fieldAddr : Addr → Nat → Addr
  elemAddr : Addr → Val → Addr
  target : Val → Addr
  pointer : Addr → Val
  fieldVal : Val → Nat → Val
  load : Mem → Addr → Val
  store : Mem → Addr → Val → Mem
  compute : Nat → List Val → Mem → Val
  effect : Nat → List Val → Mem → Val × Mem
  call : FnDecl → List Val → Mem → Val × Mem

/-- Memory, the temporaries whose address is never taken, and the effects performed so far. -/
structure RunState (Val Mem : Type) where
  mem : Mem
  copies : Nat → Val
  trace : List Nat

/-- What an expression designates. -/
inductive Designator (Addr Val : Type)
  | place (a : Addr)
  | value (v : Val)

section Evaluation

variable {Addr Val Mem : Type} (M : Machine Addr Val Mem)

def rvalue (d : Designator Addr Val) (s : RunState Val Mem) : Val :=
  match d with
  | .place a => M.load s.mem a
  | .value v => v

/-- Initialise one of the temporaries of the rewriter. -/
def assignTmp (tmp : Tree) (v : Val) (s : RunState Val Mem) : RunState Val Mem :=
  match tmp with
  | .oparg loc pos _ => { s with mem := M.store s.mem (M.tmpAddr loc pos) v }
  | .opcopy loc _ => { s with copies := fun k => if k = loc then v else s.copies k }
  | _ => s

mutual

/-- The value of a tree; operands of a call are evaluated from left to right. -/
def eval : Tree → RunState Val Mem → Designator Addr Val × RunState Val Mem
  | .varDecl uid _, s => (.place (M.varAddr uid), s)
  | .oparg loc pos _, s => (.place (M.tmpAddr loc pos), s)
  | .opcopy loc _, s => (.value (s.copies loc), s)
  | .componentRef base field _, s =>
      let r := eval base s
      match r.1 with
      | .place a => (.place (M.fieldAddr a field), r.2)
      | .value v => (.value (M.fieldVal v field), r.2)
  | .arrayRef base index _, s =>
      let r := eval base s
      let i := eval index r.2
      match r.1 with
      | .place a => (.place (M.elemAddr a (rvalue M i.1 i.2)), i.2)
      | .value v => (.value v, i.2)
  | .indirectRef pointer _, s =>
      let r := eval pointer s
      (.place (M.target (rvalue M r.1 r.2)), r.2)
  | .addrExpr operand, s =>
      let r := eval operand s
      match r.1 with
      | .place a => (.value (M.pointer a), r.2)
      | .value v => (.value v, r.2)
  | .builtin loc effect _ args, s =>
      let r := evalArgs args s
      if effect then
        let e := M.effect loc r.1 r.2.mem
        (.value e.1, { r.2 with mem := e.2, trace := r.2.trace ++ [loc] })
      else (.value (M.compute loc r.1 r.2.mem), r.2)
  | .modifyExpr tmp rhs, s =>
      let r := eval rhs s
      let v := rvalue M r.1 r.2
      (.value v, assignTmp M tmp v r.2)
  | .compoundExpr _ first second, s =>
      let r := eval second (eval first s).2
      (.value (rvalue M r.1 r.2), r.2)
  | .callExpr loc fn args, s =>
      let r := evalArgs args s
      let c := M.call fn r.1 r.2.mem
      (.value c.1, { r.2 with mem := c.2, trace := r.2.trace ++ [loc] })

def evalArgs : List Tree → RunState Val Mem → List Val × RunState Val Mem
  | [], s => ([], s)
  | t :: ts, s =>
      let r := eval t s
      let rs := evalArgs ts r.2
      (rvalue M r.1 r.2 :: rs.1, rs.2)

end

/-- The operand of an overload, evaluated once; a value that is no object goes to the
temporary at `loc`. -/
def operandPlace (operand : Tree) (loc : Nat) (s : RunState Val Mem) : Addr × RunState Val Mem :=
  let r := eval M operand s
  match r.1 with
  | .place a => (a, r.2)
  | .value v => (M.tmpAddr loc 0, { r.2 with mem := M.store r.2.mem (M.tmpAddr loc 0) v })

def afterCall (fn : FnDecl) (loc : Nat) (a : Addr) (s : RunState Val Mem) : RunState Val Mem :=
  { s with mem := (M.call fn [M.pointer a] s.mem).2, trace := s.trace ++ [loc] }

/-- The value that C gives to a `++` or `--` whose overload changes the object in place. -/
def mutatedValue (fn : FnDecl) (m : Mutation) (operand : Tree) (s : RunState Val Mem) : Val :=
  let p := operandPlace M operand m.loc s
  if isPostfix m.code then M.load p.2.mem p.1
  else M.load (afterCall M fn m.loc p.1 p.2).mem p.1

/-- The overload that the rewriter finds for a `++` or `--` with the operand tree `x`. -/
def overloadOf (env : OpEnv) (m : Mutation) (x : Tree) : Option FnDecl := do
  let suffix ← czetUnaryOpSuffix m.code
  env.czetLookupOperator x.type suffix

/-- Evaluating the tree `t` of `e` from `s` performs every side effect and every overload call of
`e` once, and each `++` and `--` in it has the type of its operand and its C value. -/
structure EvaluatesOnce (env : OpEnv) (e : Expr) (t : Tree) (s : RunState Val Mem) : Prop where
  effects : ∃ events, (eval M t s).2.trace = s.trace ++ events ∧ events.Perm e.effects
  values : ∀ m ∈ e.mutations, ∀ x u fn, build env m.operand = some x →
    build env (.unary m.loc m.code m.operand) = some u → overloadOf env m x = some fn →
    u.type = x.type ∧ ∀ s : RunState Val Mem,
      rvalue M (eval M u s).1 (eval M u s).2 = mutatedValue M fn m x s

/-- Every `++` and `--` of `e` has an operand without effects and an overload that returns
nothing, and after the call of a prefix operator the operand still designates an object with the
value that the call left in the object it was given. -/
structure SingleUse (env : OpEnv) (e : Expr) : Prop where
  effectFree : ∀ m ∈ e.mutations, m.operand.effects = []
  returnsNothing : ∀ m ∈ e.mutations, ∀ x fn, build env m.operand = some x →
    overloadOf env m x = some fn → fn.ret = .void
  stays : ∀ m ∈ e.mutations, isPostfix m.code = false → ∀ x fn, build env m.operand = some x →
    overloadOf env m x = some fn → ∀ (s : RunState Val Mem) (a : Addr),
      (eval M x s).1 = .place a →
      rvalue M (eval M x (afterCall M fn m.loc a s)).1 (afterCall M fn m.loc a s) =
        M.load (afterCall M fn m.loc a s).mem a

end Evaluation

section Events

mutual

/-- What a tree performs when it is evaluated, in order. -/
def Tree.events : Tree → List Nat
  | .varDecl .. | .oparg .. | .opcopy .. => []
  | .componentRef base _ _ => base.events
  | .arrayRef base index _ => base.events ++ index.events
  | .indirectRef pointer _ => pointer.events
  | .addrExpr operand => operand.events
  | .builtin loc effect _ args => treeEvents args ++ if effect then [loc] else []
  | .modifyExpr _ rhs => rhs.events
  | .compoundExpr _ first second => first.events ++ second.events
  | .callExpr loc _ args => treeEvents args ++ [loc]

def treeEvents : List Tree → List Nat
  | [] => []
  | t :: ts => t.events ++ treeEvents ts

end

variable {Addr Val Mem : Type} (M : Machine Addr Val Mem)

private theorem assignTmp_trace (tmp : Tree) (v : Val) (s : RunState Val Mem) :
    (assignTmp M tmp v s).trace = s.trace := by
  unfold assignTmp
  split <;> rfl

mutual

theorem eval_trace : ∀ (t : Tree) (s : RunState Val Mem),
    (eval M t s).2.trace = s.trace ++ t.events
  | .varDecl .., s | .oparg .., s | .opcopy .., s => by simp [eval, Tree.events]
  | .componentRef base _ _, s => by
      rw [eval, Tree.events, ← eval_trace base s]
      split <;> rfl
  | .arrayRef base index _, s => by
      rw [eval, Tree.events, ← List.append_assoc, ← eval_trace base s, ← eval_trace index]
      split <;> rfl
  | .indirectRef pointer _, s => by
      rw [eval, Tree.events, ← eval_trace pointer s]
  | .addrExpr operand, s => by
      rw [eval, Tree.events, ← eval_trace operand s]
      split <;> rfl
  | .builtin loc effect _ args, s => by
      rw [eval, Tree.events, ← List.append_assoc, ← evalArgs_trace args s]
      cases effect <;> simp
  | .modifyExpr tmp rhs, s => by
      rw [eval, Tree.events, ← eval_trace rhs s]
      exact assignTmp_trace M tmp _ _
  | .compoundExpr _ first second, s => by
      rw [eval, Tree.events, ← List.append_assoc, ← eval_trace first s, ← eval_trace second]
  | .callExpr loc _ args, s => by
      rw [eval, Tree.events, ← List.append_assoc, ← evalArgs_trace args s]

theorem evalArgs_trace : ∀ (ts : List Tree) (s : RunState Val Mem),
    (evalArgs M ts s).2.trace = s.trace ++ treeEvents ts
  | [], s => by simp [evalArgs, treeEvents]
  | t :: ts, s => by
      rw [evalArgs, treeEvents, ← List.append_assoc, ← eval_trace t s, ← evalArgs_trace ts]

end

variable {env : OpEnv}

private theorem events_addressable {loc pos : Nat} {operand m : Tree}
    (h : czetAddressableOperand env loc pos operand = some m) : m.events = operand.events := by
  unfold czetAddressableOperand at h
  split at h
  · cases h
    rfl
  · split at h
    · cases h
      simp [Tree.events]
    · cases h

private theorem events_addrOf {m a : Tree} (h : czetAddrOf m = some a) : a.events = m.events := by
  unfold czetAddrOf buildAddr at h
  split at h
  · obtain ⟨addr, haddr, rfl⟩ := Option.map_eq_some_iff.mp h
    split at haddr
    · cases haddr
      simp [Tree.events]
    · cases haddr
  · split at h
    · cases h
      simp [Tree.events]
    · cases h

private theorem binary_events {loc : Nat} {code : TreeCode} {op0 op1 t : Tree}
    (h : czetRewriteBinaryOp env loc code op0 op1 = some t) :
    t.events = op0.events ++ op1.events ++ [loc] := by
  simp only [czetRewriteBinaryOp, Option.bind_eq_bind, Option.bind_eq_some_iff] at h
  obtain ⟨suffix, -, -, -, -, -, fn, -, m0, hm0, m1, hm1, a0, ha0, a1, ha1, ht⟩ := h
  cases ht
  simp [Tree.events, treeEvents, events_addrOf ha0, events_addrOf ha1, events_addressable hm0,
    events_addressable hm1]

private theorem modify_events {loc : Nat} {code : TreeCode} {lhs rhs t : Tree}
    (h : czetRewriteModifyExpr env loc lhs code rhs = some t) :
    t.events = lhs.events ++ rhs.events ++ [loc] := by
  simp only [czetRewriteModifyExpr, Option.bind_eq_bind, Option.bind_eq_some_iff] at h
  obtain ⟨suffix, -, -, -, -, -, fn, -, -, -, m1, hm1, a0, ha0, a1, ha1, ht⟩ := h
  cases ht
  unfold buildAddr at ha0
  split at ha0
  · cases ha0
    simp [Tree.events, treeEvents, events_addrOf ha1, events_addressable hm1]
  · cases ha0

private theorem unary_cases {loc : Nat} {code : TreeCode} {x t : Tree}
    (h : czetRewriteUnaryOp env loc code x = some t) :
    ∃ suffix fn m a, czetUnaryOpSuffix code = some suffix ∧ czetOperableType x.type = true ∧
      env.czetLookupOperator x.type suffix = some fn ∧
      czetAddressableOperand env loc 0 x = some m ∧ czetAddrOf m = some a ∧
      t = if mutating code && decide (fn.ret = .void) then
          if isPostfix code then
            .compoundExpr x.type (.compoundExpr .void (czetCopyToTemp loc m).1
              (.callExpr loc fn [a])) (czetCopyToTemp loc m).2
          else .compoundExpr x.type (.callExpr loc fn [a]) m
        else .callExpr loc fn [a] := by
  simp only [czetRewriteUnaryOp, Option.bind_eq_bind, Option.bind_eq_some_iff] at h
  obtain ⟨suffix, hsuffix, _, hop, fn, hfn, m, hm, a, ha, ht⟩ := h
  refine ⟨suffix, fn, m, a, hsuffix, ?_, hfn, hm, ha, ?_⟩
  · simpa [guard] using hop
  · split at ht
    · rename_i hmut
      rw [if_pos hmut]
      split at ht
      · rename_i hpost
        rw [if_pos hpost]
        exact (Option.some.inj ht).symm
      · rename_i hpre
        rw [if_neg hpre]
        exact (Option.some.inj ht).symm
    · rename_i hmut
      rw [if_neg hmut]
      exact (Option.some.inj ht).symm

private theorem unary_events {loc : Nat} {code : TreeCode} {x t : Tree}
    (h : czetRewriteUnaryOp env loc code x = some t) :
    ∃ suffix fn, czetUnaryOpSuffix code = some suffix ∧
      env.czetLookupOperator x.type suffix = some fn ∧
      (mutating code = true → fn.ret = .void → t.events.Perm (x.events ++ (x.events ++ [loc]))) ∧
      ((mutating code = true → fn.ret ≠ .void) → t.events = x.events ++ [loc]) := by
  obtain ⟨suffix, fn, m, a, hsuffix, -, hfn, hm, ha, rfl⟩ := unary_cases h
  have hme := events_addressable hm
  have hae : a.events = x.events := (events_addrOf ha).trans hme
  refine ⟨suffix, fn, hsuffix, hfn, ?_, ?_⟩
  · intro hmut hvoid
    simp only [hmut, hvoid, decide_true, Bool.and_self, if_true]
    split
    · simp [Tree.events, treeEvents, czetCopyToTemp, hme, hae]
    · simp only [Tree.events, treeEvents, hme, hae, List.append_nil]
      exact List.perm_append_comm
  · intro hno
    have hcond : (mutating code && decide (fn.ret = .void)) = false := by
      cases hmut : mutating code with
      | false => rfl
      | true => simpa using hno hmut
    rw [hcond]
    simp [Tree.events, treeEvents, hae]

private structure EventCount (env : OpEnv) (effects : List Nat) (muts : List Mutation)
    (events : List Nat) : Prop where
  atLeast : effects.length ≤ events.length
  once : (∀ m ∈ muts, m.operand.effects = []) → events.Perm effects
  effectFree : (∀ m ∈ muts, ∀ x fn, build env m.operand = some x →
    overloadOf env m x = some fn → fn.ret = .void) →
    events.length = effects.length → ∀ m ∈ muts, m.operand.effects = []

private theorem eventCount_append {effects₁ effects₂ : List Nat} {muts₁ muts₂ : List Mutation}
    {events₁ events₂ : List Nat} (h₁ : EventCount env effects₁ muts₁ events₁)
    (h₂ : EventCount env effects₂ muts₂ events₂) :
    EventCount env (effects₁ ++ effects₂) (muts₁ ++ muts₂) (events₁ ++ events₂) := by
  have hle₁ := h₁.atLeast
  have hle₂ := h₂.atLeast
  refine ⟨by simp only [List.length_append]; omega, ?_, ?_⟩
  · intro hfree
    exact (h₁.once fun m hm => hfree m (List.mem_append_left _ hm)).append
      (h₂.once fun m hm => hfree m (List.mem_append_right _ hm))
  · intro hvoid hlen m hm
    simp only [List.length_append] at hlen
    rcases List.mem_append.mp hm with hm | hm
    · exact h₁.effectFree (fun m hm => hvoid m (List.mem_append_left _ hm)) (by omega) m hm
    · exact h₂.effectFree (fun m hm => hvoid m (List.mem_append_right _ hm)) (by omega) m hm

private theorem eventCount_none (events : List Nat) : EventCount env events [] events where
  atLeast := Nat.le_refl _
  once _ := List.Perm.refl _
  effectFree _ _ m hm := by cases hm

private theorem eventCount_unary {loc : Nat} {code : TreeCode} {operand : Expr} {x t : Tree}
    (hx : build env operand = some x)
    (hcount : EventCount env operand.effects operand.mutations x.events)
    (h : czetRewriteUnaryOp env loc code x = some t) :
    EventCount env (operand.effects ++ [loc])
      (operand.mutations ++ if mutating code then [⟨loc, code, operand⟩] else []) t.events := by
  obtain ⟨suffix, fn, hsuffix, hfn, htwice, hsingle⟩ := unary_events h
  have hle := hcount.atLeast
  by_cases hmut : mutating code = true ∧ fn.ret = .void
  · have hperm := htwice hmut.1 hmut.2
    have hlen := hperm.length_eq
    simp only [List.length_append] at hlen
    simp only [hmut.1, if_true]
    refine ⟨by simp only [List.length_append]; omega, ?_, ?_⟩
    · intro hfree
      have hnil : operand.effects = [] := hfree ⟨loc, code, operand⟩ (by simp)
      have hx := hcount.once fun m hm => hfree m (List.mem_append_left _ hm)
      rw [hnil] at hx
      rw [List.perm_nil.mp hx] at hperm
      simpa [hnil] using hperm
    · intro hvoid heq m hm
      simp only [List.length_append] at heq
      have hzero : operand.effects = [] := List.length_eq_zero_iff.mp (by omega)
      rcases List.mem_append.mp hm with hm | hm
      · exact hcount.effectFree (fun m hm => hvoid m (List.mem_append_left _ hm)) (by omega) m hm
      · rw [List.mem_singleton.mp hm]
        exact hzero
  · have hone := hsingle fun hm hvoid => hmut ⟨hm, hvoid⟩
    rw [hone]
    have hbase := eventCount_append hcount (eventCount_none [loc])
    rw [List.append_nil] at hbase
    refine ⟨hbase.atLeast, ?_, ?_⟩
    · intro hfree
      exact hbase.once fun m hm => hfree m (List.mem_append_left _ hm)
    · intro hvoid heq m hm
      rcases List.mem_append.mp hm with hm' | hm'
      · exact hbase.effectFree (fun m hm => hvoid m (List.mem_append_left _ hm)) heq m hm'
      · split at hm'
        · rename_i hcode
          obtain rfl := List.mem_singleton.mp hm'
          have hover : overloadOf env ⟨loc, code, operand⟩ x = some fn := by
            simp [overloadOf, hsuffix, hfn]
          exact absurd ⟨hcode, hvoid _ hm x fn hx hover⟩ hmut
        · cases hm'

mutual

private theorem build_events : ∀ (e : Expr) {t : Tree}, build env e = some t →
    EventCount env e.effects e.mutations t.events
  | .var uid type, t, h => by
      rw [build] at h
      cases h
      rw [Expr.effects, Expr.mutations, Tree.events]
      exact eventCount_none []
  | .member base field type, t, h => by
      rw [build] at h
      obtain ⟨b, hb, rfl⟩ := Option.map_eq_some_iff.mp h
      rw [Expr.effects, Expr.mutations, Tree.events]
      exact build_events base hb
  | .elem base index type, t, h => by
      simp only [build, Option.bind_eq_bind, Option.bind_eq_some_iff] at h
      obtain ⟨b, hb, -, -, i, hi, ht⟩ := h
      cases ht
      rw [Expr.effects, Expr.mutations, Tree.events]
      exact eventCount_append (build_events base hb) (build_events index hi)
  | .deref pointer type, t, h => by
      rw [build] at h
      obtain ⟨b, hb, rfl⟩ := Option.map_eq_some_iff.mp h
      rw [Expr.effects, Expr.mutations, Tree.events]
      exact build_events pointer hb
  | .addr operand, t, h => by
      simp only [build, buildAddr, Option.bind_eq_bind, Option.bind_eq_some_iff] at h
      obtain ⟨b, hb, ht⟩ := h
      split at ht
      · cases ht
        rw [Expr.effects, Expr.mutations, Tree.events]
        exact build_events operand hb
      · cases ht
  | .builtin loc effect type args, t, h => by
      rw [build] at h
      obtain ⟨ts, hts, rfl⟩ := Option.map_eq_some_iff.mp h
      rw [Expr.effects, Expr.mutations, Tree.events]
      have hcount := eventCount_append (buildArgs_events args hts)
        (eventCount_none (if effect = true then [loc] else []))
      rwa [List.append_nil] at hcount
  | .unary loc code operand, t, h => by
      simp only [build, Option.bind_eq_bind, Option.bind_eq_some_iff] at h
      obtain ⟨x, hx, ht⟩ := h
      rw [Expr.effects, Expr.mutations]
      exact eventCount_unary hx (build_events operand hx) ht
  | .binary loc code op0 op1, t, h => by
      simp only [build, Option.bind_eq_bind, Option.bind_eq_some_iff] at h
      obtain ⟨t0, ht0, t1, ht1, ht⟩ := h
      rw [Expr.effects, Expr.mutations, binary_events ht]
      have hcount := eventCount_append
        (eventCount_append (build_events op0 ht0) (build_events op1 ht1)) (eventCount_none [loc])
      rwa [List.append_nil] at hcount
  | .modify loc code lhs rhs, t, h => by
      simp only [build, Option.bind_eq_bind, Option.bind_eq_some_iff] at h
      obtain ⟨l, hl, r, hr, ht⟩ := h
      rw [Expr.effects, Expr.mutations, modify_events ht]
      have hcount := eventCount_append
        (eventCount_append (build_events lhs hl) (build_events rhs hr)) (eventCount_none [loc])
      rwa [List.append_nil] at hcount

private theorem buildArgs_events : ∀ (es : List Expr) {ts : List Tree}, buildArgs env es = some ts →
    EventCount env (argEffects es) (argMutations es) (treeEvents ts)
  | [], ts, h => by
      rw [buildArgs] at h
      cases h
      rw [argEffects, argMutations, treeEvents]
      exact eventCount_none []
  | e :: es, ts, h => by
      simp only [buildArgs, Option.bind_eq_bind, Option.bind_eq_some_iff] at h
      obtain ⟨t, ht, rest, hrest, hts⟩ := h
      cases hts
      rw [argEffects, argMutations, treeEvents]
      exact eventCount_append (build_events e ht) (buildArgs_events es hrest)

end

end Events

section Values

variable {Addr Val Mem : Type} (M : Machine Addr Val Mem) {env : OpEnv}

/-- A tree that designates its object or value without changing anything. -/
private structure Inert (x : Tree) : Prop where
  state : ∀ s : RunState Val Mem, (eval M x s).2 = s
  owned : czetOperableType x.type = true → czetLvalueP x = true
  place : lvalueP x = true → ∀ s : RunState Val Mem, ∃ a, (eval M x s).1 = .place a

mutual

private theorem inert_of_effects : ∀ (e : Expr) {x : Tree}, build env e = some x →
    e.effects = [] → Inert M x
  | .var uid type, x, h, _ => by
      rw [build] at h
      cases h
      exact ⟨fun s => by simp [eval], fun _ => rfl, fun _ s => ⟨_, by rw [eval]⟩⟩
  | .member base field type, x, h, he => by
      rw [build] at h
      obtain ⟨b, hb, rfl⟩ := Option.map_eq_some_iff.mp h
      rw [Expr.effects] at he
      have ih := inert_of_effects base hb he
      refine ⟨?_, fun _ => rfl, ?_⟩
      · intro s
        rw [eval]
        split <;> exact ih.state s
      · intro hl s
        obtain ⟨a, ha⟩ := ih.place hl s
        exact ⟨M.fieldAddr a field, by simp [eval, ha]⟩
  | .elem base index type, x, h, he => by
      simp only [build, Option.bind_eq_bind, Option.bind_eq_some_iff] at h
      obtain ⟨b, hb, _, hl, i, hi, ht⟩ := h
      cases ht
      rw [Expr.effects, List.append_eq_nil_iff] at he
      have ihb := inert_of_effects base hb he.1
      have ihi := inert_of_effects index hi he.2
      have hlv : lvalueP b = true := by simpa [guard] using hl
      have hstate : ∀ s : RunState Val Mem, (eval M i (eval M b s).2).2 = s := by
        intro s
        rw [ihi.state, ihb.state]
      refine ⟨?_, fun _ => rfl, ?_⟩
      · intro s
        rw [eval]
        split <;> exact hstate s
      · intro _ s
        obtain ⟨a, ha⟩ := ihb.place hlv s
        refine ⟨M.elemAddr a (rvalue M (eval M i (eval M b s).2).1 (eval M i (eval M b s).2).2), ?_⟩
        rw [eval, ha]
  | .deref pointer type, x, h, he => by
      rw [build] at h
      obtain ⟨p, hp, rfl⟩ := Option.map_eq_some_iff.mp h
      rw [Expr.effects] at he
      have ih := inert_of_effects pointer hp he
      exact ⟨fun s => by rw [eval]; exact ih.state s, fun _ => rfl, fun _ s => ⟨_, by rw [eval]⟩⟩
  | .addr operand, x, h, he => by
      simp only [build, buildAddr, Option.bind_eq_bind, Option.bind_eq_some_iff] at h
      obtain ⟨t, ht, hx⟩ := h
      split at hx
      · cases hx
        rw [Expr.effects] at he
        have ih := inert_of_effects operand ht he
        refine ⟨?_, fun hop => (by cases hop), fun hl => (by cases hl)⟩
        intro s
        rw [eval]
        split <;> exact ih.state s
      · cases hx
  | .builtin loc effect type args, x, h, he => by
      rw [build] at h
      obtain ⟨ts, hts, rfl⟩ := Option.map_eq_some_iff.mp h
      rw [Expr.effects, List.append_eq_nil_iff] at he
      have ih := inertArgs_of_effects args hts he.1
      obtain rfl : effect = false := by
        cases effect with
        | false => rfl
        | true => exact absurd he.2 (by simp)
      refine ⟨?_, ?_, fun hl => by cases hl⟩
      · intro s
        simpa [eval] using ih s
      · intro hop
        cases type <;> cases hop
  | .unary .., _, _, he | .binary .., _, _, he | .modify .., _, _, he => by
      simp [Expr.effects] at he

private theorem inertArgs_of_effects : ∀ (es : List Expr) {ts : List Tree},
    buildArgs env es = some ts → argEffects es = [] →
    ∀ s : RunState Val Mem, (evalArgs M ts s).2 = s
  | [], ts, h, _, s => by
      rw [buildArgs] at h
      cases h
      simp [evalArgs]
  | e :: es, ts, h, he, s => by
      simp only [buildArgs, Option.bind_eq_bind, Option.bind_eq_some_iff] at h
      obtain ⟨t, ht, rest, hrest, hts⟩ := h
      cases hts
      rw [argEffects, List.append_eq_nil_iff] at he
      rw [evalArgs]
      simp only
      rw [inertArgs_of_effects es hrest he.2, (inert_of_effects e ht he.1).state]

end

private theorem addrOf_lvalue {x a : Tree} (hx : czetLvalueP x = true)
    (h : czetAddrOf x = some a) : lvalueP x = true ∧ a = .addrExpr x := by
  have hbuild : czetAddrOf x = buildAddr x := by
    cases x with
    | compoundExpr type first second => cases hx
    | _ => rfl
  rw [hbuild, buildAddr] at h
  split at h
  · rename_i hl
    exact ⟨hl, (Option.some.inj h).symm⟩
  · cases h

include M in
private theorem mutation_tree {m : Mutation} {x u : Tree} {fn : FnDecl}
    (hx : build env m.operand = some x) (hfree : m.operand.effects = [])
    (hu : build env (.unary m.loc m.code m.operand) = some u)
    (hover : overloadOf env m x = some fn) (hmut : mutating m.code = true)
    (hvoid : fn.ret = .void) :
    lvalueP x = true ∧ u = if isPostfix m.code then
        .compoundExpr x.type (.compoundExpr .void
          (.compoundExpr x.type (.modifyExpr (.opcopy m.loc x.type) x) (.opcopy m.loc x.type))
          (.callExpr m.loc fn [.addrExpr x])) (.opcopy m.loc x.type)
      else .compoundExpr x.type (.callExpr m.loc fn [.addrExpr x]) x := by
  simp only [build, Option.bind_eq_bind, Option.bind_eq_some_iff] at hu
  obtain ⟨x', hx', hrw⟩ := hu
  obtain rfl : x = x' := Option.some.inj (hx.symm.trans hx')
  obtain ⟨suffix, fn', m0, a, hsuffix, hop, hfn, hm0, ha, rfl⟩ := unary_cases hrw
  obtain rfl : fn' = fn := by
    have hsame : overloadOf env m x = some fn' := by simp [overloadOf, hsuffix, hfn]
    exact Option.some.inj (hsame.symm.trans hover)
  have hinert : Inert M x := inert_of_effects M m.operand hx hfree
  have hl := hinert.owned hop
  obtain rfl : m0 = x := by
    rw [czetAddressableOperand, if_pos hl] at hm0
    exact (Option.some.inj hm0).symm
  obtain ⟨hlv, rfl⟩ := addrOf_lvalue hl ha
  refine ⟨hlv, ?_⟩
  simp [hmut, hvoid, czetCopyToTemp]

private theorem mutation_value {m : Mutation} {x u : Tree} {fn : FnDecl}
    (hx : build env m.operand = some x) (hfree : m.operand.effects = [])
    (hu : build env (.unary m.loc m.code m.operand) = some u)
    (hover : overloadOf env m x = some fn) (hmut : mutating m.code = true)
    (hvoid : fn.ret = .void) :
    u.type = x.type ∧ ∀ s : RunState Val Mem, ∃ a, (eval M x s).1 = .place a ∧
      rvalue M (eval M u s).1 (eval M u s).2 =
        (if isPostfix m.code then M.load s.mem a
        else rvalue M (eval M x (afterCall M fn m.loc a s)).1 (afterCall M fn m.loc a s)) ∧
      mutatedValue M fn m x s = if isPostfix m.code then M.load s.mem a
        else M.load (afterCall M fn m.loc a s).mem a := by
  have hinert : Inert M x := inert_of_effects M m.operand hx hfree
  obtain ⟨hlv, rfl⟩ := mutation_tree M hx hfree hu hover hmut hvoid
  refine ⟨by split <;> rfl, ?_⟩
  intro s
  obtain ⟨a, ha⟩ := hinert.place hlv s
  refine ⟨a, ha, ?_, ?_⟩
  · cases hpost : isPostfix m.code with
    | true =>
        -- the copy is made before the call and is out of its reach
        obtain ⟨a', ha'⟩ := hinert.place hlv
          (assignTmp M (.opcopy m.loc x.type) (M.load s.mem a) s)
        have hcopy : (assignTmp M (.opcopy m.loc x.type) (M.load s.mem a) s).copies m.loc =
            M.load s.mem a := by simp [assignTmp]
        simp [eval, evalArgs, rvalue, ha, ha', hinert.state, hcopy]
    | false =>
        simp [eval, evalArgs, rvalue, ha, hinert.state, afterCall]
  · simp [mutatedValue, operandPlace, ha, hinert.state]

/-- The `++` or `--` is part of the expression that was built. -/
private def Built (env : OpEnv) (m : Mutation) : Prop :=
  mutating m.code = true ∧ ∃ u, build env (.unary m.loc m.code m.operand) = some u

mutual

private theorem mutation_built : ∀ (e : Expr) {t : Tree}, build env e = some t →
    ∀ m ∈ e.mutations, Built env m
  | .var .., _, _, m, hm => by
      rw [Expr.mutations] at hm
      cases hm
  | .member base _ _, t, h, m, hm => by
      rw [build] at h
      obtain ⟨b, hb, -⟩ := Option.map_eq_some_iff.mp h
      rw [Expr.mutations] at hm
      exact mutation_built base hb m hm
  | .elem base index _, t, h, m, hm => by
      simp only [build, Option.bind_eq_bind, Option.bind_eq_some_iff] at h
      obtain ⟨b, hb, -, -, i, hi, -⟩ := h
      rw [Expr.mutations] at hm
      rcases List.mem_append.mp hm with hm | hm
      · exact mutation_built base hb m hm
      · exact mutation_built index hi m hm
  | .deref pointer _, t, h, m, hm => by
      rw [build] at h
      obtain ⟨p, hp, -⟩ := Option.map_eq_some_iff.mp h
      rw [Expr.mutations] at hm
      exact mutation_built pointer hp m hm
  | .addr operand, t, h, m, hm => by
      simp only [build, Option.bind_eq_bind, Option.bind_eq_some_iff] at h
      obtain ⟨x, hx, -⟩ := h
      rw [Expr.mutations] at hm
      exact mutation_built operand hx m hm
  | .builtin _ _ _ args, t, h, m, hm => by
      rw [build] at h
      obtain ⟨ts, hts, -⟩ := Option.map_eq_some_iff.mp h
      rw [Expr.mutations] at hm
      exact mutationArgs_built args hts m hm
  | .unary loc code operand, t, h, m, hm => by
      rw [Expr.mutations] at hm
      rcases List.mem_append.mp hm with hm | hm
      · simp only [build, Option.bind_eq_bind, Option.bind_eq_some_iff] at h
        obtain ⟨x, hx, -⟩ := h
        exact mutation_built operand hx m hm
      · split at hm
        · rename_i hcode
          rw [List.mem_singleton.mp hm]
          exact ⟨hcode, t, h⟩
        · cases hm
  | .binary _ _ op0 op1, t, h, m, hm => by
      simp only [build, Option.bind_eq_bind, Option.bind_eq_some_iff] at h
      obtain ⟨t0, ht0, t1, ht1, -⟩ := h
      rw [Expr.mutations] at hm
      rcases List.mem_append.mp hm with hm | hm
      · exact mutation_built op0 ht0 m hm
      · exact mutation_built op1 ht1 m hm
  | .modify _ _ lhs rhs, t, h, m, hm => by
      simp only [build, Option.bind_eq_bind, Option.bind_eq_some_iff] at h
      obtain ⟨l, hl, r, hr, -⟩ := h
      rw [Expr.mutations] at hm
      rcases List.mem_append.mp hm with hm | hm
      · exact mutation_built lhs hl m hm
      · exact mutation_built rhs hr m hm

private theorem mutationArgs_built : ∀ (es : List Expr) {ts : List Tree},
    buildArgs env es = some ts → ∀ m ∈ argMutations es, Built env m
  | [], _, _, m, hm => by
      rw [argMutations] at hm
      cases hm
  | e :: es, ts, h, m, hm => by
      simp only [buildArgs, Option.bind_eq_bind, Option.bind_eq_some_iff] at h
      obtain ⟨t, ht, rest, hrest, -⟩ := h
      rw [argMutations] at hm
      rcases List.mem_append.mp hm with hm | hm
      · exact mutation_built e ht m hm
      · exact mutationArgs_built es hrest m hm

end

private theorem mutating_suffix {code : TreeCode} {suffix : String} (hmut : mutating code = true)
    (h : czetUnaryOpSuffix code = some suffix) : suffix ∈ ["pp", "mm", "assign"] := by
  cases code with
  | preIncrement | postIncrement | preDecrement | postDecrement =>
      cases h
      simp
  | _ => cases hmut

private theorem returnsNothing_of_type {m : Mutation} {x u : Tree} {fn : FnDecl}
    (hbuilt : Built env m) (hx : build env m.operand = some x)
    (hu : build env (.unary m.loc m.code m.operand) = some u)
    (hover : overloadOf env m x = some fn) (htype : u.type = x.type) : fn.ret = .void := by
  simp only [build, Option.bind_eq_bind, Option.bind_eq_some_iff] at hu
  obtain ⟨x', hx', hrw⟩ := hu
  obtain rfl : x = x' := Option.some.inj (hx.symm.trans hx')
  obtain ⟨suffix, fn', m0, a, hsuffix, hop, hfn, -, -, rfl⟩ := unary_cases hrw
  obtain rfl : fn' = fn := by
    have hsame : overloadOf env m x = some fn' := by simp [overloadOf, hsuffix, hfn]
    exact Option.some.inj (hsame.symm.trans hover)
  by_contra hvoid
  have hret : fn'.ret = x.type := by simpa [hvoid, Tree.type] using htype
  obtain ⟨nptr, hptr⟩ := env.returns_no_value hfn (mutating_suffix hbuilt.1 hsuffix)
  rw [← hret, hptr] at hop
  cases nptr <;> cases hop

end Values

/-- The tree of an expression evaluates every operand once, calls every overload once and gives
every `++` and `--` its C value, exactly when no `++` or `--` in it has an operand with effects,
an overload that returns something, or a prefix operand that the call moves away. -/
theorem evaluates_once_iff {Addr Val Mem : Type} (M : Machine Addr Val Mem) (env : OpEnv)
    (e : Expr) (t : Tree) (s : RunState Val Mem) (hbuild : build env e = some t) :
    EvaluatesOnce M env e t s ↔ SingleUse M env e := by
  have hcount := build_events e hbuild
  have hbuilt := mutation_built e hbuild
  constructor
  · intro h
    have hvoid : ∀ m ∈ e.mutations, ∀ x fn, build env m.operand = some x →
        overloadOf env m x = some fn → fn.ret = .void := by
      intro m hm x fn hx hover
      obtain ⟨u, hu⟩ := (hbuilt m hm).2
      exact returnsNothing_of_type (hbuilt m hm) hx hu hover (h.values m hm x u fn hx hu hover).1
    have hfree : ∀ m ∈ e.mutations, m.operand.effects = [] := by
      obtain ⟨events, htrace, hperm⟩ := h.effects
      rw [eval_trace] at htrace
      obtain rfl : t.events = events := List.append_cancel_left htrace
      exact hcount.effectFree hvoid hperm.length_eq
    refine ⟨hfree, hvoid, ?_⟩
    intro m hm hpre x fn hx hover s a ha
    obtain ⟨u, hu⟩ := (hbuilt m hm).2
    obtain ⟨-, hvalue⟩ := h.values m hm x u fn hx hu hover
    obtain ⟨-, hyield⟩ := mutation_value M hx (hfree m hm) hu hover (hbuilt m hm).1
      (hvoid m hm x fn hx hover)
    obtain ⟨a', ha', htree, hC⟩ := hyield s
    obtain rfl : a' = a := by simpa [ha] using ha'.symm
    rw [hvalue s, hC, hpre] at htree
    simpa using htree.symm
  · intro h
    refine ⟨⟨t.events, eval_trace M t s, hcount.once h.effectFree⟩, ?_⟩
    intro m hm x u fn hx hu hover
    obtain ⟨htype, hyield⟩ := mutation_value M hx (h.effectFree m hm) hu hover (hbuilt m hm).1
      (h.returnsNothing m hm x fn hx hover)
    refine ⟨htype, ?_⟩
    intro s
    obtain ⟨a, ha, htree, hC⟩ := hyield s
    rw [htree, hC]
    cases hpost : isPostfix m.code with
    | true => simp
    | false => simpa using h.stays m hm hpost x fn hx hover s a ha

/-- One struct type with `+` and `++`. -/
def pairEnv : OpEnv where
  czetLookupOperator type suffix :=
    if type = .record 0 then
      if suffix = "plus" then some ⟨0, .record 0⟩
      else if suffix = "pp" then some ⟨1, .void⟩ else none
    else none
  completeType _ := true
  cfun := true
  returns_no_value := by
    intro type suffix fn h hmem
    split at h
    · split at h
      · simp_all
      · split at h
        · cases h
          exact ⟨0, rfl⟩
        · cases h
    · cases h

/-- A memory of numbers in which `++` adds one to its operand. -/
def countingMachine : Machine Nat Nat (Nat → Nat) where
  varAddr uid := uid
  tmpAddr loc pos := 1000 + 2 * loc + pos
  fieldAddr a field := a + field
  elemAddr a i := a + i
  target v := v
  pointer a := a
  fieldVal v _ := v
  load mem a := mem a
  store mem a v := fun b => if b = a then v else mem b
  compute _ _ _ := 0
  effect _ args mem :=
    let a := args.headD 0
    (mem a, fun b => if b = a then mem a + 1 else mem b)
  call fn args mem :=
    let a := args.headD 0
    (mem a, fun b => if b = a ∧ fn.uid = 1 then mem a + 1 else mem b)

/-- `++v[i++]`: the index is incremented twice. -/
def incrementElement : Expr :=
  .unary 0 .preIncrement
    (.elem (.var 10 (.record 1)) (.builtin 1 true (.scalar 0) [.addr (.var 0 (.scalar 0))])
      (.record 0))

theorem increment_element_twice :
    ∃ t, build pairEnv incrementElement = some t ∧
      ∀ s, ¬ EvaluatesOnce countingMachine pairEnv incrementElement t s := by
  refine ⟨_, rfl, ?_⟩
  intro s h
  obtain ⟨events, htrace, hperm⟩ := h.effects
  rw [eval_trace] at htrace
  rw [← List.append_cancel_left htrace] at hperm
  exact absurd hperm.length_eq (by decide)

/-- `++a + b`. -/
def incrementVariable : Expr :=
  .binary 0 .plus (.unary 1 .preIncrement (.var 10 (.record 0))) (.var 11 (.record 0))

theorem increment_variable_once :
    ∃ t, build pairEnv incrementVariable = some t ∧
      EvaluatesOnce countingMachine pairEnv incrementVariable t ⟨fun a => a, fun _ => 0, []⟩ := by
  refine ⟨_, rfl, (evaluates_once_iff countingMachine pairEnv _ _ _ rfl).mpr ⟨?_, ?_, ?_⟩⟩
  all_goals
    intro m hm
    obtain rfl := List.mem_singleton.mp hm
  · rfl
  · intro x fn hx hover
    cases hx
    cases hover
    rfl
  · intro _ x fn hx hover s a ha
    cases hx
    cases ha
    rfl

end CZet.Operator
