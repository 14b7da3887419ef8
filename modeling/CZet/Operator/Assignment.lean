/- source: src/gcc/gcc/c/c-typeck.cc (czet_rewrite_modify_expr, build_component_ref,
     build_modify_expr)
   digest: The tree of a compound assignment whose overload returns a pointer is that pointer: it
     never yields the left operand, and nothing that uses the left operand accepts it. -/

import CZet.Operator.Evaluation

set_option autoImplicit false
set_option relaxedAutoImplicit false

namespace CZet.Operator

/-- The tree `t` has the type of the left operand `lhs` and designates its object. -/
structure YieldsLeft {Addr Val Mem : Type} (M : Machine Addr Val Mem) (lhs t : Tree) : Prop where
  type : t.type = lhs.type
  object : ∀ (s : RunState Val Mem) (a : Addr),
    (eval M lhs s).1 = .place a → (eval M t s).1 = .place a

/-- What surrounds an operand of a user type in an expression. -/
inductive Use
  | member (field : Nat) (type : CType)
  | unary (loc : Nat) (code : TreeCode)
  | binaryLeft (loc : Nat) (code : TreeCode) (op1 : Tree)
  | binaryRight (loc : Nat) (code : TreeCode) (op0 : Tree)
  | modifyLeft (loc : Nat) (code : TreeCode) (rhs : Tree)
  | modifyRight (loc : Nat) (code : TreeCode) (lhs : Tree)
  | assigned (target : Tree)

def structOrUnionP : CType → Bool
  | .record _ | .union _ => true
  | _ => false

/-- The tree of the operand in its surroundings, if the rewriter or the type checker gives one;
`assigned` is the builtin assignment of a value of a user type. -/
def Use.build (env : OpEnv) : Use → Tree → Option Tree
  | .member field type, t =>
      if structOrUnionP t.type then some (.componentRef t field type) else none
  | .unary loc code, t => czetRewriteUnaryOp env loc code t
  | .binaryLeft loc code op1, t => czetRewriteBinaryOp env loc code t op1
  | .binaryRight loc code op0, t => czetRewriteBinaryOp env loc code op0 t
  | .modifyLeft loc code rhs, t => czetRewriteModifyExpr env loc t code rhs
  | .modifyRight loc code lhs, t => czetRewriteModifyExpr env loc lhs code t
  | .assigned target, t =>
      if czetOperableType t.type && decide (target.type = t.type) then some (.modifyExpr target t)
      else none

/-- The innermost use comes first. -/
def surround (env : OpEnv) : List Use → Tree → Option Tree
  | [], t => some t
  | use :: uses, t => (use.build env t).bind (surround env uses)

section Rejection

variable {env : OpEnv} {t : Tree}

private theorem unary_rejects (loc : Nat) (code : TreeCode)
    (h : czetOperableType t.type = false) : czetRewriteUnaryOp env loc code t = none := by
  rw [Option.eq_none_iff_forall_ne_some]
  intro u hu
  simp only [czetRewriteUnaryOp, Option.bind_eq_bind, Option.bind_eq_some_iff] at hu
  obtain ⟨suffix, -, _, hguard, -⟩ := hu
  simp [guard, h] at hguard

private theorem binary_rejects (loc : Nat) (code : TreeCode) (op0 op1 : Tree)
    (h : czetOperableType op0.type = false ∨ czetOperableType op1.type = false) :
    czetRewriteBinaryOp env loc code op0 op1 = none := by
  rw [Option.eq_none_iff_forall_ne_some]
  intro u hu
  simp only [czetRewriteBinaryOp, Option.bind_eq_bind, Option.bind_eq_some_iff] at hu
  obtain ⟨suffix, -, _, hguard, -⟩ := hu
  rcases h with h | h <;> simp [guard, h] at hguard

private theorem modify_rejects (loc : Nat) (code : TreeCode) (lhs rhs : Tree)
    (h : czetOperableType lhs.type = false ∨ czetOperableType rhs.type = false) :
    czetRewriteModifyExpr env loc lhs code rhs = none := by
  rw [Option.eq_none_iff_forall_ne_some]
  intro u hu
  simp only [czetRewriteModifyExpr, Option.bind_eq_bind, Option.bind_eq_some_iff] at hu
  obtain ⟨suffix, -, _, hleft, _, hright, -⟩ := hu
  rcases h with h | h
  · simp [guard, h] at hleft
  · simp [guard, h] at hright

private theorem structOrUnionP_operable {type : CType} (h : czetOperableType type = false) :
    structOrUnionP type = false := by
  cases type with
  | record | union => cases h
  | _ => rfl

theorem Use.build_inoperable (use : Use) (h : czetOperableType t.type = false) :
    use.build env t = none := by
  cases use with
  | member field type => simp [Use.build, structOrUnionP_operable h]
  | unary loc code => exact unary_rejects loc code h
  | binaryLeft loc code op1 => exact binary_rejects loc code t op1 (Or.inl h)
  | binaryRight loc code op0 => exact binary_rejects loc code op0 t (Or.inr h)
  | modifyLeft loc code rhs => exact modify_rejects loc code t rhs (Or.inl h)
  | modifyRight loc code lhs => exact modify_rejects loc code lhs t (Or.inr h)
  | assigned target => simp [Use.build, h]

theorem surround_inoperable {uses : List Use} (huses : uses ≠ [])
    (h : czetOperableType t.type = false) : surround env uses t = none := by
  cases uses with
  | nil => exact absurd rfl huses
  | cons use uses =>
      rw [surround, use.build_inoperable h]
      rfl

end Rejection

theorem modify_is_call {env : OpEnv} {loc : Nat} {lhs rhs t : Tree} {code : TreeCode}
    (h : czetRewriteModifyExpr env loc lhs code rhs = some t) :
    ∃ suffix fn a0 a1, modifySuffix code = some suffix ∧
      env.czetLookupOperator lhs.type suffix = some fn ∧ t = .callExpr loc fn [a0, a1] := by
  simp only [czetRewriteModifyExpr, Option.bind_eq_bind, Option.bind_eq_some_iff] at h
  obtain ⟨suffix, hsuffix, -, -, -, -, fn, hfn, -, -, m1, -, a0, -, a1, -, ht⟩ := h
  exact ⟨suffix, fn, a0, a1, hsuffix, hfn, (Option.some.inj ht).symm⟩

private theorem pointer_ne (type : CType) : CType.pointer type ≠ type := by
  intro h
  have hsize : sizeOf (CType.pointer type) = sizeOf type := congrArg sizeOf h
  simp at hsize

/-- A compound assignment whose overload returns a pointer to its first operand has the type of
that pointer and designates no object, and no tree is built for an expression in which it is an
operand of a member access, of an overloaded operator or of an assignment. -/
theorem compound_assignment_never_yields_left {Addr Val Mem : Type} (M : Machine Addr Val Mem)
    (env : OpEnv) (loc : Nat) (lhs rhs t : Tree) (code : TreeCode) (suffix : String) (fn : FnDecl)
    (hsuffix : czetCompoundOpSuffix code = some suffix)
    (hfn : env.czetLookupOperator lhs.type suffix = some fn)
    (hret : fn.ret = .pointer lhs.type)
    (hbuild : czetRewriteModifyExpr env loc lhs code rhs = some t) :
    ¬ YieldsLeft M lhs t ∧ (∀ s a, (eval M t s).1 ≠ .place a) ∧
      ∀ uses : List Use, uses ≠ [] → surround env uses t = none := by
  obtain ⟨suffix', fn', a0, a1, hsuffix', hfn', rfl⟩ := modify_is_call hbuild
  have hcode : code ≠ .nop := by
    rintro rfl
    cases hsuffix
  rw [modifySuffix, if_neg hcode, hsuffix] at hsuffix'
  obtain rfl : suffix = suffix' := Option.some.inj hsuffix'
  obtain rfl : fn = fn' := Option.some.inj (hfn.symm.trans hfn')
  refine ⟨?_, ?_, ?_⟩
  · intro h
    have htype : fn.ret = lhs.type := h.type
    rw [hret] at htype
    exact pointer_ne lhs.type htype
  · intro s a h
    rw [eval] at h
    cases h
  · intro uses huses
    apply surround_inoperable huses
    show czetOperableType fn.ret = false
    rw [hret]
    rfl

/-- One struct type with `+=` and `-=`, which return their first operand. -/
def accumulatorEnv : OpEnv where
  czetLookupOperator type suffix :=
    if type = .record 0 then
      if suffix = "plus_assign" then some ⟨2, .pointer (.record 0)⟩
      else if suffix = "minus_assign" then some ⟨3, .pointer (.record 0)⟩ else none
    else none
  completeType _ := true
  cfun := true
  returns_no_value := by
    intro type suffix fn h hmem
    split at h
    · split at h
      · simp_all
      · split at h
        · simp_all
        · cases h
    · cases h

/-- A memory of numbers in which the overloads change their first operand and return it. -/
def accumulatorMachine : Machine Nat Nat (Nat → Nat) :=
  { countingMachine with
    call := fun fn args mem =>
      let a := args.headD 0
      let b := args.getD 1 0
      (a, fun c => if c = a then if fn.uid = 2 then mem a + mem b else mem a - mem b else mem c) }

/-- `a += b`, and the rest of `(a += b) -= c`. -/
theorem chained_assignment_rejected :
    ∃ t, czetRewriteModifyExpr accumulatorEnv 0 (.varDecl 10 (.record 0)) .plus
        (.varDecl 11 (.record 0)) = some t ∧
      t.type = .pointer (.record 0) ∧
      ¬ YieldsLeft accumulatorMachine (.varDecl 10 (.record 0)) t ∧
      czetRewriteModifyExpr accumulatorEnv 1 t .minus (.varDecl 12 (.record 0)) = none ∧
      (czetRewriteModifyExpr accumulatorEnv 1 (.varDecl 10 (.record 0)) .minus
        (.varDecl 12 (.record 0))).isSome = true := by
  refine ⟨_, rfl, rfl, ?_, rfl, rfl⟩
  intro h
  exact absurd h.type (by decide)

theorem member_of_sum_rejected :
    ∃ t, czetRewriteModifyExpr accumulatorEnv 0 (.varDecl 10 (.record 0)) .plus
        (.varDecl 11 (.record 0)) = some t ∧
      surround accumulatorEnv [.member 0 (.scalar 0)] t = none :=
  ⟨_, rfl, (compound_assignment_never_yields_left accumulatorMachine accumulatorEnv 0
    (.varDecl 10 (.record 0)) (.varDecl 11 (.record 0)) _ .plus "plus_assign"
    ⟨2, .pointer (.record 0)⟩ rfl rfl rfl rfl).2.2 _ (by simp)⟩

end CZet.Operator
