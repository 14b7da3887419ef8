/- source: src/gcc/gcc/c/c-fold.cc (c_fully_fold, c_fully_fold_internal)
   digest: The flag for "not permitted in constant expressions" is only ever cleared exactly when
     no constexpr call that folds comes after something that cleared it. -/

set_option autoImplicit false
set_option relaxedAutoImplicit false

namespace CZet.Constexpr

inductive UnaryKind
  | component | address | part | value
  deriving DecidableEq, Repr

/-- `op0_lval` of a unary operation that is itself folded as an lvalue or not. -/
def UnaryKind.operandLval : UnaryKind → Bool → Bool
  | .component, lval | .part, lval => lval
  | .address, _ => true
  | .value, _ => false

inductive BinaryKind
  | modify | increment | compound | arrayRef | arithmetic
  deriving DecidableEq, Repr

def BinaryKind.operandLval : BinaryKind → Bool → Bool
  | .modify, _ | .increment, _ => true
  | .arrayRef, lval => lval
  | .compound, _ | .arithmetic, _ => false

/-- Assignments, increments and the comma operator cannot occur in constant expressions. -/
def BinaryKind.clears : BinaryKind → Bool
  | .modify | .increment | .compound => true
  | .arrayRef | .arithmetic => false

inductive ShortCircuit
  | truthAndIf | truthOrIf
  deriving DecidableEq, Repr

/-- Expressions by the case of `c_fully_fold_internal` that handles them.  `nonConst` stands for
`VA_ARG_EXPR`, `TARGET_EXPR`, `BIND_EXPR` and `OBJ_TYPE_REF`, `plain` for compound literals and the
codes that are left alone.  `folded` is the flag of a `SAVE_EXPR` when the walk meets it. -/
inductive FoldExpr (L C K : Type)
  | leaf (l : L)
  | call (c : C)
  | maybeConst (k : K) (isNonConst intOperands : Bool) (inner : FoldExpr L C K)
  | nonConst (k : K)
  | plain (k : K)
  | unary (k : K) (kind : UnaryKind) (op0 : FoldExpr L C K)
  | binary (k : K) (kind : BinaryKind) (op0 op1 : FoldExpr L C K)
  | shortCircuit (k : K) (code : ShortCircuit) (op0 op1 : FoldExpr L C K)
  | cond (k : K) (op0 op1 op2 : FoldExpr L C K)
  | vecCond (k : K) (op0 op1 op2 : FoldExpr L C K)
  | saveExpr (k : K) (folded : Bool) (op0 : FoldExpr L C K)

/-- The rest of the folder: the values of declarations, the evaluator of constexpr calls, the folding
of one operator over folded operands, and the tree of an expression that is not folded. -/
structure Folding (L C K T : Type) where
  flagIsoczet : Bool
  flagIsoc99 : Bool
  declValue : L → Bool → T
  cFoldConstexprCall : C → Option T
  fold : FoldExpr L C K → List T → T
  asIs : FoldExpr L C K → T
  isIntegerCst : T → Bool
  isTrueNode : T → Bool
  isFalseNode : T → Bool

/-- `*maybe_const_operands` and `*maybe_const_itself`. -/
structure ConstFlags where
  operands : Bool
  itself : Bool
  deriving DecidableEq, Repr

section Folder

variable {L C K T : Type} (F : Folding L C K T)

/-- The operand decides the operator without the second one. -/
def Folding.decides (code : ShortCircuit) (op0 : T) : Bool :=
  match code with
  | .truthAndIf => F.isFalseNode op0
  | .truthOrIf => F.isTrueNode op0

def Folding.constexprCall (c : C) : Option T :=
  if F.flagIsoczet then F.cFoldConstexprCall c else none

/-- The operands keep an expression with integer constant operands from being folded. -/
def Folding.stuckShort (code : ShortCircuit) (op0 op1 : T) : Bool :=
  !F.isIntegerCst op0 || (!F.decides code op0 && !F.isIntegerCst op1)

def Folding.stuckCond (op0 op1 op2 : T) : Bool :=
  !F.isIntegerCst op0 ||
    if F.isTrueNode op0 then !F.isIntegerCst op1 else !F.isIntegerCst op2

/-- `c_fully_fold_internal` with `for_int_const` and `lval`. -/
def cFullyFoldInternal : FoldExpr L C K → Bool → Bool → ConstFlags → T × ConstFlags
  | .leaf l, _, lval, s => (F.declValue l lval, s)
  | .call c, _, _, s =>
      match F.constexprCall c with
      | some folded => (folded, { s with operands := true })
      | none => (F.fold (.call c) [], { s with operands := false })
  | .maybeConst k isNonConst intOperands inner, _, lval, s =>
      let s : ConstFlags := if isNonConst then { s with operands := false } else s
      if intOperands then
        let r := cFullyFoldInternal inner true lval { s with itself := false }
        (F.fold (.maybeConst k isNonConst intOperands inner) [r.1], r.2)
      else (F.fold (.maybeConst k isNonConst intOperands inner) [F.asIs inner], s)
  | .nonConst k, _, _, s => (F.fold (.nonConst k) [], { s with operands := false })
  | .plain k, _, _, s => (F.asIs (.plain k), s)
  | .unary k kind op0, forIntConst, lval, s =>
      let r0 := cFullyFoldInternal op0 forIntConst (kind.operandLval lval) s
      if forIntConst && kind != .component && !F.isIntegerCst r0.1 then
        (F.asIs (.unary k kind op0), r0.2)
      else (F.fold (.unary k kind op0) [r0.1], r0.2)
  | .binary k kind op0 op1, forIntConst, lval, s =>
      let s : ConstFlags := if kind.clears then { s with operands := false } else s
      let r0 := cFullyFoldInternal op0 forIntConst (kind.operandLval lval) s
      -- the right side of an assignment was folded when the assignment was built
      let r1 := if kind = .modify then (F.asIs op1, r0.2)
        else cFullyFoldInternal op1 forIntConst false r0.2
      if forIntConst && kind != .arrayRef && (!F.isIntegerCst r0.1 || !F.isIntegerCst r1.1) then
        (F.asIs (.binary k kind op0 op1), r1.2)
      else (F.fold (.binary k kind op0 op1) [r0.1, r1.1], r1.2)
  | .shortCircuit k code op0 op1, forIntConst, _, s =>
      let r0 := cFullyFoldInternal op0 forIntConst false ⟨true, true⟩
      let r1 := cFullyFoldInternal op1 forIntConst false ⟨true, true⟩
      if forIntConst && F.stuckShort code r0.1 r1.1 then
        (F.asIs (.shortCircuit k code op0 op1), s)
      else
        let decided := r0.2.operands && r0.2.itself && F.decides code r0.1
        (F.fold (.shortCircuit k code op0 op1) [r0.1, r1.1],
          { operands := s.operands && r0.2.operands &&
              if F.flagIsoc99 && decided then true else r1.2.operands
            itself := s.itself && r0.2.itself && if decided then true else r1.2.itself })
  | .cond k op0 op1 op2, forIntConst, _, s =>
      let r0 := cFullyFoldInternal op0 forIntConst false ⟨true, true⟩
      let r1 := cFullyFoldInternal op1 forIntConst false ⟨true, true⟩
      let r2 := cFullyFoldInternal op2 forIntConst false ⟨true, true⟩
      if forIntConst && F.stuckCond r0.1 r1.1 r2.1 then (F.asIs (.cond k op0 op1 op2), s)
      else
        let known := r0.2.operands && r0.2.itself
        let no1 := known && F.isFalseNode r0.1
        let no2 := known && F.isTrueNode r0.1
        (F.fold (.cond k op0 op1 op2) [r0.1, r1.1, r2.1],
          { operands := s.operands && r0.2.operands &&
              (if F.flagIsoc99 && no1 then true else r1.2.operands) &&
              if F.flagIsoc99 && no2 then true else r2.2.operands
            itself := s.itself && r0.2.itself && (if no1 then true else r1.2.itself) &&
              if no2 then true else r2.2.itself })
  | .vecCond k op0 op1 op2, forIntConst, _, s =>
      let r0 := cFullyFoldInternal op0 forIntConst false s
      let r1 := cFullyFoldInternal op1 forIntConst false r0.2
      let r2 := cFullyFoldInternal op2 forIntConst false r1.2
      (F.fold (.vecCond k op0 op1 op2) [r0.1, r1.1, r2.1], r2.2)
  | .saveExpr k folded op0, forIntConst, _, s =>
      if folded then (F.fold (.saveExpr k folded op0) [F.asIs op0], s)
      else
        let r0 := cFullyFoldInternal op0 forIntConst false s
        (F.fold (.saveExpr k folded op0) [r0.1], r0.2)

/-- `c_fully_fold` behind an `EXCESS_PRECISION_EXPR`. -/
def cFullyFold (e : FoldExpr L C K) (lval maybeConst : Bool) : T × Bool :=
  let r := cFullyFoldInternal F e false lval ⟨maybeConst, true⟩
  (r.1, r.2.operands && r.2.itself)

/-- The tree that an expression is folded to. -/
def foldedTo : FoldExpr L C K → Bool → Bool → T
  | .leaf l, _, lval => F.declValue l lval
  | .call c, _, _ => (F.constexprCall c).getD (F.fold (.call c) [])
  | .maybeConst k isNonConst intOperands inner, _, lval =>
      F.fold (.maybeConst k isNonConst intOperands inner)
        [if intOperands then foldedTo inner true lval else F.asIs inner]
  | .nonConst k, _, _ => F.fold (.nonConst k) []
  | .plain k, _, _ => F.asIs (.plain k)
  | .unary k kind op0, forIntConst, lval =>
      let t0 := foldedTo op0 forIntConst (kind.operandLval lval)
      if forIntConst && kind != .component && !F.isIntegerCst t0 then F.asIs (.unary k kind op0)
      else F.fold (.unary k kind op0) [t0]
  | .binary k kind op0 op1, forIntConst, lval =>
      let t0 := foldedTo op0 forIntConst (kind.operandLval lval)
      let t1 := if kind = .modify then F.asIs op1 else foldedTo op1 forIntConst false
      if forIntConst && kind != .arrayRef && (!F.isIntegerCst t0 || !F.isIntegerCst t1) then
        F.asIs (.binary k kind op0 op1)
      else F.fold (.binary k kind op0 op1) [t0, t1]
  | .shortCircuit k code op0 op1, forIntConst, _ =>
      let t0 := foldedTo op0 forIntConst false
      let t1 := foldedTo op1 forIntConst false
      if forIntConst && F.stuckShort code t0 t1 then F.asIs (.shortCircuit k code op0 op1)
      else F.fold (.shortCircuit k code op0 op1) [t0, t1]
  | .cond k op0 op1 op2, forIntConst, _ =>
      let t0 := foldedTo op0 forIntConst false
      let t1 := foldedTo op1 forIntConst false
      let t2 := foldedTo op2 forIntConst false
      if forIntConst && F.stuckCond t0 t1 t2 then F.asIs (.cond k op0 op1 op2)
      else F.fold (.cond k op0 op1 op2) [t0, t1, t2]
  | .vecCond k op0 op1 op2, forIntConst, _ =>
      F.fold (.vecCond k op0 op1 op2) [foldedTo op0 forIntConst false,
        foldedTo op1 forIntConst false, foldedTo op2 forIntConst false]
  | .saveExpr k folded op0, forIntConst, _ =>
      F.fold (.saveExpr k folded op0)
        [if folded then F.asIs op0 else foldedTo op0 forIntConst false]

/-- The walk leaves a flag that is false alone. -/
def Kept (e : FoldExpr L C K) (forIntConst lval : Bool) (s : ConstFlags) : Prop :=
  s.operands = false → (cFullyFoldInternal F e forIntConst lval s).2.operands = false

/-- No call of `c_fully_fold_internal` in the walk changes its flag from false to true. -/
def OnlyCleared : FoldExpr L C K → Bool → Bool → ConstFlags → Prop
  | .leaf l, forIntConst, lval, s => Kept F (.leaf l) forIntConst lval s
  | .call c, forIntConst, lval, s => Kept F (.call c) forIntConst lval s
  | .maybeConst k isNonConst intOperands inner, forIntConst, lval, s =>
      Kept F (.maybeConst k isNonConst intOperands inner) forIntConst lval s ∧
        (intOperands = true → OnlyCleared inner true lval ⟨s.operands && !isNonConst, false⟩)
  | .nonConst k, forIntConst, lval, s => Kept F (.nonConst k) forIntConst lval s
  | .plain k, forIntConst, lval, s => Kept F (.plain k) forIntConst lval s
  | .unary k kind op0, forIntConst, lval, s =>
      Kept F (.unary k kind op0) forIntConst lval s ∧
        OnlyCleared op0 forIntConst (kind.operandLval lval) s
  | .binary k kind op0 op1, forIntConst, lval, s =>
      let s' : ConstFlags := ⟨s.operands && !kind.clears, s.itself⟩
      Kept F (.binary k kind op0 op1) forIntConst lval s ∧
        OnlyCleared op0 forIntConst (kind.operandLval lval) s' ∧
        (kind ≠ .modify → OnlyCleared op1 forIntConst false
          (cFullyFoldInternal F op0 forIntConst (kind.operandLval lval) s').2)
  | .shortCircuit k code op0 op1, forIntConst, lval, s =>
      Kept F (.shortCircuit k code op0 op1) forIntConst lval s ∧
        OnlyCleared op0 forIntConst false ⟨true, true⟩ ∧
        OnlyCleared op1 forIntConst false ⟨true, true⟩
  | .cond k op0 op1 op2, forIntConst, lval, s =>
      Kept F (.cond k op0 op1 op2) forIntConst lval s ∧
        OnlyCleared op0 forIntConst false ⟨true, true⟩ ∧
        OnlyCleared op1 forIntConst false ⟨true, true⟩ ∧
        OnlyCleared op2 forIntConst false ⟨true, true⟩
  | .vecCond k op0 op1 op2, forIntConst, lval, s =>
      let r0 := cFullyFoldInternal F op0 forIntConst false s
      let r1 := cFullyFoldInternal F op1 forIntConst false r0.2
      Kept F (.vecCond k op0 op1 op2) forIntConst lval s ∧ OnlyCleared op0 forIntConst false s ∧
        OnlyCleared op1 forIntConst false r0.2 ∧ OnlyCleared op2 forIntConst false r1.2
  | .saveExpr k folded op0, forIntConst, lval, s =>
      Kept F (.saveExpr k folded op0) forIntConst lval s ∧
        (folded = false → OnlyCleared op0 forIntConst false s)

/-- The operator or call itself is not permitted in constant expressions. -/
def FoldExpr.NonConstant : FoldExpr L C K → Prop
  | .call c => F.constexprCall c = none
  | .maybeConst _ isNonConst _ _ => isNonConst = true
  | .nonConst _ => True
  | .binary _ kind _ _ => kind.clears = true
  | _ => False

/-- The evaluated subexpressions.  What is inside a `C_MAYBE_CONST_EXPR` without integer operands or
a folded `SAVE_EXPR` was folded and judged before. -/
inductive Evaluated (F : Folding L C K T) : FoldExpr L C K → Bool → Bool → FoldExpr L C K → Prop
  | here (e : FoldExpr L C K) (forIntConst lval : Bool) : Evaluated F e forIntConst lval e
  | inner {k : K} {isNonConst : Bool} {e x : FoldExpr L C K} {forIntConst lval : Bool}
      (h : Evaluated F e true lval x) :
      Evaluated F (.maybeConst k isNonConst true e) forIntConst lval x
  | unary {k : K} {kind : UnaryKind} {op0 x : FoldExpr L C K} {forIntConst lval : Bool}
      (h : Evaluated F op0 forIntConst (kind.operandLval lval) x) :
      Evaluated F (.unary k kind op0) forIntConst lval x
  | left {k : K} {kind : BinaryKind} {op0 op1 x : FoldExpr L C K} {forIntConst lval : Bool}
      (h : Evaluated F op0 forIntConst (kind.operandLval lval) x) :
      Evaluated F (.binary k kind op0 op1) forIntConst lval x
  | right {k : K} {kind : BinaryKind} {op0 op1 x : FoldExpr L C K} {forIntConst lval : Bool}
      (h : Evaluated F op1 forIntConst false x) :
      Evaluated F (.binary k kind op0 op1) forIntConst lval x
  | first {k : K} {code : ShortCircuit} {op0 op1 x : FoldExpr L C K} {forIntConst lval : Bool}
      (h : Evaluated F op0 forIntConst false x) :
      Evaluated F (.shortCircuit k code op0 op1) forIntConst lval x
  | second {k : K} {code : ShortCircuit} {op0 op1 x : FoldExpr L C K} {forIntConst lval : Bool}
      (hopen : F.decides code (foldedTo F op0 forIntConst false) = false)
      (h : Evaluated F op1 forIntConst false x) :
      Evaluated F (.shortCircuit k code op0 op1) forIntConst lval x
  | condition {k : K} {op0 op1 op2 x : FoldExpr L C K} {forIntConst lval : Bool}
      (h : Evaluated F op0 forIntConst false x) :
      Evaluated F (.cond k op0 op1 op2) forIntConst lval x
  | ifTrue {k : K} {op0 op1 op2 x : FoldExpr L C K} {forIntConst lval : Bool}
      (hopen : F.isFalseNode (foldedTo F op0 forIntConst false) = false)
      (h : Evaluated F op1 forIntConst false x) :
      Evaluated F (.cond k op0 op1 op2) forIntConst lval x
  | ifFalse {k : K} {op0 op1 op2 x : FoldExpr L C K} {forIntConst lval : Bool}
      (hopen : F.isTrueNode (foldedTo F op0 forIntConst false) = false)
      (h : Evaluated F op2 forIntConst false x) :
      Evaluated F (.cond k op0 op1 op2) forIntConst lval x
  | vector0 {k : K} {op0 op1 op2 x : FoldExpr L C K} {forIntConst lval : Bool}
      (h : Evaluated F op0 forIntConst false x) :
      Evaluated F (.vecCond k op0 op1 op2) forIntConst lval x
  | vector1 {k : K} {op0 op1 op2 x : FoldExpr L C K} {forIntConst lval : Bool}
      (h : Evaluated F op1 forIntConst false x) :
      Evaluated F (.vecCond k op0 op1 op2) forIntConst lval x
  | vector2 {k : K} {op0 op1 op2 x : FoldExpr L C K} {forIntConst lval : Bool}
      (h : Evaluated F op2 forIntConst false x) :
      Evaluated F (.vecCond k op0 op1 op2) forIntConst lval x
  | saved {k : K} {op0 x : FoldExpr L C K} {forIntConst lval : Bool}
      (h : Evaluated F op0 forIntConst false x) :
      Evaluated F (.saveExpr k false op0) forIntConst lval x

/-- `c_fully_fold` reports a possible constant only for expressions without evaluated operators or
calls that are not permitted. -/
def ReportSound (e : FoldExpr L C K) (lval maybeConst : Bool) : Prop :=
  (cFullyFold F e lval maybeConst).2 = true → ∀ x, Evaluated F e false lval x → ¬ x.NonConstant F

/-- The flags that the operators and the ordinary calls of an expression call for. -/
def deserved : FoldExpr L C K → Bool → Bool → ConstFlags
  | .leaf _, _, _ | .plain _, _, _ => ⟨true, true⟩
  | .call c, _, _ => ⟨(F.constexprCall c).isSome, true⟩
  | .maybeConst _ isNonConst intOperands inner, _, lval =>
      ⟨!isNonConst && (!intOperands || (deserved inner true lval).operands), !intOperands⟩
  | .nonConst _, _, _ => ⟨false, true⟩
  | .unary _ kind op0, forIntConst, lval => deserved op0 forIntConst (kind.operandLval lval)
  | .binary _ kind op0 op1, forIntConst, lval =>
      let d0 := deserved op0 forIntConst (kind.operandLval lval)
      let d1 := if kind = .modify then ⟨true, true⟩ else deserved op1 forIntConst false
      ⟨!kind.clears && d0.operands && d1.operands, d0.itself && d1.itself⟩
  | .shortCircuit _ code op0 op1, forIntConst, _ =>
      let d0 := deserved op0 forIntConst false
      let d1 := deserved op1 forIntConst false
      let t0 := foldedTo F op0 forIntConst false
      let t1 := foldedTo F op1 forIntConst false
      if forIntConst && F.stuckShort code t0 t1 then ⟨true, true⟩
      else
        let decided := d0.operands && d0.itself && F.decides code t0
        ⟨d0.operands && if F.flagIsoc99 && decided then true else d1.operands,
          d0.itself && if decided then true else d1.itself⟩
  | .cond _ op0 op1 op2, forIntConst, _ =>
      let d0 := deserved op0 forIntConst false
      let d1 := deserved op1 forIntConst false
      let d2 := deserved op2 forIntConst false
      let t0 := foldedTo F op0 forIntConst false
      let t1 := foldedTo F op1 forIntConst false
      let t2 := foldedTo F op2 forIntConst false
      if forIntConst && F.stuckCond t0 t1 t2 then ⟨true, true⟩
      else
        let known := d0.operands && d0.itself
        let no1 := known && F.isFalseNode t0
        let no2 := known && F.isTrueNode t0
        ⟨d0.operands && (if F.flagIsoc99 && no1 then true else d1.operands) &&
            if F.flagIsoc99 && no2 then true else d2.operands,
          d0.itself && (if no1 then true else d1.itself) && if no2 then true else d2.itself⟩
  | .vecCond _ op0 op1 op2, forIntConst, _ =>
      let d0 := deserved op0 forIntConst false
      let d1 := deserved op1 forIntConst false
      let d2 := deserved op2 forIntConst false
      ⟨d0.operands && d1.operands && d2.operands, d0.itself && d1.itself && d2.itself⟩
  | .saveExpr _ folded op0, forIntConst, _ =>
      if folded then ⟨true, true⟩ else deserved op0 forIntConst false

/-- No constexpr call that folds comes, in the order of the walk, after an operator or call that
clears the flag they share; `flag` is what the flag is before the expression. -/
def CallsComeFirst : FoldExpr L C K → Bool → Bool → Bool → Prop
  | .leaf _, _, _, _ | .plain _, _, _, _ | .nonConst _, _, _, _ => True
  | .call c, _, _, flag => (F.constexprCall c).isSome = true → flag = true
  | .maybeConst _ isNonConst intOperands inner, _, lval, flag =>
      intOperands = true → CallsComeFirst inner true lval (flag && !isNonConst)
  | .unary _ kind op0, forIntConst, lval, flag =>
      CallsComeFirst op0 forIntConst (kind.operandLval lval) flag
  | .binary _ kind op0 op1, forIntConst, lval, flag =>
      CallsComeFirst op0 forIntConst (kind.operandLval lval) (flag && !kind.clears) ∧
        (kind ≠ .modify → CallsComeFirst op1 forIntConst false
          (flag && !kind.clears && (deserved F op0 forIntConst (kind.operandLval lval)).operands))
  | .shortCircuit _ _ op0 op1, forIntConst, _, _ =>
      -- these operands have flags of their own, which start out true
      CallsComeFirst op0 forIntConst false true ∧ CallsComeFirst op1 forIntConst false true
  | .cond _ op0 op1 op2, forIntConst, _, _ =>
      CallsComeFirst op0 forIntConst false true ∧ CallsComeFirst op1 forIntConst false true ∧
        CallsComeFirst op2 forIntConst false true
  | .vecCond _ op0 op1 op2, forIntConst, _, flag =>
      CallsComeFirst op0 forIntConst false flag ∧
        CallsComeFirst op1 forIntConst false
          (flag && (deserved F op0 forIntConst false).operands) ∧
        CallsComeFirst op2 forIntConst false
          (flag && (deserved F op0 forIntConst false).operands &&
            (deserved F op1 forIntConst false).operands)
  | .saveExpr _ folded op0, forIntConst, _, flag =>
      folded = false → CallsComeFirst op0 forIntConst false flag

end Folder

section Walk

variable {L C K T : Type} {F : Folding L C K T}

/-- Until a constexpr call raises the flag, the walk clears what the expression calls for. -/
theorem walk_deserved (e : FoldExpr L C K) (forIntConst lval : Bool) (s : ConstFlags)
    (h : CallsComeFirst F e forIntConst lval s.operands) :
    cFullyFoldInternal F e forIntConst lval s =
      (foldedTo F e forIntConst lval,
        ⟨s.operands && (deserved F e forIntConst lval).operands,
          s.itself && (deserved F e forIntConst lval).itself⟩) := by
  induction e generalizing forIntConst lval s with
  | leaf l => simp [cFullyFoldInternal, foldedTo, deserved]
  | plain k => simp [cFullyFoldInternal, foldedTo, deserved]
  | nonConst k => simp [cFullyFoldInternal, foldedTo, deserved]
  | call c =>
      cases hcall : F.constexprCall c with
      | none => simp [cFullyFoldInternal, foldedTo, deserved, hcall]
      | some t =>
          have hflag : s.operands = true := h (by simp [hcall])
          simp [cFullyFoldInternal, foldedTo, deserved, hcall, hflag]
  | maybeConst k isNonConst intOperands inner ih =>
      cases intOperands with
      | false => cases isNonConst <;> simp [cFullyFoldInternal, foldedTo, deserved]
      | true =>
          have hinner := ih true lval ⟨s.operands && !isNonConst, false⟩ (h rfl)
          cases isNonConst <;>
            simp_all [cFullyFoldInternal, foldedTo, deserved]
  | unary k kind op0 ih =>
      have h0 := ih forIntConst (kind.operandLval lval) s h
      simp only [cFullyFoldInternal, foldedTo, deserved, h0]
      split <;> rfl
  | binary k kind op0 op1 ih0 ih1 =>
      obtain ⟨hfirst, hsecond⟩ := h
      have hclear : (if kind.clears = true then { s with operands := false } else s) =
          (⟨s.operands && !kind.clears, s.itself⟩ : ConstFlags) := by
        cases hkind : kind.clears <;> simp
      have h0 := ih0 forIntConst (kind.operandLval lval) ⟨s.operands && !kind.clears, s.itself⟩
        hfirst
      simp only [cFullyFoldInternal, foldedTo, deserved, hclear, h0]
      by_cases hmodify : kind = .modify
      · simp only [if_pos hmodify, Bool.and_true, Bool.and_assoc]
        split <;> rfl
      · have h1 := ih1 forIntConst false ⟨s.operands && !kind.clears &&
          (deserved F op0 forIntConst (kind.operandLval lval)).operands,
          s.itself && (deserved F op0 forIntConst (kind.operandLval lval)).itself⟩
          (hsecond hmodify)
        simp only [if_neg hmodify, h1]
        split <;> simp only [Bool.and_assoc]
  | shortCircuit k code op0 op1 ih0 ih1 =>
      have h0 := ih0 forIntConst false ⟨true, true⟩ h.1
      have h1 := ih1 forIntConst false ⟨true, true⟩ h.2
      simp only [cFullyFoldInternal, foldedTo, deserved, h0, h1, Bool.true_and]
      split
      · simp only [Bool.and_true]
      · simp only [Bool.and_assoc]
  | cond k op0 op1 op2 ih0 ih1 ih2 =>
      have h0 := ih0 forIntConst false ⟨true, true⟩ h.1
      have h1 := ih1 forIntConst false ⟨true, true⟩ h.2.1
      have h2 := ih2 forIntConst false ⟨true, true⟩ h.2.2
      simp only [cFullyFoldInternal, foldedTo, deserved, h0, h1, h2, Bool.true_and]
      split
      · simp only [Bool.and_true]
      · simp only [Bool.and_assoc]
  | vecCond k op0 op1 op2 ih0 ih1 ih2 =>
      obtain ⟨hfirst, hsecond, hthird⟩ := h
      have h0 := ih0 forIntConst false s hfirst
      have h1 := ih1 forIntConst false ⟨s.operands && (deserved F op0 forIntConst false).operands,
        s.itself && (deserved F op0 forIntConst false).itself⟩ hsecond
      have h2 := ih2 forIntConst false ⟨s.operands && (deserved F op0 forIntConst false).operands &&
        (deserved F op1 forIntConst false).operands, s.itself &&
        (deserved F op0 forIntConst false).itself && (deserved F op1 forIntConst false).itself⟩
        hthird
      simp only [cFullyFoldInternal, foldedTo, deserved, h0, h1, h2]
      simp only [Bool.and_assoc]
  | saveExpr k folded op0 ih =>
      cases folded with
      | true => simp [cFullyFoldInternal, foldedTo, deserved]
      | false =>
          have h0 := ih forIntConst false s (h rfl)
          simp [cFullyFoldInternal, foldedTo, deserved, h0]

private theorem kept_of_callsFirst {e : FoldExpr L C K} {forIntConst lval : Bool} {s : ConstFlags}
    (h : CallsComeFirst F e forIntConst lval s.operands) : Kept F e forIntConst lval s := by
  intro hfalse
  rw [walk_deserved e forIntConst lval s h]
  simp [hfalse]

theorem onlyCleared_of_callsFirst (e : FoldExpr L C K) (forIntConst lval : Bool) (s : ConstFlags)
    (h : CallsComeFirst F e forIntConst lval s.operands) : OnlyCleared F e forIntConst lval s := by
  induction e generalizing forIntConst lval s with
  | leaf | plain | nonConst | call => exact kept_of_callsFirst h
  | maybeConst k isNonConst intOperands inner ih =>
      refine ⟨kept_of_callsFirst h, ?_⟩
      intro hint
      exact ih true lval _ (h hint)
  | unary k kind op0 ih => exact ⟨kept_of_callsFirst h, ih _ _ _ h⟩
  | binary k kind op0 op1 ih0 ih1 =>
      refine ⟨kept_of_callsFirst h, ih0 _ _ _ h.1, ?_⟩
      intro hmodify
      apply ih1
      rw [walk_deserved op0 _ _ ⟨s.operands && !kind.clears, s.itself⟩ h.1]
      exact h.2 hmodify
  | shortCircuit k code op0 op1 ih0 ih1 =>
      exact ⟨kept_of_callsFirst h, ih0 _ _ _ h.1, ih1 _ _ _ h.2⟩
  | cond k op0 op1 op2 ih0 ih1 ih2 =>
      exact ⟨kept_of_callsFirst h, ih0 _ _ _ h.1, ih1 _ _ _ h.2.1, ih2 _ _ _ h.2.2⟩
  | vecCond k op0 op1 op2 ih0 ih1 ih2 =>
      have h0 := walk_deserved op0 forIntConst false s h.1
      have h1 := walk_deserved op1 forIntConst false
        ⟨s.operands && (deserved F op0 forIntConst false).operands,
          s.itself && (deserved F op0 forIntConst false).itself⟩ h.2.1
      refine ⟨kept_of_callsFirst h, ih0 _ _ _ h.1, ?_, ?_⟩
      · apply ih1
        rw [h0]
        exact h.2.1
      · apply ih2
        rw [h0, h1]
        exact h.2.2
  | saveExpr k folded op0 ih =>
      refine ⟨kept_of_callsFirst h, ?_⟩
      intro hfolded
      exact ih _ _ _ (h hfolded)

theorem callsFirst_of_onlyCleared (e : FoldExpr L C K) (forIntConst lval : Bool) (s : ConstFlags)
    (h : OnlyCleared F e forIntConst lval s) : CallsComeFirst F e forIntConst lval s.operands := by
  induction e generalizing forIntConst lval s with
  | leaf | plain | nonConst => trivial
  | call c =>
      intro hfolds
      obtain ⟨t, ht⟩ := Option.isSome_iff_exists.mp hfolds
      cases hflag : s.operands with
      | true => rfl
      | false =>
          have hkept : Kept F (.call c) forIntConst lval s := h
          have hraised := hkept hflag
          simp [cFullyFoldInternal, ht] at hraised
  | maybeConst k isNonConst intOperands inner ih =>
      intro hint
      exact ih true lval _ (h.2 hint)
  | unary k kind op0 ih => exact ih _ _ _ h.2
  | binary k kind op0 op1 ih0 ih1 =>
      obtain ⟨-, hfirst, hsecond⟩ := h
      have h0 := ih0 _ _ _ hfirst
      refine ⟨h0, ?_⟩
      intro hmodify
      have h1 := ih1 _ _ _ (hsecond hmodify)
      rw [walk_deserved op0 _ _ ⟨s.operands && !kind.clears, s.itself⟩ h0] at h1
      exact h1
  | shortCircuit k code op0 op1 ih0 ih1 => exact ⟨ih0 _ _ _ h.2.1, ih1 _ _ _ h.2.2⟩
  | cond k op0 op1 op2 ih0 ih1 ih2 =>
      exact ⟨ih0 _ _ _ h.2.1, ih1 _ _ _ h.2.2.1, ih2 _ _ _ h.2.2.2⟩
  | vecCond k op0 op1 op2 ih0 ih1 ih2 =>
      obtain ⟨-, hfirst, hsecond, hthird⟩ := h
      have h0 := ih0 _ _ _ hfirst
      have hwalk0 := walk_deserved op0 forIntConst false s h0
      have h1 := ih1 _ _ _ hsecond
      rw [hwalk0] at h1
      have hwalk1 := walk_deserved op1 forIntConst false
        ⟨s.operands && (deserved F op0 forIntConst false).operands,
          s.itself && (deserved F op0 forIntConst false).itself⟩ h1
      have h2 := ih2 _ _ _ hthird
      rw [hwalk0, hwalk1] at h2
      exact ⟨h0, h1, h2⟩
  | saveExpr k folded op0 ih =>
      intro hfolded
      exact ih _ _ _ (h.2 hfolded)

theorem deserved_constant (e : FoldExpr L C K) (lval : Bool)
    (hoperands : (deserved F e false lval).operands = true)
    (hitself : (deserved F e false lval).itself = true) (x : FoldExpr L C K)
    (hx : Evaluated F e false lval x) : ¬ x.NonConstant F := by
  induction e generalizing lval with
  | leaf | plain =>
      cases hx
      exact id
  | nonConst => cases hoperands
  | call c =>
      cases hx
      intro hnone
      have hsome : (F.constexprCall c).isSome = true := hoperands
      have hnone : F.constexprCall c = none := hnone
      rw [hnone] at hsome
      cases hsome
  | maybeConst k isNonConst intOperands inner ih =>
      simp only [deserved, Bool.and_eq_true, Bool.not_eq_true'] at hoperands hitself
      cases hx with
      | here =>
          intro hnonConst
          exact absurd hnonConst (by simp [hoperands.1, FoldExpr.NonConstant])
      | inner => cases hitself
  | unary k kind op0 ih =>
      cases hx with
      | here => exact id
      | unary h => exact ih _ hoperands hitself h
  | binary k kind op0 op1 ih0 ih1 =>
      simp only [deserved, Bool.and_eq_true, Bool.not_eq_true'] at hoperands hitself
      have hmodify : kind ≠ .modify := by
        rintro rfl
        exact absurd hoperands.1.1 (by decide)
      rw [if_neg hmodify] at hoperands hitself
      cases hx with
      | here =>
          intro hclears
          have hclears : kind.clears = true := hclears
          rw [hoperands.1.1] at hclears
          cases hclears
      | left h => exact ih0 _ hoperands.1.2 hitself.1 h
      | right h => exact ih1 _ hoperands.2 hitself.2 h
  | shortCircuit k code op0 op1 ih0 ih1 =>
      simp only [deserved, Bool.false_and, Bool.false_eq_true, if_false, Bool.and_eq_true]
        at hoperands hitself
      cases hx with
      | here => exact id
      | first h => exact ih0 _ hoperands.1 hitself.1 h
      | second hopen h =>
          simp only [hopen, Bool.false_eq_true, and_false, if_false] at hoperands hitself
          exact ih1 _ hoperands.2 hitself.2 h
  | cond k op0 op1 op2 ih0 ih1 ih2 =>
      simp only [deserved, Bool.false_and, Bool.false_eq_true, if_false, Bool.and_eq_true]
        at hoperands hitself
      cases hx with
      | here => exact id
      | condition h => exact ih0 _ hoperands.1.1 hitself.1.1 h
      | ifTrue hopen h =>
          simp only [hopen, Bool.false_eq_true, and_false, if_false] at hoperands hitself
          exact ih1 _ hoperands.1.2 hitself.1.2 h
      | ifFalse hopen h =>
          simp only [hopen, Bool.false_eq_true, and_false, if_false] at hoperands hitself
          exact ih2 _ hoperands.2 hitself.2 h
  | vecCond k op0 op1 op2 ih0 ih1 ih2 =>
      simp only [deserved, Bool.and_eq_true] at hoperands hitself
      cases hx with
      | here => exact id
      | vector0 h => exact ih0 _ hoperands.1.1 hitself.1.1 h
      | vector1 h => exact ih1 _ hoperands.1.2 hitself.1.2 h
      | vector2 h => exact ih2 _ hoperands.2 hitself.2 h
  | saveExpr k folded op0 ih =>
      cases hx with
      | here => exact id
      | saved h => exact ih _ hoperands hitself h

theorem report_sound_of_callsFirst {e : FoldExpr L C K} {lval maybeConst : Bool}
    (h : CallsComeFirst F e false lval maybeConst) : ReportSound F e lval maybeConst := by
  intro hreport x hx
  rw [cFullyFold, walk_deserved e false lval ⟨maybeConst, true⟩ h] at hreport
  simp only [Bool.and_eq_true, Bool.true_and] at hreport
  exact deserved_constant e lval hreport.1.2 hreport.2 x hx

end Walk

/-- The walk over an expression never changes a flag from false to true, and the report of
`c_fully_fold` is sound, exactly when no constexpr call that folds comes after an operator or a
call that clears the flag which they share. -/
theorem only_cleared_iff {L C K T : Type} (F : Folding L C K T) (e : FoldExpr L C K)
    (lval maybeConst : Bool) :
    (OnlyCleared F e false lval ⟨maybeConst, true⟩ ∧ ReportSound F e lval maybeConst) ↔
      CallsComeFirst F e false lval maybeConst := by
  constructor
  · rintro ⟨h, -⟩
    exact callsFirst_of_onlyCleared e false lval ⟨maybeConst, true⟩ h
  · intro h
    exact ⟨onlyCleared_of_callsFirst e false lval ⟨maybeConst, true⟩ h,
      report_sound_of_callsFirst h⟩

/-- Trees are constants or not; the constexpr call `f (n)` folds to `n`. -/
def toyFolding : Folding Nat Nat Unit (Option Nat) where
  flagIsoczet := true
  flagIsoc99 := true
  declValue _ _ := none
  cFoldConstexprCall c := some c
  fold _ _ := none
  asIs _ := none
  isIntegerCst := Option.isSome
  isTrueNode t := t == some 1
  isFalseNode t := t == some 0

/-- `x++ + f (3)`. -/
def incrementPlusCall : FoldExpr Nat Nat Unit :=
  .binary () .arithmetic (.binary () .increment (.leaf 0) (.leaf 1)) (.call 3)

theorem increment_plus_call_reported :
    (cFullyFold toyFolding incrementPlusCall false true).2 = true ∧
      ¬ ReportSound toyFolding incrementPlusCall false true ∧
      ¬ OnlyCleared toyFolding incrementPlusCall false false ⟨true, true⟩ := by
  have hreport : (cFullyFold toyFolding incrementPlusCall false true).2 = true := rfl
  refine ⟨hreport, ?_, ?_⟩
  · intro h
    apply h hreport (.binary () .increment (.leaf 0) (.leaf 1))
    · exact Evaluated.left (Evaluated.here _ _ _)
    · rfl
  · rintro ⟨-, -, hcall⟩
    exact absurd (hcall (by decide) rfl) (by decide)

end CZet.Constexpr
