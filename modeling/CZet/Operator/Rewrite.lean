/- source: src/gcc/gcc/c/c-typeck.cc (czet_binary_op_suffix .. czet_rewrite_modify_expr),
     src/gcc/gcc/c/c-decl.cc (czet_lookup_operator),
     src/gcc/gcc/c/c-parser.cc (c_parser_operator_definition)
   digest: Expressions with overloaded operators, and the trees that the operator rewriter
     builds for them. -/

import Mathlib.Data.List.Basic

set_option autoImplicit false
set_option relaxedAutoImplicit false

namespace CZet.Operator

/-- The main variants of the types that the rewriter tells apart. -/
inductive CType
  | scalar (kind : Nat)
  | record (tag : Nat)
  | union (tag : Nat)
  | enum (tag : Nat)
  | pointer (target : CType)
  | void
  deriving DecidableEq, Repr

def czetOperableType : CType → Bool
  | .record _ | .union _ | .enum _ => true
  | _ => false

/-- The expression codes that reach the rewriter; `nop` is the plain assignment. -/
inductive TreeCode
  | plus | minus | mult | truncDiv | exactDiv | rdiv | truncMod
  | eq | ne | lt | gt | le | ge | bitAnd | bitIor | bitXor | lshift | rshift
  | negate | truthNot | bitNot
  | preIncrement | postIncrement | preDecrement | postDecrement
  | nop
  deriving DecidableEq, Repr

def czetBinaryOpSuffix : TreeCode → Option String
  | .plus => some "plus"
  | .minus => some "minus"
  | .mult => some "mul"
  | .truncDiv | .exactDiv | .rdiv => some "div"
  | .truncMod => some "mod"
  | .eq => some "eq"
  | .ne => some "ne"
  | .lt => some "lt"
  | .gt => some "gt"
  | .le => some "le"
  | .ge => some "ge"
  | .bitAnd => some "bitand"
  | .bitIor => some "bitor"
  | .bitXor => some "xor"
  | .lshift => some "lshift"
  | .rshift => some "rshift"
  | _ => none

def czetCompoundOpSuffix (code : TreeCode) : Option String :=
  (czetBinaryOpSuffix code).map fun bin => bin ++ "_assign"

def czetUnaryOpSuffix : TreeCode → Option String
  | .negate => some "uminus"
  | .truthNot => some "lnot"
  | .bitNot => some "bitnot"
  | .preIncrement | .postIncrement => some "pp"
  | .preDecrement | .postDecrement => some "mm"
  | _ => none

/-- The suffix of an assignment: `=`, or a compound assignment. -/
def modifySuffix (code : TreeCode) : Option String :=
  if code = .nop then some "assign" else czetCompoundOpSuffix code

def isPostfix (code : TreeCode) : Bool :=
  decide (code = .postIncrement ∨ code = .postDecrement)

def mutating (code : TreeCode) : Bool :=
  decide (code = .preIncrement ∨ code = .preDecrement) || isPostfix code

/-- The `FUNCTION_DECL` of an overload. -/
structure FnDecl where
  uid : Nat
  ret : CType
  deriving DecidableEq, Repr

/-- `nptr` pointer declarators around a type. -/
def pointers : Nat → CType → CType
  | 0, t => t
  | n + 1, t => .pointer (pointers n t)

/-- What the rewriter consults.  A definition of `++`, `--` or `=` is diagnosed unless its
specifiers say `void`; the pointer declarators behind them are not looked at. -/
structure OpEnv where
  czetLookupOperator : CType → String → Option FnDecl
  completeType : CType → Bool
  cfun : Bool
  returns_no_value : ∀ {type : CType} {suffix : String} {fn : FnDecl},
    czetLookupOperator type suffix = some fn → suffix ∈ ["pp", "mm", "assign"] →
    ∃ nptr, fn.ret = pointers nptr .void

/-- The trees that are built; `loc` is the location of the operator.  `create_tmp_var` makes a
new variable at every call; it is named by that location and the position of the operand. -/
inductive Tree
  | varDecl (uid : Nat) (type : CType)
  | oparg (loc pos : Nat) (type : CType)
  | opcopy (loc : Nat) (type : CType)
  | componentRef (base : Tree) (field : Nat) (type : CType)
  | arrayRef (base index : Tree) (type : CType)
  | indirectRef (pointer : Tree) (type : CType)
  | addrExpr (operand : Tree)
  | builtin (loc : Nat) (effect : Bool) (type : CType) (args : List Tree)
  | modifyExpr (tmp rhs : Tree)
  | compoundExpr (type : CType) (first second : Tree)
  | callExpr (loc : Nat) (fn : FnDecl) (args : List Tree)

def Tree.type : Tree → CType
  | .varDecl _ type | .oparg _ _ type | .opcopy _ type => type
  | .componentRef _ _ type | .arrayRef _ _ type | .indirectRef _ type => type
  | .addrExpr operand => .pointer operand.type
  | .builtin _ _ type _ => type
  | .modifyExpr tmp _ => tmp.type
  | .compoundExpr type _ _ => type
  | .callExpr _ fn _ => fn.ret

def czetLvalueP : Tree → Bool
  | .varDecl .. | .oparg .. | .opcopy .. => true
  | .componentRef .. | .indirectRef .. | .arrayRef .. => true
  | _ => false

/-- `lvalue_p`: the trees whose address `build_unary_op` takes. -/
def lvalueP : Tree → Bool
  | .varDecl .. | .oparg .. | .opcopy .. => true
  | .componentRef base _ _ => lvalueP base
  | .indirectRef .. | .arrayRef .. => true
  | _ => false

def buildAddr (operand : Tree) : Option Tree :=
  if lvalueP operand then some (.addrExpr operand) else none

def czetAddressableOperand (env : OpEnv) (loc pos : Nat) (operand : Tree) : Option Tree :=
  if czetLvalueP operand then some operand
  else if env.completeType operand.type && env.cfun then
    some (.compoundExpr operand.type (.modifyExpr (.oparg loc pos operand.type) operand)
      (.oparg loc pos operand.type))
  else none

def czetAddrOf (m : Tree) : Option Tree :=
  match m with
  | .compoundExpr _ init tmp =>
      (buildAddr tmp).map fun addr => .compoundExpr addr.type init addr
  | m => buildAddr m

/-- `czet_copy_to_temp`: the copy, and the temporary it yields. -/
def czetCopyToTemp (loc : Nat) (source : Tree) : Tree × Tree :=
  let tmp := Tree.opcopy loc source.type
  (.compoundExpr source.type (.modifyExpr tmp source) tmp, tmp)

def czetRewriteBinaryOp (env : OpEnv) (loc : Nat) (code : TreeCode) (op0 op1 : Tree) :
    Option Tree := do
  let suffix ← czetBinaryOpSuffix code
  guard (czetOperableType op0.type && czetOperableType op1.type)
  guard (op0.type = op1.type)
  let fndecl ← env.czetLookupOperator op0.type suffix
  let m0 ← czetAddressableOperand env loc 0 op0
  let m1 ← czetAddressableOperand env loc 1 op1
  let a0 ← czetAddrOf m0
  let a1 ← czetAddrOf m1
  pure (.callExpr loc fndecl [a0, a1])

def czetRewriteUnaryOp (env : OpEnv) (loc : Nat) (code : TreeCode) (arg : Tree) :
    Option Tree := do
  let suffix ← czetUnaryOpSuffix code
  guard (czetOperableType arg.type)
  let fndecl ← env.czetLookupOperator arg.type suffix
  let m0 ← czetAddressableOperand env loc 0 arg
  let a0 ← czetAddrOf m0
  let call := Tree.callExpr loc fndecl [a0]
  if mutating code && decide (fndecl.ret = .void) then
    if isPostfix code then
      let (old, tmp) := czetCopyToTemp loc m0
      pure (.compoundExpr arg.type (.compoundExpr .void old call) tmp)
    else pure (.compoundExpr arg.type call m0)
  else pure call

def czetRewriteModifyExpr (env : OpEnv) (loc : Nat) (lhs : Tree) (code : TreeCode) (rhs : Tree) :
    Option Tree := do
  let suffix ← modifySuffix code
  guard (czetOperableType lhs.type)
  guard (czetOperableType rhs.type && decide (lhs.type = rhs.type))
  let fndecl ← env.czetLookupOperator lhs.type suffix
  guard (czetLvalueP lhs)
  let m1 ← czetAddressableOperand env loc 1 rhs
  let a0 ← buildAddr lhs
  let a1 ← czetAddrOf m1
  -- TREE_TYPE (fndecl) is a FUNCTION_TYPE, so the test for a pointer never holds
  pure (.callExpr loc fndecl [a0, a1])

/-- The types of builtin expressions, none of which owns overloads. -/
inductive ScalarType
  | scalar (kind : Nat)
  | pointer (target : CType)

def ScalarType.type : ScalarType → CType
  | .scalar kind => .scalar kind
  | .pointer target => .pointer target

/-- Source expressions.  A builtin expression with a side effect, such as `i++`, takes the
address of the object it changes; `elem` takes an element of an array object, and `p[i]` on a
pointer is a `deref`. -/
inductive Expr
  | var (uid : Nat) (type : CType)
  | member (base : Expr) (field : Nat) (type : CType)
  | elem (base index : Expr) (type : CType)
  | deref (pointer : Expr) (type : CType)
  | addr (operand : Expr)
  | builtin (loc : Nat) (effect : Bool) (type : ScalarType) (args : List Expr)
  | unary (loc : Nat) (code : TreeCode) (operand : Expr)
  | binary (loc : Nat) (code : TreeCode) (op0 op1 : Expr)
  | modify (loc : Nat) (code : TreeCode) (lhs rhs : Expr)

mutual

/-- The tree of an expression whose operators are all overloaded. -/
def build (env : OpEnv) : Expr → Option Tree
  | .var uid type => some (.varDecl uid type)
  | .member base field type => (build env base).map fun b => .componentRef b field type
  | .elem base index type => do
      let b ← build env base
      guard (lvalueP b)
      let i ← build env index
      pure (.arrayRef b i type)
  | .deref pointer type => (build env pointer).map fun p => .indirectRef p type
  | .addr operand => do
      let t ← build env operand
      buildAddr t
  | .builtin loc effect type args =>
      (buildArgs env args).map fun ts => .builtin loc effect type.type ts
  | .unary loc code operand => do
      let t ← build env operand
      czetRewriteUnaryOp env loc code t
  | .binary loc code op0 op1 => do
      let t0 ← build env op0
      let t1 ← build env op1
      czetRewriteBinaryOp env loc code t0 t1
  | .modify loc code lhs rhs => do
      let l ← build env lhs
      let r ← build env rhs
      czetRewriteModifyExpr env loc l code r

def buildArgs (env : OpEnv) : List Expr → Option (List Tree)
  | [] => some []
  | e :: es => do
      let t ← build env e
      let ts ← buildArgs env es
      pure (t :: ts)

end

mutual

/-- The side effects and overload calls that the expression stands for, by location. -/
def Expr.effects : Expr → List Nat
  | .var .. => []
  | .member base _ _ => base.effects
  | .elem base index _ => base.effects ++ index.effects
  | .deref pointer _ => pointer.effects
  | .addr operand => operand.effects
  | .builtin loc effect _ args => argEffects args ++ if effect then [loc] else []
  | .unary loc _ operand => operand.effects ++ [loc]
  | .binary loc _ op0 op1 => op0.effects ++ op1.effects ++ [loc]
  | .modify loc _ lhs rhs => lhs.effects ++ rhs.effects ++ [loc]

def argEffects : List Expr → List Nat
  | [] => []
  | e :: es => e.effects ++ argEffects es

end

/-- One `++` or `--` of an expression. -/
structure Mutation where
  loc : Nat
  code : TreeCode
  operand : Expr

mutual

def Expr.mutations : Expr → List Mutation
  | .var .. => []
  | .member base _ _ => base.mutations
  | .elem base index _ => base.mutations ++ index.mutations
  | .deref pointer _ => pointer.mutations
  | .addr operand => operand.mutations
  | .builtin _ _ _ args => argMutations args
  | .unary loc code operand =>
      operand.mutations ++ if mutating code then [⟨loc, code, operand⟩] else []
  | .binary _ _ op0 op1 => op0.mutations ++ op1.mutations
  | .modify _ _ lhs rhs => lhs.mutations ++ rhs.mutations

def argMutations : List Expr → List Mutation
  | [] => []
  | e :: es => e.mutations ++ argMutations es

end

end CZet.Operator
