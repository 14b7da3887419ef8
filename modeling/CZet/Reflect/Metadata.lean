/- source: src/gcc/gcc/c/c-parser.cc
   digest: The metadata that `_Reflect` builds for a type of the compiler. -/

import CZet.Reflect.Object
import Mathlib.Data.List.Basic

set_option autoImplicit false
set_option relaxedAutoImplicit false

namespace CZet.Reflect

abbrev TypeId := Nat

inductive TypeCode
  | voidType | integerType | booleanType | bitintType | realType | complexType | fixedPointType
  | pointerType | referenceType | nullptrType | offsetType | arrayType | recordType | unionType
  | qualUnionType | enumeralType | functionType | methodType | other
  deriving DecidableEq, Repr

/-- A `FIELD_DECL`; `bitPos` is its position in bits, `none` when it is not constant, and `bitWidth`
the width of a bit-field. -/
structure FieldDecl where
  name : Option String
  bitPos : Option Nat
  type : TypeId
  bitWidth : Option Nat

/-- What `_Reflect` reads of a type node and its main variant.  `inner` is `TREE_TYPE`, `nelts` the
number of elements when that is a constant. -/
structure TypeNode where
  code : TypeCode
  complete : Bool
  sizeUnit : Nat
  alignUnit : Nat
  typeName : Option String
  inner : TypeId
  nelts : Option Nat
  fields : List FieldDecl
  values : Nat
  argTypes : List TypeId

abbrev Types := TypeId → TypeNode

def czetReflectKind : TypeCode → Int
  | .voidType => 1
  | .integerType | .booleanType | .bitintType => 2
  | .realType | .complexType | .fixedPointType => 3
  | .pointerType | .referenceType | .nullptrType | .offsetType => 4
  | .arrayType => 5
  | .recordType => 6
  | .unionType | .qualUnionType => 7
  | .enumeralType => 8
  | .functionType | .methodType => 9
  | .other => 0

def TypeCode.isRecord : TypeCode → Bool
  | .recordType | .unionType | .qualUnionType => true
  | _ => false

def TypeCode.isFunction : TypeCode → Bool
  | .functionType | .methodType => true
  | _ => false

/-- The codes whose `TREE_TYPE` is followed. -/
def TypeCode.isChained : TypeCode → Bool
  | .arrayType | .pointerType | .referenceType | .offsetType => true
  | _ => false

def czetReflectName (n : TypeNode) : String := n.typeName.getD ""

section Emission

variable (types : Types)

/-- The parameters in front of a `void`. -/
def reflectedParams (n : TypeNode) : List TypeId :=
  n.argTypes.takeWhile fun a => (types a).code ≠ .voidType

def czetReflectCount (n : TypeNode) : Nat :=
  match n.code with
  | .arrayType => if n.complete then n.nelts.getD 0 else 0
  | .recordType | .unionType | .qualUnionType => n.fields.length
  | .enumeralType => n.values
  | .functionType | .methodType => (reflectedParams types n).length
  | _ => 0

/-- The codes that have no size. -/
def TypeNode.sizeless (n : TypeNode) : Bool :=
  n.code = .voidType || n.code.isFunction || !n.complete

def reflectedSize (n : TypeNode) : Nat := if n.sizeless then 0 else n.sizeUnit

def reflectedAlign (n : TypeNode) : Nat := if n.sizeless then 1 else n.alignUnit

/-- `byte_position`, as far as it is used. -/
def bytePosition (f : FieldDecl) : Nat := (f.bitPos.map (· / 8)).getD 0

/-- An element of a `fields` array. -/
structure ReflectField where
  name : String
  offset : Nat
  type : ReflectT

def ReflectT.ofFields (kind : Int) (size align : Nat) (name : String) (count : Nat) (elem : ReflectT)
    (fields : List ReflectField) : ReflectT :=
  .obj kind size align name count elem fields.length (fun i => (fields.get i).name)
    (fun i => (fields.get i).offset) fun i => (fields.get i).type

/-- `czet_reflect_record_fields`; `emit` is `czet_reflect_emit_chain` at the depth of the members.
Only a record type has `FIELD_DECL`s. -/
def czetReflectRecordFields (emit : TypeId → ReflectT) (n : TypeNode) : List ReflectField :=
  if n.code.isRecord then
    n.fields.map fun f =>
      { name := f.name.getD "", offset := bytePosition f, type := emit f.type }
  else []

/-- `czet_reflect_emit_chain`, where `left` is 9 minus its depth. -/
def czetReflectEmitChain : Nat → TypeId → ReflectT
  | 0, _ => .null
  | left + 1, target =>
      let n := types target
      let elem :=
        if n.code.isChained || n.code.isFunction then czetReflectEmitChain left n.inner
        else .null
      let fields :=
        if n.code.isRecord && decide (8 - left < 2) && n.complete then
          czetReflectRecordFields (czetReflectEmitChain left) n
        else []
      ReflectT.ofFields (czetReflectKind n.code) (reflectedSize n) (reflectedAlign n)
        (czetReflectName n) (czetReflectCount types n) elem fields

inductive ReflectError
  | incompleteType (target : TypeId)

/-- `c_parser_czet_reflect_expression` behind the parsing of its operand.  `spelling` is the name of
a typedef that was the whole operand, with the type it stands for. -/
def czetReflectExpression (target : TypeId) (spelling : Option (String × TypeId)) :
    Except ReflectError ReflectT :=
  let isTypedef :=
    match spelling with
    | some (name, underlying) => decide (czetReflectName (types underlying) ≠ name)
    | none => false
  let target :=
    match spelling with
    | some (_, underlying) => if isTypedef then underlying else target
    | none => target
  let n := types target
  if n.code ≠ .voidType ∧ n.code.isFunction = false ∧ n.complete = false then
    .error (.incompleteType target)
  else
    let kind := if isTypedef then 10 else czetReflectKind n.code
    let topName :=
      match spelling with
      | some (name, _) => if isTypedef then name else czetReflectName n
      | none => czetReflectName n
    let elem :=
      if n.code.isChained then czetReflectEmitChain types 9 n.inner
      else if isTypedef then czetReflectEmitChain types 9 target
      else if n.code.isFunction then czetReflectEmitChain types 9 n.inner
      else .null
    let fields :=
      if n.code.isFunction then
        (reflectedParams types n).mapIdx fun i a =>
          { name := "", offset := i, type := czetReflectEmitChain types 9 a }
      else czetReflectRecordFields (czetReflectEmitChain types 9) n
    let size := if n.code = .voidType || n.code.isFunction then 0 else n.sizeUnit
    let align := if n.code = .voidType || n.code.isFunction then 1 else n.alignUnit
    let count := if isTypedef then 0 else czetReflectCount types n
    .ok (ReflectT.ofFields kind size align topName count elem fields)

end Emission

end CZet.Reflect
