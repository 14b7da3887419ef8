/- source: src/gcc/gcc/tree.def, src/gcc/gcc/c/c-decl.cc, src/gcc/gcc/c/c-parser.cc (the type
     arguments of a generic call and of a generic struct use)
   digest: C types as the arguments of generics, with what a tree node says of them. -/

import Mathlib.Data.List.Basic
import Mathlib.Data.Nat.Digits.Defs

set_option autoImplicit false
set_option relaxedAutoImplicit false

namespace CZet

def identChar (c : Char) : Bool := c.isAlphanum || c == '_' || c == '$' || decide (128 ≤ c.toNat)

/-- An `IDENTIFIER_NODE`. -/
structure Ident where
  name : String
  chars : name.toList.all identChar = true
  deriving DecidableEq

/-- The standard integer types. -/
inductive IntegerKind
  | char | signedChar | unsignedChar | short | unsignedShort | int | unsignedInt
  | long | unsignedLong | longLong | unsignedLongLong | int128 | unsignedInt128
  deriving DecidableEq, Repr

/-- The name in the `TYPE_DECL` of a standard integer type. -/
def IntegerKind.declName : IntegerKind → String
  | .char => "char"
  | .signedChar => "signed char"
  | .unsignedChar => "unsigned char"
  | .short => "short int"
  | .unsignedShort => "short unsigned int"
  | .int => "int"
  | .unsignedInt => "unsigned int"
  | .long => "long int"
  | .unsignedLong => "long unsigned int"
  | .longLong => "long long int"
  | .unsignedLongLong => "long long unsigned int"
  | .int128 => "__int128"
  | .unsignedInt128 => "__int128 unsigned"

inductive RealKind
  | float | double | longDouble | float128 | decimal32 | decimal64 | decimal128
  deriving DecidableEq, Repr

structure Quals where
  const : Bool := false
  volatile : Bool := false
  restrict : Bool := false
  atomic : Bool := false
  deriving DecidableEq, Repr

/-- A struct, union or enum: the declaration that introduces it, and its tag. -/
structure TagType where
  decl : Nat
  tag : Option Ident
  deriving DecidableEq

/-- A C type with its typedefs resolved. -/
inductive CType
  | void
  | bool
  | nullptr
  | integer (kind : IntegerKind)
  | bitInt (width : Nat) (unsigned : Bool)
  | real (kind : RealKind)
  | complex (elt : CType)
  | vector (elt : CType) (len : Nat)
  | enumeral (type : TagType)
  | pointer (quals : Quals) (pointee : CType)
  | array (quals : Quals) (elt : CType) (len : Option Nat)
  | record (type : TagType)
  | union (type : TagType)
  | function (ret : CType) (params : List CType) (variadic : Bool)

/-- `TREE_CODE`, by its position in tree.def. -/
def CType.treeCode : CType → Nat
  | .enumeral _ => 6
  | .bool => 7
  | .integer _ => 8
  | .bitInt .. => 9
  | .real _ => 10
  | .pointer .. => 11
  | .nullptr => 13
  | .complex _ => 15
  | .vector .. => 16
  | .array .. => 17
  | .record _ => 18
  | .union _ => 19
  | .void => 21
  | .function .. => 22

/-- `TYPE_SIZE` of the target in bits; zero where it is not an `INTEGER_CST`. -/
structure Target where
  typeSize : CType → Nat

/-- The sizes of an LP64 target, given those of its structs and unions. -/
def lp64Size (aggregateSize : TagType → Nat) : CType → Nat
  | .void => 0
  | .bool => 8
  | .nullptr => 64
  | .integer kind =>
      match kind with
      | .char | .signedChar | .unsignedChar => 8
      | .short | .unsignedShort => 16
      | .int | .unsignedInt => 32
      | .long | .unsignedLong | .longLong | .unsignedLongLong => 64
      | .int128 | .unsignedInt128 => 128
  | .bitInt width _ =>
      if width ≤ 8 then 8 else if width ≤ 16 then 16 else if width ≤ 32 then 32
      else (width + 63) / 64 * 64
  | .real kind =>
      match kind with
      | .float | .decimal32 => 32
      | .double | .decimal64 => 64
      | .longDouble | .float128 | .decimal128 => 128
  | .complex elt => 2 * lp64Size aggregateSize elt
  | .vector elt len => len * lp64Size aggregateSize elt
  | .enumeral _ => 32
  | .pointer .. => 64
  | .array _ elt len => (len.map (· * lp64Size aggregateSize elt)).getD 0
  | .record type | .union type => aggregateSize type
  | .function .. => 8

def lp64 (aggregateSize : TagType → Nat) : Target := ⟨lp64Size aggregateSize⟩

/-- A type argument: the type that `groktypename` returns, with the typedef it was named by. -/
structure TypeArg where
  type : CType
  quals : Quals := {}
  typedefName : Option Ident := none

/-- The two arguments are the same C type. -/
def SameType (a b : TypeArg) : Prop := a.quals = b.quals ∧ a.type = b.type

def SameTypes (as bs : List TypeArg) : Prop := List.Forall₂ SameType as bs

/-- The name of the `TYPE_DECL` that is the `TYPE_NAME` of an integer type. -/
def TypeArg.typeDeclName (a : TypeArg) : Option String :=
  match a.type with
  | .integer kind => some ((a.typedefName.map Ident.name).getD kind.declName)
  | .bitInt .. => a.typedefName.map Ident.name
  | _ => none

/-- `TYPE_SIZE` of an `INTEGER_TYPE` or `BITINT_TYPE`. -/
def TypeArg.integerSize (target : Target) (a : TypeArg) : Option Nat :=
  match a.type with
  | .integer _ | .bitInt .. => some (target.typeSize a.type)
  | _ => none

/-- The tag that is the `TYPE_NAME` of a struct, union or enum not named by a typedef. -/
def TypeArg.tagName (a : TypeArg) : String :=
  match a.typedefName, a.type with
  | none, .enumeral t | none, .record t | none, .union t => (t.tag.map Ident.name).getD ""
  | _, _ => ""

theorem Ident.not_mem {c : Char} (hc : identChar c = false) (i : Ident) : c ∉ i.name.toList := by
  intro hmem
  have := List.all_eq_true.mp i.chars c hmem
  rw [hc] at this
  exact absurd this (by decide)

theorem TypeArg.not_mem_typeDeclName {a : TypeArg} {name : String} {c : Char}
    (h : a.typeDeclName = some name) (hc : c = '|' ∨ c = '@') : c ∉ name.toList := by
  have hident : identChar c = false := by
    rcases hc with rfl | rfl <;> decide
  unfold TypeArg.typeDeclName at h
  split at h
  · rename_i kind _
    rw [Option.some.injEq] at h
    subst h
    cases a.typedefName with
    | none => rcases hc with rfl | rfl <;> cases kind <;> decide
    | some i => exact i.not_mem hident
  · obtain ⟨i, -, rfl⟩ := Option.map_eq_some_iff.mp h
    exact i.not_mem hident
  · simp at h

theorem TypeArg.semicolon_not_mem_tagName (a : TypeArg) : ';' ∉ a.tagName.toList := by
  have htag : ∀ t : TagType, ';' ∉ ((t.tag.map Ident.name).getD "").toList := by
    intro t
    cases t.tag with
    | none => simp
    | some i => exact i.not_mem (by decide)
  unfold TypeArg.tagName
  split
  · exact htag _
  · exact htag _
  · exact htag _
  · simp

theorem not_mem_decimal {c : Char} (hc : c.isDigit = false) (n : Nat) :
    c ∉ (toString n).toList := by
  intro hmem
  rw [show toString n = n.repr from rfl, Nat.toList_repr] at hmem
  have := Nat.isDigit_of_mem_toDigits (by decide) (by decide) hmem
  rw [hc] at this
  exact absurd this (by decide)

theorem decimal_injective {m n : Nat} (h : (toString m).toList = (toString n).toList) : m = n := by
  rw [show toString m = m.repr from rfl, show toString n = n.repr from rfl, Nat.toList_repr,
    Nat.toList_repr] at h
  rw [← Nat.ofDigitChars_ten_toDigits (n := m), h, Nat.ofDigitChars_ten_toDigits]

end CZet
