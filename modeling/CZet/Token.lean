/- source: src/gcc/libcpp/include/cpplib.h, src/gcc/gcc/c/c-parser.h,
     src/gcc/gcc/c/c-parser.cc
   digest: C tokens and the token tests made by the _Macro machinery. -/

import Mathlib.Data.List.Basic

set_option autoImplicit false
set_option relaxedAutoImplicit false

namespace CZet

/-- `enum cpp_ttype`: the table `TTYPE_TABLE` of cpplib.h, then `CPP_KEYWORD`. -/
inductive CppTtype
  | eq | not | greater | less | plus | minus | mult | div | mod | and | or | xor
  | rshift | lshift | compl | andAnd | orOr | query | colon | comma
  | openParen | closeParen | eof | eqEq | notEq | greaterEq | lessEq | spaceship
  | plusEq | minusEq | multEq | divEq | modEq | andEq | orEq | xorEq
  | rshiftEq | lshiftEq | hash | paste | openSquare | closeSquare
  | openBrace | closeBrace | openSplice | closeSplice | semicolon | ellipsis
  | plusPlus | minusMinus | deref | dot | scope | derefStar | dotStar
  | reflectOp | atsign
  | name | atName | number
  | char | wchar | char16 | char32 | utf8char | other
  | string | wstring | string16 | string32 | utf8string | objcString
  | headerName | unevalString
  | charUserdef | wcharUserdef | char16Userdef | char32Userdef | utf8charUserdef
  | stringUserdef | wstringUserdef | string16Userdef | string32Userdef
  | utf8stringUserdef
  | embed | comment | cppMacroArg | pragma | pragmaEol | padding
  | keyword
  deriving DecidableEq, Repr

/-- `enum c_id_kind`. -/
inductive CIdKind
  | idId | idTypename | idClassname | idAddrspace | idNone
  deriving DecidableEq, Repr

/-- The `tree value` of a token: an `IDENTIFIER_NODE`, a constant (kept as its
source text), the `INTEGER_CST` smuggled into a `CPP_PRAGMA`, or `NULL`. -/
inductive TokenValue
  | null
  | identifier (spelling : String)
  | constant (text : String)
  | pragmaCode (code : Nat)
  deriving DecidableEq, Repr

/-- Numeric code of `enum rid`; `0` stands for `RID_MAX`, "not a keyword". -/
abbrev Rid := Nat

/-- `struct c_token`. -/
structure CToken where
  type : CppTtype
  idKind : CIdKind := .idNone
  keyword : Rid := 0
  pragmaKind : Nat := 0
  location : Nat := 0
  value : TokenValue := .null
  flags : Nat := 0
  deriving DecidableEq, Repr

/-- The token of an identifier. -/
def nameToken (spelling : String) : CToken := { type := .name, value := .identifier spelling }

/-- The token of a punctuator. -/
def punctToken (type : CppTtype) : CToken := { type := type }

/-- `IDENTIFIER_POINTER (t->value)`. -/
def CToken.identifierPointer (t : CToken) : String :=
  match t.value with
  | .identifier s => s
  | _ => ""

/-- `IDENTIFIER_POINTER (t->value)[0] == '$'`. -/
def CToken.startsDollar (t : CToken) : Bool :=
  t.identifierPointer.toList.head? == some '$'

/-- The nesting change of one token; only `()`, `[]` and `{}` count. -/
def cCzetDelta (t : CToken) : Int :=
  match t.type with
  | .openParen | .openSquare | .openBrace => 1
  | .closeParen | .closeSquare | .closeBrace => -1
  | _ => 0

def cCzetIsLiteralToken (t : CToken) : Bool :=
  match t.type with
  | .number | .char | .char16 | .char32 | .wchar | .utf8char
  | .string | .wstring | .string16 | .string32 | .utf8string
  | .objcString | .unevalString
  | .charUserdef | .wcharUserdef | .char16Userdef | .char32Userdef | .utf8charUserdef
  | .stringUserdef | .wstringUserdef | .string16Userdef | .string32Userdef
  | .utf8stringUserdef => true
  | _ => false

/-- A `$name` reference in a pattern or an expansion. -/
def cCzetIsParamRef (t : CToken) : Bool :=
  decide (t.type = .name) && t.startsDollar

/-- The lone `$` that starts a `$( ... )` group. -/
def cCzetIsRepStart (t : CToken) : Bool :=
  decide (t.type = .name) && decide (t.identifierPointer = "$")

/-- Equal-token test of the matchers: spelling for names, keyword code for
keywords, the token type alone for everything else. -/
def cCzetTokEq (ptok itok : CToken) : Bool :=
  if ptok.type = .name then
    decide (itok.type = .name) && decide (ptok.identifierPointer = itok.identifierPointer)
  else if ptok.type = .keyword then
    decide (itok.type = .keyword) && decide (ptok.keyword = itok.keyword)
  else decide (ptok.type = itok.type)

@[simp] theorem cCzetTokEq_refl (t : CToken) : cCzetTokEq t t = true := by
  unfold cCzetTokEq
  split
  · simp [*]
  · split <;> simp [*]

theorem cCzetTokEq_type {p t : CToken} (h : cCzetTokEq p t = true) : p.type = t.type := by
  unfold cCzetTokEq at h
  split at h
  · rename_i hp
    simp only [Bool.and_eq_true, decide_eq_true_eq] at h
    rw [hp, h.1]
  · split at h
    · rename_i hp
      simp only [Bool.and_eq_true, decide_eq_true_eq] at h
      rw [hp, h.1]
    · simpa using h

theorem cCzetDelta_eq_of_tokEq {p t : CToken} (h : cCzetTokEq p t = true) :
    cCzetDelta p = cCzetDelta t := by
  unfold cCzetDelta
  rw [cCzetTokEq_type h]

end CZet
