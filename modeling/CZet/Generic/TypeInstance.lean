/- source: src/gcc/gcc/c/c-decl.cc (czet_instantiate_type: the signature and the cache)
   digest: The records of generic struct and union instances and the signature that decides which
     uses share one. -/

import CZet.Generic.TypeArgs
import CZet.Lib.Delimited
import CZet.Lib.KeyedMemo

set_option autoImplicit false
set_option relaxedAutoImplicit false

namespace CZet.TypeInstance

open CZet.Lib.Delimited CZet.Lib.KeyedMemo

/-- A use `tag<types>` of a generic struct or union. -/
structure TypeUse where
  tag : String
  types : List TypeArg

/-- The text `"%d|%s|%lu;"` of one type argument: tree code, tag and size. -/
def signatureText (target : Target) (a : TypeArg) : List Char :=
  (toString a.type.treeCode).toList ++ '|' :: a.tagName.toList ++
    '|' :: (toString (target.typeSize a.type % 2 ^ 64)).toList ++ [';']

/-- The same in `tmp[128]`. -/
def signaturePiece (target : Target) (a : TypeArg) : List Char := (signatureText target a).take 127

/-- The loop that fills `sig[1024]`; it stops at the first piece that does not fit. -/
def signatureLoop (target : Target) : List Char → List TypeArg → List Char
  | sig, [] => sig
  | sig, a :: types =>
      if 1024 ≤ sig.length + (signaturePiece target a).length then sig
      else signatureLoop target (sig ++ signaturePiece target a) types

def typeSignature (target : Target) (types : List TypeArg) : List Char :=
  signatureLoop target [] types

/-- The cache is kept for each tag, under the signature. -/
def typeKey (target : Target) (use : TypeUse) : String × List Char :=
  (use.tag, typeSignature target use.types)

abbrev TypeCache := Memo TypeUse (String × List Char)

/-- `czet_instantiate_type` as far as the cache is concerned: the records are numbered in the
order of their creation, and a record that is built may need further instances for its fields. -/
def czetInstantiateType (target : Target) (use : Request TypeUse) (cache : TypeCache) :
    Nat × TypeCache :=
  serve (typeKey target) use cache

/-- All uses of a translation unit, in order. -/
def instantiateTypes (target : Target) (uses : List (Request TypeUse)) : TypeCache :=
  serveAll (typeKey target) uses Memo.empty

theorem signaturePiece_terminated (target : Target) (a : TypeArg) :
    signaturePiece target a ∈ terminated ';' 127 := by
  refine ⟨_, ?_, rfl⟩
  simp only [List.mem_append, List.mem_cons, not_or]
  refine ⟨⟨?_, by decide, ?_⟩, by decide, ?_⟩
  · exact not_mem_decimal (by decide) _
  · exact a.semicolon_not_mem_tagName
  · exact not_mem_decimal (by decide) _

/-- The pieces that the loop takes when `used` characters are in the buffer. -/
def signaturePieces (target : Target) : Nat → List TypeArg → List (List Char)
  | _, [] => []
  | used, a :: types =>
      if 1024 ≤ used + (signaturePiece target a).length then []
      else signaturePiece target a ::
        signaturePieces target (used + (signaturePiece target a).length) types

private theorem signatureLoop_eq (target : Target) (sig : List Char) (types : List TypeArg) :
    signatureLoop target sig types = sig ++ (signaturePieces target sig.length types).flatten := by
  induction types generalizing sig with
  | nil => simp [signatureLoop, signaturePieces]
  | cons a types ih =>
      simp only [signatureLoop, signaturePieces]
      split
      · simp
      · rw [ih, List.length_append, List.flatten_cons, List.append_assoc]

private theorem signaturePieces_terminated (target : Target) (used : Nat) (types : List TypeArg) :
    ∀ w ∈ signaturePieces target used types, w ∈ terminated ';' 127 := by
  induction types generalizing used with
  | nil => simp [signaturePieces]
  | cons a types ih =>
      simp only [signaturePieces]
      split
      · simp
      · intro w hw
        rcases List.mem_cons.mp hw with rfl | hw
        · exact signaturePiece_terminated target a
        · exact ih _ w hw

theorem typeSignature_eq_iff (target : Target) (as bs : List TypeArg) :
    typeSignature target as = typeSignature target bs ↔
      signaturePieces target 0 as = signaturePieces target 0 bs := by
  rw [typeSignature, typeSignature, signatureLoop_eq, signatureLoop_eq, List.nil_append,
    List.nil_append]
  constructor
  · exact (terminated_prefixFree ';' (by decide)).uniquelyDecodable _ _
      (signaturePieces_terminated target 0 as) (signaturePieces_terminated target 0 bs)
  · intro h
    rw [List.length_nil, h]

/-- A type argument has room in the signature behind `used` characters. -/
def Fits (target : Target) (used : Nat) (a : TypeArg) : Prop :=
  used + (signaturePiece target a).length < 1024

/-- The signature tells two lists of types apart: behind `used` characters there is room for an
argument whose tree code, tag or size (in the 127 characters of its piece) is not that of its
counterpart, or that has no counterpart. -/
def Distinguishes (target : Target) : Nat → List TypeArg → List TypeArg → Prop
  | _, [], [] => False
  | used, [], b :: _ => Fits target used b
  | used, a :: _, [] => Fits target used a
  | used, a :: as, b :: bs =>
      (signaturePiece target a ≠ signaturePiece target b ∧
        (Fits target used a ∨ Fits target used b)) ∨
      (signaturePiece target a = signaturePiece target b ∧ Fits target used a ∧
        Distinguishes target (used + (signaturePiece target a).length) as bs)

theorem signaturePieces_eq_iff (target : Target) (used : Nat) (as bs : List TypeArg) :
    signaturePieces target used as = signaturePieces target used bs ↔
      ¬ Distinguishes target used as bs := by
  induction as generalizing used bs with
  | nil =>
      cases bs with
      | nil => simp [Distinguishes]
      | cons b bs =>
          simp only [signaturePieces, Distinguishes, Fits]
          split <;> simp <;> omega
  | cons a as ih =>
      cases bs with
      | nil =>
          simp only [signaturePieces, Distinguishes, Fits]
          split <;> simp <;> omega
      | cons b bs =>
          simp only [signaturePieces, Distinguishes, Fits]
          by_cases hpiece : signaturePiece target a = signaturePiece target b
          · rw [← hpiece]
            split
            · rename_i hfull
              simp [Nat.not_lt.mpr hfull]
            · rename_i hroom
              simp [Nat.not_le.mp hroom, ih]
          · split <;> split <;> simp_all

/-- The signature of two uses of one template tells their types apart exactly when they differ. -/
def SignatureTells (target : Target) (as bs : List TypeArg) : Prop :=
  Distinguishes target 0 as bs ↔ ¬ SameTypes as bs

theorem typeInstance_eq_iff_key (target : Target) (uses : List (Request TypeUse))
    (hnest : allNotSelfNested (typeKey target) [] uses) {p q : TypeUse × Nat}
    (hp : p ∈ (instantiateTypes target uses).log) (hq : q ∈ (instantiateTypes target uses).log) :
    p.2 = q.2 ↔ p.1.tag = q.1.tag ∧ ¬ Distinguishes target 0 p.1.types q.1.types := by
  obtain ⟨hconsistent, -⟩ := serveAll_consistent [] uses Memo.empty
    (Memo.empty_consistent (typeKey target)) hnest
  rw [hconsistent.answers_eq_iff hp hq, typeKey, typeKey, Prod.mk.injEq, typeSignature_eq_iff,
    signaturePieces_eq_iff]

section Uses

private def boxOf (type : CType) : Request TypeUse := .mk ⟨"box", [{ type := type }]⟩ []

end Uses

end CZet.TypeInstance
