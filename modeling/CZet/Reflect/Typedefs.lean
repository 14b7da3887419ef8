/- source: src/gcc/gcc/c/c-parser.cc, stdlib/utils/save_memory.h
   digest: For which typedefs `_Reflect` describes the type that the typedef stands for. -/

import CZet.Reflect.Metadata
import CZet.Stdlib.SaveMemory

set_option autoImplicit false
set_option relaxedAutoImplicit false

namespace CZet.Reflect

open CZet.Stdlib

variable (types : Types)

/-- `_Reflect` of the typedef `name` of `t` has kind 10 and describes `t`, also to `sm_save_r`. -/
def TypedefDescribed (name : String) (t : TypeId) : Prop :=
  ∃ r, czetReflectExpression types t (some (name, t)) = .ok r ∧ r.kind = 10 ∧
    r.size = reflectedSize (types t) ∧ r.align = reflectedAlign (types t) ∧
    r.elem = czetReflectEmitChain types 9 t ∧
    ∀ host m, smSaveR host m r = smSaveR host m (czetReflectEmitChain types 9 t)

/-- `_Reflect` can be applied to the type. -/
def Reflectable (n : TypeNode) : Prop :=
  n.code = .voidType ∨ n.code.isFunction = true ∨ n.complete = true

/-- The two types look alike in a metadata object, its pointers apart. -/
def SameHead (a b : TypeNode) : Prop :=
  czetReflectKind a.code = czetReflectKind b.code ∧ reflectedSize a = reflectedSize b ∧
    reflectedAlign a = reflectedAlign b ∧ czetReflectName a = czetReflectName b ∧
    czetReflectCount types a = czetReflectCount types b

/-- A pointer to pointers or an array of arrays, all alike, for `n` levels below the element. -/
def UniformChain : Nat → TypeId → Prop
  | 0, t => SameHead types (types t) (types (types t).inner)
  | n + 1, t =>
      SameHead types (types t) (types (types t).inner) ∧
        (types (types t).inner).code.isChained = true ∧ UniformChain n (types t).inner

variable {types}

private theorem kind_of_chained {c : TypeCode} (h : c.isChained = true) :
    czetReflectKind c = 4 ∨ czetReflectKind c = 5 := by
  cases c <;> simp_all [TypeCode.isChained, czetReflectKind]

private theorem shape_of_kind {c : TypeCode} (h : czetReflectKind c = 4 ∨ czetReflectKind c = 5) :
    c.isFunction = false ∧ c.isRecord = false := by
  cases c <;> simp_all [TypeCode.isFunction, TypeCode.isRecord, czetReflectKind]

private theorem emitChain_plain (left : Nat) {t : TypeId}
    (hfunction : (types t).code.isFunction = false) (hrecord : (types t).code.isRecord = false) :
    czetReflectEmitChain types (left + 1) t =
      ReflectT.ofFields (czetReflectKind (types t).code) (reflectedSize (types t))
        (reflectedAlign (types t)) (czetReflectName (types t)) (czetReflectCount types (types t))
        (if (types t).code.isChained = true then czetReflectEmitChain types left (types t).inner
        else .null) [] := by
  rw [czetReflectEmitChain]
  simp [hfunction, hrecord]

private theorem ofFields_nil_inj {k k' : Int} {s s' a a' c c' : Nat} {n n' : String}
    {e e' : ReflectT} :
    ReflectT.ofFields k s a n c e [] = ReflectT.ofFields k' s' a' n' c' e' [] ↔
      k = k' ∧ s = s' ∧ a = a' ∧ n = n' ∧ c = c' ∧ e = e' := by
  simp [ReflectT.ofFields]

private theorem emitChain_inner_step (left : Nat) {t : TypeId}
    (h : (types t).code.isChained = true) :
    czetReflectEmitChain types (left + 1) (types t).inner =
        czetReflectEmitChain types (left + 1) t ↔
      SameHead types (types t) (types (types t).inner) ∧
        (if (types (types t).inner).code.isChained = true then
          czetReflectEmitChain types left (types (types t).inner).inner else .null) =
        czetReflectEmitChain types left (types t).inner := by
  have hkind := kind_of_chained h
  obtain ⟨hfunction, hrecord⟩ := shape_of_kind hkind
  have hplain : czetReflectKind (types t).code = czetReflectKind (types (types t).inner).code →
      (types (types t).inner).code.isFunction = false ∧
        (types (types t).inner).code.isRecord = false := by
    intro hsame
    exact shape_of_kind (hsame ▸ hkind)
  constructor
  · intro heq
    have hsame : czetReflectKind (types t).code = czetReflectKind (types (types t).inner).code :=
      (congrArg ReflectT.kind heq).symm
    obtain ⟨hfunction', hrecord'⟩ := hplain hsame
    rw [emitChain_plain left hfunction hrecord, emitChain_plain left hfunction' hrecord',
      ofFields_nil_inj, if_pos h] at heq
    obtain ⟨_, hsize, halign, hname, hcount, helem⟩ := heq
    exact ⟨⟨hsame, hsize.symm, halign.symm, hname.symm, hcount.symm⟩, helem⟩
  · rintro ⟨⟨hsame, hsize, halign, hname, hcount⟩, helem⟩
    obtain ⟨hfunction', hrecord'⟩ := hplain hsame
    rw [emitChain_plain left hfunction hrecord, emitChain_plain left hfunction' hrecord',
      ofFields_nil_inj, if_pos h]
    exact ⟨hsame.symm, hsize.symm, halign.symm, hname.symm, hcount.symm, helem⟩

theorem emitChain_inner_iff (left : Nat) {t : TypeId} (h : (types t).code.isChained = true) :
    czetReflectEmitChain types (left + 1) (types t).inner = czetReflectEmitChain types (left + 1) t ↔
      UniformChain types left t := by
  induction left generalizing t with
  | zero =>
      rw [emitChain_inner_step 0 h, UniformChain]
      refine and_iff_left ?_
      split <;> rfl
  | succ left ih =>
      rw [emitChain_inner_step (left + 1) h, UniformChain]
      refine and_congr_right fun _ => ?_
      by_cases hchained : (types (types t).inner).code.isChained = true
      · rw [if_pos hchained, ih hchained]
        exact (and_iff_right hchained).symm
      · rw [if_neg hchained]
        refine iff_of_false ?_ fun hboth => hchained hboth.1
        intro hnull
        rw [czetReflectEmitChain] at hnull
        cases hnull

theorem smSaveR_typedef (host : Host) (m : Image) {r : ReflectT} (h : r.kind = 10) :
    smSaveR host m r = smSaveR host m r.elem := by
  cases r with
  | null => cases h
  | obj kind size align name count elem entries fieldName offset type =>
      have hkind : kind = 10 := h
      rw [smSaveR, smWriteValue]
      simp [hkind, smSaveR, ReflectT.elem]

private theorem reflect_typedef {name : String} {t : TypeId}
    (hname : czetReflectName (types t) ≠ name) (hreflectable : Reflectable (types t)) :
    ∃ r, czetReflectExpression types t (some (name, t)) = .ok r ∧ r.kind = 10 ∧
      r.size = reflectedSize (types t) ∧ r.align = reflectedAlign (types t) ∧
      r.elem = if (types t).code.isChained = true then
        czetReflectEmitChain types 9 (types t).inner else czetReflectEmitChain types 9 t := by
  have hcomplete : ¬ ((types t).code ≠ .voidType ∧ (types t).code.isFunction = false ∧
      (types t).complete = false) := by
    rintro ⟨hvoid, hfunction, hincomplete⟩
    rcases hreflectable with h | h | h
    · exact hvoid h
    · simp [hfunction] at h
    · simp [hincomplete] at h
  have hsizeless : (types t).sizeless =
      (decide ((types t).code = .voidType) || (types t).code.isFunction) := by
    rcases hreflectable with h | h | h <;> simp [TypeNode.sizeless, h]
  obtain ⟨fields, hexpression⟩ : ∃ fields,
      czetReflectExpression types t (some (name, t)) =
        .ok (ReflectT.ofFields 10 (reflectedSize (types t)) (reflectedAlign (types t)) name 0
          (if (types t).code.isChained = true then czetReflectEmitChain types 9 (types t).inner
          else czetReflectEmitChain types 9 t) fields) := by
    simp only [czetReflectExpression, hname, ne_eq, not_false_eq_true, decide_true, if_true,
      hcomplete, if_false, reflectedSize, reflectedAlign, hsizeless]
    exact ⟨_, rfl⟩
  exact ⟨_, hexpression, rfl, rfl, rfl, rfl⟩

/-- `_Reflect` of a typedef follows the element of an array or a pointer before it looks at the
typedef.  So it describes the typedef's type exactly when that is neither, or is so deep and uniform
that the element has the same metadata. -/
theorem typedef_described_iff {name : String} {t : TypeId}
    (hname : czetReflectName (types t) ≠ name) (hreflectable : Reflectable (types t)) :
    TypedefDescribed types name t ↔
      (types t).code.isChained = false ∨ UniformChain types 8 t := by
  obtain ⟨r, hr, hkind, hsize, halign, helem⟩ := reflect_typedef hname hreflectable
  have hiff : TypedefDescribed types name t ↔ r.elem = czetReflectEmitChain types 9 t := by
    constructor
    · rintro ⟨r', hr', -, -, -, helem', -⟩
      obtain rfl : r = r' := Except.ok.inj (hr.symm.trans hr')
      exact helem'
    · intro hsame
      refine ⟨r, hr, hkind, hsize, halign, hsame, fun host m => ?_⟩
      rw [smSaveR_typedef host m hkind, hsame]
  rw [hiff, helem]
  cases hchained : (types t).code.isChained with
  | false => simp
  | true =>
      rw [if_pos rfl, emitChain_inner_iff 8 hchained]
      simp

/-- `typedef int myint;` is described. -/
theorem myint_described :
    TypedefDescribed (fun _ => ⟨.integerType, true, 4, 4, some "int", 0, none, [], 0, []⟩)
      "myint" 0 :=
  (typedef_described_iff (by decide) (Or.inr (Or.inr rfl))).mpr (Or.inl rfl)

/-- `typedef int quad[4];` is not: its element is the metadata of `int`. -/
theorem quad_not_described :
    ¬ TypedefDescribed
      (fun t => if t = 0 then ⟨.integerType, true, 4, 4, some "int", 0, none, [], 0, []⟩
        else ⟨.arrayType, true, 16, 4, none, 0, some 4, [], 0, []⟩) "quad" 1 := by
  rintro ⟨r, hr, -, -, -, helem, -⟩
  cases hr
  have hkind := congrArg ReflectT.kind helem
  exact absurd hkind (by decide)

end CZet.Reflect
