/- source: src/gcc/gcc/c/c-parser.cc, stdlib/utils/save_memory.h
   digest: For which structs and unions the field ranges of `_Reflect` lie inside the object and
     hold their members. -/

import CZet.Reflect.Metadata
import CZet.Stdlib.SaveMemory

set_option autoImplicit false
set_option relaxedAutoImplicit false

namespace CZet.Reflect

open CZet.Stdlib CZet.Lib.StreamCodec

/-- The size in bytes of the smallest machine mode with `w` bits. -/
def modeBytes (w : Nat) : Nat :=
  if w ≤ 8 then 1 else if w ≤ 16 then 2 else if w ≤ 32 then 4 else if w ≤ 64 then 8 else 16

variable (types : Types)

/-- The layout of the compiler: elements follow each other, an ordinary member starts on a byte and
lies inside the record, and so do the bits of a bit-field, whose type is an integer type of the
smallest mode. -/
structure LaidOut : Prop where
  array : ∀ t, (types t).code = .arrayType → (types t).complete = true →
    (types t).sizeUnit = czetReflectCount types (types t) * reflectedSize (types (types t).inner)
  member : ∀ t, (types t).code.isRecord = true → (types t).complete = true →
    ∀ f ∈ (types t).fields, f.bitWidth = none →
      ∃ pos, f.bitPos = some (8 * pos) ∧ pos + reflectedSize (types f.type) ≤ (types t).sizeUnit
  bitField : ∀ t, (types t).code.isRecord = true → (types t).complete = true →
    ∀ f ∈ (types t).fields, ∀ w, f.bitWidth = some w →
      ∃ pos, f.bitPos = some pos ∧ pos + w ≤ 8 * (types t).sizeUnit ∧ w ≤ 128 ∧
        reflectedSize (types f.type) = modeBytes w

/-- `n` is a type of which an object of type `t` contains an object. -/
inductive Nested : TypeId → TypeId → Prop
  | refl (t : TypeId) : Nested t t
  | element {t n : TypeId} (hcode : (types t).code = .arrayType)
      (hnested : Nested (types t).inner n) : Nested t n
  | member {t n : TypeId} {f : FieldDecl} (hcode : (types t).code.isRecord = true)
      (hfield : f ∈ (types t).fields) (hnested : Nested f.type n) : Nested t n

/-- The size of a member in bits. -/
def memberBits (f : FieldDecl) : Nat :=
  match f.bitWidth with
  | some w => w
  | none => 8 * reflectedSize (types f.type)

/-- The byte range of the entry lies in the record and holds every bit of the member. -/
def EntryFits (n : TypeNode) (f : FieldDecl) (e : ReflectField) : Prop :=
  e.offset + e.type.size ≤ n.sizeUnit ∧ ∀ pos, f.bitPos = some pos →
    ∀ b, pos ≤ b → b < pos + memberBits types f →
      8 * e.offset ≤ b ∧ b < 8 * (e.offset + e.type.size)

/-- From the byte in which it starts on, the mode of each bit-field is long enough for it and does
not reach beyond the record. -/
def BitFieldsFit (n : TypeNode) : Prop :=
  ∀ f ∈ n.fields, ∀ w pos, f.bitWidth = some w → f.bitPos = some pos →
    pos % 8 + w ≤ 8 * modeBytes w ∧ pos / 8 + modeBytes w ≤ n.sizeUnit

/-- Bit `b` belongs to the value of a member of the object at `p`. -/
inductive ValueBit : TypeId → Nat → Nat → Prop
  | scalar {t p b : Nat} (harray : (types t).code ≠ .arrayType)
      (hrecord : (types t).code.isRecord = false) (hlow : 8 * p ≤ b)
      (hhigh : b < 8 * (p + reflectedSize (types t))) : ValueBit t p b
  | element {t p b i : Nat} (hcode : (types t).code = .arrayType)
      (hi : i < czetReflectCount types (types t))
      (hbit : ValueBit (types t).inner (p + i * reflectedSize (types (types t).inner)) b) :
      ValueBit t p b
  | member {t p b : Nat} {f : FieldDecl} (hcode : (types t).code.isRecord = true)
      (hcomplete : (types t).complete = true) (hfield : f ∈ (types t).fields)
      (hordinary : f.bitWidth = none) (hbit : ValueBit f.type (p + bytePosition f) b) :
      ValueBit t p b
  | bitField {t p b w pos : Nat} {f : FieldDecl} (hcode : (types t).code.isRecord = true)
      (hcomplete : (types t).complete = true) (hfield : f ∈ (types t).fields)
      (hwidth : f.bitWidth = some w) (hpos : f.bitPos = some pos) (hlow : 8 * p + pos ≤ b)
      (hhigh : b < 8 * p + pos + w) : ValueBit t p b

/-- The first of the largest members, `none` when all are empty. -/
def largestMember (fields : List FieldDecl) : Option FieldDecl :=
  (fields.foldl
    (fun (best : Nat × Option FieldDecl) f =>
      if reflectedSize (types f.type) > best.1 then (reflectedSize (types f.type), some f)
      else best)
    (0, none)).2

/-- Byte `k` belongs to the object at `p` when only the largest member of a union counts, and a
bit-field counts with its whole mode. -/
inductive KeptByte : TypeId → Nat → Nat → Prop
  | scalar {t p k : Nat}
      (hkind : czetReflectKind (types t).code = 2 ∨ czetReflectKind (types t).code = 8 ∨
        czetReflectKind (types t).code = 3)
      (hlow : p ≤ k) (hhigh : k < p + reflectedSize (types t)) : KeptByte t p k
  | element {t p k i : Nat} (hcode : (types t).code = .arrayType)
      (hi : i < czetReflectCount types (types t))
      (hbyte : KeptByte (types t).inner (p + i * reflectedSize (types (types t).inner)) k) :
      KeptByte t p k
  | member {t p k : Nat} {f : FieldDecl} (hcode : (types t).code = .recordType)
      (hcomplete : (types t).complete = true) (hfield : f ∈ (types t).fields)
      (hbyte : KeptByte f.type (p + bytePosition f) k) : KeptByte t p k
  | largest {t p k : Nat} {f : FieldDecl} (hcode : czetReflectKind (types t).code = 7)
      (hcomplete : (types t).complete = true) (hfield : largestMember types (types t).fields = some f)
      (hbyte : KeptByte f.type (p + bytePosition f) k) : KeptByte t p k

/-- `sm_save_r` takes an object of the type, with its metadata cut off after `left` levels: its
members, of a union the largest, are scalars, arrays of sized elements, structs and unions, and
records are nested no deeper than they are expanded. -/
def Storable : Nat → TypeId → Prop
  | 0, _ => False
  | left + 1, t =>
      match czetReflectKind (types t).code with
      | 2 | 8 | 3 => True
      | 5 => 0 < left ∧ reflectedSize (types (types t).inner) ≠ 0 ∧
          (0 < czetReflectCount types (types t) → Storable left (types t).inner)
      | 6 => (types t).fields = [] ∨ 7 ≤ left ∧ (types t).complete = true ∧
          ∀ f ∈ (types t).fields, Storable left f.type
      | 7 => (types t).fields = [] ∨ 7 ≤ left ∧ (types t).complete = true ∧
          ∀ f, largestMember types (types t).fields = some f → Storable left f.type
      | _ => False

section Fields

variable {types} {size align count : Nat} {name : String} {elem : ReflectT}

private def largestEntry (fs : List ReflectField) : Option ReflectField :=
  (fs.foldl
    (fun (best : Nat × Option ReflectField) f =>
      if f.type.isNull = false ∧ f.type.size > best.1 then (f.type.size, some f) else best)
    (0, none)).2

private theorem largest_map {α β : Type} (g : α → β) (big : β → Nat → Prop)
    [∀ b n, Decidable (big b n)] (size : β → Nat) (is : List α) (best : Nat × Option α) :
    (is.foldl (fun best i => if big (g i) best.1 then (size (g i), some i) else best) best).2.map g =
      ((is.map g).foldl (fun (best : Nat × Option β) f =>
        if big f best.1 then (size f, some f) else best) (best.1, best.2.map g)).2 := by
  induction is generalizing best with
  | nil => rfl
  | cons i is ih =>
      rw [List.foldl_cons, List.map_cons, List.foldl_cons, ih]
      by_cases hbig : big (g i) best.1
      · simp only [if_pos hbig, Option.map_some]
      · simp only [if_neg hbig]

private theorem largestField_get (fs : List ReflectField) :
    (largestField fun i => (fs.get i).type).map fs.get = largestEntry fs := by
  have hmap := largest_map fs.get (fun f n => f.type.isNull = false ∧ f.type.size > n)
    (fun f => f.type.size) (List.finRange fs.length) (0, none)
  rw [List.map_get_finRange] at hmap
  exact hmap

private theorem covered_struct (fs : List ReflectField) (p k : Nat) :
    Covered (ReflectT.ofFields 6 size align name count elem fs) p k ↔
      ∃ f ∈ fs, Covered f.type (p + f.offset) k := by
  simp only [ReflectT.ofFields, Covered]
  simp only [Int.reduceEq, or_self, if_false, if_true]
  constructor
  · rintro ⟨i, hi⟩
    exact ⟨fs.get i, List.get_mem fs i, hi⟩
  · rintro ⟨f, hf, hcovered⟩
    obtain ⟨i, rfl⟩ := List.mem_iff_get.mp hf
    exact ⟨i, hcovered⟩

private theorem covered_union (fs : List ReflectField) (p k : Nat) :
    Covered (ReflectT.ofFields 7 size align name count elem fs) p k ↔
      ∃ f, largestEntry fs = some f ∧ Covered f.type (p + f.offset) k := by
  simp only [ReflectT.ofFields, Covered, ← largestField_get]
  simp only [Int.reduceEq, or_self, if_false, if_true]
  constructor
  · rintro ⟨i, hi, hcovered⟩
    exact ⟨fs.get i, by rw [hi, Option.map_some], hcovered⟩
  · rintro ⟨f, hf, hcovered⟩
    obtain ⟨i, hi, rfl⟩ := Option.map_eq_some_iff.mp hf
    exact ⟨i, hi, hcovered⟩

private theorem covered_array (fs : List ReflectField) (p k : Nat) :
    Covered (ReflectT.ofFields 5 size align name count elem fs) p k ↔
      ∃ i < count, Covered elem (p + i * elem.size) k := by
  simp [ReflectT.ofFields, Covered]

private theorem encodedSize_array (fs : List ReflectField) :
    (encodedSize (ReflectT.ofFields 5 size align name count elem fs)).isSome = true ↔
      elem.isNull = false ∧ elem.size ≠ 0 ∧ (0 < count → (encodedSize elem).isSome = true) := by
  simp only [ReflectT.ofFields, encodedSize]
  simp only [Int.reduceEq, or_self, if_false, if_true]
  by_cases hrefused : elem.isNull = true ∨ elem.size = 0
  · rw [if_pos hrefused]
    refine iff_of_false (by simp) ?_
    rintro ⟨hnull, hsize, -⟩
    rcases hrefused with h | h
    · rw [hnull] at h
      cases h
    · exact hsize h
  · rw [if_neg hrefused, isSome_sumLengths]
    rw [not_or, Bool.not_eq_true] at hrefused
    simp only [hrefused.1, ne_eq, hrefused.2, not_false_eq_true, true_and, List.mem_range]
    constructor
    · intro h hcount
      exact h 0 hcount
    · intro h i hi
      exact h (Nat.zero_lt_of_lt hi)

private theorem encodedSize_struct (fs : List ReflectField) :
    (encodedSize (ReflectT.ofFields 6 size align name count elem fs)).isSome = true ↔
      (fs = [] → count = 0) ∧ ∀ f ∈ fs, (encodedSize f.type).isSome = true := by
  simp only [ReflectT.ofFields, encodedSize]
  simp only [Int.reduceEq, or_self, or_false, if_false, if_true, List.length_eq_zero_iff]
  by_cases hnil : fs = []
  · subst hnil
    by_cases hcount : count = 0 <;> simp [hcount]
  · simp only [hnil, if_false, isSome_sumLengths, false_imp_iff, true_and]
    constructor
    · intro h f hf
      obtain ⟨i, rfl⟩ := List.mem_iff_get.mp hf
      exact h i (List.mem_finRange i)
    · intro h i _
      exact h _ (List.get_mem fs i)

private theorem encodedSize_union (fs : List ReflectField) :
    (encodedSize (ReflectT.ofFields 7 size align name count elem fs)).isSome = true ↔
      (fs = [] → count = 0) ∧
        ∀ f, largestEntry fs = some f → (encodedSize f.type).isSome = true := by
  simp only [ReflectT.ofFields, encodedSize, ← largestField_get]
  simp only [Int.reduceEq, or_self, or_true, if_false, if_true, List.length_eq_zero_iff]
  by_cases hnil : fs = []
  · subst hnil
    by_cases hcount : count = 0 <;> simp [hcount]
  · simp only [hnil, if_false, false_imp_iff, true_and]
    cases hlargest : largestField fun i => (fs.get i).type with
    | none => simp
    | some i => simp

end Fields

section Emission

variable {types}

private theorem code_of_array {c : TypeCode} (h : czetReflectKind c = 5) : c = .arrayType := by
  cases c <;> simp_all [czetReflectKind]

private theorem code_of_struct {c : TypeCode} (h : czetReflectKind c = 6) : c = .recordType := by
  cases c <;> simp_all [czetReflectKind]

private theorem record_of_union {c : TypeCode} (h : czetReflectKind c = 7) :
    c.isRecord = true ∧ c.isChained = false ∧ c.isFunction = false ∧ c ≠ .voidType := by
  cases c <;> simp_all [czetReflectKind, TypeCode.isRecord, TypeCode.isChained, TypeCode.isFunction]

private theorem kind_ne_typedef (c : TypeCode) : czetReflectKind c ≠ 10 := by
  cases c <;> decide

private theorem record_plain {c : TypeCode} (h : c.isRecord = true) :
    c.isChained = false ∧ c.isFunction = false ∧ c ≠ .voidType ∧ c ≠ .arrayType := by
  cases c <;> simp_all [TypeCode.isRecord, TypeCode.isChained, TypeCode.isFunction]

private def memberEntry (types : Types) (left : Nat) (f : FieldDecl) : ReflectField :=
  { name := f.name.getD "", offset := bytePosition f, type := czetReflectEmitChain types left f.type }

private theorem emit_record (left : Nat) {t : TypeId} (h : (types t).code.isRecord = true) :
    czetReflectEmitChain types (left + 1) t =
      ReflectT.ofFields (czetReflectKind (types t).code) (reflectedSize (types t))
        (reflectedAlign (types t)) (czetReflectName (types t)) (types t).fields.length .null
        (if 7 ≤ left ∧ (types t).complete = true then
          (types t).fields.map (memberEntry types left) else []) := by
  obtain ⟨hchained, hfunction, -, -⟩ := record_plain h
  have hcount : czetReflectCount types (types t) = (types t).fields.length := by
    cases hcode : (types t).code <;> simp_all [czetReflectCount, TypeCode.isRecord]
  have hdepth : 8 - left < 2 ↔ 7 ≤ left := by omega
  rw [czetReflectEmitChain, hchained, hfunction, hcount, h]
  simp only [Bool.or_self, Bool.false_eq_true, if_false, Bool.true_and, Bool.and_eq_true,
    decide_eq_true_eq, hdepth, czetReflectRecordFields, h, if_true]
  rfl

private theorem largestEntry_members (left : Nat) (fields : List FieldDecl) :
    largestEntry (fields.map (memberEntry types (left + 1))) =
      (largestMember types fields).map (memberEntry types (left + 1)) := by
  have hmap := largest_map (memberEntry types (left + 1))
    (fun f n => f.type.isNull = false ∧ f.type.size > n) (fun f => f.type.size) fields (0, none)
  have hnull : ∀ f, (memberEntry types (left + 1) f).type.isNull = false := fun _ => rfl
  have hsize : ∀ f, (memberEntry types (left + 1) f).type.size = reflectedSize (types f.type) :=
    fun _ => rfl
  simp only [hnull, hsize, true_and, Option.map_none] at hmap
  exact hmap.symm

private theorem emit_array (left : Nat) {t : TypeId} (h : (types t).code = .arrayType) :
    czetReflectEmitChain types (left + 1) t =
      ReflectT.ofFields 5 (reflectedSize (types t)) (reflectedAlign (types t))
        (czetReflectName (types t)) (czetReflectCount types (types t))
        (czetReflectEmitChain types left (types t).inner) [] := by
  rw [czetReflectEmitChain]
  simp [h, TypeCode.isChained, TypeCode.isRecord, czetReflectKind]

/-- The metadata of a type is accepted exactly for the storable types. -/
theorem isSome_encodedSize_iff (left : Nat) (t : TypeId) :
    (encodedSize (czetReflectEmitChain types left t)).isSome = true ↔ Storable types left t := by
  induction left generalizing t with
  | zero => simp [czetReflectEmitChain, encodedSize, Storable]
  | succ left ih =>
      unfold Storable
      split
      · rename_i hkind
        simp [czetReflectEmitChain, ReflectT.ofFields, encodedSize, hkind]
      · rename_i hkind
        simp [czetReflectEmitChain, ReflectT.ofFields, encodedSize, hkind]
      · rename_i hkind
        simp [czetReflectEmitChain, ReflectT.ofFields, encodedSize, hkind]
      · rename_i hkind
        rw [emit_array left (code_of_array hkind), encodedSize_array, ih]
        cases left with
        | zero => simp [czetReflectEmitChain, ReflectT.isNull]
        | succ left =>
            have hnull : (czetReflectEmitChain types (left + 1) (types t).inner).isNull = false :=
              rfl
            have hsize : (czetReflectEmitChain types (left + 1) (types t).inner).size =
                reflectedSize (types (types t).inner) := rfl
            simp [hnull, hsize]
      · rename_i hkind
        rw [emit_record left (by rw [code_of_struct hkind]; rfl), hkind, encodedSize_struct]
        split
        · rename_i hexpanded
          simp only [List.map_eq_nil_iff, List.length_eq_zero_iff, imp_self, true_and,
            List.forall_mem_map, memberEntry, ih, hexpanded]
          constructor
          · exact Or.inr
          · rintro (hnil | h)
            · intro f hf
              rw [hnil] at hf
              cases hf
            · exact h
        · rename_i hcut
          simp only [true_imp_iff, List.length_eq_zero_iff, List.not_mem_nil, false_imp_iff,
            implies_true, and_true]
          refine (or_iff_left ?_).symm
          rintro ⟨hleft, hcomplete, -⟩
          exact hcut ⟨hleft, hcomplete⟩
      · rename_i hkind
        rw [emit_record left (record_of_union hkind).1, hkind, encodedSize_union]
        split
        · rename_i hexpanded
          obtain ⟨left, rfl⟩ : ∃ l, left = l + 1 := ⟨left - 1, by omega⟩
          simp only [List.map_eq_nil_iff, List.length_eq_zero_iff, imp_self, true_and,
            largestEntry_members, Option.map_eq_some_iff, forall_exists_index, and_imp,
            forall_apply_eq_imp_iff₂, memberEntry, ih, hexpanded]
          constructor
          · exact Or.inr
          · rintro (hnil | h)
            · intro f hf
              rw [hnil] at hf
              cases hf
            · exact h
        · rename_i hcut
          have hnone : largestEntry [] = none := rfl
          simp only [true_imp_iff, List.length_eq_zero_iff, hnone, reduceCtorEq, false_imp_iff,
            implies_true, and_true]
          refine (or_iff_left ?_).symm
          rintro ⟨hleft, hcomplete, -⟩
          exact hcut ⟨hleft, hcomplete⟩
      · rename_i h2 h8 h3 h5 h6 h7
        have htypedef := kind_ne_typedef (types t).code
        simp only [imp_false] at h2 h8 h3 h5 h6 h7
        simp [czetReflectEmitChain, ReflectT.ofFields, encodedSize, h2, h8, h3, h5, h6, h7, htypedef]

private theorem keptByte_scalar {t p k : Nat}
    (hkind : czetReflectKind (types t).code = 2 ∨ czetReflectKind (types t).code = 8 ∨
      czetReflectKind (types t).code = 3) :
    KeptByte types t p k ↔ p ≤ k ∧ k < p + reflectedSize (types t) := by
  constructor
  · intro h
    cases h with
    | scalar _ hlow hhigh => exact ⟨hlow, hhigh⟩
    | element hcode => simp [hcode, czetReflectKind] at hkind
    | member hcode => simp [hcode, czetReflectKind] at hkind
    | largest hcode => simp [hcode] at hkind
  · rintro ⟨hlow, hhigh⟩
    exact .scalar hkind hlow hhigh

private theorem keptByte_array {t p k : Nat} (hcode : (types t).code = .arrayType) :
    KeptByte types t p k ↔ ∃ i < czetReflectCount types (types t),
      KeptByte types (types t).inner (p + i * reflectedSize (types (types t).inner)) k := by
  constructor
  · intro h
    cases h with
    | scalar hkind => simp [hcode, czetReflectKind] at hkind
    | element _ hi hbyte => exact ⟨_, hi, hbyte⟩
    | member hstruct => simp [hcode] at hstruct
    | largest hunion => simp [hcode, czetReflectKind] at hunion
  · rintro ⟨i, hi, hbyte⟩
    exact .element hcode hi hbyte

private theorem keptByte_struct {t p k : Nat} (hcode : (types t).code = .recordType) :
    KeptByte types t p k ↔ (types t).complete = true ∧
      ∃ f ∈ (types t).fields, KeptByte types f.type (p + bytePosition f) k := by
  constructor
  · intro h
    cases h with
    | scalar hkind => simp [hcode, czetReflectKind] at hkind
    | element harray => simp [hcode] at harray
    | member _ hcomplete hfield hbyte => exact ⟨hcomplete, _, hfield, hbyte⟩
    | largest hunion => simp [hcode, czetReflectKind] at hunion
  · rintro ⟨hcomplete, f, hfield, hbyte⟩
    exact .member hcode hcomplete hfield hbyte

private theorem keptByte_union {t p k : Nat} (hkind : czetReflectKind (types t).code = 7) :
    KeptByte types t p k ↔ (types t).complete = true ∧
      ∃ f, largestMember types (types t).fields = some f ∧
        KeptByte types f.type (p + bytePosition f) k := by
  constructor
  · intro h
    cases h with
    | scalar hscalar => simp [hkind] at hscalar
    | element harray => simp [harray, czetReflectKind] at hkind
    | member hstruct => simp [hstruct, czetReflectKind] at hkind
    | largest _ hcomplete hfield hbyte => exact ⟨hcomplete, _, hfield, hbyte⟩
  · rintro ⟨hcomplete, f, hfield, hbyte⟩
    exact .largest hkind hcomplete hfield hbyte

private theorem covered_scalar {left t : Nat} (p k : Nat)
    (hkind : czetReflectKind (types t).code = 2 ∨ czetReflectKind (types t).code = 8 ∨
      czetReflectKind (types t).code = 3) :
    Covered (czetReflectEmitChain types (left + 1) t) p k ↔ KeptByte types t p k := by
  rw [keptByte_scalar hkind, czetReflectEmitChain]
  simp only [ReflectT.ofFields, Covered, if_pos hkind]

/-- What is written of a storable type are the kept bytes. -/
theorem covered_iff (left : Nat) {t : TypeId} (h : Storable types left t) (p k : Nat) :
    Covered (czetReflectEmitChain types left t) p k ↔ KeptByte types t p k := by
  induction left generalizing t p with
  | zero => cases h
  | succ left ih =>
      unfold Storable at h
      split at h
      · rename_i hkind
        exact covered_scalar p k (Or.inl hkind)
      · rename_i hkind
        exact covered_scalar p k (Or.inr (Or.inl hkind))
      · rename_i hkind
        exact covered_scalar p k (Or.inr (Or.inr hkind))
      · rename_i hkind
        obtain ⟨hleft, -, hstorable⟩ := h
        obtain ⟨left, rfl⟩ : ∃ l, left = l + 1 := ⟨left - 1, by omega⟩
        rw [emit_array (left + 1) (code_of_array hkind), covered_array,
          keptByte_array (code_of_array hkind)]
        refine exists_congr fun i => and_congr_right fun hi => ?_
        exact ih (hstorable (Nat.zero_lt_of_lt hi)) _
      · rename_i hkind
        have hcode := code_of_struct hkind
        rw [emit_record left (by rw [hcode]; rfl), hkind, covered_struct, keptByte_struct hcode]
        split
        · rename_i hexpanded
          simp only [List.mem_map, exists_exists_and_eq_and]
          refine Iff.trans ?_ (and_iff_right hexpanded.2).symm
          refine exists_congr fun f => and_congr_right fun hf => ?_
          rcases h with hnil | ⟨-, -, hfields⟩
          · rw [hnil] at hf
            cases hf
          · exact ih (hfields f hf) _
        · rename_i hcut
          rcases h with hnil | ⟨hleft, hcomplete, -⟩
          · simp [hnil]
          · exact absurd ⟨hleft, hcomplete⟩ hcut
      · rename_i hkind
        rw [emit_record left (record_of_union hkind).1, hkind, covered_union, keptByte_union hkind]
        split
        · rename_i hexpanded
          obtain ⟨left, rfl⟩ : ∃ l, left = l + 1 := ⟨left - 1, by omega⟩
          refine Iff.trans ?_ (and_iff_right hexpanded.2).symm
          simp only [largestEntry_members, Option.map_eq_some_iff, exists_exists_and_eq_and]
          refine exists_congr fun f => and_congr_right fun hf => ?_
          rcases h with hnil | ⟨-, -, hfields⟩
          · rw [hnil] at hf
            cases hf
          · exact ih (hfields f hf) _
        · rename_i hcut
          rcases h with hnil | ⟨hleft, hcomplete, -⟩
          · have hnone : largestEntry [] = none := rfl
            have hnone' : largestMember types [] = none := rfl
            simp [hnil, hnone, hnone']
          · exact absurd ⟨hleft, hcomplete⟩ hcut
      · cases h

private theorem reflect_record {t : TypeId} (hrecord : (types t).code.isRecord = true)
    (hcomplete : (types t).complete = true) :
    czetReflectExpression types t none = .ok (czetReflectEmitChain types 10 t) := by
  obtain ⟨hchained, hfunction, hvoid, -⟩ := record_plain hrecord
  rw [czetReflectEmitChain]
  simp [czetReflectExpression, hcomplete, hchained, hfunction, hvoid, hrecord, reflectedSize,
    reflectedAlign, TypeNode.sizeless]

end Emission

section Ranges

variable {types}

private theorem reflectedSize_record {t : TypeId} (hrecord : (types t).code.isRecord = true)
    (hcomplete : (types t).complete = true) : reflectedSize (types t) = (types t).sizeUnit := by
  obtain ⟨-, hfunction, hvoid, -⟩ := record_plain hrecord
  simp [reflectedSize, TypeNode.sizeless, hfunction, hvoid, hcomplete]

private theorem largestMember_mem {fields : List FieldDecl} {f : FieldDecl}
    (h : largestMember types fields = some f) : f ∈ fields := by
  have hfold : ∀ (is : List FieldDecl) (best : Nat × Option FieldDecl),
      (is.foldl (fun (best : Nat × Option FieldDecl) f =>
        if reflectedSize (types f.type) > best.1 then (reflectedSize (types f.type), some f)
        else best) best).2 = some f → f ∈ is ∨ best.2 = some f := by
    intro is
    induction is with
    | nil => exact fun best hbest => Or.inr hbest
    | cons g is ih =>
        intro best hbest
        rw [List.foldl_cons] at hbest
        rcases ih _ hbest with hmem | hstart
        · exact Or.inl (List.mem_cons_of_mem _ hmem)
        · split at hstart
          · obtain rfl := Option.some.inj hstart
            exact Or.inl (List.mem_cons_self ..)
          · exact Or.inr hstart
  rcases hfold fields (0, none) h with hmem | hnone
  · exact hmem
  · cases hnone

private theorem member_inside (hlaid : LaidOut types) {t : TypeId}
    (hrecord : (types t).code.isRecord = true) (hcomplete : (types t).complete = true)
    (hfit : BitFieldsFit (types t)) {f : FieldDecl} (hfield : f ∈ (types t).fields) :
    bytePosition f + reflectedSize (types f.type) ≤ (types t).sizeUnit := by
  cases hwidth : f.bitWidth with
  | none =>
      obtain ⟨pos, hpos, hinside⟩ := hlaid.member t hrecord hcomplete f hfield hwidth
      simpa [bytePosition, hpos] using hinside
  | some w =>
      obtain ⟨pos, hpos, -, -, hmode⟩ := hlaid.bitField t hrecord hcomplete f hfield w hwidth
      have hinside := (hfit f hfield w pos hwidth hpos).2
      rw [hmode]
      simpa [bytePosition, hpos] using hinside

private theorem entryFits_iff (hlaid : LaidOut types) {t : TypeId}
    (hrecord : (types t).code.isRecord = true) (hcomplete : (types t).complete = true) (left : Nat)
    {f : FieldDecl} (hfield : f ∈ (types t).fields) :
    EntryFits types (types t) f (memberEntry types (left + 1) f) ↔
      ∀ w pos, f.bitWidth = some w → f.bitPos = some pos →
        pos % 8 + w ≤ 8 * modeBytes w ∧ pos / 8 + modeBytes w ≤ (types t).sizeUnit := by
  have hsize : (memberEntry types (left + 1) f).type.size = reflectedSize (types f.type) := rfl
  have hoffset : (memberEntry types (left + 1) f).offset = bytePosition f := rfl
  rw [EntryFits, hsize, hoffset]
  cases hwidth : f.bitWidth with
  | none =>
      obtain ⟨pos, hpos, hinside⟩ := hlaid.member t hrecord hcomplete f hfield hwidth
      have hbyte : bytePosition f = pos := by simp [bytePosition, hpos]
      refine iff_of_true ⟨by rw [hbyte]; exact hinside, ?_⟩ fun w _ hw => by cases hw
      intro pos' hpos' b hlow hhigh
      obtain rfl := Option.some.inj (hpos.symm.trans hpos')
      simp only [memberBits, hwidth] at hhigh
      omega
  | some w =>
      obtain ⟨pos, hpos, -, -, hmode⟩ := hlaid.bitField t hrecord hcomplete f hfield w hwidth
      have hbyte : bytePosition f = pos / 8 := by simp [bytePosition, hpos]
      simp only [hbyte, hmode, hpos, memberBits, hwidth, Option.some.injEq, forall_eq']
      constructor
      · rintro ⟨hinside, hbits⟩ _ _ rfl rfl
        refine ⟨?_, hinside⟩
        rcases Nat.eq_zero_or_pos w with hzero | hpositive
        · have hmodePos : 0 < modeBytes w := by
            unfold modeBytes
            split <;> omega
          omega
        · have hlast := hbits (pos + w - 1) (by omega) (by omega)
          omega
      · intro hmodes
        obtain ⟨hlong, hinside⟩ := hmodes w pos rfl rfl
        refine ⟨hinside, fun b hlow hhigh => ?_⟩
        omega

private theorem entries_fit_iff (hlaid : LaidOut types) {t : TypeId}
    (hrecord : (types t).code.isRecord = true) (hcomplete : (types t).complete = true) (left : Nat) :
    (∀ p ∈ (types t).fields.zip
        (czetReflectRecordFields (czetReflectEmitChain types (left + 1)) (types t)),
      EntryFits types (types t) p.1 p.2) ↔ BitFieldsFit (types t) := by
  have hentries : czetReflectRecordFields (czetReflectEmitChain types (left + 1)) (types t) =
      (types t).fields.map (memberEntry types (left + 1)) := by
    rw [czetReflectRecordFields, if_pos hrecord]
    rfl
  have hzip : (types t).fields.zip ((types t).fields.map (memberEntry types (left + 1))) =
      (types t).fields.map fun f => (f, memberEntry types (left + 1) f) := by
    have hboth : ((types t).fields.map id).zip
        ((types t).fields.map (memberEntry types (left + 1))) =
        (types t).fields.map fun f => (id f, memberEntry types (left + 1) f) := List.zip_map'
    rw [List.map_id] at hboth
    exact hboth
  rw [hentries, hzip, List.forall_mem_map]
  exact forall₂_congr fun f hf => entryFits_iff hlaid hrecord hcomplete left hf

private theorem keptByte_inside (hlaid : LaidOut types) {t p k : Nat} (h : KeptByte types t p k)
    (hfit : ∀ n, Nested types t n → (types n).code.isRecord = true →
      (types n).complete = true → BitFieldsFit (types n)) :
    k < p + reflectedSize (types t) := by
  induction h with
  | scalar _ _ hhigh => exact hhigh
  | @element t p k i hcode hi hbyte ih =>
      have hinner := ih fun n hn => hfit n (.element hcode hn)
      have hcomplete : (types t).complete = true := by
        cases hc : (types t).complete with
        | true => rfl
        | false => simp [czetReflectCount, hcode, hc] at hi
      have hsize : reflectedSize (types t) =
          czetReflectCount types (types t) * reflectedSize (types (types t).inner) := by
        rw [← hlaid.array t hcode hcomplete]
        simp [reflectedSize, TypeNode.sizeless, hcode, TypeCode.isFunction, hcomplete]
      have hrow : (i + 1) * reflectedSize (types (types t).inner) ≤
          czetReflectCount types (types t) * reflectedSize (types (types t).inner) :=
        Nat.mul_le_mul_right _ hi
      rw [Nat.succ_mul] at hrow
      omega
  | @member t p k f hcode hcomplete hfield hbyte ih =>
      have hrecord : (types t).code.isRecord = true := by rw [hcode]; rfl
      have hinner := ih fun n hn => hfit n (.member hrecord hfield hn)
      have hinside := member_inside hlaid hrecord hcomplete
        (hfit t (.refl t) hrecord hcomplete) hfield
      rw [reflectedSize_record hrecord hcomplete]
      omega
  | @largest t p k f hcode hcomplete hlargest hbyte ih =>
      have hrecord := (record_of_union hcode).1
      have hfield := largestMember_mem hlargest
      have hinner := ih fun n hn => hfit n (.member hrecord hfield hn)
      have hinside := member_inside hlaid hrecord hcomplete
        (hfit t (.refl t) hrecord hcomplete) hfield
      rw [reflectedSize_record hrecord hcomplete]
      omega

end Ranges

/-- The metadata of `t` can be used as its memory layout: the entries of each record in it fit, and
saving and loading an object along the metadata stay inside the object and restore the value of
every member. -/
def LayoutUsable (t : TypeId) : Prop :=
  (∀ n, Nested types t n → (types n).code.isRecord = true → (types n).complete = true →
    ∀ subdepth ≤ 2, ∀ p ∈ (types n).fields.zip
        (czetReflectRecordFields (czetReflectEmitChain types (9 - subdepth)) (types n)),
      EntryFits types (types n) p.1 p.2) ∧
  ∃ r, czetReflectExpression types t none = .ok r ∧
    ∀ host m m' bytes rest, smSaveR host m r = some bytes →
      (∀ m₂ : Image, (∀ k < (types t).sizeUnit, m₂ k = m k) → smSaveR host m₂ r = some bytes) ∧
      ∃ m'', smLoadR host m' r (bytes ++ rest) = some (m'', rest) ∧
        (∀ k, (types t).sizeUnit ≤ k → m'' k = m' k) ∧
        ∀ b, ValueBit types t 0 b →
          (m'' (b / 8)).toNat.testBit (b % 8) = (m (b / 8)).toNat.testBit (b % 8)

variable {types}

private theorem storable_of_save {t : TypeId} {host : Host} {m : Image} {bytes : List UInt8}
    (h : smSaveR host m (czetReflectEmitChain types 10 t) = some bytes) : Storable types 10 t :=
  (isSome_encodedSize_iff 10 t).mp (isSome_encodedSize h)

private theorem run_inside (hlaid : LaidOut types) {t : TypeId}
    (hrecord : (types t).code.isRecord = true) (hcomplete : (types t).complete = true)
    (hfit : ∀ n, Nested types t n → (types n).code.isRecord = true →
      (types n).complete = true → BitFieldsFit (types n))
    (hstorable : Storable types 10 t) (k : Nat)
    (hk : Covered (czetReflectEmitChain types 10 t) 0 k) : k < (types t).sizeUnit := by
  have hinside := keptByte_inside hlaid ((covered_iff 10 hstorable 0 k).mp hk) hfit
  rwa [reflectedSize_record hrecord hcomplete, Nat.zero_add] at hinside

private theorem kept_of_restored {t : TypeId} (hstorable : Storable types 10 t)
    (hrestored : ∀ host m m' bytes rest,
      smSaveR host m (czetReflectEmitChain types 10 t) = some bytes →
      ∃ m'', smLoadR host m' (czetReflectEmitChain types 10 t) (bytes ++ rest) = some (m'', rest) ∧
        ∀ b, ValueBit types t 0 b →
          (m'' (b / 8)).toNat.testBit (b % 8) = (m (b / 8)).toNat.testBit (b % 8))
    (b : Nat) (hb : ValueBit types t 0 b) : KeptByte types t 0 (b / 8) := by
  have hideal : (⟨true, fun _ _ => true, fun _ _ => true⟩ : Host).Ideal :=
    ⟨fun _ _ => rfl, fun _ _ => rfl⟩
  have hsaved := (isSome_encodedSize_iff 10 t).mpr hstorable
  rw [← isSome_smSaveR hideal fun _ => 0] at hsaved
  obtain ⟨bytes, hbytes⟩ := Option.isSome_iff_exists.mp hsaved
  obtain ⟨m'', hload, hbits⟩ := hrestored _ _ (fun _ => 255) bytes [] hbytes
  by_contra hnot
  have huncovered : ¬ Covered (czetReflectEmitChain types 10 t) 0 (b / 8) := by
    rw [covered_iff 10 hstorable]
    exact hnot
  -- the byte keeps the target's 255 although the saved one was 0
  obtain ⟨m₁, hload₁, -, hout⟩ := smLoadR_of_save hbytes (fun _ => 255) []
  obtain rfl : m'' = m₁ := (Prod.mk.inj (Option.some.inj (hload.symm.trans hload₁))).1
  have hbit := hbits b hb
  rw [hout _ huncovered] at hbit
  have hall : ∀ i < 8, (255 : UInt8).toNat.testBit i ≠ (0 : UInt8).toNat.testBit i := by decide
  exact hall (b % 8) (Nat.mod_lt b (by decide)) hbit

/-- The metadata of a complete struct or union is usable exactly when every bit-field in it fits the
machine mode from its first byte on and, for an object that can be saved, no member's value reaches
into a hole of the largest member of a union. -/
theorem layout_usable_iff (hlaid : LaidOut types) {t : TypeId}
    (hrecord : (types t).code.isRecord = true) (hcomplete : (types t).complete = true) :
    LayoutUsable types t ↔
      (∀ n, Nested types t n → (types n).code.isRecord = true → (types n).complete = true →
        BitFieldsFit (types n)) ∧
      (Storable types 10 t → ∀ b, ValueBit types t 0 b → KeptByte types t 0 (b / 8)) := by
  have hreflect := reflect_record hrecord hcomplete
  constructor
  · rintro ⟨hentries, r, hr, hrun⟩
    obtain rfl := Except.ok.inj (hreflect.symm.trans hr)
    refine ⟨?_, ?_⟩
    · intro n hn hnrecord hncomplete
      exact (entries_fit_iff hlaid hnrecord hncomplete 8).mp
        (hentries n hn hnrecord hncomplete 0 (Nat.zero_le 2))
    · intro hstorable b hb
      refine kept_of_restored hstorable ?_ b hb
      intro host m m' bytes rest hsave
      obtain ⟨-, m'', hload, -, hbits⟩ := hrun host m m' bytes rest hsave
      exact ⟨m'', hload, hbits⟩
  · rintro ⟨hfit, hkept⟩
    refine ⟨?_, _, hreflect, ?_⟩
    · intro n hn hnrecord hncomplete subdepth hdepth
      obtain ⟨left, hleft⟩ : ∃ left, 9 - subdepth = left + 1 := ⟨8 - subdepth, by omega⟩
      rw [hleft]
      exact (entries_fit_iff hlaid hnrecord hncomplete left).mpr (hfit n hn hnrecord hncomplete)
    · intro host m m' bytes rest hsave
      have hstorable := storable_of_save hsave
      have hinside := run_inside hlaid hrecord hcomplete hfit hstorable
      obtain ⟨m'', hload, hin, hout⟩ := smLoadR_of_save hsave m' rest
      refine ⟨?_, m'', hload, ?_, ?_⟩
      · intro m₂ hsame
        rw [smSaveR, smWriteValue_congr host _ 0 fun k hk => hsame k (hinside k hk)]
        exact hsave
      · intro k hk
        refine hout k fun hcovered => ?_
        have hlt := hinside k hcovered
        omega
      · intro b hb
        have hcovered := (covered_iff 10 hstorable 0 (b / 8)).mpr (hkept hstorable b hb)
        rw [hin _ hcovered]

private theorem valueBit_scalar {t p b : Nat} (harray : (types t).code ≠ .arrayType)
    (hrecord : (types t).code.isRecord = false) (h : ValueBit types t p b) :
    p ≤ b / 8 ∧ b / 8 < p + reflectedSize (types t) := by
  cases h with
  | scalar _ _ hlow hhigh => omega
  | element hcode => exact absurd hcode harray
  | member hcode => rw [hrecord] at hcode; cases hcode
  | bitField hcode => rw [hrecord] at hcode; cases hcode

private theorem valueBit_record {t p b : Nat} (hrecord : (types t).code.isRecord = true)
    (h : ValueBit types t p b) :
    ∃ f ∈ (types t).fields, (f.bitWidth = none ∧ ValueBit types f.type (p + bytePosition f) b) ∨
      ∃ w pos, f.bitWidth = some w ∧ f.bitPos = some pos ∧
        p + pos / 8 ≤ b / 8 ∧ b < 8 * p + pos + w := by
  cases h with
  | scalar _ hscalar => rw [hrecord] at hscalar; cases hscalar
  | element hcode => rw [hcode] at hrecord; cases hrecord
  | member _ _ hfield hordinary hbit => exact ⟨_, hfield, .inl ⟨hordinary, hbit⟩⟩
  | bitField _ _ hfield hwidth hpos hlow hhigh =>
      exact ⟨_, hfield, .inr ⟨_, _, hwidth, hpos, by omega, hhigh⟩⟩

/-- `struct { struct { short lo, hi; } at; int flags : 3; union { short s; char c; } u; }`;
3 is `short`, 4 is `char`, and so is the type of the bit-field. -/
def tagged : Types := fun t =>
  if t = 0 then
    ⟨.recordType, true, 8, 4, none, 0, none,
      [⟨some "at", some 0, 1, none⟩, ⟨some "flags", some 32, 4, some 3⟩,
        ⟨some "u", some 48, 2, none⟩], 0, []⟩
  else if t = 1 then
    ⟨.recordType, true, 4, 2, none, 0, none,
      [⟨some "lo", some 0, 3, none⟩, ⟨some "hi", some 16, 3, none⟩], 0, []⟩
  else if t = 2 then
    ⟨.unionType, true, 2, 2, none, 0, none,
      [⟨some "s", some 0, 3, none⟩, ⟨some "c", some 0, 4, none⟩], 0, []⟩
  else if t = 3 then ⟨.integerType, true, 2, 2, some "short", 0, none, [], 0, []⟩
  else ⟨.integerType, true, 1, 1, some "char", 0, none, [], 0, []⟩

private theorem tagged_cases (t : TypeId) :
    t = 0 ∨ t = 1 ∨ t = 2 ∨ (tagged t).code = .integerType ∧ (tagged t).fields = [] := by
  by_cases h0 : t = 0
  · exact .inl h0
  by_cases h1 : t = 1
  · exact .inr (.inl h1)
  by_cases h2 : t = 2
  · exact .inr (.inr (.inl h2))
  refine .inr (.inr (.inr ?_))
  by_cases h3 : t = 3 <;> simp [tagged, h0, h1, h2, h3]

private theorem tagged_laidOut : LaidOut tagged := by
  refine ⟨?_, ?_, ?_⟩
  · intro t hcode
    rcases tagged_cases t with rfl | rfl | rfl | ⟨hinteger, -⟩
    · cases hcode
    · cases hcode
    · cases hcode
    · rw [hinteger] at hcode
      cases hcode
  · intro t _ _ f hf hordinary
    rcases tagged_cases t with rfl | rfl | rfl | ⟨-, hnone⟩
    · rcases hf with _ | ⟨_, _ | ⟨_, _ | ⟨_, hf⟩⟩⟩
      · exact ⟨0, rfl, by decide⟩
      · cases hordinary
      · exact ⟨6, rfl, by decide⟩
      · cases hf
    · rcases hf with _ | ⟨_, _ | ⟨_, hf⟩⟩
      · exact ⟨0, rfl, by decide⟩
      · exact ⟨2, rfl, by decide⟩
      · cases hf
    · rcases hf with _ | ⟨_, _ | ⟨_, hf⟩⟩
      · exact ⟨0, rfl, by decide⟩
      · exact ⟨0, rfl, by decide⟩
      · cases hf
    · rw [hnone] at hf
      cases hf
  · intro t _ _ f hf w hw
    rcases tagged_cases t with rfl | rfl | rfl | ⟨-, hnone⟩
    · rcases hf with _ | ⟨_, _ | ⟨_, _ | ⟨_, hf⟩⟩⟩
      · cases hw
      · cases hw
        exact ⟨32, rfl, by decide, by decide, rfl⟩
      · cases hw
      · cases hf
    · rcases hf with _ | ⟨_, _ | ⟨_, hf⟩⟩
      · cases hw
      · cases hw
      · cases hf
    · rcases hf with _ | ⟨_, _ | ⟨_, hf⟩⟩
      · cases hw
      · cases hw
      · cases hf
    · rw [hnone] at hf
      cases hf

private theorem tagged_fields_fit (n : TypeId) : BitFieldsFit (tagged n) := by
  intro f hf w pos hw hpos
  rcases tagged_cases n with rfl | rfl | rfl | ⟨-, hnone⟩
  · rcases hf with _ | ⟨_, _ | ⟨_, _ | ⟨_, hf⟩⟩⟩
    · cases hw
    · cases hw
      cases hpos
      decide
    · cases hw
    · cases hf
  · rcases hf with _ | ⟨_, _ | ⟨_, hf⟩⟩
    · cases hw
    · cases hw
    · cases hf
  · rcases hf with _ | ⟨_, _ | ⟨_, hf⟩⟩
    · cases hw
    · cases hw
    · cases hf
  · rw [hnone] at hf
    cases hf

private theorem tagged_short {p b : Nat} (h : ValueBit tagged 3 p b) :
    KeptByte tagged 3 p (b / 8) := by
  obtain ⟨hlow, hhigh⟩ := valueBit_scalar (by decide) rfl h
  exact .scalar (.inl rfl) hlow hhigh

private theorem tagged_pair {p b : Nat} (h : ValueBit tagged 1 p b) :
    KeptByte tagged 1 p (b / 8) := by
  obtain ⟨f, hf, ⟨-, hbit⟩ | ⟨w, pos, hw, -⟩⟩ := valueBit_record rfl h
  · rcases hf with _ | ⟨_, _ | ⟨_, hf⟩⟩
    · exact .member rfl rfl (List.mem_cons_self ..) (tagged_short hbit)
    · exact .member rfl rfl (List.mem_cons_of_mem _ (List.mem_cons_self ..)) (tagged_short hbit)
    · cases hf
  · rcases hf with _ | ⟨_, _ | ⟨_, hf⟩⟩
    · cases hw
    · cases hw
    · cases hf

private theorem tagged_union {p b : Nat} (h : ValueBit tagged 2 p b) :
    KeptByte tagged 2 p (b / 8) := by
  have hlargest : largestMember tagged (tagged 2).fields = some ⟨some "s", some 0, 3, none⟩ := rfl
  obtain ⟨f, hf, ⟨-, hbit⟩ | ⟨w, pos, hw, -⟩⟩ := valueBit_record rfl h
  · refine .largest rfl rfl hlargest ?_
    rcases hf with _ | ⟨_, _ | ⟨_, hf⟩⟩
    · exact tagged_short hbit
    · obtain ⟨hlow, hhigh⟩ := valueBit_scalar (by decide) rfl hbit
      exact .scalar (.inl rfl) hlow (Nat.lt_succ_of_lt hhigh)
    · cases hf
  · rcases hf with _ | ⟨_, _ | ⟨_, hf⟩⟩
    · cases hw
    · cases hw
    · cases hf

theorem tagged_usable : LayoutUsable tagged 0 := by
  refine (layout_usable_iff tagged_laidOut rfl rfl).mpr ⟨fun n _ _ _ => tagged_fields_fit n, ?_⟩
  intro _ b hb
  obtain ⟨f, hf, ⟨hordinary, hbit⟩ | ⟨w, pos, hw, hpos, hlow, hhigh⟩⟩ := valueBit_record rfl hb
  · refine .member rfl rfl hf ?_
    rcases hf with _ | ⟨_, _ | ⟨_, _ | ⟨_, hf⟩⟩⟩
    · exact tagged_pair hbit
    · cases hordinary
    · exact tagged_union hbit
    · cases hf
  · refine .member rfl rfl hf ?_
    rcases hf with _ | ⟨_, _ | ⟨_, _ | ⟨_, hf⟩⟩⟩
    · cases hw
    · cases hw
      cases hpos
      have hsize : reflectedSize (tagged 4) = 1 := rfl
      refine .scalar (.inl rfl) ?_ ?_
      · exact hlow
      · change b / 8 < 0 + 4 + reflectedSize (tagged 4)
        omega
    · cases hw
    · cases hf

/-- `struct { int a : 3; int b : 7; }`; 1 is an integer type of one byte. -/
def splitFields : Types := fun t =>
  if t = 0 then
    ⟨.recordType, true, 4, 4, none, 0, none,
      [⟨some "a", some 0, 1, some 3⟩, ⟨some "b", some 3, 1, some 7⟩], 0, []⟩
  else ⟨.integerType, true, 1, 1, none, 0, none, [], 0, []⟩

/-- The entry of `b` is the first byte, its last two bits are in the second one. -/
theorem splitFields_not_usable : LaidOut splitFields ∧ ¬ LayoutUsable splitFields 0 := by
  refine ⟨⟨?_, ?_, ?_⟩, ?_⟩
  · intro t hcode
    by_cases ht : t = 0 <;> simp [splitFields, ht] at hcode
  · intro t _ _ f hf hw
    by_cases ht : t = 0
    · simp only [splitFields, ht, if_true, List.mem_cons, List.not_mem_nil, or_false] at hf
      rcases hf with rfl | rfl <;> cases hw
    · simp [splitFields, ht] at hf
  · intro t _ _ f hf w hw
    by_cases ht : t = 0
    · simp only [splitFields, ht, if_true, List.mem_cons, List.not_mem_nil, or_false] at hf
      rcases hf with rfl | rfl
      · cases hw
        exact ⟨0, rfl, by rw [ht]; decide, by decide, rfl⟩
      · cases hw
        exact ⟨3, rfl, by rw [ht]; decide, by decide, rfl⟩
    · simp [splitFields, ht] at hf
  · rintro ⟨hentries, -⟩
    have hfits := hentries 0 (.refl 0) rfl rfl 0 (Nat.zero_le 2)
      (⟨some "b", some 3, 1, some 7⟩, memberEntry splitFields 9 ⟨some "b", some 3, 1, some 7⟩)
      (List.mem_cons_of_mem _ (List.mem_cons_self ..))
    have hlast := (hfits.2 3 rfl 9 (by decide) (by decide)).2
    exact absurd hlast (by decide)

end CZet.Reflect
