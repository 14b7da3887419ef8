/- source: stdlib/utils/save_memory.h, src/gcc/gcc/c/c-parser.cc (czet_reflect_kind)
   digest: The saved bytes on hosts of both byte orders: they are the same exactly for the values
     whose complex numbers have equal parts. -/

import CZet.Stdlib.SaveMemory

set_option autoImplicit false
set_option relaxedAutoImplicit false

namespace CZet.Stdlib

open CZet.Lib.StreamCodec CZet.Reflect

inductive ScalarKind
  | integer | enum | real
  deriving DecidableEq

/-- What `czet_reflect_kind` gives. -/
def ScalarKind.code : ScalarKind → Int
  | integer => 2
  | enum => 8
  | real => 3

/-- The C types whose objects are saved.  A complex number has two parts of the same size; the
metadata do not say so. -/
inductive SavedType
  | scalar (kind : ScalarKind) (size align : Nat) (name : String)
  | complex (part align : Nat) (name : String)
  | array (size align : Nat) (name : String) (count : Nat) (elem : SavedType)
  | record (isUnion : Bool) (size align : Nat) (name : String) (entries : Nat)
      (fieldName : Fin entries → String) (fieldOffset : Fin entries → Nat)
      (fieldType : Fin entries → SavedType)
  | typedef (size align : Nat) (name : String) (elem : SavedType)

namespace SavedType

/-- The metadata of the type. -/
def reflect : SavedType → ReflectT
  | scalar kind size align name =>
      .obj kind.code size align name 0 .null 0 (fun i => i.elim0) (fun i => i.elim0) fun i => i.elim0
  | complex part align name =>
      .obj 3 (2 * part) align name 0 .null 0 (fun i => i.elim0) (fun i => i.elim0) fun i => i.elim0
  | array size align name count elem =>
      .obj 5 size align name count elem.reflect 0 (fun i => i.elim0) (fun i => i.elim0)
        fun i => i.elim0
  | record isUnion size align name entries fieldName fieldOffset fieldType =>
      .obj (if isUnion then 7 else 6) size align name entries .null entries fieldName fieldOffset
        fun i => (fieldType i).reflect
  | typedef size align name elem =>
      .obj 10 size align name 0 elem.reflect 0 (fun i => i.elim0) (fun i => i.elim0)
        fun i => i.elim0

/-- The fields that are saved: all those of a struct, and of a union the first of the largest
ones. -/
def savedFields {entries : Nat} (isUnion : Bool) (fieldType : Fin entries → SavedType) :
    List (Fin entries) :=
  if isUnion then (largestField fun i => (fieldType i).reflect).toList else List.finRange entries

/-- The texts of the numbers at their offsets, in the order of their declaration; `none` where an
array of elements without a size is refused. -/
def texts (scalarAt complexAt : Nat → Nat → List UInt8) : SavedType → Nat → Option (List UInt8)
  | scalar _ size _ _, p => some (scalarAt p size)
  | complex part _ _, p => some (complexAt p part)
  | array _ _ _ count elem, p =>
      if elem.reflect.size = 0 then none
      else concatAll (fun i => elem.texts scalarAt complexAt (p + i * elem.reflect.size))
        (List.range count)
  | record isUnion _ _ _ _ _ fieldOffset fieldType, p =>
      concatAll (fun i => (fieldType i).texts scalarAt complexAt (p + fieldOffset i))
        (savedFields isUnion fieldType)
  | typedef _ _ _ elem, p => elem.texts scalarAt complexAt p

/-- `P` holds of all numbers that are saved, given by their offsets and the sizes of their parts. -/
def AllNumbers (P : Nat → Nat → Prop) (Q : Nat → Nat → Prop) : SavedType → Nat → Prop
  | scalar _ size _ _, p => P p size
  | complex part _ _, p => Q p part
  | array _ _ _ count elem, p =>
      ∀ i ∈ List.range count, elem.AllNumbers P Q (p + i * elem.reflect.size)
  | record isUnion _ _ _ _ _ fieldOffset fieldType, p =>
      ∀ i ∈ savedFields isUnion fieldType, (fieldType i).AllNumbers P Q (p + fieldOffset i)
  | typedef _ _ _ elem, p => elem.AllNumbers P Q p

/-- Where an array of elements without a size is to be saved, saving returns -1. -/
def Refused : SavedType → Prop
  | scalar .. | complex .. => False
  | array _ _ _ count elem => elem.reflect.size = 0 ∨ 0 < count ∧ elem.Refused
  | record isUnion _ _ _ _ _ _ fieldType => ∃ i ∈ savedFields isUnion fieldType, (fieldType i).Refused
  | typedef _ _ _ elem => elem.Refused

end SavedType

/-- The images of one number on hosts of the two byte orders. -/
def MirroredAt (little big : Image) (p n : Nat) : Prop :=
  bytesAt big p n = (bytesAt little p n).reverse

instance (little big : Image) (p n : Nat) : Decidable (MirroredAt little big p n) :=
  inferInstanceAs (Decidable (_ = _))

/-- The images of one value: each number, and each part of a complex one, is mirrored. -/
def Mirrored (little big : Image) (t : SavedType) : Prop :=
  t.AllNumbers (MirroredAt little big)
    (fun p part => MirroredAt little big p part ∧ MirroredAt little big (p + part) part) 0

/-- The format of the file, from the image on a little-endian host: each number, and each part of a
complex one, in little-endian order. -/
def savedFormat (little : Image) (t : SavedType) : Option (List UInt8) :=
  t.texts (bytesAt little) (fun p part => bytesAt little p part ++ bytesAt little (p + part) part) 0

/-- Every complex number that is saved has a real part equal to its imaginary one. -/
def EqualParts (little : Image) (t : SavedType) : Prop :=
  t.AllNumbers (fun _ _ => True)
    (fun p part => bytesAt little p part = bytesAt little (p + part) part) 0

section Writing

variable {host : Host} {m : Image}

/-- What a host writes for a scalar. -/
def hostBytes (host : Host) (m : Image) (p n : Nat) : List UInt8 :=
  if host.littleEndian then bytesAt m p n else (bytesAt m p n).reverse

theorem length_hostBytes (p n : Nat) : (hostBytes host m p n).length = n := by
  unfold hostBytes
  split
  · exact length_bytesAt m p n
  · rw [List.length_reverse, length_bytesAt]

private theorem swapped_eq_reverse (p n : Nat) :
    bytesAt (smSwapBytes (fun i => m (p + i)) 0 n) 0 n = (bytesAt m p n).reverse := by
  apply List.ext_getElem
  · rw [List.length_reverse, length_bytesAt, length_bytesAt]
  · intro i hi hi'
    rw [length_bytesAt] at hi
    simp only [bytesAt, List.getElem_map, List.getElem_range, List.getElem_reverse,
      List.length_map, List.length_range, smSwapBytes_apply]
    rw [if_pos (by omega)]
    congr 2
    omega

private theorem writeRaw_appends (hideal : host.Ideal) (bytes : List UInt8) :
    Appends (some bytes) (smWriteRaw host bytes) := by
  intro out
  rw [smWriteRaw, hideal.2]
  split
  next hzero => rw [List.length_eq_zero_iff.mp hzero, Option.map_some, List.append_nil]
  next => rfl

theorem scalar_appends (hideal : host.Ideal) (p n : Nat) :
    Appends (some (hostBytes host m p n)) (smWriteScalar host m p n) := by
  intro out
  rw [smWriteScalar, hideal.1]
  split
  next hzero =>
    have hnil : hostBytes host m p n = [] := List.length_eq_zero_iff.mp
      ((length_hostBytes p n).trans hzero)
    rw [hnil, Option.map_some, List.append_nil]
  next hpos =>
    split
    next hplain =>
      have hbytes : hostBytes host m p n = bytesAt m p n := by
        unfold hostBytes
        rcases hplain with rfl | hlittle
        · split
          · rfl
          · exact List.reverse_singleton
        · rw [if_pos hlittle]
      rw [hbytes]
      exact writeRaw_appends hideal _ out
    next hswap =>
      have hbytes : hostBytes host m p n = (bytesAt m p n).reverse := by
        rw [hostBytes, if_neg fun hlittle => hswap (Or.inr hlittle)]
      rw [if_pos rfl, hbytes, ← swapped_eq_reverse]
      exact writeRaw_appends hideal _ out

/-- What `sm_write_value` appends for an object of the type. -/
theorem value_appends (hideal : host.Ideal) (t : SavedType) (p : Nat) :
    Appends (t.texts (hostBytes host m) (fun p part => hostBytes host m p (2 * part)) p)
      (smWriteValue host m t.reflect p) := by
  induction t generalizing p with
  | scalar kind size align name =>
      have hkind : kind.code = 2 ∨ kind.code = 8 ∨ kind.code = 3 := by cases kind <;> decide
      intro out
      rw [SavedType.reflect, smWriteValue]
      dsimp only
      rw [if_pos hkind]
      exact scalar_appends hideal p size out
  | complex part align name =>
      intro out
      rw [SavedType.reflect, smWriteValue]
      dsimp only
      rw [if_pos (by decide)]
      exact scalar_appends hideal p (2 * part) out
  | array size align name count elem ih =>
      intro out
      rw [SavedType.reflect, smWriteValue]
      dsimp only
      rw [if_neg (by decide), if_pos rfl, SavedType.texts]
      have hnull : elem.reflect.isNull = false := by cases elem <;> rfl
      by_cases hsize : elem.reflect.size = 0
      · rw [if_pos (Or.inr hsize), if_pos hsize]
        rfl
      · have hkeep : ¬ (elem.reflect.isNull = true ∨ elem.reflect.size = 0) := by simp [hnull, hsize]
        rw [if_neg hkeep, if_neg hsize]
        exact Appends.all _ (fun i _ => ih (p + i * elem.reflect.size)) out
  | record isUnion size align name entries fieldName fieldOffset fieldType ih =>
      intro out
      rw [SavedType.reflect, SavedType.texts]
      unfold smWriteValue SavedType.savedFields
      cases isUnion with
      | false =>
          simp only [Bool.false_eq_true, if_false]
          rw [if_neg (by decide), if_neg (by decide), if_pos (by decide)]
          by_cases hentries : entries = 0
          · subst hentries
            simp [concatAll]
          · rw [if_neg hentries, if_neg (by decide)]
            exact Appends.all _ (fun i _ => ih i (p + fieldOffset i)) out
      | true =>
          simp only [if_true]
          rw [if_neg (by decide), if_neg (by decide), if_pos (by decide)]
          by_cases hentries : entries = 0
          · subst hentries
            have hnone : largestField (fun i => (fieldType i).reflect) = none := rfl
            simp [hnone, concatAll]
          · rw [if_neg hentries]
            cases hlargest : largestField fun i => (fieldType i).reflect with
            | none => simp [concatAll]
            | some i =>
                rw [Option.toList_some, concatAll_singleton]
                exact ih i (p + fieldOffset i) out
  | typedef size align name elem ih =>
      intro out
      rw [SavedType.reflect, smWriteValue]
      dsimp only
      rw [if_neg (by decide), if_neg (by decide), if_neg (by decide), if_pos rfl]
      exact ih p out

end Writing

section Texts

variable {f f' g g' : Nat → Nat → List UInt8}

private theorem texts_eq_none_iff (t : SavedType) (p : Nat) : t.texts f g p = none ↔ t.Refused := by
  induction t generalizing p with
  | scalar => exact iff_of_false (Option.some_ne_none _) id
  | complex => exact iff_of_false (Option.some_ne_none _) id
  | array size align name count elem ih =>
      rw [SavedType.texts, SavedType.Refused]
      by_cases hsize : elem.reflect.size = 0
      · rw [if_pos hsize]
        exact iff_of_true rfl (Or.inl hsize)
      · rw [if_neg hsize, concatAll_eq_none_iff, or_iff_right hsize]
        simp only [ih, List.mem_range]
        constructor
        · rintro ⟨i, hi, hrefused⟩
          exact ⟨Nat.zero_lt_of_lt hi, hrefused⟩
        · rintro ⟨hpos, hrefused⟩
          exact ⟨0, hpos, hrefused⟩
  | record isUnion size align name entries fieldName fieldOffset fieldType ih =>
      rw [SavedType.texts, SavedType.Refused, concatAll_eq_none_iff]
      simp only [ih]
  | typedef size align name elem ih => exact ih p

private theorem concatAll_numbers {ι : Type} {is : List ι} {type : ι → SavedType} {at' : ι → Nat}
    {P : ι → Prop}
    (hlen : ∀ i ∈ is, ((type i).texts f g (at' i)).map List.length =
      ((type i).texts f' g' (at' i)).map List.length)
    (hiff : ∀ i ∈ is, ((type i).texts f g (at' i) = (type i).texts f' g' (at' i) ↔
      (type i).texts f g (at' i) = none ∨ P i)) :
    concatAll (fun i => (type i).texts f g (at' i)) is =
        concatAll (fun i => (type i).texts f' g' (at' i)) is ↔
      concatAll (fun i => (type i).texts f g (at' i)) is = none ∨ ∀ i ∈ is, P i := by
  rw [(concatAll_eq_iff hlen).2]
  apply or_congr_right'
  intro hkept
  rw [concatAll_eq_none_iff] at hkept
  refine forall₂_congr fun i hi => ?_
  rw [hiff i hi]
  exact or_iff_right fun hnone => hkept ⟨i, hi, hnone⟩

private theorem texts_eq_iff (hf : ∀ p n, (f p n).length = (f' p n).length)
    (hg : ∀ p n, (g p n).length = (g' p n).length) (t : SavedType) (p : Nat) :
    (t.texts f g p).map List.length = (t.texts f' g' p).map List.length ∧
      (t.texts f g p = t.texts f' g' p ↔ t.texts f g p = none ∨
        t.AllNumbers (fun p n => f p n = f' p n) (fun p n => g p n = g' p n) p) := by
  induction t generalizing p with
  | scalar kind size align name =>
      exact ⟨congrArg some (hf p size), by simp [SavedType.texts, SavedType.AllNumbers]⟩
  | complex part align name =>
      exact ⟨congrArg some (hg p part), by simp [SavedType.texts, SavedType.AllNumbers]⟩
  | array size align name count elem ih =>
      rw [SavedType.texts, SavedType.texts]
      by_cases hsize : elem.reflect.size = 0
      · rw [if_pos hsize, if_pos hsize]
        exact ⟨rfl, iff_of_true rfl (Or.inl rfl)⟩
      · rw [if_neg hsize, if_neg hsize]
        exact ⟨(concatAll_eq_iff fun i _ => (ih _).1).1,
          concatAll_numbers (fun i _ => (ih _).1) fun i _ => (ih _).2⟩
  | record isUnion size align name entries fieldName fieldOffset fieldType ih =>
      exact ⟨(concatAll_eq_iff fun i _ => (ih i _).1).1,
        concatAll_numbers (fun i _ => (ih i _).1) fun i _ => (ih i _).2⟩
  | typedef size align name elem ih => exact ih p

private theorem allNumbers_congr {P P' P'' Q Q' Q'' : Nat → Nat → Prop}
    (hP : ∀ p n, P p n → (P' p n ↔ P'' p n)) (hQ : ∀ p n, Q p n → (Q' p n ↔ Q'' p n))
    (t : SavedType) (p : Nat) (h : t.AllNumbers P Q p) :
    t.AllNumbers P' Q' p ↔ t.AllNumbers P'' Q'' p := by
  induction t generalizing p with
  | scalar kind size align name => exact hP p size h
  | complex part align name => exact hQ p part h
  | array size align name count elem ih => exact forall₂_congr fun i hi => ih _ (h i hi)
  | record isUnion size align name entries fieldName fieldOffset fieldType ih =>
      exact forall₂_congr fun i hi => ih i _ (h i hi)
  | typedef size align name elem ih => exact ih p h

end Texts

section Portability

private theorem bytesAt_twice (m : Image) (p part : Nat) :
    bytesAt m p (2 * part) = bytesAt m p part ++ bytesAt m (p + part) part := by
  rw [bytesAt, Nat.two_mul, List.range_add, List.map_append, List.map_map]
  apply congrArg
  apply List.map_congr_left
  intro i _
  exact congrArg m (Nat.add_assoc p part i).symm

private theorem mirrored_twice {little big : Image} {p part : Nat}
    (hre : MirroredAt little big p part)
    (him : MirroredAt little big (p + part) part) :
    (bytesAt big p (2 * part)).reverse =
        bytesAt little p part ++ bytesAt little (p + part) part ↔
      bytesAt little p part = bytesAt little (p + part) part := by
  rw [bytesAt_twice, List.reverse_append, hre, him, List.reverse_reverse, List.reverse_reverse]
  constructor
  · intro heq
    have hlen : (bytesAt little (p + part) part).length = (bytesAt little p part).length := by
      rw [length_bytesAt, length_bytesAt]
    exact (List.append_inj heq hlen).2
  · intro heq
    rw [heq]

private theorem little_saves_format {host : Host} (hideal : host.Ideal)
    (hlittle : host.littleEndian = true) (m : Image) (t : SavedType) :
    smSaveR host m t.reflect = savedFormat m t := by
  have hbytes : hostBytes host m = bytesAt m := by
    funext p n
    exact if_pos hlittle
  rw [smSaveR, value_appends hideal t 0 [], hbytes, savedFormat]
  simp only [bytesAt_twice, List.nil_append, Option.map_id']

/-- Hosts of the two byte orders both write the format of the file exactly when the object is
refused or its complex numbers have equal parts. -/
theorem saved_bytes_portable_iff (little big : Host) (hlittle : little.littleEndian = true)
    (hbig : big.littleEndian = false) (hideal : little.Ideal ∧ big.Ideal) (t : SavedType)
    (image mirror : Image) (hmirror : Mirrored image mirror t) :
    (smSaveR little image t.reflect = savedFormat image t ∧
        smSaveR big mirror t.reflect = savedFormat image t) ↔
      t.Refused ∨ EqualParts image t := by
  rw [and_iff_right (little_saves_format hideal.1 hlittle image t)]
  have hbytes : ∀ p n, hostBytes big mirror p n = (bytesAt mirror p n).reverse := by
    intro p n
    rw [hostBytes, hbig]
    rfl
  have hsaved : smSaveR big mirror t.reflect =
      t.texts (hostBytes big mirror) (fun p part => hostBytes big mirror p (2 * part)) 0 := by
    rw [smSaveR, value_appends hideal.2 t 0 []]
    simp only [List.nil_append, Option.map_id']
  have hscalar : ∀ p n, (hostBytes big mirror p n).length = (bytesAt image p n).length := by
    intro p n
    rw [length_hostBytes, length_bytesAt]
  have hcomplex : ∀ p n, (hostBytes big mirror p (2 * n)).length =
      (bytesAt image p n ++ bytesAt image (p + n) n).length := by
    intro p n
    rw [length_hostBytes, ← bytesAt_twice, length_bytesAt]
  rw [hsaved, savedFormat, (texts_eq_iff hscalar hcomplex t 0).2, texts_eq_none_iff]
  refine or_congr_right (allNumbers_congr (fun p n hat => ?_) (fun p n hat => ?_) t 0 hmirror)
  · have hback : hostBytes big mirror p n = bytesAt image p n := by
      rw [hbytes, hat, List.reverse_reverse]
    exact iff_true_intro hback
  · rw [hbytes]
    exact mirrored_twice hat.1 hat.2

/-- A host on which nothing fails. -/
def idealHost (littleEndian : Bool) : Host := ⟨littleEndian, fun _ _ => true, fun _ _ => true⟩

/-- An object with the given bytes at its start. -/
def imageOf (bytes : List UInt8) : Image := fun k => bytes.getD k 0

/-- `struct S { int n; float _Complex z; }` -/
def countedPoint : SavedType :=
  .record false 12 4 "S" 2 (fun i => if i.val = 0 then "n" else "z") (fun i => 4 * i)
    fun i => if i.val = 0 then .scalar .integer 4 4 "int" else .complex 4 4 "complex float"

/-- The object `{ 258, 1 + 1i }`. -/
theorem equal_parts_portable :
    smSaveR (idealHost true) (imageOf [2, 1, 0, 0, 0, 0, 128, 63, 0, 0, 128, 63])
        countedPoint.reflect =
      savedFormat (imageOf [2, 1, 0, 0, 0, 0, 128, 63, 0, 0, 128, 63]) countedPoint ∧
    smSaveR (idealHost false) (imageOf [0, 0, 1, 2, 63, 128, 0, 0, 63, 128, 0, 0])
        countedPoint.reflect =
      savedFormat (imageOf [2, 1, 0, 0, 0, 0, 128, 63, 0, 0, 128, 63]) countedPoint := by
  apply (saved_bytes_portable_iff (idealHost true) (idealHost false) rfl rfl
    ⟨⟨fun _ _ => rfl, fun _ _ => rfl⟩, fun _ _ => rfl, fun _ _ => rfl⟩ countedPoint _ _ ?_).mpr
  · refine Or.inr (Fin.forall_fin_two.mpr ⟨fun _ => trivial, fun _ => ?_⟩)
    show bytesAt (imageOf _) 4 4 = bytesAt (imageOf _) 8 4
    decide
  · refine Fin.forall_fin_two.mpr ⟨fun _ => ?_, fun _ => ?_⟩
    · show MirroredAt (imageOf _) (imageOf _) 0 4
      decide
    · show MirroredAt (imageOf _) (imageOf _) 4 4 ∧ MirroredAt (imageOf _) (imageOf _) 8 4
      decide

/-- The number 1 + 2i comes out as 2 + 1i from the big-endian host. -/
theorem parts_exchanged :
    Mirrored (imageOf [0, 0, 128, 63, 0, 0, 0, 64])
        (imageOf [63, 128, 0, 0, 64, 0, 0, 0]) (.complex 4 4 "complex float") ∧
      savedFormat (imageOf [0, 0, 128, 63, 0, 0, 0, 64]) (.complex 4 4 "complex float") =
        some [0, 0, 128, 63, 0, 0, 0, 64] ∧
      smSaveR (idealHost true) (imageOf [0, 0, 128, 63, 0, 0, 0, 64])
          (SavedType.complex 4 4 "complex float").reflect =
        some [0, 0, 128, 63, 0, 0, 0, 64] ∧
      smSaveR (idealHost false) (imageOf [63, 128, 0, 0, 64, 0, 0, 0])
          (SavedType.complex 4 4 "complex float").reflect =
        some [0, 0, 0, 64, 0, 0, 128, 63] := by
  refine ⟨?_, ?_, ?_, ?_⟩
  · show MirroredAt (imageOf _) (imageOf _) 0 4 ∧ MirroredAt (imageOf _) (imageOf _) 4 4
    decide
  · decide
  · decide
  · decide

end Portability

end CZet.Stdlib
