/- source: stdlib/utils/save_memory.h
   digest: A loaded object is saved to the bytes it was loaded from exactly when no byte of it
     belongs to two scalars. -/

import CZet.Lib.AddressTrace
import CZet.Stdlib.ByteOrder

set_option autoImplicit false
set_option relaxedAutoImplicit false

namespace CZet.Stdlib

open CZet.Lib.StreamCodec CZet.Lib.AddressTrace CZet.Reflect

/-- The offsets of a scalar's bytes in the order of the file. -/
def scalarTrace (host : Host) (p n : Nat) : List Nat :=
  if host.littleEndian then (List.range n).map (p + ·) else ((List.range n).map (p + ·)).reverse

/-- The offsets of the bytes of the object at `p` in the order of the file; `none` when it is
refused. -/
def savedTrace (host : Host) : ReflectT → Nat → Option (List Nat)
  | .null, _ => none
  | .obj kind size _ _ count elem entries _ offset type, p =>
      if kind = 2 ∨ kind = 8 ∨ kind = 3 then some (scalarTrace host p size)
      else if kind = 5 then
        if elem.isNull = true ∨ elem.size = 0 then none
        else concatAll (fun i => savedTrace host elem (p + i * elem.size)) (List.range count)
      else if kind = 6 ∨ kind = 7 then
        if entries = 0 then if count = 0 then some [] else none
        else if kind = 7 then
          match largestField type with
          | none => some []
          | some i => savedTrace host (type i) (p + offset i)
        else concatAll (fun i => savedTrace host (type i) (p + offset i)) (List.finRange entries)
      else if kind = 10 then savedTrace host elem p
      else none

/-- No byte belongs to two scalars that are written. -/
def Separate : ReflectT → Nat → Prop
  | .null, _ => True
  | .obj kind _ _ _ count elem entries _ offset type, p =>
      if kind = 5 then
        (∀ i < count, Separate elem (p + i * elem.size)) ∧ ∀ i j, i < j → j < count →
          ∀ k, Covered elem (p + i * elem.size) k → ¬ Covered elem (p + j * elem.size) k
      else if kind = 7 then ∀ i, largestField type = some i → Separate (type i) (p + offset i)
      else if kind = 6 then
        (∀ i, Separate (type i) (p + offset i)) ∧ ∀ i j : Fin entries, i < j →
          ∀ k, Covered (type i) (p + offset i) k → ¬ Covered (type j) (p + offset j) k
      else if kind = 10 then Separate elem p
      else True

section Scalars

variable {host : Host}

theorem length_scalarTrace (p n : Nat) : (scalarTrace host p n).length = n := by
  unfold scalarTrace
  split <;> simp

theorem nodup_scalarTrace (p n : Nat) : (scalarTrace host p n).Nodup := by
  have hforward : ((List.range n).map (p + ·)).Nodup :=
    List.nodup_range.map fun i j hij => Nat.add_left_cancel hij
  unfold scalarTrace
  split
  · exact hforward
  · exact List.nodup_reverse.mpr hforward

theorem mem_scalarTrace (p n k : Nat) : k ∈ scalarTrace host p n ↔ p ≤ k ∧ k < p + n := by
  have hforward : k ∈ (List.range n).map (p + ·) ↔ p ≤ k ∧ k < p + n := by
    rw [List.mem_map]
    constructor
    · rintro ⟨i, hi, rfl⟩
      rw [List.mem_range] at hi
      omega
    · rintro ⟨hlow, hhigh⟩
      exact ⟨k - p, List.mem_range.mpr (by omega), by omega⟩
  unfold scalarTrace
  split
  · exact hforward
  · rw [List.mem_reverse, hforward]

private theorem scalarTrace_getElem? (p n i : Nat) (hi : i < n) :
    (scalarTrace host p n)[if host.littleEndian then i else n - 1 - i]? = some (p + i) := by
  unfold scalarTrace
  split
  · simp [hi]
  · have hback : n - 1 - (n - 1 - i) = i := by omega
    rw [List.getElem?_reverse (by simpa using by omega)]
    simp [hback, hi]

private theorem read_scalar (p n : Nat) (m : Image) (input : List UInt8) (hlong : n ≤ input.length) :
    smReadScalar host p n (m, input) =
      some (storeAll m (scalarTrace host p n) (input.take n), input.drop n) := by
  have hlen : (input.take n).length = (scalarTrace host p n).length := by
    rw [length_scalarTrace, List.length_take]
    omega
  have hstored : (if n > 1 ∧ host.littleEndian = false then
      smSwapBytes (storeBytes m p (input.take n)) p n else storeBytes m p (input.take n)) =
      storeAll m (scalarTrace host p n) (input.take n) := by
    funext k
    by_cases hk : p ≤ k ∧ k < p + n
    · obtain ⟨i, hi, rfl⟩ : ∃ i < n, k = p + i := ⟨k - p, by omega, by omega⟩
      have hat := storeAll_getElem? (nodup_scalarTrace p n) hlen (scalarTrace_getElem? p n i hi) m
      have hin : ∀ j < n, storeBytes m p (input.take n) (p + j) = (input.take n).getD j 0 := by
        intro j hj
        have hin : p ≤ p + j ∧ p + j < p + (input.take n).length := by
          rw [List.length_take]
          omega
        rw [storeBytes, if_pos hin, Nat.add_sub_cancel_left]
      cases hendian : host.littleEndian with
      | true =>
          rw [hendian, if_pos rfl] at hat
          simp [hin i hi, List.getD_eq_getElem?_getD, hat]
      | false =>
          rw [hendian, if_neg Bool.false_ne_true] at hat
          by_cases hone : n > 1
          · have hturn : 2 * p + n - 1 - (p + i) = p + (n - 1 - i) := by omega
            rw [if_pos ⟨hone, rfl⟩, smSwapBytes_apply, if_pos hk, hturn, hin _ (by omega),
              List.getD_eq_getElem?_getD, hat]
            rfl
          · have hzero : n - 1 - i = i := by omega
            rw [hzero] at hat
            rw [if_neg fun h => hone h.1, hin i hi, List.getD_eq_getElem?_getD, hat]
            rfl
    · have hout : ¬ (p ≤ k ∧ k < p + (input.take n).length) := by
        rw [List.length_take]
        omega
      have hkeep : storeBytes m p (input.take n) k = m k := by rw [storeBytes, if_neg hout]
      rw [storeAll_of_notMem (by rw [mem_scalarTrace]; exact hk)]
      split
      · rw [smSwapBytes_apply, if_neg hk, hkeep]
      · exact hkeep
  rw [← hstored]
  simp only [smReadScalar, smReadRaw]
  by_cases hzero : n = 0
  · subst hzero
    have hsame : storeBytes m p [] = m := by
      funext k
      rw [storeBytes, if_neg (by simp)]
    simp [hsame]
  · simp [hzero, hlong]

private theorem scalar_traced (hideal : host.Ideal) (p n : Nat) :
    Traced (some (scalarTrace host p n)) (fun m => smWriteScalar host m p n)
      (smReadScalar host p n) := by
  constructor
  · intro m out
    have hbytes : hostBytes host m p n = (scalarTrace host p n).map m := by
      unfold hostBytes scalarTrace bytesAt
      split <;> simp
    rw [scalar_appends hideal p n out, hbytes]
    rfl
  · intro m input
    rw [Option.bind_some, length_scalarTrace]
    split
    next hlong => exact read_scalar p n m input hlong
    next hshort =>
      have hzero : n ≠ 0 := by omega
      simp [smReadScalar, smReadRaw, hzero, hshort]

end Scalars

section Values

variable {host : Host}

/-- Saving and loading visit the bytes of the object in the same order. -/
theorem value_traced (hideal : host.Ideal) (r : ReflectT) (p : Nat) :
    Traced (savedTrace host r p) (fun m => smWriteValue host m r p) (smReadValue host r p) := by
  induction r generalizing p with
  | null => exact Traced.refuse
  | obj kind size align name count elem entries fieldName offset type ihElem ihType =>
      unfold savedTrace smWriteValue smReadValue
      by_cases hscalar : kind = 2 ∨ kind = 8 ∨ kind = 3
      · simp only [if_pos hscalar]
        exact scalar_traced hideal p size
      simp only [if_neg hscalar]
      by_cases harray : kind = 5
      · simp only [if_pos harray]
        by_cases helem : elem.isNull = true ∨ elem.size = 0
        · simp only [if_pos helem]
          exact Traced.refuse
        · simp only [if_neg helem]
          exact Traced.all _ fun i _ => ihElem (p + i * elem.size)
      simp only [if_neg harray]
      by_cases hrecord : kind = 6 ∨ kind = 7
      · simp only [if_pos hrecord]
        by_cases hentries : entries = 0
        · simp only [if_pos hentries]
          by_cases hcount : count = 0
          · simp only [if_pos hcount]
            exact Traced.skip
          · simp only [if_neg hcount]
            exact Traced.refuse
        · simp only [if_neg hentries]
          by_cases hunion : kind = 7
          · simp only [if_pos hunion]
            cases largestField type with
            | none => exact Traced.skip
            | some i => exact ihType i (p + offset i)
          · simp only [if_neg hunion]
            exact Traced.all _ fun i _ => ihType i (p + offset i)
      · simp only [if_neg hrecord]
        by_cases htypedef : kind = 10
        · simp only [if_pos htypedef]
          exact ihElem p
        · simp only [if_neg htypedef]
          exact Traced.refuse

theorem mem_savedTrace (r : ReflectT) (p : Nat) {t : List Nat} (ht : savedTrace host r p = some t)
    (k : Nat) : k ∈ t ↔ Covered r p k := by
  induction r generalizing p t k with
  | null => cases ht
  | obj kind size align name count elem entries fieldName offset type ihElem ihType =>
      unfold savedTrace at ht
      unfold Covered
      by_cases hscalar : kind = 2 ∨ kind = 8 ∨ kind = 3
      · rw [if_pos hscalar] at ht ⊢
        obtain rfl := Option.some.inj ht
        exact mem_scalarTrace p size k
      rw [if_neg hscalar] at ht ⊢
      by_cases harray : kind = 5
      · rw [if_pos harray] at ht ⊢
        split at ht
        next => cases ht
        next =>
          rw [mem_concatAll_iff (fun i _ u hu a => ihElem _ hu a) ht]
          simp only [List.mem_range]
      rw [if_neg harray] at ht ⊢
      by_cases hrecord : kind = 6 ∨ kind = 7
      · rw [if_pos hrecord] at ht
        by_cases hentries : entries = 0
        · subst hentries
          have hnone : largestField type = none := rfl
          have hnil : t = [] := by
            rw [if_pos rfl] at ht
            split at ht
            · exact (Option.some.inj ht).symm
            · cases ht
          rw [hnil]
          rcases hrecord with rfl | rfl <;> simp [hnone]
        · rw [if_neg hentries] at ht
          by_cases hunion : kind = 7
          · rw [if_pos hunion] at ht ⊢
            cases hlargest : largestField type with
            | none =>
                rw [hlargest] at ht
                obtain rfl := Option.some.inj ht
                simp
            | some i =>
                rw [hlargest] at ht
                simpa using ihType i _ ht k
          · rw [if_neg hunion] at ht ⊢
            rw [if_pos (hrecord.resolve_right hunion),
              mem_concatAll_iff (fun i _ u hu a => ihType i _ hu a) ht]
            simp
      · rw [if_neg hrecord] at ht
        rw [not_or] at hrecord
        rw [if_neg hrecord.2, if_neg hrecord.1]
        by_cases htypedef : kind = 10
        · rw [if_pos htypedef] at ht ⊢
          exact ihElem p ht k
        · rw [if_neg htypedef] at ht
          cases ht

private theorem pairwise_range {n : Nat} {P : Nat → Nat → Prop} :
    (List.range n).Pairwise P ↔ ∀ i j, i < j → j < n → P i j := by
  rw [List.pairwise_iff_getElem]
  simp only [List.length_range, List.getElem_range]
  exact ⟨fun h i j hij hj => h i j (hij.trans hj) hj hij, fun h i j _ hj hij => h i j hij hj⟩

private theorem pairwise_finRange {n : Nat} {P : Fin n → Fin n → Prop} :
    (List.finRange n).Pairwise P ↔ ∀ i j, i < j → P i j := by
  rw [List.pairwise_iff_getElem]
  simp only [List.length_finRange, List.getElem_finRange]
  exact ⟨fun h i j hij => h i j i.isLt j.isLt hij, fun h i j _ _ hij => h _ _ hij⟩

theorem nodup_savedTrace_iff (r : ReflectT) (p : Nat) {t : List Nat}
    (ht : savedTrace host r p = some t) : t.Nodup ↔ Separate r p := by
  induction r generalizing p t with
  | null => cases ht
  | obj kind size align name count elem entries fieldName offset type ihElem ihType =>
      unfold savedTrace at ht
      unfold Separate
      by_cases hscalar : kind = 2 ∨ kind = 8 ∨ kind = 3
      · rw [if_pos hscalar] at ht
        obtain rfl := Option.some.inj ht
        rcases hscalar with rfl | rfl | rfl <;> simpa using nodup_scalarTrace p size
      rw [if_neg hscalar] at ht
      by_cases harray : kind = 5
      · rw [if_pos harray] at ht ⊢
        split at ht
        next => cases ht
        next =>
          rw [nodup_concatAll_iff (fun i _ u hu a => mem_savedTrace elem _ hu a)
            (fun i _ u hu => ihElem _ hu) ht, pairwise_range]
          simp only [List.mem_range]
      rw [if_neg harray] at ht ⊢
      by_cases hrecord : kind = 6 ∨ kind = 7
      · rw [if_pos hrecord] at ht
        by_cases hentries : entries = 0
        · subst hentries
          have hnone : largestField type = none := rfl
          have hnil : t = [] := by
            rw [if_pos rfl] at ht
            split at ht
            · exact (Option.some.inj ht).symm
            · cases ht
          rw [hnil]
          rcases hrecord with rfl | rfl <;> simp [hnone]
        · rw [if_neg hentries] at ht
          by_cases hunion : kind = 7
          · rw [if_pos hunion] at ht ⊢
            cases hlargest : largestField type with
            | none =>
                rw [hlargest] at ht
                obtain rfl := Option.some.inj ht
                simp
            | some i =>
                rw [hlargest] at ht
                simpa using ihType i _ ht
          · rw [if_neg hunion] at ht ⊢
            rw [if_pos (hrecord.resolve_right hunion),
              nodup_concatAll_iff (fun i _ u hu a => mem_savedTrace (type i) _ hu a)
                (fun i _ u hu => ihType i _ hu) ht, pairwise_finRange]
            simp
      · rw [if_neg hrecord] at ht
        rw [not_or] at hrecord
        rw [if_neg hrecord.2, if_neg hrecord.1]
        by_cases htypedef : kind = 10
        · rw [if_pos htypedef] at ht ⊢
          exact ihElem p ht
        · rw [if_neg htypedef] at ht
          cases ht

end Values

/-- What is loaded is saved to the same bytes, for every stream and every object that is loaded
into, exactly when the object is refused or no byte of it belongs to two scalars.  Bit-fields that
share a byte are such scalars. -/
theorem loaded_resaved_iff {host : Host} (hideal : host.Ideal) (r : ReflectT) :
    (∀ m input m' rest, smLoadR host m r input = some (m', rest) →
      ∃ bytes, smSaveR host m' r = some bytes ∧ input = bytes ++ rest) ↔
    (∀ m, smSaveR host m r = none) ∨ Separate r 0 := by
  have htraced := value_traced hideal r 0
  have hbytes : Nontrivial UInt8 := ⟨0, 1, by decide⟩
  apply htraced.rewrites_iff.trans
  cases htrace : savedTrace host r 0 with
  | none =>
      refine iff_of_true (fun t ht => by cases ht) (Or.inl fun m => ?_)
      rw [smSaveR, htraced.writes, htrace]
      rfl
  | some t =>
      have hsaved : ¬ ∀ m, smSaveR host m r = none := by
        intro hnone
        have hsome := hnone fun _ => 0
        rw [smSaveR, htraced.writes, htrace] at hsome
        cases hsome
      rw [or_iff_right hsaved, ← nodup_savedTrace_iff r 0 htrace]
      exact ⟨fun h => h t rfl, fun h u hu => Option.mem_some.mp hu ▸ h⟩

/-- `struct S { unsigned char a : 4, b : 4; }` -/
def nibbles : ReflectT :=
  .obj 6 1 1 "S" 2 .null 2 (fun i => if i.val = 0 then "a" else "b") (fun _ => 0) fun _ =>
    .obj 2 1 1 "" 0 .null 0 (fun i => i.elim0) (fun i => i.elim0) fun i => i.elim0

/-- Its byte is in the file twice, and two different bytes are not saved again. -/
theorem nibbles_not_resaved :
    ¬ ∀ m input m' rest, smLoadR (idealHost true) m nibbles input = some (m', rest) →
      ∃ bytes, smSaveR (idealHost true) m' nibbles = some bytes ∧ input = bytes ++ rest := by
  rw [loaded_resaved_iff ⟨fun _ _ => rfl, fun _ _ => rfl⟩ nibbles]
  rintro (hrefused | hseparate)
  · have hsaved : smSaveR (idealHost true) (fun _ => 0) nibbles = some [0, 0] := by decide
    rw [hrefused] at hsaved
    cases hsaved
  · apply hseparate.2 ⟨0, by decide⟩ ⟨1, by decide⟩ (by decide) 0
    · show 0 ≤ 0 ∧ 0 < 0 + 1
      omega
    · show 0 ≤ 0 ∧ 0 < 0 + 1
      omega

end CZet.Stdlib
