/- source: stdlib/utils/save_memory.h
   digest: Saving and loading an object along its metadata, and that loading restores what saving
     wrote. -/

import CZet.Lib.StreamCodec
import CZet.Reflect.Object

set_option autoImplicit false
set_option relaxedAutoImplicit false

namespace CZet.Stdlib

open CZet.Lib.StreamCodec CZet.Reflect

/-- The bytes of an object by their offset. -/
abbrev Image := Nat → UInt8

/-- What the host does: its byte order, and whether an allocation or a write of `n` bytes succeeds
when the file has the given length. -/
structure Host where
  littleEndian : Bool
  malloc : Nat → Nat → Bool
  fwrite : Nat → Nat → Bool

/-- No allocation and no write fails. -/
def Host.Ideal (host : Host) : Prop :=
  (∀ len n, host.malloc len n = true) ∧ ∀ len n, host.fwrite len n = true

section Scalars

/-- The loop of `sm_swap_bytes`, for at most `fuel` swaps. -/
def smSwapLoop (p : Nat) : Nat → Image → Nat → Nat → Image
  | 0, a, _, _ => a
  | fuel + 1, a, i, j =>
      if i < j then
        let t := a (p + i)
        let a := Function.update a (p + i) (a (p + j))
        smSwapLoop p fuel (Function.update a (p + j) t) (i + 1) (j - 1)
      else a

def smSwapBytes (a : Image) (p n : Nat) : Image :=
  smSwapLoop p n a 0 (if n ≠ 0 then n - 1 else 0)

def bytesAt (m : Image) (p n : Nat) : List UInt8 :=
  (List.range n).map fun i => m (p + i)

def storeBytes (m : Image) (p : Nat) (bytes : List UInt8) : Image :=
  fun k => if p ≤ k ∧ k < p + bytes.length then bytes.getD (k - p) 0 else m k

/-- `sm_write_raw` on the file written so far; `none` is -1. -/
def smWriteRaw (host : Host) (bytes : List UInt8) : Writer UInt8 := fun out =>
  if bytes.length = 0 then some out
  else if host.fwrite out.length bytes.length then some (out ++ bytes)
  else none

/-- `sm_read_raw`; the input ends where `fread` stops. -/
def smReadRaw (p n : Nat) : Reader Nat UInt8 UInt8 := fun (m, input) =>
  if n = 0 then some (m, input)
  else if n ≤ input.length then some (storeBytes m p (input.take n), input.drop n)
  else none

def smWriteScalar (host : Host) (m : Image) (p n : Nat) : Writer UInt8 := fun out =>
  if n = 0 then some out
  else if n = 1 ∨ host.littleEndian = true then smWriteRaw host (bytesAt m p n) out
  else if host.malloc out.length n then
    let tmp := smSwapBytes (fun i => m (p + i)) 0 n
    smWriteRaw host (bytesAt tmp 0 n) out
  else none

def smReadScalar (host : Host) (p n : Nat) : Reader Nat UInt8 UInt8 := fun st => do
  let (m, input) ← smReadRaw p n st
  pure (if n > 1 ∧ host.littleEndian = false then smSwapBytes m p n else m, input)

end Scalars

section Values

/-- The loop over a union's fields that finds the first of the largest ones; `none` when all have
size 0. -/
def largestField {entries : Nat} (type : Fin entries → ReflectT) : Option (Fin entries) :=
  ((List.finRange entries).foldl
    (fun (best : Nat × Option (Fin entries)) i =>
      if (type i).isNull = false ∧ (type i).size > best.1 then ((type i).size, some i) else best)
    (0, none)).2

/-- `sm_write_value` on the object at offset `p`. -/
def smWriteValue (host : Host) (m : Image) : ReflectT → Nat → Writer UInt8
  | .null, _ => fun _ => none
  | .obj kind size _ _ count elem entries _ offset type, p => fun out =>
      if kind = 2 ∨ kind = 8 ∨ kind = 3 then smWriteScalar host m p size out
      else if kind = 5 then
        if elem.isNull = true ∨ elem.size = 0 then none
        else writeAll (fun i => smWriteValue host m elem (p + i * elem.size)) (List.range count) out
      else if kind = 6 ∨ kind = 7 then
        if entries = 0 then if count = 0 then some out else none
        else if kind = 7 then
          match largestField type with
          | none => some out
          | some i => smWriteValue host m (type i) (p + offset i) out
        else
          writeAll (fun i => smWriteValue host m (type i) (p + offset i)) (List.finRange entries)
            out
      else if kind = 10 then smWriteValue host m elem p out
      else none

/-- `sm_read_value` into the object at offset `p`. -/
def smReadValue (host : Host) : ReflectT → Nat → Reader Nat UInt8 UInt8
  | .null, _ => fun _ => none
  | .obj kind size _ _ count elem entries _ offset type, p => fun st =>
      if kind = 2 ∨ kind = 8 ∨ kind = 3 then smReadScalar host p size st
      else if kind = 5 then
        if elem.isNull = true ∨ elem.size = 0 then none
        else readAll (fun i => smReadValue host elem (p + i * elem.size)) (List.range count) st
      else if kind = 6 ∨ kind = 7 then
        if entries = 0 then if count = 0 then some st else none
        else if kind = 7 then
          match largestField type with
          | none => some st
          | some i => smReadValue host (type i) (p + offset i) st
        else
          readAll (fun i => smReadValue host (type i) (p + offset i)) (List.finRange entries) st
      else if kind = 10 then smReadValue host elem p st
      else none

/-- The bytes that `sm_save_r` appends to an empty file. -/
def smSaveR (host : Host) (m : Image) (r : ReflectT) : Option (List UInt8) :=
  smWriteValue host m r 0 []

/-- The object after `sm_load_r` and the rest of the input. -/
def smLoadR (host : Host) (m : Image) (r : ReflectT) (input : List UInt8) :
    Option (Image × List UInt8) :=
  smReadValue host r 0 (m, input)

/-- The byte belongs to a scalar that is written. -/
def Covered : ReflectT → Nat → Nat → Prop
  | .null, _, _ => False
  | .obj kind size _ _ count elem entries _ offset type, p, k =>
      if kind = 2 ∨ kind = 8 ∨ kind = 3 then p ≤ k ∧ k < p + size
      else if kind = 5 then ∃ i < count, Covered elem (p + i * elem.size) k
      else if kind = 7 then ∃ i, largestField type = some i ∧ Covered (type i) (p + offset i) k
      else if kind = 6 then ∃ i : Fin entries, Covered (type i) (p + offset i) k
      else if kind = 10 then Covered elem p k
      else False

/-- How many bytes are written; `none` when the object is refused. -/
def encodedSize : ReflectT → Option Nat
  | .null => none
  | .obj kind size _ _ count elem entries _ _ type =>
      if kind = 2 ∨ kind = 8 ∨ kind = 3 then some size
      else if kind = 5 then
        if elem.isNull = true ∨ elem.size = 0 then none
        else sumLengths (fun _ => encodedSize elem) (List.range count)
      else if kind = 6 ∨ kind = 7 then
        if entries = 0 then if count = 0 then some 0 else none
        else if kind = 7 then
          match largestField type with
          | none => some 0
          | some i => encodedSize (type i)
        else sumLengths (fun i => encodedSize (type i)) (List.finRange entries)
      else if kind = 10 then encodedSize elem
      else none

end Values

section ScalarBytes

private theorem smSwapLoop_apply (p fuel : Nat) (a : Image) (i j : Nat) (hfuel : j ≤ i + 2 * fuel)
    (k : Nat) : smSwapLoop p fuel a i j k =
      if p + i ≤ k ∧ k ≤ p + j then a (2 * p + i + j - k) else a k := by
  induction fuel generalizing a i j with
  | zero =>
      rw [smSwapLoop]
      split
      · congr 1
        omega
      · rfl
  | succ fuel ih =>
      rw [smSwapLoop]
      split
      · rename_i hlt
        simp only
        rw [ih _ _ _ (by omega)]
        have hij : p + i ≠ p + j := by omega
        by_cases hki : k = p + i
        · have hout : ¬ (p + (i + 1) ≤ k ∧ k ≤ p + (j - 1)) := by omega
          have hin : p + i ≤ k ∧ k ≤ p + j := by omega
          have heq : 2 * p + i + j - k = p + j := by omega
          rw [if_neg hout, if_pos hin, heq, hki, Function.update_of_ne hij, Function.update_self]
        · by_cases hkj : k = p + j
          · have hout : ¬ (p + (i + 1) ≤ k ∧ k ≤ p + (j - 1)) := by omega
            have hin : p + i ≤ k ∧ k ≤ p + j := by omega
            have heq : 2 * p + i + j - k = p + i := by omega
            rw [if_neg hout, if_pos hin, heq, hkj, Function.update_self]
          · have hiff : (p + (i + 1) ≤ k ∧ k ≤ p + (j - 1)) ↔ (p + i ≤ k ∧ k ≤ p + j) := by omega
            have heq : 2 * p + (i + 1) + (j - 1) - k = 2 * p + i + j - k := by omega
            simp only [hiff, heq]
            split
            · rw [Function.update_of_ne (by omega), Function.update_of_ne (by omega)]
            · rw [Function.update_of_ne hkj, Function.update_of_ne hki]
      · split
        · congr 1
          omega
        · rfl

theorem smSwapBytes_apply (a : Image) (p n k : Nat) :
    smSwapBytes a p n k = if p ≤ k ∧ k < p + n then a (2 * p + n - 1 - k) else a k := by
  rw [smSwapBytes, smSwapLoop_apply _ _ _ _ _ (by split <;> omega)]
  by_cases hn : n = 0
  · have hout : ¬ (p ≤ k ∧ k < p + n) := by omega
    rw [if_neg hout, hn, if_neg (not_not_intro rfl)]
    split
    · congr 1
      omega
    · rfl
  · rw [if_pos hn]
    have hiff : (p + 0 ≤ k ∧ k ≤ p + (n - 1)) ↔ (p ≤ k ∧ k < p + n) := by omega
    have heq : 2 * p + 0 + (n - 1) - k = 2 * p + n - 1 - k := by omega
    simp only [hiff, heq]

theorem length_bytesAt (m : Image) (p n : Nat) : (bytesAt m p n).length = n := by
  rw [bytesAt, List.length_map, List.length_range]

theorem getD_bytesAt (m : Image) (p n i : Nat) (hi : i < n) :
    (bytesAt m p n).getD i 0 = m (p + i) := by
  simp [bytesAt, List.getD_eq_getElem?_getD, hi]

private theorem writeRaw_append {host : Host} {bytes out out' : List UInt8}
    (h : smWriteRaw host bytes out = some out') : out' = out ++ bytes := by
  unfold smWriteRaw at h
  split at h
  · rename_i hnil
    rw [List.length_eq_zero_iff] at hnil
    rw [hnil, List.append_nil]
    exact (Option.some.inj h).symm
  · split at h
    · exact (Option.some.inj h).symm
    · cases h

private theorem readRaw_append (m : Image) (p : Nat) (bytes rest : List UInt8) :
    smReadRaw p bytes.length (m, bytes ++ rest) = some (storeBytes m p bytes, rest) := by
  simp only [smReadRaw]
  split
  · rename_i hnil
    rw [List.length_eq_zero_iff] at hnil
    have hsame : storeBytes m p [] = m := by
      funext k
      have hout : ¬ (p ≤ k ∧ k < p + ([] : List UInt8).length) := by
        rw [List.length_nil]
        omega
      rw [storeBytes, if_neg hout]
    rw [hnil, hsame]
    rfl
  · have hle : bytes.length ≤ (bytes ++ rest).length := by
      rw [List.length_append]
      omega
    rw [if_pos hle, List.take_left, List.drop_left]

private theorem scalar_roundTrip (host : Host) (m : Image) (p n : Nat) :
    RoundTrip m {k | p ≤ k ∧ k < p + n} (smWriteScalar host m p n) (smReadScalar host p n) := by
  intro out out' hwrite
  by_cases hplain : n ≤ 1 ∨ host.littleEndian = true
  · have hbytes : out' = out ++ bytesAt m p n := by
      simp only [smWriteScalar] at hwrite
      split at hwrite
      · rename_i hzero
        rw [hzero]
        exact (Option.some.inj hwrite).symm.trans (List.append_nil out).symm
      · rename_i hzero
        have hdirect : n = 1 ∨ host.littleEndian = true := hplain.imp_left fun hle => by omega
        rw [if_pos hdirect] at hwrite
        exact writeRaw_append hwrite
    refine ⟨bytesAt m p n, hbytes, fun m' rest => ⟨storeBytes m' p (bytesAt m p n), ?_, ?_, ?_⟩⟩
    · have hread := readRaw_append m' p (bytesAt m p n) rest
      have hswap : ¬ (n > 1 ∧ host.littleEndian = false) := by
        rintro ⟨hlong, hbig⟩
        rcases hplain with hle | hlittle
        · omega
        · rw [hlittle] at hbig
          cases hbig
      rw [length_bytesAt] at hread
      simp [smReadScalar, hread, hswap]
    · rintro k ⟨hlow, hhigh⟩
      have hin : p ≤ k ∧ k < p + (bytesAt m p n).length := by
        rw [length_bytesAt]
        exact ⟨hlow, hhigh⟩
      rw [storeBytes, if_pos hin, getD_bytesAt _ _ _ _ (by omega)]
      congr 1
      omega
    · intro k hk
      have hout : ¬ (p ≤ k ∧ k < p + (bytesAt m p n).length) := by
        rw [length_bytesAt]
        exact hk
      rw [storeBytes, if_neg hout]
  · rw [not_or] at hplain
    obtain ⟨hlong, hbig⟩ := hplain
    have hbytes : out' = out ++ bytesAt (smSwapBytes (fun i => m (p + i)) 0 n) 0 n := by
      have hzero : n ≠ 0 := by omega
      have hdirect : ¬ (n = 1 ∨ host.littleEndian = true) := by
        rw [not_or]
        exact ⟨by omega, hbig⟩
      simp only [smWriteScalar, if_neg hzero, if_neg hdirect] at hwrite
      split at hwrite
      · exact writeRaw_append hwrite
      · cases hwrite
    refine ⟨_, hbytes, fun m' rest => ⟨smSwapBytes (storeBytes m' p
      (bytesAt (smSwapBytes (fun i => m (p + i)) 0 n) 0 n)) p n, ?_, ?_, ?_⟩⟩
    · have hread := readRaw_append m' p (bytesAt (smSwapBytes (fun i => m (p + i)) 0 n) 0 n) rest
      have hswap : n > 1 ∧ host.littleEndian = false :=
        ⟨by omega, Bool.eq_false_of_not_eq_true hbig⟩
      rw [length_bytesAt] at hread
      simp [smReadScalar, hread, hswap]
    · rintro k ⟨hlow, hhigh⟩
      have hin : p ≤ 2 * p + n - 1 - k ∧ 2 * p + n - 1 - k <
          p + (bytesAt (smSwapBytes (fun i => m (p + i)) 0 n) 0 n).length := by
        rw [length_bytesAt]
        omega
      rw [smSwapBytes_apply, if_pos ⟨hlow, hhigh⟩, storeBytes, if_pos hin,
        getD_bytesAt _ _ _ _ (by omega), smSwapBytes_apply, if_pos (by omega)]
      congr 1
      omega
    · intro k hk
      have hk : ¬ (p ≤ k ∧ k < p + n) := hk
      have hout : ¬ (p ≤ k ∧ k < p +
          (bytesAt (smSwapBytes (fun i => m (p + i)) 0 n) 0 n).length) := by
        rw [length_bytesAt]
        exact hk
      rw [smSwapBytes_apply, if_neg hk, storeBytes, if_neg hout]

private theorem scalar_reads (host : Host) (p n : Nat) :
    ReadsSome (some n) (smReadScalar host p n) := by
  intro m input
  simp only [smReadScalar, smReadRaw]
  by_cases hzero : n = 0
  · simp [hzero]
  · by_cases hle : n ≤ input.length
    · simp [hzero, hle]
    · simp [hzero, hle]

private theorem scalar_writes {host : Host} (hideal : host.Ideal) (m : Image) (p n : Nat) :
    WritesSome (some n) (smWriteScalar host m p n) := by
  intro out
  simp only [smWriteScalar, smWriteRaw, hideal.1, hideal.2, if_true]
  split
  · rfl
  · split <;> split <;> rfl

end ScalarBytes

section ValueBytes

private structure InStep (host : Host) (m : Image) (covered : Set Nat) (n : Option Nat)
    (w : Writer UInt8) (r : Reader Nat UInt8 UInt8) : Prop where
  roundTrip : RoundTrip m covered w r
  writes : host.Ideal → WritesSome n w
  reads : ReadsSome n r

private theorem inStep_refuse (host : Host) (m : Image) (covered : Set Nat) :
    InStep host m covered none (fun _ => none) fun _ => none :=
  ⟨RoundTrip.refuse covered _ fun _ => rfl, fun _ _ => rfl, fun _ _ => rfl⟩

private theorem inStep_skip (host : Host) (m : Image) {covered : Set Nat}
    (hempty : ∀ k, k ∉ covered) :
    InStep host m covered (some 0) (fun out => some out) fun st => some st :=
  ⟨RoundTrip.skip hempty (fun _ => rfl) (fun _ => rfl), fun _ _ => rfl, fun _ _ => by simp⟩

private theorem inStep_scalar (host : Host) (m : Image) (p n : Nat) :
    InStep host m {k | p ≤ k ∧ k < p + n} (some n) (smWriteScalar host m p n)
      (smReadScalar host p n) :=
  ⟨scalar_roundTrip host m p n, fun hideal => scalar_writes hideal m p n, scalar_reads host p n⟩

private theorem inStep_all {host : Host} {m : Image} {ι : Type} {covered : ι → Set Nat}
    {n : ι → Option Nat} {w : ι → Writer UInt8} {r : ι → Reader Nat UInt8 UInt8} (is : List ι)
    (h : ∀ i ∈ is, InStep host m (covered i) (n i) (w i) (r i)) :
    InStep host m {k | ∃ i ∈ is, k ∈ covered i} (sumLengths n is) (writeAll w is) (readAll r is) :=
  ⟨RoundTrip.all is fun i hi => (h i hi).roundTrip,
    fun hideal => WritesSome.all is fun i hi => (h i hi).writes hideal,
    ReadsSome.all is fun i hi => (h i hi).reads⟩

private theorem value_inStep (host : Host) (m : Image) (r : ReflectT) (p : Nat) :
    InStep host m {k | Covered r p k} (encodedSize r) (smWriteValue host m r p)
      (smReadValue host r p) := by
  induction r generalizing p with
  | null => exact inStep_refuse host m _
  | obj kind size align name count elem entries fieldName offset type ihElem ihType =>
      unfold smWriteValue smReadValue encodedSize Covered
      by_cases hscalar : kind = 2 ∨ kind = 8 ∨ kind = 3
      · simp only [if_pos hscalar]
        exact inStep_scalar host m p size
      simp only [if_neg hscalar]
      by_cases harray : kind = 5
      · simp only [if_pos harray]
        by_cases helem : elem.isNull = true ∨ elem.size = 0
        · simp only [if_pos helem]
          exact inStep_refuse host m _
        · simp only [if_neg helem]
          have hall := inStep_all (List.range count) fun i _ => ihElem (p + i * elem.size)
          simpa only [List.mem_range, Set.mem_ofPred_eq] using hall
      simp only [if_neg harray]
      by_cases hrecord : kind = 6 ∨ kind = 7
      · simp only [if_pos hrecord]
        by_cases hentries : entries = 0
        · subst hentries
          have hnone : largestField type = none := rfl
          simp only [if_true, hnone, reduceCtorEq, false_and, IsEmpty.exists_iff]
          by_cases hcount : count = 0
          · simp only [if_pos hcount]
            refine inStep_skip host m fun k => ?_
            rcases hrecord with hkind | hkind <;> simp [hkind]
          · simp only [if_neg hcount]
            exact inStep_refuse host m _
        · simp only [if_neg hentries]
          by_cases hunion : kind = 7
          · simp only [if_pos hunion]
            cases hlargest : largestField type with
            | none => exact inStep_skip host m fun k => by simp
            | some i => simpa only [Option.some.injEq, exists_eq_left'] using ihType i (p + offset i)
          · have hstruct : kind = 6 := hrecord.resolve_right hunion
            simp only [if_neg hunion, if_pos hstruct]
            have hall := inStep_all (List.finRange entries) fun i _ => ihType i (p + offset i)
            simpa only [List.mem_finRange, true_and, Set.mem_ofPred_eq] using hall
      · rw [not_or] at hrecord
        simp only [hrecord.1, hrecord.2, or_self, if_false]
        by_cases htypedef : kind = 10
        · simp only [if_pos htypedef]
          exact ihElem p
        · simp only [if_neg htypedef]
          exact inStep_refuse host m _

private theorem bytesAt_congr {m m₂ : Image} {p n : Nat} (h : ∀ k, p ≤ k ∧ k < p + n → m₂ k = m k) :
    bytesAt m₂ p n = bytesAt m p n := by
  refine List.map_congr_left fun i hi => ?_
  rw [List.mem_range] at hi
  exact h (p + i) (by omega)

private theorem smWriteScalar_congr (host : Host) {m m₂ : Image} {p n : Nat}
    (h : ∀ k, p ≤ k ∧ k < p + n → m₂ k = m k) :
    smWriteScalar host m₂ p n = smWriteScalar host m p n := by
  have hswapped : bytesAt (smSwapBytes (fun i => m₂ (p + i)) 0 n) 0 n =
      bytesAt (smSwapBytes (fun i => m (p + i)) 0 n) 0 n := by
    refine bytesAt_congr fun k hk => ?_
    rw [smSwapBytes_apply, smSwapBytes_apply, if_pos hk, if_pos hk]
    exact h _ (by omega)
  funext out
  simp only [smWriteScalar, bytesAt_congr h, hswapped]

theorem smWriteValue_congr (host : Host) {m m₂ : Image} (r : ReflectT) (p : Nat)
    (h : ∀ k, Covered r p k → m₂ k = m k) :
    smWriteValue host m₂ r p = smWriteValue host m r p := by
  induction r generalizing p with
  | null => rfl
  | obj kind size align name count elem entries fieldName offset type ihElem ihType =>
      simp only [Covered] at h
      funext out
      simp only [smWriteValue]
      by_cases hscalar : kind = 2 ∨ kind = 8 ∨ kind = 3
      · simp only [if_pos hscalar] at h ⊢
        rw [smWriteScalar_congr host h]
      simp only [if_neg hscalar] at h ⊢
      by_cases harray : kind = 5
      · simp only [if_pos harray] at h ⊢
        split
        · rfl
        · refine congrFun (writeAll_congr fun i hi => ihElem _ fun k hk => ?_) out
          exact h k ⟨i, List.mem_range.mp hi, hk⟩
      simp only [if_neg harray] at h ⊢
      by_cases hunion : kind = 7
      · have hrecord : kind = 6 ∨ kind = 7 := Or.inr hunion
        simp only [if_pos hunion] at h
        simp only [if_pos hrecord, if_pos hunion]
        cases hlargest : largestField type with
        | none => rfl
        | some i =>
            have hfield := ihType i _ fun k hk => h k ⟨i, hlargest, hk⟩
            simp only [hfield]
      simp only [if_neg hunion] at h ⊢
      by_cases hstruct : kind = 6
      · simp only [if_pos hstruct] at h
        have hall : writeAll (fun i => smWriteValue host m₂ (type i) (p + offset i))
            (List.finRange entries) =
            writeAll (fun i => smWriteValue host m (type i) (p + offset i))
              (List.finRange entries) :=
          writeAll_congr fun i _ => ihType i _ fun k hk => h k ⟨i, hk⟩
        simp only [hstruct, true_or, if_true, hall]
      · have hrecord : ¬ (kind = 6 ∨ kind = 7) := not_or.mpr ⟨hstruct, hunion⟩
        simp only [if_neg hstruct] at h
        simp only [if_neg hrecord]
        by_cases htypedef : kind = 10
        · simp only [if_pos htypedef] at h ⊢
          rw [ihElem p h]
        · simp only [if_neg htypedef]

theorem isSome_smSaveR {host : Host} (hideal : host.Ideal) (m : Image) (r : ReflectT) :
    (smSaveR host m r).isSome = (encodedSize r).isSome :=
  (value_inStep host m r 0).writes hideal []

theorem smLoadR_of_save {host : Host} {r : ReflectT} {m : Image} {bytes : List UInt8}
    (h : smSaveR host m r = some bytes) (m' : Image) (rest : List UInt8) :
    ∃ m'', smLoadR host m' r (bytes ++ rest) = some (m'', rest) ∧
      (∀ k, Covered r 0 k → m'' k = m k) ∧ ∀ k, ¬ Covered r 0 k → m'' k = m' k := by
  obtain ⟨bytes', hout, hread⟩ := (value_inStep host m r 0).roundTrip [] bytes h
  rw [List.nil_append] at hout
  subst hout
  exact hread m' rest

theorem isSome_encodedSize {host : Host} {m : Image} {r : ReflectT} {bytes : List UInt8}
    (h : smSaveR host m r = some bytes) : (encodedSize r).isSome = true := by
  obtain ⟨m'', hload, -⟩ := smLoadR_of_save h m []
  have hsize := (value_inStep host m r 0).reads m (bytes ++ [])
  rw [smLoadR] at hload
  rw [hload] at hsize
  cases hencoded : encodedSize r with
  | none => simp [hencoded] at hsize
  | some n => rfl

end ValueBytes

/-- Loading takes exactly the saved bytes off the stream, restores the bytes of the scalars that
were written and leaves the rest of the object alone.  Failures of the host aside, an object is
saved exactly when every stream that is long enough is loaded. -/
theorem save_load_roundTrip (host : Host) (r : ReflectT) (m m' : Image) :
    (∀ bytes, smSaveR host m r = some bytes → ∀ rest,
      ∃ m'', smLoadR host m' r (bytes ++ rest) = some (m'', rest) ∧
        (∀ k, Covered r 0 k → m'' k = m k) ∧ ∀ k, ¬ Covered r 0 k → m'' k = m' k) ∧
    (host.Ideal → ((smSaveR host m r).isSome = true ↔
      ∃ n, ∀ input, n ≤ input.length → (smLoadR host m' r input).isSome = true)) := by
  refine ⟨fun bytes hsave rest => smLoadR_of_save hsave m' rest, ?_⟩
  intro hideal
  rw [isSome_smSaveR hideal]
  exact (value_inStep host m r 0).reads.accepts_iff m' 0

/-- A packed character and a short, on a big-endian host. -/
theorem packed_short_roundTrip :
    smSaveR ⟨false, fun _ _ => true, fun _ _ => true⟩ (fun k => if k = 2 then 9 else 7)
        (.obj 6 3 1 "S" 2 .null 2 (fun i => if i = 0 then "c" else "s") (fun i => i)
          fun i => .obj 2 (i + 1) 1 "" 0 .null 0 (fun _ => "") (fun _ => 0) fun _ => .null) =
      some [7, 9, 7] ∧
    ∃ m'', smLoadR ⟨false, fun _ _ => true, fun _ _ => true⟩ (fun _ => 0)
        (.obj 6 3 1 "S" 2 .null 2 (fun i => if i = 0 then "c" else "s") (fun i => i)
          fun i => .obj 2 (i + 1) 1 "" 0 .null 0 (fun _ => "") (fun _ => 0) fun _ => .null)
        ([7, 9, 7] ++ [5]) = some (m'', [5]) ∧ m'' 2 = 9 := by
  have hsave : smSaveR ⟨false, fun _ _ => true, fun _ _ => true⟩ (fun k => if k = 2 then 9 else 7)
      (.obj 6 3 1 "S" 2 .null 2 (fun i => if i = 0 then "c" else "s") (fun i => i)
        fun i => .obj 2 (i + 1) 1 "" 0 .null 0 (fun _ => "") (fun _ => 0) fun _ => .null) =
      some [7, 9, 7] := by decide
  obtain ⟨m'', hload, hin, -⟩ := (save_load_roundTrip _ _ _ (fun _ => 0)).1 _ hsave [5]
  exact ⟨hsave, m'', hload, hin 2 ⟨1, by simp [Covered]⟩⟩

end CZet.Stdlib
