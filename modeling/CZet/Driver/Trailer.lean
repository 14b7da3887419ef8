/- source: tools/embed.py, src/czet.c (le64u, read_trailer, fnv1a64, main)
   digest: The toolchain blob and the trailer behind a binary: how they are written and how the driver
     reads them back. -/

import CZet.Lib.FileReads
import Mathlib.Data.Nat.Bitwise

set_option autoImplicit false
set_option relaxedAutoImplicit false

namespace CZet.Driver

open CZet.Lib.FileReads

namespace Embed

/-- `fnv1a64` of the script, on integers without bound. -/
def fnv1a64 (data : List UInt8) : Nat :=
  data.foldl (fun h b => ((h ^^^ b.toNat) * 0x100000001B3) &&& 0xFFFFFFFFFFFFFFFF)
    0xCBF29CE484222325

/-- `int.to_bytes(v, n, "little")` of a number that fits. -/
def toBytes : Nat → Nat → List UInt8
  | 0, _ => []
  | n + 1, v => UInt8.ofNat (v % 256) :: toBytes n (v / 256)

/-- Python raises an `OverflowError` for a number that does not fit. -/
def le64 (v : Nat) : Option (List UInt8) := if v < 2 ^ 64 then some (toBytes 8 v) else none

/-- `b"CZETAR\0\0"`. -/
def magic : List UInt8 := [67, 90, 69, 84, 65, 82, 0, 0]

/-- The file that the script writes. -/
def main (base blob : List UInt8) : Option (List UInt8) :=
  if blob.length = 0 then none
  else do
    let off ← le64 base.length
    let size ← le64 blob.length
    let h ← le64 (fnv1a64 blob)
    some (base ++ blob ++ (magic ++ off ++ size ++ h))

end Embed

structure Trailer where
  off : UInt64
  size : UInt64
  hash : UInt64
  deriving DecidableEq

def trailerLen : Nat := 32

def chunk : Nat := 65536

/-- The seven bytes of `CZET_MAGIC` that are compared. -/
def czetMagic : List UInt8 := [67, 90, 69, 84, 65, 82, 0]

def le64u (p : List UInt8) : UInt64 := p.foldr (fun b v => (v <<< 8) ||| b.toUInt64) 0

def readTrailer (read : Reads) (file : List UInt8) : Option Trailer :=
  if file.length < trailerLen then none
  else
    let h := read (file.length - trailerLen) trailerLen
    if h.length ≠ trailerLen then none
    else if h.take 7 ≠ czetMagic then none
    else some
      { off := le64u ((h.drop 8).take 8)
        size := le64u ((h.drop 16).take 8)
        hash := le64u ((h.drop 24).take 8) }

/-- One byte of the hash. -/
def fnvByte (h : UInt64) (b : UInt8) : UInt64 := (h ^^^ b.toUInt64) * 0x100000001b3

/-- The loop of `fnv1a64` with `left` bytes to go, no more than `fuel`. -/
def fnvLoop (read : Reads) : Nat → Nat → Nat → UInt64 → UInt64
  | 0, _, _, h => h
  | fuel + 1, pos, left, h =>
      if left = 0 then h
      else
        let got := read pos (if chunk < left then chunk else left)
        if got.length = 0 then h
        else fnvLoop read fuel (pos + got.length) (left - got.length) (got.foldl fnvByte h)

/-- `fnv1a64` of the driver; `fseek` refuses what is negative as a `long`. -/
def fnv1a64 (read : Reads) (off size : UInt64) : UInt64 :=
  if 2 ^ 63 ≤ off.toNat then 0
  else fnvLoop read size.toNat off.toNat size.toNat 0xcbf29ce484222325

/-- The check of the file size in `main`. -/
def sizeConsistent (file : List UInt8) (t : Trailer) : Prop :=
  ¬ (0 < file.length ∧ UInt64.ofNat file.length ≠ t.off + t.size + UInt64.ofNat trailerLen)

section Words

theorem Embed.length_toBytes (n v : Nat) : (Embed.toBytes n v).length = n := by
  induction n generalizing v with
  | zero => rfl
  | succ n ih => rw [Embed.toBytes, List.length_cons, ih]

private theorem le64u_toBytes_toNat (n v : Nat) (hn : n ≤ 8) :
    (le64u (Embed.toBytes n v)).toNat = v % 256 ^ n := by
  induction n generalizing v with
  | zero => rw [Embed.toBytes, Nat.pow_zero, Nat.mod_one]; rfl
  | succ n ih =>
      have hrest := ih (v / 256) (by omega)
      have hbound : v / 256 % 256 ^ n < 2 ^ 56 := by
        have hlt := Nat.mod_lt (v / 256) (Nat.pow_pos (by decide : 0 < 256) (n := n))
        have hpow : 256 ^ n ≤ 256 ^ 7 := Nat.pow_le_pow_right (by decide) (by omega)
        have hseven : (256 : Nat) ^ 7 = 2 ^ 56 := by decide
        omega
      have hbyte : v % 256 < 2 ^ 8 := Nat.mod_lt v (by decide)
      have hshift : (v / 256 % 256 ^ n) <<< 8 % 2 ^ 64 = 2 ^ 8 * (v / 256 % 256 ^ n) := by
        rw [Nat.shiftLeft_eq, Nat.mul_comm]
        omega
      have hfold : le64u (Embed.toBytes (n + 1) v) =
          (le64u (Embed.toBytes n (v / 256)) <<< 8) ||| (UInt8.ofNat (v % 256)).toUInt64 := rfl
      rw [hfold, UInt64.toNat_or, UInt64.toNat_shiftLeft, hrest, UInt8.toNat_toUInt64,
        UInt8.toNat_ofNat']
      have hsplit : v % 256 ^ (n + 1) = v % 256 + 256 * (v / 256 % 256 ^ n) := by
        rw [Nat.pow_succ', Nat.mod_mul]
      show (v / 256 % 256 ^ n) <<< 8 % 2 ^ 64 ||| v % 256 % 2 ^ 8 = _
      rw [hshift, Nat.mod_eq_of_lt hbyte, ← Nat.two_pow_add_eq_or_of_lt hbyte, hsplit]
      omega

theorem le64u_toBytes (v : Nat) : le64u (Embed.toBytes 8 v) = UInt64.ofNat v := by
  have hpow : (256 : Nat) ^ 8 = 2 ^ 64 := by decide
  apply UInt64.toNat_inj.mp
  rw [le64u_toBytes_toNat 8 v (Nat.le_refl 8), hpow, UInt64.toNat_ofNat']

private theorem fnv_foldl_toNat (data : List UInt8) (h : UInt64) :
    (data.foldl fnvByte h).toNat =
      data.foldl (fun h b => ((h ^^^ b.toNat) * 0x100000001B3) &&& 0xFFFFFFFFFFFFFFFF) h.toNat := by
  induction data generalizing h with
  | nil => rfl
  | cons b data ih =>
      have hbyte : (fnvByte h b).toNat =
          ((h.toNat ^^^ b.toNat) * 0x100000001B3) &&& 0xFFFFFFFFFFFFFFFF := by
        rw [fnvByte, UInt64.toNat_mul, UInt64.toNat_xor, UInt8.toNat_toUInt64]
        exact (Nat.and_two_pow_sub_one_eq_mod _ 64).symm
      rw [List.foldl_cons, List.foldl_cons, ih, hbyte]

theorem fnv_toNat (data : List UInt8) :
    (data.foldl fnvByte 0xcbf29ce484222325).toNat = Embed.fnv1a64 data :=
  fnv_foldl_toNat data 0xcbf29ce484222325

theorem Embed.fnv1a64_lt (data : List UInt8) : Embed.fnv1a64 data < 2 ^ 64 := by
  rw [← fnv_toNat]
  exact UInt64.toNat_lt _

end Words

section Reading

variable {file : List UInt8} {read : Reads}

private theorem fnvLoop_eq (h : Pieces file read) (fuel pos left : Nat) (hash : UInt64)
    (hfuel : left ≤ fuel) (hend : pos + left ≤ file.length) :
    fnvLoop read fuel pos left hash = ((file.drop pos).take left).foldl fnvByte hash := by
  induction fuel generalizing pos left hash with
  | zero =>
      have hzero : left = 0 := by omega
      rw [hzero, fnvLoop, List.take_zero, List.foldl_nil]
  | succ fuel ih =>
      rw [fnvLoop]
      split
      next hzero => rw [hzero, List.take_zero, List.foldl_nil]
      next hne =>
        have hwant : 0 < (if chunk < left then chunk else left) ∧
            (if chunk < left then chunk else left) ≤ left := by
          have hchunk : 0 < chunk := by decide
          split <;> omega
        obtain ⟨k, hk, hle, hfit, hgot, hlen⟩ := h.length hwant.1 (by omega : pos < file.length)
        have hkleft : k ≤ left := Nat.le_trans hle hwant.2
        rw [if_neg (by omega), hlen, ih (pos + k) (left - k) _ (by omega) (by omega), hgot,
          ← List.drop_drop, ← List.foldl_append]
        congr 1
        have hsplit : left = k + (left - k) := by omega
        conv_rhs => rw [hsplit, List.take_add]

theorem fnv1a64_eq (h : Pieces file read) {off size : UInt64} (hoff : off.toNat < 2 ^ 63)
    (hend : off.toNat + size.toNat ≤ file.length) :
    fnv1a64 read off size =
      ((file.drop off.toNat).take size.toNat).foldl fnvByte 0xcbf29ce484222325 := by
  rw [fnv1a64, if_neg (Nat.not_le_of_lt hoff)]
  exact fnvLoop_eq h size.toNat off.toNat size.toNat _ (Nat.le_refl _) hend

end Reading

/-- The file that the script writes for a base and a blob that is not too long. -/
def Embed.written (base blob : List UInt8) : List UInt8 :=
  base ++ blob ++ (Embed.magic ++ Embed.toBytes 8 base.length ++ Embed.toBytes 8 blob.length ++
    Embed.toBytes 8 (Embed.fnv1a64 blob))

theorem main_eq_written {base blob : List UInt8} (hblob : blob ≠ [])
    (hlen : base.length + blob.length < 2 ^ 63) :
    Embed.main base blob = some (Embed.written base blob) := by
  have hne : blob.length ≠ 0 := fun h => hblob (List.length_eq_zero_iff.mp h)
  rw [Embed.main, if_neg hne, Embed.le64, if_pos (by omega), Embed.le64, if_pos (by omega),
    Embed.le64, if_pos (Embed.fnv1a64_lt blob)]
  rfl

private theorem drop_written (base blob : List UInt8) :
    (Embed.written base blob).drop (base.length + blob.length) =
      Embed.magic ++ Embed.toBytes 8 base.length ++ Embed.toBytes 8 blob.length ++
        Embed.toBytes 8 (Embed.fnv1a64 blob) := by
  rw [Embed.written, ← List.length_append, List.drop_left]

private theorem length_written (base blob : List UInt8) :
    (Embed.written base blob).length = base.length + blob.length + trailerLen := by
  simp only [Embed.written, List.length_append, Embed.length_toBytes, Embed.magic, List.length_cons,
    List.length_nil, trailerLen]

private theorem readTrailer_written {base blob : List UInt8} {read : Reads}
    (h : Pieces (Embed.written base blob) read) :
    readTrailer (fread read) (Embed.written base blob) =
      some ⟨UInt64.ofNat base.length, UInt64.ofNat blob.length,
        UInt64.ofNat (Embed.fnv1a64 blob)⟩ := by
  have hlen := length_written base blob
  have hpos : (Embed.written base blob).length - trailerLen = base.length + blob.length := by omega
  have hread : fread read ((Embed.written base blob).length - trailerLen) trailerLen =
      Embed.magic ++ Embed.toBytes 8 base.length ++ Embed.toBytes 8 blob.length ++
        Embed.toBytes 8 (Embed.fnv1a64 blob) := by
    rw [fread_eq h, hpos, drop_written]
    rfl
  rw [readTrailer, if_neg (by omega), hread]
  show some (Trailer.mk (le64u (Embed.toBytes 8 base.length)) (le64u (Embed.toBytes 8 blob.length))
    (le64u (Embed.toBytes 8 (Embed.fnv1a64 blob)))) = _
  rw [le64u_toBytes, le64u_toBytes, le64u_toBytes]

/-- The driver reads back what the script has embedded, in whatever pieces the file is read: the
trailer, the size, the blob and its hash, which is also found when a `fread` stops short. -/
theorem trailer_roundTrip {base blob : List UInt8} (hblob : blob ≠ [])
    (hlen : base.length + blob.length < 2 ^ 63) :
    ∃ file, Embed.main base blob = some file ∧ ∀ read, Pieces file read →
      ∃ t, readTrailer (fread read) file = some t ∧ t.off.toNat = base.length ∧
        t.size.toNat = blob.length ∧ t.hash.toNat = Embed.fnv1a64 blob ∧
        sizeConsistent file t ∧ (file.drop t.off.toNat).take t.size.toNat = blob ∧
        fnv1a64 (fread read) t.off t.size = t.hash ∧ fnv1a64 read t.off t.size = t.hash := by
  refine ⟨Embed.written base blob, main_eq_written hblob hlen, ?_⟩
  intro read h
  have hfile := length_written base blob
  have hoff : (UInt64.ofNat base.length).toNat = base.length := by
    rw [UInt64.toNat_ofNat', Nat.mod_eq_of_lt (by omega)]
  have hsize : (UInt64.ofNat blob.length).toNat = blob.length := by
    rw [UInt64.toNat_ofNat', Nat.mod_eq_of_lt (by omega)]
  have hhash : (UInt64.ofNat (Embed.fnv1a64 blob)).toNat = Embed.fnv1a64 blob := by
    rw [UInt64.toNat_ofNat', Nat.mod_eq_of_lt (Embed.fnv1a64_lt blob)]
  have hblobAt : ((Embed.written base blob).drop base.length).take blob.length = blob := by
    rw [Embed.written, List.append_assoc, List.drop_left, List.take_left]
  -- the hash over any reader that gives pieces
  have hfnv : ∀ r, Pieces (Embed.written base blob) r →
      fnv1a64 r (UInt64.ofNat base.length) (UInt64.ofNat blob.length) =
        UInt64.ofNat (Embed.fnv1a64 blob) := by
    intro r hr
    rw [fnv1a64_eq hr (by omega) (by rw [hfile]; omega), hoff, hsize, hblobAt]
    apply UInt64.toNat_inj.mp
    rw [fnv_toNat, hhash]
  refine ⟨_, readTrailer_written h, hoff, hsize, hhash, ?_, ?_, hfnv _ (pieces_fread h), hfnv _ h⟩
  · rintro ⟨-, hne⟩
    apply hne
    rw [hfile, UInt64.ofNat_add, UInt64.ofNat_add]
  · rw [hoff, hsize]
    exact hblobAt

/-- A base of two bytes and a blob of three, read a byte at a time. -/
theorem three_byte_blob_roundTrip :
    ∃ file, Embed.main [1, 2] [3, 4, 5] = some file ∧
      Pieces file (fun pos want => if want = 0 then [] else (file.drop pos).take 1) ∧
      ∃ t, readTrailer (fread fun pos want => if want = 0 then [] else (file.drop pos).take 1)
        file = some t ∧ t.off.toNat = 2 := by
  have hblob : ([3, 4, 5] : List UInt8) ≠ [] := by decide
  have hlen : ([1, 2] : List UInt8).length + ([3, 4, 5] : List UInt8).length < 2 ^ 63 := by decide
  obtain ⟨file, hmain, h⟩ := trailer_roundTrip hblob hlen
  have hpieces : Pieces file fun pos want => if want = 0 then [] else (file.drop pos).take 1 := by
    constructor
    · intro pos want hwant hpos
      exact ⟨1, by decide, hwant, hpos, if_neg (by omega)⟩
    · intro pos want hend
      rw [List.drop_eq_nil_of_le hend, List.take_nil, ite_self]
  obtain ⟨t, hread, hoff, -⟩ := h _ hpieces
  exact ⟨file, hmain, hpieces, t, hread, hoff⟩

end CZet.Driver
