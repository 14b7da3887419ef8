/- digest: Files that are read in pieces: a read gives some of the bytes wanted, `fread` goes on until
     it has them all or the file ends. -/

import Mathlib.Data.List.Basic

set_option autoImplicit false
set_option relaxedAutoImplicit false

namespace CZet.Lib.FileReads

/-- A way to read a file: the bytes got at a position when a number of bytes is wanted. -/
abbrev Reads := Nat → Nat → List UInt8

/-- A read gets a nonempty piece of what is wanted, and nothing at the end of the file. -/
structure Pieces (file : List UInt8) (read : Reads) : Prop where
  piece : ∀ pos want, 0 < want → pos < file.length →
    ∃ k, 0 < k ∧ k ≤ want ∧ pos + k ≤ file.length ∧ read pos want = (file.drop pos).take k
  eof : ∀ pos want, file.length ≤ pos → read pos want = []

/-- The loop of `fread` over the reads of the system; `fuel` is the number of bytes wanted. -/
def freadLoop (read : Reads) : Nat → Nat → Nat → List UInt8
  | 0, _, _ => []
  | fuel + 1, pos, want =>
      if want = 0 then []
      else
        let got := read pos want
        if got = [] then []
        else got ++ freadLoop read fuel (pos + got.length) (want - got.length)

def fread (read : Reads) : Reads := fun pos want => freadLoop read want pos want

theorem Pieces.length {file : List UInt8} {read : Reads} (h : Pieces file read) {pos want : Nat}
    (hwant : 0 < want) (hpos : pos < file.length) :
    ∃ k, 0 < k ∧ k ≤ want ∧ pos + k ≤ file.length ∧ read pos want = (file.drop pos).take k ∧
      (read pos want).length = k := by
  obtain ⟨k, hk, hle, hend, hgot⟩ := h.piece pos want hwant hpos
  refine ⟨k, hk, hle, hend, hgot, ?_⟩
  rw [hgot, List.length_take, List.length_drop]
  omega

private theorem freadLoop_eq {file : List UInt8} {read : Reads} (h : Pieces file read)
    (fuel pos want : Nat) (hfuel : want ≤ fuel) :
    freadLoop read fuel pos want = (file.drop pos).take want := by
  induction fuel generalizing pos want with
  | zero =>
      have hzero : want = 0 := by omega
      rw [hzero, freadLoop, List.take_zero]
  | succ fuel ih =>
      rw [freadLoop]
      split
      next hzero => rw [hzero, List.take_zero]
      next hne =>
        by_cases hpos : pos < file.length
        · have hwant : 0 < want := by omega
          obtain ⟨k, hk, hle, hfit, hgot, hlen⟩ := h.length hwant hpos
          have hnonempty : read pos want ≠ [] := by
            intro hnil
            rw [hnil, List.length_nil] at hlen
            omega
          rw [if_neg hnonempty, hlen, ih (pos + k) (want - k) (by omega), hgot, ← List.drop_drop]
          -- the rest of the bytes follows the piece
          have hsplit : want = k + (want - k) := by omega
          conv_rhs => rw [hsplit, List.take_add]
        · have hend : file.length ≤ pos := Nat.le_of_not_lt hpos
          rw [if_pos (h.eof pos want hend), List.drop_eq_nil_of_le hend, List.take_nil]

theorem fread_eq {file : List UInt8} {read : Reads} (h : Pieces file read) (pos want : Nat) :
    fread read pos want = (file.drop pos).take want :=
  freadLoop_eq h want pos want (Nat.le_refl want)

theorem pieces_fread {file : List UInt8} {read : Reads} (h : Pieces file read) :
    Pieces file (fread read) where
  piece := by
    intro pos want hwant hpos
    refine ⟨min want (file.length - pos), by omega, by omega, by omega, ?_⟩
    have hrest : (file.drop pos).take (file.length - pos) = file.drop pos :=
      List.take_of_length_le (Nat.le_of_eq List.length_drop)
    rw [fread_eq h, ← List.take_take, hrest]
  eof := by
    intro pos want hend
    rw [fread_eq h, List.drop_eq_nil_of_le hend, List.take_nil]

end CZet.Lib.FileReads
