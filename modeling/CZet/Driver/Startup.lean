/- source: src/czet.c (read_trailer, fnv1a64, main: the trailer, the size check, the first extraction,
     --extract-only), tools/embed.py (main)
   digest: From the script that embeds an archive to the tree that the driver extracts at its first
     start: which files are accepted, what comes out of them, and which changes are reported. -/

import CZet.Driver.TarExtraction
import CZet.Driver.Trailer

set_option autoImplicit false
set_option relaxedAutoImplicit false

namespace CZet.Driver

open CZet.Lib.FileReads CZet.Driver.Tar

section Start

variable {σ : Type}

instance (file : List UInt8) (t : Trailer) : Decidable (sizeConsistent file t) :=
  inferInstanceAs (Decidable (¬ (_ ∧ _)))

/-- How the first part of `main` ends, for a toolchain that is not in the cache yet. -/
inductive Startup (σ : Type)
  | noBlob
  | inconsistent
  | noCache
  | extracted (t : Trailer) (s : Proc σ)

/-- `main` up to the extraction to the directory `work`; `none` when the fuel is used up. A blob that
starts at a negative `long` is not found by `fseek`. -/
def startup (sys : System σ) (read : Reads) (file : List UInt8) (work : Tar.CStr) (fuel : Nat)
    (st : σ) : Option (Startup σ) :=
  match readTrailer (fread read) file with
  | none => some .noBlob
  | some t =>
      if ¬ sizeConsistent file t then some .inconsistent
      else if 2 ^ 63 ≤ t.off.toNat then some .noCache
      else
        match extractTar sys read work fuel ⟨t.off.toNat, st, []⟩ with
        | (some true, s) => some (.extracted t s)
        | (some false, _) => some .noCache
        | (none, _) => none

/-- `--extract-only` warns about the hash of the blob. -/
def warns (read : Reads) (t : Trailer) : Bool := decide (fnv1a64 (fread read) t.off t.size ≠ t.hash)

/-- How `main` ends with `--extract-only`. -/
inductive ExtractOnly
  | noBlob
  | inconsistent
  | noCache
  | printed (t : Trailer) (warned : Bool)

/-- `main` with `--extract-only`; `cached` tells for which trailers `ensure_cache` gives back a
directory. The hash is looked at behind it. -/
def extractOnly (read : Reads) (cached : Trailer → Bool) (file : List UInt8) : ExtractOnly :=
  match readTrailer (fread read) file with
  | none => .noBlob
  | some t =>
      if ¬ sizeConsistent file t then .inconsistent
      else if cached t = false then .noCache
      else .printed t (warns read t)

end Start

private def byteReads (file : List UInt8) : Reads :=
  fun pos want => if want = 0 then [] else (file.drop pos).take 1

private theorem pieces_byteReads (file : List UInt8) : Pieces file (byteReads file) where
  piece pos want hwant hpos := ⟨1, Nat.one_pos, hwant, hpos, if_neg hwant.ne'⟩
  eof pos want hend := by
    rw [byteReads, List.drop_eq_nil_of_le hend, List.take_nil, ite_self]

section Acceptance

/-- The 32 bytes at the end of a file that the driver accepts; the last byte of the magic is not
compared. -/
def trailerBytes (last : UInt8) (t : Trailer) : List UInt8 :=
  czetMagic ++ [last] ++ Embed.toBytes 8 t.off.toNat ++ Embed.toBytes 8 t.size.toNat ++
    Embed.toBytes 8 t.hash.toNat

private theorem le64u_cons (b : UInt8) (p : List UInt8) (hlt : (le64u p).toNat < 2 ^ 56) :
    (le64u (b :: p)).toNat = b.toNat + 256 * (le64u p).toNat := by
  have hfold : le64u (b :: p) = (le64u p <<< 8) ||| b.toUInt64 := rfl
  have hbyte : b.toNat < 2 ^ 8 := UInt8.toNat_lt b
  have hshift : (le64u p).toNat <<< 8 % 2 ^ 64 = 2 ^ 8 * (le64u p).toNat := by
    rw [Nat.shiftLeft_eq, Nat.mul_comm]
    omega
  rw [hfold, UInt64.toNat_or, UInt64.toNat_shiftLeft, UInt8.toNat_toUInt64]
  show (le64u p).toNat <<< 8 % 2 ^ 64 ||| b.toNat = _
  rw [hshift, ← Nat.two_pow_add_eq_or_of_lt hbyte]
  omega

private theorem le64u_lt (p : List UInt8) (hlen : p.length ≤ 8) :
    (le64u p).toNat < 256 ^ p.length := by
  induction p with
  | nil => decide
  | cons b p ih =>
      rw [List.length_cons] at hlen ⊢
      have hrest := ih (by omega)
      have hpow : 256 ^ p.length ≤ 256 ^ 7 := Nat.pow_le_pow_right (by decide) (by omega)
      have hseven : (256 : Nat) ^ 7 = 2 ^ 56 := by decide
      have hbyte : b.toNat < 256 := UInt8.toNat_lt b
      rw [le64u_cons b p (by omega), Nat.pow_succ]
      omega

theorem toBytes_le64u (p : List UInt8) (hlen : p.length ≤ 8) :
    Embed.toBytes p.length (le64u p).toNat = p := by
  induction p with
  | nil => rfl
  | cons b p ih =>
      rw [List.length_cons] at hlen
      have hrest := le64u_lt p (by omega)
      have hpow : 256 ^ p.length ≤ 256 ^ 7 := Nat.pow_le_pow_right (by decide) (by omega)
      have hseven : (256 : Nat) ^ 7 = 2 ^ 56 := by decide
      have hbyte : b.toNat < 256 := UInt8.toNat_lt b
      have hmod : (b.toNat + 256 * (le64u p).toNat) % 256 = b.toNat := by omega
      have hdiv : (b.toNat + 256 * (le64u p).toNat) / 256 = (le64u p).toNat := by omega
      rw [List.length_cons, Embed.toBytes, le64u_cons b p (by omega), hmod, hdiv, ih (by omega),
        UInt8.ofNat_toNat]

variable {file : List UInt8} {read : Reads} {t : Trailer}

theorem length_trailerBytes (last : UInt8) (t : Trailer) :
    (trailerBytes last t).length = trailerLen := by
  simp only [trailerBytes, List.length_append, Embed.length_toBytes, List.length_singleton]
  rfl

private theorem take_words (p : List UInt8) (hlen : p.length = trailerLen) :
    p.take 8 ++ (p.drop 8).take 8 ++ (p.drop 16).take 8 ++ (p.drop 24).take 8 = p := by
  have hlast : (p.drop 24).take 8 = p.drop 24 := by
    apply List.take_of_length_le
    rw [List.length_drop, hlen]
    decide
  have hthird : (p.drop 16).take 8 ++ p.drop 24 = p.drop 16 := by
    rw [show p.drop 24 = (p.drop 16).drop 8 by rw [List.drop_drop], List.take_append_drop]
  have hsecond : (p.drop 8).take 8 ++ p.drop 16 = p.drop 8 := by
    rw [show p.drop 16 = (p.drop 8).drop 8 by rw [List.drop_drop], List.take_append_drop]
  rw [hlast, List.append_assoc, hthird, List.append_assoc, hsecond, List.take_append_drop]

private theorem toBytes_word {p : List UInt8} (hlen : p.length = trailerLen) (k : Nat)
    (hk : k + 8 ≤ trailerLen) :
    Embed.toBytes 8 (le64u ((p.drop k).take 8)).toNat = (p.drop k).take 8 := by
  have hword : ((p.drop k).take 8).length = 8 := by
    rw [List.length_take, List.length_drop, hlen]
    omega
  have h := toBytes_le64u ((p.drop k).take 8) hword.le
  rwa [hword] at h

/-- The trailer that is read is the end of the file. -/
theorem readTrailer_iff (h : Pieces file read) :
    readTrailer (fread read) file = some t ↔
      ∃ front last, file = front ++ trailerBytes last t := by
  constructor
  · intro hread
    rw [readTrailer] at hread
    split at hread
    · cases hread
    · rename_i hshort
      rw [fread_eq h] at hread
      have hlen : (file.drop (file.length - trailerLen)).length = trailerLen := by
        rw [List.length_drop]
        omega
      have htake : (file.drop (file.length - trailerLen)).take trailerLen =
          file.drop (file.length - trailerLen) := List.take_of_length_le hlen.le
      rw [htake] at hread
      generalize hend : file.drop (file.length - trailerLen) = p at hread hlen
      dsimp only at hread
      rw [if_neg (not_not.mpr hlen)] at hread
      split at hread
      · cases hread
      · rename_i hmagic
        obtain rfl := Option.some.inj hread
        obtain ⟨last, hlast⟩ : ∃ last, p.take 8 = czetMagic ++ [last] := by
          have hseven : 7 < p.length := by
            rw [hlen]
            decide
          refine ⟨p[7], ?_⟩
          rw [← not_not.mp hmagic]
          exact (List.take_append_getElem hseven).symm
        refine ⟨file.take (file.length - trailerLen), last, ?_⟩
        rw [trailerBytes, toBytes_word hlen 8 (by decide), toBytes_word hlen 16 (by decide),
          toBytes_word hlen 24 (by decide), ← hlast, take_words p hlen, ← hend,
          List.take_append_drop]
  · rintro ⟨front, last, rfl⟩
    have hlen := length_trailerBytes last t
    have hdrop : (front ++ trailerBytes last t).length - trailerLen = front.length := by
      rw [List.length_append, hlen, Nat.add_sub_cancel]
    have hgot : fread read ((front ++ trailerBytes last t).length - trailerLen) trailerLen =
        trailerBytes last t := by
      rw [fread_eq h, hdrop, List.drop_left, List.take_of_length_le hlen.le]
    have hlong : ¬ (front ++ trailerBytes last t).length < trailerLen := by
      rw [List.length_append, hlen]
      omega
    rw [readTrailer, if_neg hlong, hgot]
    dsimp only
    rw [if_neg (not_not.mpr hlen)]
    show some (Trailer.mk (le64u (Embed.toBytes 8 t.off.toNat))
      (le64u (Embed.toBytes 8 t.size.toNat)) (le64u (Embed.toBytes 8 t.hash.toNat))) = some t
    rw [le64u_toBytes, le64u_toBytes, le64u_toBytes, UInt64.ofNat_toNat, UInt64.ofNat_toNat,
      UInt64.ofNat_toNat]

/-- The trailer of a blob behind a base. -/
def trailerOf (base blob : List UInt8) : Trailer where
  off := UInt64.ofNat base.length
  size := UInt64.ofNat blob.length
  hash := UInt64.ofNat (Embed.fnv1a64 blob)

theorem trailerOf_toNat {base blob : List UInt8} (hlen : base.length + blob.length < 2 ^ 63) :
    (trailerOf base blob).off.toNat = base.length ∧
      (trailerOf base blob).size.toNat = blob.length ∧
      (trailerOf base blob).hash.toNat = Embed.fnv1a64 blob := by
  refine ⟨?_, ?_, ?_⟩
  · exact UInt64.toNat_ofNat'.trans (Nat.mod_eq_of_lt (by omega))
  · exact UInt64.toNat_ofNat'.trans (Nat.mod_eq_of_lt (by omega))
  · exact UInt64.toNat_ofNat'.trans (Nat.mod_eq_of_lt (Embed.fnv1a64_lt blob))

theorem written_eq {base blob : List UInt8} (hlen : base.length + blob.length < 2 ^ 63) :
    Embed.written base blob = base ++ blob ++ trailerBytes 0 (trailerOf base blob) := by
  obtain ⟨hoff, hsize, hhash⟩ := trailerOf_toNat hlen
  rw [Embed.written, trailerBytes, hoff, hsize, hhash]
  rfl

theorem fnv1a64_section (h : Pieces file read) {base blob tail : List UInt8}
    (hfile : file = base ++ blob ++ tail) (hlen : base.length + blob.length < 2 ^ 63) :
    fnv1a64 (fread read) (trailerOf base blob).off (trailerOf base blob).size =
      UInt64.ofNat (Embed.fnv1a64 blob) := by
  obtain ⟨hoff, hsize, hhash⟩ := trailerOf_toNat hlen
  have hfit : base.length + blob.length ≤ file.length := by
    rw [hfile, List.length_append, List.length_append]
    omega
  have hblob : (file.drop base.length).take blob.length = blob := by
    rw [hfile, List.append_assoc, List.drop_left, List.take_left]
  rw [fnv1a64_eq (pieces_fread h) (by omega) (by omega), hoff, hsize, hblob]
  apply UInt64.toNat_inj.mp
  rw [fnv_toNat]
  exact hhash.symm

theorem layout_accepted (h : Pieces file read) {base blob : List UInt8} {last : UInt8}
    (hfile : file = base ++ blob ++ trailerBytes last t) (hoff : t.off = UInt64.ofNat base.length)
    (hsize : t.size = UInt64.ofNat blob.length) :
    readTrailer (fread read) file = some t ∧ sizeConsistent file t := by
  refine ⟨(readTrailer_iff h).mpr ⟨base ++ blob, last, hfile⟩, ?_⟩
  rintro ⟨-, hne⟩
  apply hne
  rw [hfile, List.length_append, List.length_append, length_trailerBytes, UInt64.ofNat_add,
    UInt64.ofNat_add, hoff, hsize]

theorem layout_quiet (h : Pieces file read) {base blob tail : List UInt8}
    (hfile : file = base ++ blob ++ tail) (hlen : base.length + blob.length < 2 ^ 63) :
    warns read (trailerOf base blob) = false := by
  rw [warns, decide_eq_false_iff_not, not_not]
  exact fnv1a64_section h hfile hlen

theorem extractOnly_printed {cached : Trailer → Bool} {warned : Bool} :
    extractOnly read cached file = .printed t warned ↔
      readTrailer (fread read) file = some t ∧ sizeConsistent file t ∧ cached t = true ∧
        warns read t = warned := by
  rw [extractOnly]
  cases htrailer : readTrailer (fread read) file with
  | none => simp
  | some t' =>
      simp only [Option.some.injEq]
      by_cases hsize : sizeConsistent file t'
      · cases hcached : cached t' with
        | false =>
            simp only [hsize, not_true, if_false, if_true]
            refine iff_of_false nofun ?_
            rintro ⟨rfl, -, htrue, -⟩
            rw [hcached] at htrue
            cases htrue
        | true =>
            simp only [hsize, not_true, if_false, Bool.true_eq_false, ExtractOnly.printed.injEq]
            constructor
            · rintro ⟨rfl, rfl⟩
              exact ⟨rfl, hsize, hcached, rfl⟩
            · rintro ⟨rfl, -, -, rfl⟩
              exact ⟨rfl, rfl⟩
      · simp only [hsize, not_false_eq_true, if_true]
        refine iff_of_false nofun ?_
        rintro ⟨rfl, htrue, -⟩
        exact hsize htrue

/-- What the script writes, the last byte of the magic apart. -/
def WrittenBy (base blob file : List UInt8) : Prop :=
  ∃ last, Embed.main base blob = some (base ++ blob ++ trailerBytes 0 (trailerOf base blob)) ∧
    file = base ++ blob ++ trailerBytes last (trailerOf base blob)

/-- `--extract-only` prints without a warning, for a blob that is not empty, just when the cache can be
set up and the file is what the script writes for some base and some blob. The driver adds the sizes
in 64 bits: they must not wrap around. -/
theorem accepted_iff_written (h : Pieces file read) (hshort : file.length < 2 ^ 63)
    (cached : Trailer → Bool) :
    (extractOnly read cached file = .printed t false ∧ t.size ≠ 0 ∧
      t.off.toNat + t.size.toNat + trailerLen < 2 ^ 64) ↔
    cached t = true ∧ ∃ base blob, WrittenBy base blob file ∧ t = trailerOf base blob := by
  rw [extractOnly_printed]
  constructor
  · rintro ⟨⟨htrailer, hsize, hcached, hquiet⟩, hnonempty, hsum⟩
    refine ⟨hcached, ?_⟩
    obtain ⟨front, last, hfile⟩ := (readTrailer_iff h).mp htrailer
    have hlen := length_trailerBytes last t
    have hlength : file.length = front.length + trailerLen := by
      rw [hfile, List.length_append, hlen]
    have hfront : front.length = t.off.toNat + t.size.toNat := by
      rw [trailerLen] at hsum hlength
      rw [sizeConsistent, not_and] at hsize
      have hword := congrArg UInt64.toNat (not_not.mp (hsize (by omega)))
      rw [UInt64.toNat_add, UInt64.toNat_add, UInt64.toNat_ofNat', UInt64.toNat_ofNat'] at hword
      rw [trailerLen] at hword
      omega
    have hbase : (front.take t.off.toNat).length = t.off.toNat := by
      rw [List.length_take, hfront]
      omega
    have hblob : (front.drop t.off.toNat).length = t.size.toNat := by
      rw [List.length_drop, hfront]
      omega
    have hsplit : file = front.take t.off.toNat ++ front.drop t.off.toNat ++ trailerBytes last t := by
      rw [List.take_append_drop, hfile]
    have hoff : UInt64.ofNat (front.take t.off.toNat).length = t.off := by
      rw [hbase, UInt64.ofNat_toNat]
    have hlengths : UInt64.ofNat (front.drop t.off.toNat).length = t.size := by
      rw [hblob, UInt64.ofNat_toNat]
    have hlong : (front.take t.off.toNat).length + (front.drop t.off.toNat).length < 2 ^ 63 := by
      rw [hbase, hblob, ← hfront]
      omega
    have hhash := fnv1a64_section h hsplit hlong
    rw [warns, decide_eq_false_iff_not, not_not] at hquiet
    rw [trailerOf, hoff, hlengths, hquiet] at hhash
    have ht : t = trailerOf (front.take t.off.toNat) (front.drop t.off.toNat) := by
      rw [trailerOf, hoff, hlengths, ← hhash]
    have hne : front.drop t.off.toNat ≠ [] := by
      intro hnil
      rw [hnil] at hlengths
      exact hnonempty hlengths.symm
    refine ⟨_, _, ⟨last, ?_, ht ▸ hsplit⟩, ht⟩
    rw [main_eq_written hne hlong, written_eq hlong]
  · rintro ⟨hcached, base, blob, ⟨last, hmain, hfile⟩, rfl⟩
    have hlength : file.length = base.length + blob.length + trailerLen := by
      rw [hfile, List.length_append, List.length_append, length_trailerBytes]
    have hlen : base.length + blob.length < 2 ^ 63 := by omega
    obtain ⟨hoff, hsize, -⟩ := trailerOf_toNat hlen
    obtain ⟨htrailer, hconsistent⟩ := layout_accepted h hfile rfl rfl
    refine ⟨⟨htrailer, hconsistent, hcached, layout_quiet h hfile hlen⟩, ?_, ?_⟩
    · intro hzero
      have hempty : blob.length = 0 := by
        rw [← hsize, hzero]
        rfl
      rw [Embed.main, if_pos hempty] at hmain
      cases hmain
    · rw [hoff, hsize, trailerLen]
      omega

private def smallFile : List UInt8 := [1, 2] ++ [3] ++ trailerBytes 7 (trailerOf [1, 2] [3])

theorem small_file_accepted :
    extractOnly (byteReads smallFile) (fun _ => true) smallFile =
      .printed (trailerOf [1, 2] [3]) false := by
  have hshort : smallFile.length < 2 ^ 63 := by
    rw [smallFile, List.length_append, length_trailerBytes]
    decide
  have hmain : Embed.main [1, 2] [3] = some ([1, 2] ++ [3] ++ trailerBytes 0
    (trailerOf [1, 2] [3])) := by
    rw [main_eq_written (by decide) (by decide), written_eq (by decide)]
  exact ((accepted_iff_written (pieces_byteReads smallFile) hshort fun _ => true).mpr
    ⟨rfl, [1, 2], [3], ⟨7, hmain, rfl⟩, rfl⟩).1

end Acceptance

section Extraction

open CZet.Lib.PathNames

theorem encodes_ne_nil {es : List ArchiveEntry} {bytes : List UInt8} (h : Encodes es bytes) :
    bytes ≠ [] := by
  induction h with
  | stop => exact List.cons_ne_nil _ _
  | entry f hf _ ih =>
      intro hnil
      simp only [List.append_eq_nil_iff] at hnil
      exact ih hnil.2.2.2

/-- An archive that the script has embedded behind any base is found, passes the checks and is
extracted to exactly its entries, and its hash is confirmed, in whatever pieces the file is read. -/
theorem embedded_archive_extracted {work : Tar.CStr} (hwork : IsBase work)
    (hshort : work.length + 257 < pathMax) (a : Archive) {base bytes : List UInt8}
    (hencodes : Encodes a.entries bytes) (hlen : base.length + bytes.length < 2 ^ 63)
    {accept : Disk → List UInt8 → Nat} (haccept : Accepts accept) :
    ∃ file t, Embed.main base bytes = some file ∧ ∀ read, Pieces file read →
      warns read t = false ∧
      ∀ᶠ fuel in Filter.atTop, ∃ s,
        startup (diskSystem work accept) read file work fuel emptyDisk = some (.extracted t s) ∧
        Extracted a.entries s.state.tree := by
  refine ⟨_, trailerOf base bytes, main_eq_written (encodes_ne_nil hencodes) hlen, ?_⟩
  intro read h
  rw [written_eq hlen] at h ⊢
  obtain ⟨htrailer, hsize⟩ := layout_accepted h rfl rfl rfl
  refine ⟨layout_quiet h rfl hlen, ?_⟩
  obtain ⟨hoff, -, -⟩ := trailerOf_toNat hlen
  refine Filter.eventually_atTop.mpr ⟨bytes.length + 2, fun fuel hfuel => ?_⟩
  have hdrop : (base ++ bytes ++ trailerBytes 0 (trailerOf base bytes)).drop base.length =
      bytes ++ trailerBytes 0 (trailerOf base bytes) := by
    rw [List.append_assoc, List.drop_left]
  obtain ⟨pos, d, hrun, hall⟩ := comes_extractTar a h haccept hwork hshort hencodes []
    (List.nil_append _).symm extracted_nil base.length fuel hdrop (by omega)
  obtain ⟨trace, htrace⟩ := hrun []
  refine ⟨⟨pos, d, trace⟩, ?_, hall⟩
  rw [startup, htrailer]
  dsimp only
  rw [if_neg (not_not.mpr hsize), if_neg (by omega), hoff, htrace]

private def sampleBytes : List UInt8 :=
  (plainHeader [100, slash] 53 0).bytes ++ ([] ++ (List.replicate (padding 0) 0 ++
    ((plainHeader [100, slash, 102] 48 1).bytes ++ ([7] ++ (List.replicate (padding 1) 0 ++
      List.replicate 1024 0)))))

private theorem sample_encodes : Encodes sampleArchive.entries sampleBytes := by
  have hfile : (plainHeader [100, slash, 102] 48 1).HeaderOf ⟨[[100], [102]], .regular [7]⟩ :=
    { plainHeader_fit (by decide) 48 1 with
      joined_eq := Or.inl rfl
      kind := ⟨Or.inl rfl, .octal 0 (by decide) (Or.inl rfl)⟩ }
  have hdirectory : (plainHeader [100, slash] 53 0).HeaderOf ⟨[[100]], .directory⟩ :=
    { plainHeader_fit (by decide) 53 0 with
      joined_eq := Or.inr ⟨rfl, rfl⟩
      kind := rfl }
  exact .entry _ hdirectory (.entry _ hfile .stop)

theorem sample_embedded_extracted :
    ∃ file t, Embed.main [1, 2] sampleBytes = some file ∧ warns (byteReads file) t = false ∧
      ∀ᶠ fuel in Filter.atTop, ∃ s,
        startup (diskSystem [119] fun _ _ => 1) (byteReads file) file [119] fuel emptyDisk =
          some (.extracted t s) ∧ Extracted sampleArchive.entries s.state.tree := by
  have hlen : ([1, 2] : List UInt8).length + sampleBytes.length < 2 ^ 63 := by
    have hfile : (plainHeader [100, slash, 102] 48 1).bytes.length = hdrLen :=
      (plainHeader_fit (by decide) 48 1).length_bytes
    have hdirectory : (plainHeader [100, slash] 53 0).bytes.length = hdrLen :=
      (plainHeader_fit (by decide) 53 0).length_bytes
    simp only [sampleBytes, List.length_append, List.length_replicate, hfile, hdirectory]
    decide
  have hwork : IsBase [119] := ⟨by decide, by decide⟩
  have haccept : Accepts fun _ _ => 1 :=
    fun d data hdata => ⟨Nat.one_pos, List.length_pos_of_ne_nil hdata⟩
  obtain ⟨file, t, hmain, h⟩ := embedded_archive_extracted hwork (by decide) sampleArchive
    sample_encodes hlen haccept
  exact ⟨file, t, hmain, h _ (pieces_byteReads file)⟩

end Extraction

section Changes

/-- The multiplier of the hash is odd, hence it can be undone. -/
private theorem prime_inverse (h : UInt64) : h * 0x100000001b3 * 0xce965057aff6957b = h := by
  have hone : (0x100000001b3 : UInt64) * 0xce965057aff6957b = 1 := by decide
  rw [UInt64.mul_assoc, hone, UInt64.mul_one]

private theorem xor_inverse (h b : UInt64) : h ^^^ b ^^^ b = h := by
  rw [UInt64.xor_assoc, UInt64.xor_self, UInt64.xor_zero]

theorem fnvByte_left_injective {h h' : UInt64} {b : UInt8} (heq : fnvByte h b = fnvByte h' b) :
    h = h' := by
  have hxor : h ^^^ b.toUInt64 = h' ^^^ b.toUInt64 := by
    rw [← prime_inverse (h ^^^ b.toUInt64), ← prime_inverse (h' ^^^ b.toUInt64)]
    exact congrArg (· * 0xce965057aff6957b) heq
  rw [← xor_inverse h b.toUInt64, hxor, xor_inverse]

theorem fnvByte_right_injective {h : UInt64} {b b' : UInt8} (heq : fnvByte h b = fnvByte h b') :
    b = b' := by
  have hxor : h ^^^ b.toUInt64 = h ^^^ b'.toUInt64 := by
    rw [← prime_inverse (h ^^^ b.toUInt64), ← prime_inverse (h ^^^ b'.toUInt64)]
    exact congrArg (· * 0xce965057aff6957b) heq
  have hword : b.toUInt64 = b'.toUInt64 := by
    rw [UInt64.xor_comm, UInt64.xor_comm h] at hxor
    rw [← xor_inverse b.toUInt64 h, hxor, xor_inverse]
  apply UInt8.toNat_inj.mp
  have htoNat := congrArg UInt64.toNat hword
  rwa [UInt8.toNat_toUInt64, UInt8.toNat_toUInt64] at htoNat

theorem foldl_fnvByte_injective (data : List UInt8) {h h' : UInt64}
    (heq : data.foldl fnvByte h = data.foldl fnvByte h') : h = h' := by
  induction data generalizing h h' with
  | nil => exact heq
  | cons b data ih => exact fnvByte_left_injective (ih heq)

theorem fnv1a64_ne_of_byte_ne (before after : List UInt8) {b b' : UInt8} (hne : b ≠ b') :
    Embed.fnv1a64 (before ++ b :: after) ≠ Embed.fnv1a64 (before ++ b' :: after) := by
  rw [← fnv_toNat, ← fnv_toNat]
  intro heq
  have hhash := UInt64.toNat_inj.mp heq
  rw [List.foldl_append, List.foldl_append, List.foldl_cons, List.foldl_cons] at hhash
  exact hne (fnvByte_right_injective (foldl_fnvByte_injective after hhash))

/-- A byte of the blob that changes after it was embedded leaves the trailer and the size accepted, and
`--extract-only` does not pass over it: the cache cannot be set up, or the warning is printed. -/
theorem changed_byte_reported {base blob : List UInt8} (hblob : blob ≠ [])
    (hlen : base.length + blob.length < 2 ^ 63) :
    ∃ file t, Embed.main base blob = some file ∧
      ∀ k b, (hk : k < blob.length) → b ≠ blob[k] →
        ∀ read, Pieces (file.set (base.length + k) b) read →
          ∀ cached : Trailer → Bool, extractOnly read cached (file.set (base.length + k) b) =
            if cached t then .printed t true else .noCache := by
  refine ⟨_, trailerOf base blob, main_eq_written hblob hlen, ?_⟩
  intro k b hk hne read
  have hset : (Embed.written base blob).set (base.length + k) b =
      base ++ blob.set k b ++ trailerBytes 0 (trailerOf base blob) := by
    rw [written_eq hlen, List.append_assoc, List.set_append_right _ _ (Nat.le_add_right _ _),
      Nat.add_sub_cancel_left, List.set_append_left _ _ hk, List.append_assoc]
  rw [hset]
  intro h cached
  have hsame : blob.length = (blob.set k b).length := List.length_set.symm
  obtain ⟨htrailer, hconsistent⟩ := layout_accepted h rfl rfl (congrArg UInt64.ofNat hsame)
  have hhash : fnv1a64 (fread read) (trailerOf base blob).off (trailerOf base blob).size =
      UInt64.ofNat (Embed.fnv1a64 (blob.set k b)) := by
    rw [← fnv1a64_section h rfl (hsame ▸ hlen), trailerOf, hsame]
    rfl
  have hwarns : warns read (trailerOf base blob) = true := by
    rw [warns, decide_eq_true_iff, hhash]
    intro heq
    have htoNat := congrArg UInt64.toNat heq
    have hkept : (trailerOf base blob).hash.toNat = Embed.fnv1a64 blob := (trailerOf_toNat hlen).2.2
    rw [UInt64.toNat_ofNat', Nat.mod_eq_of_lt (Embed.fnv1a64_lt _), hkept,
      List.set_eq_take_append_cons_drop, if_pos hk] at htoNat
    have hsplit : blob = blob.take k ++ blob[k] :: blob.drop (k + 1) := by
      rw [List.getElem_cons_drop, List.take_append_drop]
    conv_rhs at htoNat => rw [hsplit]
    exact fnv1a64_ne_of_byte_ne _ _ hne htoNat
  cases hcached : cached (trailerOf base blob) with
  | true => exact extractOnly_printed.mpr ⟨htrailer, hconsistent, hcached, hwarns⟩
  | false =>
      rw [extractOnly, htrailer]
      simp only [hconsistent, not_true, if_false, hcached, if_true, Bool.false_eq_true]

theorem changed_second_byte_reported :
    ∃ file t, Embed.main [1, 2] [3, 4, 5] = some file ∧
      extractOnly (byteReads (file.set 3 9)) (fun _ => true) (file.set 3 9) = .printed t true := by
  have hblob : ([3, 4, 5] : List UInt8) ≠ [] := by decide
  have hlen : ([1, 2] : List UInt8).length + ([3, 4, 5] : List UInt8).length < 2 ^ 63 := by decide
  obtain ⟨file, t, hmain, h⟩ := changed_byte_reported hblob hlen
  exact ⟨file, t, hmain, h 1 9 (by decide) (by decide) _ (pieces_byteReads _) fun _ => true⟩

end Changes

end CZet.Driver
