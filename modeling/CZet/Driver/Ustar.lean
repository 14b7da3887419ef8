/- source: src/czet.c (parse_num, extract_tar), Makefile (BLOB_TAR)
   digest: Archives in the ustar format, and that the extractor reads back the fields of their
     headers. -/

import CZet.Driver.TarPaths
import CZet.Lib.FileTree

set_option autoImplicit false
set_option relaxedAutoImplicit false

namespace CZet.Driver.Tar

open CZet.Lib.PathNames CZet.Lib.FileTree

section Numbers

/-- The last `w` digits of a number, the most significant one first. -/
def digits (b : Nat) : Nat → Nat → List Nat
  | 0, _ => []
  | w + 1, n => digits b w (n / b) ++ [n % b]

theorem length_digits (b w n : Nat) : (digits b w n).length = w := by
  induction w generalizing n with
  | zero => rfl
  | succ w ih => rw [digits, List.length_append, ih, List.length_singleton]

theorem lt_of_mem_digits {b w n d : Nat} (hb : 0 < b) (hd : d ∈ digits b w n) : d < b := by
  induction w generalizing n with
  | zero => cases hd
  | succ w ih =>
      rw [digits, List.mem_append, List.mem_singleton] at hd
      rcases hd with hd | rfl
      · exact ih hd
      · exact Nat.mod_lt n hb

private theorem toNat_shift_or (k : UInt64) (hk : k.toNat < 64) (v : UInt64) (d : Nat)
    (hd : d < 2 ^ k.toNat) :
    ((v <<< k) ||| UInt64.ofNat d).toNat = (v.toNat * 2 ^ k.toNat + d) % 2 ^ 64 := by
  have hpow : (2 : Nat) ^ 64 = 2 ^ k.toNat * 2 ^ (64 - k.toNat) := by
    rw [← Nat.pow_add]
    congr 1
    omega
  have hlow : d < 2 ^ 64 :=
    Nat.lt_of_lt_of_le hd (Nat.pow_le_pow_right (by decide) (Nat.le_of_lt hk))
  have hshift : v.toNat <<< k.toNat % 2 ^ 64 =
      2 ^ k.toNat * (v.toNat % 2 ^ (64 - k.toNat)) := by
    rw [Nat.shiftLeft_eq, Nat.mul_comm, hpow, Nat.mul_mod_mul_left]
  have hfit : 2 ^ k.toNat * (v.toNat % 2 ^ (64 - k.toNat)) + d < 2 ^ 64 := by
    have hmod := Nat.mod_lt v.toNat (Nat.two_pow_pos (64 - k.toNat))
    have hmul := Nat.mul_le_mul_left (2 ^ k.toNat) (Nat.succ_le_of_lt hmod)
    rw [← hpow, Nat.mul_succ] at hmul
    omega
  rw [UInt64.toNat_or, UInt64.toNat_shiftLeft, Nat.mod_eq_of_lt hk, hshift, UInt64.toNat_ofNat',
    Nat.mod_eq_of_lt hlow, ← Nat.two_pow_add_eq_or_of_lt hd, Nat.add_mod, Nat.mul_comm v.toNat,
    hpow, Nat.mul_mod_mul_left, ← hpow, Nat.mod_eq_of_lt hlow, Nat.mod_eq_of_lt hfit]

private theorem toNat_foldl_digits (k : UInt64) (hk : k.toNat < 64) (w n : Nat) :
    ((digits (2 ^ k.toNat) w n).foldl (fun v d => (v <<< k) ||| UInt64.ofNat d) 0).toNat =
      n % (2 ^ k.toNat) ^ w % 2 ^ 64 := by
  induction w generalizing n with
  | zero => simp [digits, Nat.mod_one]
  | succ w ih =>
      have hdigit : n % 2 ^ k.toNat < 2 ^ k.toNat := Nat.mod_lt n (Nat.two_pow_pos _)
      have hsplit : n % (2 ^ k.toNat) ^ (w + 1) =
          n / 2 ^ k.toNat % (2 ^ k.toNat) ^ w * 2 ^ k.toNat + n % 2 ^ k.toNat := by
        rw [Nat.pow_succ', Nat.mod_mul, Nat.add_comm, Nat.mul_comm]
      rw [digits, List.foldl_append, List.foldl_cons, List.foldl_nil,
        toNat_shift_or k hk _ _ hdigit, ih, hsplit]
      conv_lhs => rw [Nat.add_mod, Nat.mul_mod, Nat.mod_mod, ← Nat.mul_mod, ← Nat.add_mod]

private theorem octalLoop_digits (v : UInt64) (ds : List Nat) (hds : ∀ d ∈ ds, d < 8)
    (last : UInt8) (hlast : last = 0 ∨ last = 32) :
    octalLoop v (ds.map (fun d => UInt8.ofNat (48 + d)) ++ [last]) =
      ds.foldl (fun (v : UInt64) d => (v <<< 3) ||| UInt64.ofNat d) v := by
  induction ds generalizing v with
  | nil =>
      rcases hlast with rfl | rfl
      · rfl
      · rfl
  | cons d ds ih =>
      have hbyte : ∀ d < 8, UInt8.ofNat (48 + d) ≠ 0 ∧
          (48 ≤ UInt8.ofNat (48 + d) ∧ UInt8.ofNat (48 + d) ≤ 55) ∧
          (UInt8.ofNat (48 + d) - 48).toUInt64 = UInt64.ofNat d := by
        decide
      obtain ⟨hne, hrange, hvalue⟩ := hbyte d (hds d List.mem_cons_self)
      rw [List.map_cons, List.cons_append, octalLoop, if_neg hne, if_pos hrange, hvalue]
      exact ih _ fun d' hd' => hds d' (List.mem_cons_of_mem d hd')

/-- A size as the format writes it: octal with a terminator, or in base 256 behind a set bit. -/
inductive SizeField (n : Nat) : List UInt8 → Prop
  | octal (last : UInt8) : n < 8 ^ 11 → (last = 0 ∨ last = 32) →
      SizeField n ((digits 8 11 n).map (fun d => UInt8.ofNat (48 + d)) ++ [last])
  | binary : SizeField n (0x80 :: (digits 256 11 n).map UInt8.ofNat)

theorem SizeField.length {n : Nat} {field : List UInt8} (h : SizeField n field) :
    field.length = 12 := by
  cases h with
  | octal last hn hlast => rw [List.length_append, List.length_map, length_digits]; rfl
  | binary => rw [List.length_cons, List.length_map, length_digits]

theorem parseNum_sizeField {n : Nat} {field : List UInt8} (hn : n < 2 ^ 64)
    (h : SizeField n field) : (parseNum field).toNat = n := by
  cases h with
  | octal last hsmall hlast =>
      have hdigits : ∀ d ∈ digits 8 11 n, d < 8 := fun d hd => lt_of_mem_digits (by decide) hd
      have hloop := octalLoop_digits 0 (digits 8 11 n) hdigits last hlast
      have hvalue := toNat_foldl_digits 3 (by decide) 11 n
      cases hfirst : digits 8 11 n with
      | nil =>
          have hlen := length_digits 8 11 n
          rw [hfirst] at hlen
          cases hlen
      | cons d ds =>
          have hplain : ∀ d < 8, UInt8.ofNat (48 + d) &&& 0x80 = 0 := by decide
          have hd : d < 8 := hdigits d (hfirst ▸ List.mem_cons_self)
          rw [hfirst, List.map_cons, List.cons_append] at hloop
          rw [List.map_cons, List.cons_append, parseNum, if_neg (not_not_intro (hplain d hd)), hloop,
            ← hfirst]
          have hfit : n < (2 ^ (3 : UInt64).toNat) ^ 11 := hsmall
          rw [Nat.mod_eq_of_lt hfit, Nat.mod_eq_of_lt hn] at hvalue
          exact hvalue
  | binary =>
      have hvalue := toNat_foldl_digits 8 (by decide) 11 n
      have hbytes : ∀ d ∈ digits 256 11 n, (UInt8.ofNat d).toUInt64 = UInt64.ofNat d := by
        intro d hd
        have hlt : d < 256 := lt_of_mem_digits (by decide) hd
        apply UInt64.toNat_inj.mp
        rw [UInt8.toNat_toUInt64, UInt8.toNat_ofNat', UInt64.toNat_ofNat', Nat.mod_eq_of_lt hlt,
          Nat.mod_eq_of_lt (by omega)]
      rw [parseNum, if_pos (by decide), List.foldl_map]
      have hzero : ((0x80 : UInt8) &&& 0x7f).toUInt64 = 0 := rfl
      rw [hzero, List.foldl_ext _ (fun (v : UInt64) d => (v <<< 8) ||| UInt64.ofNat d) 0
        fun v d hd => by rw [hbytes d hd]]
      have hfit : n < (2 ^ (8 : UInt64).toNat) ^ 11 :=
        Nat.lt_trans hn (by decide : 2 ^ 64 < 256 ^ 11)
      rw [Nat.mod_eq_of_lt hfit, Nat.mod_eq_of_lt hn] at hvalue
      exact hvalue

end Numbers

section Fields

/-- A field of `n` bytes, filled up with NULs. -/
def padTo (n : Nat) (s : CStr) : List UInt8 := s ++ List.replicate (n - s.length) 0

theorem length_padTo {n : Nat} {s : CStr} (h : s.length ≤ n) : (padTo n s).length = n := by
  rw [padTo, List.length_append, List.length_replicate]
  omega

theorem ndup_padTo {n : Nat} {s : CStr} (h : s.length ≤ n) (hs : 0 ∉ s) (rest : List UInt8) :
    ndup (padTo n s ++ rest) n = s := by
  have hkeep : ∀ c ∈ s, decide (c ≠ 0) = true := fun c hc => decide_eq_true fun heq => hs (heq ▸ hc)
  rw [ndup, List.take_left' (length_padTo h), padTo, List.takeWhile_append_of_pos hkeep]
  cases hrest : n - s.length with
  | zero => exact List.append_nil s
  | succ k => simp [List.replicate_succ]

/-- The fields of a header; those from `ids` on are not interpreted. -/
structure HeaderFields where
  name : CStr
  size : List UInt8
  flag : UInt8
  link : CStr
  namePrefix : CStr
  ids : List UInt8
  times : List UInt8
  owner : List UInt8
  rest : List UInt8

namespace HeaderFields

def bytes (f : HeaderFields) : List UInt8 :=
  padTo 100 f.name ++ (f.ids ++ (f.size ++ (f.times ++ (f.flag :: (padTo 100 f.link ++
    (f.owner ++ (padTo 155 f.namePrefix ++ f.rest)))))))

/-- Prefix and name joined. -/
def joined (f : HeaderFields) : CStr :=
  if f.namePrefix ≠ [] then f.namePrefix ++ slash :: f.name else f.name

/-- The strings fit into their fields, and the other fields have their lengths. -/
structure Fit (f : HeaderFields) : Prop where
  name : f.name.length ≤ 100 ∧ 0 ∉ f.name
  size : f.size.length = 12
  link : f.link.length ≤ 100 ∧ 0 ∉ f.link
  namePrefix : f.namePrefix.length ≤ 155 ∧ 0 ∉ f.namePrefix
  ids : f.ids.length = 24
  times : f.times.length = 20
  owner : f.owner.length = 88
  rest : f.rest.length = 12

variable {f : HeaderFields} (h : f.Fit)
include h

theorem Fit.length_bytes : f.bytes.length = hdrLen := by
  simp only [bytes, List.length_append, List.length_cons, length_padTo h.name.1, h.size,
    length_padTo h.link.1, length_padTo h.namePrefix.1, h.ids, h.times, h.owner, h.rest]
  rfl

private theorem Fit.drop_size : f.bytes.drop 124 = f.size ++ (f.times ++ (f.flag ::
    (padTo 100 f.link ++ (f.owner ++ (padTo 155 f.namePrefix ++ f.rest))))) := by
  have hdrop := List.drop_drop (i := 24) (j := 100) (l := f.bytes)
  rw [bytes, List.drop_left' (length_padTo h.name.1), List.drop_left' h.ids] at hdrop
  exact hdrop.symm

private theorem Fit.drop_flag : f.bytes.drop 156 =
    f.flag :: (padTo 100 f.link ++ (f.owner ++ (padTo 155 f.namePrefix ++ f.rest))) := by
  have hdrop := List.drop_drop (i := 32) (j := 124) (l := f.bytes)
  have hlen : (f.size ++ f.times).length = 32 := by rw [List.length_append, h.size, h.times]
  rw [h.drop_size, ← List.append_assoc, List.drop_left' hlen] at hdrop
  exact hdrop.symm

theorem Fit.typeflag_bytes : typeflag f.bytes = f.flag := by
  rw [typeflag, List.getD_eq_getElem?_getD, ← Nat.add_zero 156, ← List.getElem?_drop, h.drop_flag]
  rfl

theorem Fit.entrySize_bytes : entrySize f.bytes = parseNum f.size := by
  rw [entrySize, h.drop_size, List.take_left' h.size]

theorem Fit.linkName_bytes : linkName f.bytes = f.link := by
  have hdrop := List.drop_drop (i := 1) (j := 156) (l := f.bytes)
  rw [h.drop_flag, List.drop_succ_cons, List.drop_zero] at hdrop
  rw [linkName, ← hdrop]
  exact ndup_padTo h.link.1 h.link.2 _

theorem Fit.relName_bytes : relName f.bytes = f.joined := by
  have hdrop := List.drop_drop (i := 189) (j := 156) (l := f.bytes)
  have hlen : (f.flag :: (padTo 100 f.link ++ f.owner)).length = 189 := by
    rw [List.length_cons, List.length_append, length_padTo h.link.1, h.owner]
  have hsplit : f.flag :: (padTo 100 f.link ++ (f.owner ++ (padTo 155 f.namePrefix ++ f.rest))) =
      (f.flag :: (padTo 100 f.link ++ f.owner)) ++ (padTo 155 f.namePrefix ++ f.rest) := by
    rw [List.cons_append, List.append_assoc]
  rw [h.drop_flag, hsplit, List.drop_left' hlen] at hdrop
  have hname : ndup f.bytes 100 = f.name := ndup_padTo h.name.1 h.name.2 _
  have hinit : ndup (f.bytes.drop 345) 155 = f.namePrefix := by
    rw [← hdrop]
    exact ndup_padTo h.namePrefix.1 h.namePrefix.2 _
  rw [relName, hname, hinit, joined]

theorem Fit.not_zero (hname : f.joined ≠ []) : ¬ allzero f.bytes := by
  intro hall
  have hzero : ∀ b ∈ f.bytes, b = 0 := by simpa [allzero] using hall
  have hempty : ∀ s : CStr, 0 ∉ s → (∀ b ∈ s, b ∈ f.bytes) → s = [] := by
    intro s hs hsub
    refine List.eq_nil_iff_forall_not_mem.mpr fun b hb => hs ?_
    rw [← hzero b (hsub b hb)]
    exact hb
  have hnil := hempty f.name h.name.2 fun b hb => by simp [bytes, padTo, hb]
  have hinit := hempty f.namePrefix h.namePrefix.2 fun b hb => by simp [bytes, padTo, hb]
  exact hname (by rw [joined, hinit, hnil]; rfl)

end HeaderFields

end Fields

section Archives

inductive Content
  | directory
  | symlink (target : CStr)
  | regular (data : List UInt8)

def Content.node : Content → Node UInt8
  | directory => .dir
  | symlink target => .link target
  | regular data => .file data

/-- What follows the header. -/
def Content.payload : Content → List UInt8
  | regular data => data
  | _ => []

structure ArchiveEntry where
  path : List CStr
  content : Content

def ArchiveEntry.name (e : ArchiveEntry) : CStr := [slash].intercalate e.path

/-- A part of a name: not empty, and neither "." nor "..". -/
structure IsName (c : CStr) : Prop where
  isPart : IsPart slash c
  noNul : 0 ∉ c
  notDots : c ≠ pathDots.here ∧ c ≠ pathDots.up

/-- What is archived: a list in which the directories above an entry come before it.  Names are
distinct, links have a target and files a length of 64 bits. -/
structure Archive where
  entries : List ArchiveEntry
  named : ∀ e ∈ entries, e.path ≠ [] ∧ ∀ c ∈ e.path, IsName c
  distinct : (entries.map ArchiveEntry.path).Nodup
  parents : ∀ earlier e later, entries = earlier ++ e :: later →
    ∀ p, p <+: e.path → p ≠ [] → p ≠ e.path → ⟨p, .directory⟩ ∈ earlier
  targets : ∀ e ∈ entries, e.content ≠ .symlink []
  sizes : ∀ e ∈ entries, e.content.payload.length < 2 ^ 64

/-- The fields are those of the entry's header.  The name of a directory may end in a slash. -/
structure HeaderFields.HeaderOf (f : HeaderFields) (e : ArchiveEntry) : Prop extends f.Fit where
  joined_eq : f.joined = e.name ∨ e.content = .directory ∧ f.joined = e.name ++ [slash]
  kind : match e.content with
    | .directory => f.flag = 53
    | .symlink target => f.flag = 50 ∧ f.link = target
    | .regular data => (f.flag = 48 ∨ f.flag = 0) ∧ SizeField data.length f.size

/-- The encoding of a list of entries: headers, contents padded to blocks, and two blocks of
NULs. -/
inductive Encodes : List ArchiveEntry → List UInt8 → Prop
  | stop : Encodes [] (List.replicate 1024 0)
  | entry {e : ArchiveEntry} {es : List ArchiveEntry} {bytes : List UInt8} (f : HeaderFields) :
      f.HeaderOf e → Encodes es bytes →
      Encodes (e :: es) (f.bytes ++ (e.content.payload ++
        (List.replicate (padding e.content.payload.length) 0 ++ bytes)))

/-- The directory holds exactly the entries. -/
def Extracted (es : List ArchiveEntry) (t : Tree CStr UInt8) : Prop :=
  ∀ q n, t.lookup q = some n ↔ q = [] ∧ n = .dir ∨ ∃ e ∈ es, e.path = q ∧ e.content.node = n

end Archives

section Names

variable {e : ArchiveEntry} {rel : CStr}

private theorem splitOn_name (hne : e.path ≠ []) (hnames : ∀ c ∈ e.path, IsName c) :
    e.name.splitOn slash = e.path :=
  List.splitOn_intercalate slash (fun c hc => (hnames c hc).isPart.2) hne

theorem header_name (hne : e.path ≠ []) (hnames : ∀ c ∈ e.path, IsName c)
    (hrel : rel = e.name ∨ rel = e.name ++ [slash]) :
    parts slash rel = e.path ∧ safeName rel = true := by
  have hsplit := splitOn_name hne hnames
  have hjoin : parts slash e.name = e.path := parts_join fun c hc => (hnames c hc).isPart
  have hhead : e.name.head? ≠ some slash := by
    intro hhead
    obtain ⟨rest, hrest⟩ : ∃ rest, e.name = slash :: rest := ⟨_, List.eq_cons_of_mem_head? hhead⟩
    have hempty : [] ∈ e.path := by
      rw [← hsplit, hrest, List.splitOn_cons_eq_if_modifyHead, if_pos (beq_self_eq_true slash)]
      exact List.mem_cons_self
    exact (hnames [] hempty).isPart.1 rfl
  have hup : pathDots.up ∉ e.path := fun hmem => (hnames _ hmem).notDots.2 rfl
  rcases hrel with rfl | rfl
  · exact ⟨hjoin, safeName_of_not_mem hhead (hsplit ▸ hup)⟩
  · refine ⟨?_, safeName_of_not_mem ?_ ?_⟩
    · rw [parts_append_sep, parts_nil, hjoin, List.append_nil]
    · intro hhead'
      rw [List.head?_append] at hhead'
      cases hname : e.name with
      | nil =>
          rw [hname] at hsplit
          have hempty : [] ∈ e.path := hsplit ▸ List.mem_singleton_self []
          exact (hnames [] hempty).isPart.1 rfl
      | cons c rest =>
          rw [hname] at hhead hhead'
          exact hhead hhead'
    · rw [List.splitOn_append_cons_self, hsplit, List.splitOn_nil, List.mem_append]
      rintro (hmem | hmem)
      · exact hup hmem
      · exact absurd (List.mem_singleton.mp hmem) (by decide)

theorem cut_above (hne : e.path ≠ []) (hnames : ∀ c ∈ e.path, IsName c) {r b : CStr}
    (hname : e.name = r ++ slash :: b) : parts slash r <+: e.path ∧ parts slash r ≠ e.path := by
  have hsplit := splitOn_name hne hnames
  rw [hname, List.splitOn_append_cons_self] at hsplit
  have hparts : parts slash r = r.splitOn slash := by
    refine List.filter_eq_self.mpr fun c hc => decide_eq_true ?_
    exact (hnames c (hsplit ▸ List.mem_append_left _ hc)).isPart.1
  rw [hparts]
  refine ⟨hsplit ▸ List.prefix_append _ _, fun heq => ?_⟩
  rw [heq] at hsplit
  exact List.splitOn_ne_nil slash b
    (List.append_cancel_left (hsplit.trans (List.append_nil e.path).symm))

end Names

end CZet.Driver.Tar
