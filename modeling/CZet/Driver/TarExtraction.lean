/- source: src/czet.c (extract_tar, copy_data, skip_pad_only, mkdirs, write_all)
   digest: Extracting a ustar archive into an empty directory leaves exactly its entries, and headers
     are read at multiples of a block only. -/

import CZet.Driver.Ustar
import Mathlib.Order.Filter.AtTopBot.Basic

set_option autoImplicit false
set_option relaxedAutoImplicit false

namespace CZet.Driver.Tar

open CZet.Lib.FileReads CZet.Lib.FileTree CZet.Lib.PathNames

section Disks

/-- What a path leads to: a directory on the way to the base, a path below the base, or
something else. -/
inductive Place
  | above
  | below (p : List CStr)
  | elsewhere

def locate (base path : CStr) : Place :=
  if base ++ [slash] <+: path then .below (parts slash (path.drop (base.length + 1)))
  else if path = base ∨ path ++ [slash] <+: base then .above
  else .elsewhere

/-- The base directory and the file that is open for writing. -/
structure Disk where
  tree : Tree CStr UInt8
  opened : Option (List CStr)

def emptyDisk : Disk := ⟨emptyDir, none⟩

/-- The answer to a call that either works or fails. -/
def Disk.perform (d : Disk) (c : Call CStr UInt8) (opened : Option (List CStr)) (n : Nat) :
    Answer × Disk :=
  match c.apply d.tree with
  | some t => (.ok n, ⟨t, opened⟩)
  | none => (.err .other, d)

/-- How the calls work below the base directory, and on the directories above it.  A `write` takes
as many bytes as `accept` says. -/
def diskSystem (base : CStr) (accept : Disk → List UInt8 → Nat) : System Disk
  | .mkdir path, d =>
      match locate base path with
      | .above => (.err .eexist, d)
      | .below p =>
          if (d.tree.lookup p).isSome then (.err .eexist, d) else d.perform (.mkdir p) d.opened 0
      | .elsewhere => (.err .other, d)
  | .unlink path, d =>
      match locate base path with
      | .below p =>
          if (d.tree.lookup p).isNone then (.err .enoent, d) else d.perform (.unlink p) d.opened 0
      | _ => (.err .other, d)
  | .symlink target path, d =>
      match locate base path with
      | .below p =>
          if target = [] then (.err .enoent, d) else d.perform (.symlink p target) d.opened 0
      | _ => (.err .other, d)
  | .openTrunc path, d =>
      match locate base path with
      | .below p => d.perform (.create p) (some p) 3
      | _ => (.err .other, d)
  | .write _ data, d =>
      match d.opened with
      | some p => d.perform (.write p (data.take (accept d data))) d.opened (accept d data)
      | none => (.err .other, d)
  | .close _, d => (.ok 0, { d with opened := none })

/-- Every `write` takes a byte at least, and no more than there are. -/
def Accepts (accept : Disk → List UInt8 → Nat) : Prop :=
  ∀ d data, data ≠ [] → 0 < accept d data ∧ accept d data ≤ data.length

end Disks

section Coming

variable {σ α β : Type}

/-- The computation ends at a position and in a state of the system, whatever has happened
before. -/
def Comes (m : StateM (Proc σ) α) (pos : Nat) (st : σ) (a : α) (pos' : Nat) (st' : σ) : Prop :=
  ∀ trace, ∃ trace', m ⟨pos, st, trace⟩ = (a, ⟨pos', st', trace'⟩)

theorem comes_pure (a : α) (pos : Nat) (st : σ) : Comes (pure a) pos st a pos st :=
  fun trace => ⟨trace, rfl⟩

theorem Comes.bind {m : StateM (Proc σ) α} {k : α → StateM (Proc σ) β} {pos pos' pos'' : Nat}
    {st st' st'' : σ} {a : α} {b : β} (hm : Comes m pos st a pos' st')
    (hk : Comes (k a) pos' st' b pos'' st'') : Comes (m >>= k) pos st b pos'' st'' := by
  intro trace
  obtain ⟨trace', hfirst⟩ := hm trace
  obtain ⟨trace'', hsecond⟩ := hk trace'
  refine ⟨trace'', ?_⟩
  rw [bind_run, hfirst]
  exact hsecond

theorem Comes.map {m : StateM (Proc σ) α} {pos pos' : Nat} {st st' : σ} {a : α}
    (hm : Comes m pos st a pos' st') (f : α → β) : Comes (f <$> m) pos st (f a) pos' st' := by
  intro trace
  obtain ⟨trace', hrun⟩ := hm trace
  refine ⟨trace', ?_⟩
  show (f (m ⟨pos, st, trace⟩).1, (m ⟨pos, st, trace⟩).2) = _
  rw [hrun]

theorem comes_ask (sys : System σ) (c : SysCall) (pos : Nat) (st : σ) :
    Comes (ask sys c) pos st (sys c st).1 pos (sys c st).2 :=
  fun trace => ⟨trace ++ [.call c (sys c st).1], rfl⟩

variable {file : List UInt8} {read : Reads} {text rest : List UInt8} {pos : Nat}

theorem comes_getBytes (hread : Pieces file read) (hfile : file.drop pos = text ++ rest) (st : σ) :
    Comes (getBytes read text.length) pos st text (pos + text.length) st := by
  intro trace
  have hgot : fread read pos text.length = text := by
    rw [fread_eq hread, hfile, List.take_left]
  exact ⟨trace, by rw [getBytes, hgot]⟩

theorem drop_text (hfile : file.drop pos = text ++ rest) : file.drop (pos + text.length) = rest := by
  rw [← List.drop_drop, hfile, List.drop_left]

private theorem first_piece (limit : Nat) (hlimit : 0 < limit) (hfile : file.drop pos = text ++ rest)
    (hne : text.length ≠ 0) :
    ∃ n, (if text.length > limit then limit else text.length) = n ∧ (text.take n).length = n ∧
      text.take n ≠ [] ∧ (text.drop n).length = text.length - n ∧ n ≤ text.length ∧ 0 < n ∧
        file.drop pos = text.take n ++ (text.drop n ++ rest) := by
  have hsplit : ∀ n, file.drop pos = text.take n ++ (text.drop n ++ rest) := by
    intro n
    rw [hfile, ← List.append_assoc, List.take_append_drop]
  have hfacts : ∀ n, 0 < n → n ≤ text.length → (text.take n).length = n ∧ text.take n ≠ [] := by
    intro n hpos hle
    have hlen : (text.take n).length = n := List.length_take_of_le hle
    refine ⟨hlen, fun hnil => ?_⟩
    rw [hnil, List.length_nil] at hlen
    omega
  by_cases hlong : text.length > limit
  · obtain ⟨hlen, hnonempty⟩ := hfacts limit hlimit (Nat.le_of_lt hlong)
    exact ⟨limit, if_pos hlong, hlen, hnonempty, List.length_drop, Nat.le_of_lt hlong, hlimit,
      hsplit limit⟩
  · obtain ⟨hlen, hnonempty⟩ := hfacts text.length (Nat.pos_of_ne_zero hne) (Nat.le_refl _)
    exact ⟨text.length, if_neg hlong, hlen, hnonempty, List.length_drop, Nat.le_refl _,
      Nat.pos_of_ne_zero hne, hsplit text.length⟩

theorem comes_skipLoop (hread : Pieces file read) (fuel : Nat) (text : List UInt8) (pos : Nat)
    (hfile : file.drop pos = text ++ rest) (hfuel : text.length < fuel) (st : σ) :
    Comes (skipLoop read fuel text.length) pos st (some true) (pos + text.length) st := by
  induction fuel generalizing text pos with
  | zero => omega
  | succ fuel ih =>
      rw [skipLoop]
      by_cases hempty : text.length = 0
      · rw [if_pos hempty, hempty, Nat.add_zero]
        exact comes_pure _ pos st
      · rw [if_neg hempty]
        obtain ⟨n, hwant, hlen, hne, hleft, hle, hpos, hpiece⟩ :=
          first_piece hdrLen (by decide) hfile hempty
        have hget := comes_getBytes hread hpiece st
        have hrest := ih (text.drop n) (pos + (text.take n).length) (drop_text hpiece) (by omega)
        rw [hlen] at hget hrest
        have hend : pos + n + (text.drop n).length = pos + text.length := by omega
        rw [hend, hleft] at hrest
        rw [hwant]
        refine hget.bind ?_
        rw [if_neg hne, hlen]
        exact hrest

end Coming

section Calls

variable {base : CStr} {accept : Disk → List UInt8 → Nat} {pos : Nat} {d : Disk} {path : List CStr}

theorem locate_below (base rel : CStr) :
    locate base (base ++ slash :: rel) = .below (parts slash rel) := by
  have hinit : base ++ [slash] <+: base ++ slash :: rel :=
    (List.prefix_append_right_inj base).mpr (List.prefix_append [slash] rel)
  have hdrop : (base ++ slash :: rel).drop (base.length + 1) = rel := by
    rw [← List.drop_drop, List.drop_left]
    rfl
  rw [locate, if_pos hinit, hdrop]

theorem locate_above {p : CStr} (h : p = base ∨ p ++ [slash] <+: base) : locate base p = .above := by
  have hnot : ¬ base ++ [slash] <+: p := by
    intro hinit
    have hlen := hinit.length_le
    rw [List.length_append, List.length_singleton] at hlen
    rcases h with rfl | habove
    · omega
    · have hlen' := habove.length_le
      rw [List.length_append, List.length_singleton] at hlen'
      omega
  rw [locate, if_neg hnot, if_pos h]

/-- A directory that is there is not made again. -/
def IsThere (base : CStr) (d : Disk) (p : CStr) : Prop :=
  locate base p = .above ∨
    ∃ path, locate base p = .below path ∧ (d.tree.lookup path).isSome = true

theorem comes_makeDir_there {p : CStr} (h : IsThere base d p) :
    Comes (makeDir (diskSystem base accept) p) pos d true pos d := by
  have hanswer : diskSystem base accept (.mkdir p) d = (.err .eexist, d) := by
    rcases h with habove | ⟨path, hbelow, hsome⟩
    · simp only [diskSystem, habove]
    · simp only [diskSystem, hbelow, hsome, if_true]
  have hask := comes_ask (diskSystem base accept) (.mkdir p) pos d
  rw [hanswer] at hask
  exact hask.bind (comes_pure _ pos d)

private theorem comes_mkdirsLoop (done rest : CStr)
    (h : ∀ p, p = done ++ rest ∨ p ++ [slash] <+: done ++ rest → IsThere base d p) :
    Comes (mkdirsLoop (diskSystem base accept) done rest) pos d true pos d := by
  induction rest generalizing done with
  | nil =>
      rw [mkdirsLoop]
      exact comes_makeDir_there (h done (Or.inl (List.append_nil done).symm))
  | cons c rest ih =>
      have hassoc : done ++ [c] ++ rest = done ++ c :: rest := by
        rw [List.append_assoc, List.singleton_append]
      have hnext := ih (done ++ [c]) (by rwa [hassoc])
      rw [mkdirsLoop]
      split
      next hslash =>
        have hinit : done ++ [slash] <+: done ++ c :: rest := by
          rw [← hassoc, hslash]
          exact List.prefix_append _ rest
        exact (comes_makeDir_there (h done (Or.inr hinit))).bind hnext
      next => exact hnext

theorem comes_mkdirs (hbase : IsBase base) (rel : CStr)
    (hshort : (base ++ slash :: rel).length < pathMax)
    (h : ∀ r b, rel = r ++ slash :: b → (d.tree.lookup (parts slash r)).isSome = true) :
    Comes (mkdirs (diskSystem base accept) (parentOf (base ++ slash :: rel))) pos d true pos d := by
  obtain ⟨c, rest, heq, hcuts⟩ := mkdirs_cuts hbase rel
  obtain ⟨hinit, hparent⟩ := parentOf_base hbase.1 rel
  have hlong : ¬ ((parentOf (base ++ slash :: rel)).length = 0 ∨
      (parentOf (base ++ slash :: rel)).length ≥ pathMax) := by
    have hpos : 0 < base.length := List.length_pos_of_ne_nil hbase.1
    have hle := hinit.length_le
    have hle' := hparent.length_le
    rw [List.length_append, List.length_singleton] at hle'
    omega
  rw [mkdirs, if_neg hlong, heq]
  refine comes_mkdirsLoop [c] rest fun p hpath => ?_
  rcases prefix_cases (hcuts p hpath) with habove | hsame | ⟨r, b, hrel, hp⟩
  · exact Or.inl (locate_above (Or.inr habove))
  · exact Or.inl (locate_above (Or.inl hsame))
  · exact Or.inr ⟨parts slash r, by rw [hp, locate_below], h r b hrel⟩

end Calls

section Contents

variable (base : CStr) {accept : Disk → List UInt8 → Nat} {d : Disk} {path : List CStr}
  {file : List UInt8} {read : Reads} {rest : List UInt8} {t : Tree CStr UInt8}

/-- A file is open with what has been written to it; besides the tree is `t`. -/
structure Writing (d : Disk) (path : List CStr) (data : List UInt8) (t : Tree CStr UInt8) : Prop where
  opened : d.opened = some path
  here : d.tree.lookup path = some (.file data)
  besides : ∀ q, q ≠ path → d.tree.lookup q = t.lookup q

theorem comes_writeAll (haccept : Accepts accept) (fuel : Nat) (data old : List UInt8)
    (hfuel : data.length ≤ fuel) (pos : Nat) (hd : Writing d path old t) :
    ∃ d', Comes (writeAll (diskSystem base accept) 3 fuel data) pos d (some true) pos d' ∧
      Writing d' path (old ++ data) t := by
  induction fuel generalizing data old d with
  | zero =>
      obtain rfl := List.length_eq_zero_iff.mp (Nat.le_zero.mp hfuel)
      exact ⟨d, comes_pure _ pos d, by rwa [List.append_nil]⟩
  | succ fuel ih =>
      rw [writeAll]
      by_cases hdata : data = []
      · rw [if_pos hdata, hdata, List.append_nil]
        exact ⟨d, comes_pure _ pos d, hd⟩
      · rw [if_neg hdata]
        obtain ⟨hsome, hle⟩ := haccept d data hdata
        generalize hk : accept d data = k at hsome hle
        have hanswer : diskSystem base accept (.write 3 data) d =
            (.ok k, ⟨d.tree.insert path (.file (old ++ data.take k)), some path⟩) := by
          simp only [diskSystem, hd.opened, Disk.perform, Call.apply, hd.here, hk]
        have hnext : Writing ⟨d.tree.insert path (.file (old ++ data.take k)), some path⟩ path
            (old ++ data.take k) t := by
          refine ⟨rfl, Finmap.lookup_insert _, fun q hq => ?_⟩
          exact (Finmap.lookup_insert_of_ne _ hq).trans (hd.besides q hq)
        have hlen : (data.drop k).length ≤ fuel := by
          rw [List.length_drop]
          omega
        obtain ⟨d', hrun, hd'⟩ := ih (data.drop k) (old ++ data.take k) hlen hnext
        rw [List.append_assoc, List.take_append_drop] at hd'
        have hask := comes_ask (diskSystem base accept) (.write 3 data) pos d
        rw [hanswer] at hask
        exact ⟨d', hask.bind hrun, hd'⟩

theorem comes_copyData (hread : Pieces file read) (haccept : Accepts accept) (fuel : Nat)
    (text old : List UInt8) (pos : Nat) (hfile : file.drop pos = text ++ rest)
    (hfuel : text.length < fuel) (hd : Writing d path old t) :
    ∃ d', Comes (copyData (diskSystem base accept) read 3 fuel text.length) pos d (some true)
        (pos + text.length) d' ∧ Writing d' path (old ++ text) t := by
  induction fuel generalizing text old pos d with
  | zero => omega
  | succ fuel ih =>
      rw [copyData]
      by_cases hempty : text.length = 0
      · rw [if_pos hempty, List.length_eq_zero_iff.mp hempty, List.append_nil]
        exact ⟨d, comes_pure _ pos d, hd⟩
      · rw [if_neg hempty]
        obtain ⟨n, hwant, hlen, hne, hleft, hle, hpos, hpiece⟩ :=
          first_piece chunk (by decide) hfile hempty
        have hget := comes_getBytes hread hpiece d
        obtain ⟨d₁, hwrite, hd₁⟩ :=
          comes_writeAll base haccept fuel (text.take n) old (by omega) (pos + n) hd
        obtain ⟨d', hrun, hd'⟩ := ih (text.drop n) (old ++ text.take n)
          (pos + (text.take n).length) (drop_text hpiece) (by omega) hd₁
        rw [List.append_assoc, List.take_append_drop] at hd'
        rw [hlen] at hget hrun
        have hend : pos + n + (text.drop n).length = pos + text.length := by omega
        rw [hend, hleft] at hrun
        refine ⟨d', ?_, hd'⟩
        rw [hwant]
        refine hget.bind ?_
        rw [if_neg hne]
        refine hwrite.bind ?_
        dsimp only
        rw [hlen]
        exact hrun

/-- A new node can be made at the path. -/
structure Free (t : Tree CStr UInt8) (path : List CStr) : Prop where
  absent : t.lookup path = none
  parent : isDir t path.dropLast = true

private theorem Free.addNode_eq (h : Free t path) (n : Node UInt8) :
    addNode t path n = some (t.insert path n) := if_pos h.parent

/-- What is done for an entry leaves its node, and nothing else changes. -/
def Adds (d d' : Disk) (path : List CStr) (n : Node UInt8) : Prop :=
  d'.tree.lookup path = some n ∧ ∀ q, q ≠ path → d'.tree.lookup q = d.tree.lookup q

private theorem adds_insert (d : Disk) (path : List CStr) (n : Node UInt8)
    (opened : Option (List CStr)) : Adds d ⟨d.tree.insert path n, opened⟩ path n :=
  ⟨Finmap.lookup_insert _, fun _ hq => Finmap.lookup_insert_of_ne _ hq⟩

variable {rel : CStr} (hfree : Free d.tree path) (hpath : parts slash rel = path)
include hfree hpath

variable (accept) in
theorem comes_makeDir (pos : Nat) :
    ∃ d', Comes (makeDir (diskSystem base accept) (base ++ slash :: rel)) pos d true pos d' ∧
      Adds d d' path .dir := by
  have hanswer : diskSystem base accept (.mkdir (base ++ slash :: rel)) d =
      (.ok 0, ⟨d.tree.insert path .dir, d.opened⟩) := by
    simp only [diskSystem, locate_below, hpath, hfree.absent, Option.isSome_none, Bool.false_eq_true,
      if_false, Disk.perform, Call.apply, hfree.addNode_eq]
  have hask := comes_ask (diskSystem base accept) (.mkdir (base ++ slash :: rel)) pos d
  rw [hanswer] at hask
  exact ⟨_, hask.bind (comes_pure _ pos _), adds_insert d path .dir d.opened⟩

variable (accept) in
theorem comes_extractLink {hdr : List UInt8} (htarget : linkName hdr ≠ []) (pos : Nat) :
    ∃ d', Comes (extractLink (diskSystem base accept) hdr (base ++ slash :: rel)) pos d true pos d' ∧
      Adds d d' path (.link (linkName hdr)) := by
  have hunlink : diskSystem base accept (.unlink (base ++ slash :: rel)) d = (.err .enoent, d) := by
    simp only [diskSystem, locate_below, hpath, hfree.absent, Option.isNone_none, if_true]
  have hsymlink : diskSystem base accept (.symlink (linkName hdr) (base ++ slash :: rel)) d =
      (.ok 0, ⟨d.tree.insert path (.link (linkName hdr)), d.opened⟩) := by
    simp only [diskSystem, locate_below, hpath, htarget, if_false, Disk.perform, Call.apply,
      hfree.absent, hfree.addNode_eq]
  have hfirst := comes_ask (diskSystem base accept) (.unlink (base ++ slash :: rel)) pos d
  have hsecond := comes_ask (diskSystem base accept)
    (.symlink (linkName hdr) (base ++ slash :: rel)) pos d
  rw [hunlink] at hfirst
  rw [hsymlink] at hsecond
  exact ⟨_, hfirst.bind (hsecond.bind (comes_pure _ pos _)), adds_insert d path _ d.opened⟩

theorem comes_extractFile (hread : Pieces file read) (haccept : Accepts accept) (hbase : IsBase base)
    (hshort : (base ++ slash :: rel).length < pathMax)
    (habove : ∀ r b, rel = r ++ slash :: b → (d.tree.lookup (parts slash r)).isSome = true)
    (fuel : Nat) (data : List UInt8) (pos : Nat)
    (hfile : file.drop pos = data ++ (List.replicate (padding data.length) 0 ++ rest))
    (hfuel : data.length + 512 < fuel) :
    ∃ d', Comes (extractFile (diskSystem base accept) read fuel data.length (base ++ slash :: rel))
        pos d (some true) (pos + data.length + padding data.length) d' ∧
      Adds d d' path (.file data) := by
  have hopen : diskSystem base accept (.openTrunc (base ++ slash :: rel)) d =
      (.ok 3, ⟨d.tree.insert path (.file []), some path⟩) := by
    simp only [diskSystem, locate_below, hpath, Disk.perform, Call.apply, hfree.absent,
      hfree.addNode_eq]
  have hwriting : Writing ⟨d.tree.insert path (.file []), some path⟩ path [] d.tree :=
    ⟨rfl, Finmap.lookup_insert _, fun _ hq => Finmap.lookup_insert_of_ne _ hq⟩
  obtain ⟨d₁, hcopy, hd₁⟩ :=
    comes_copyData base hread haccept fuel data [] pos hfile (by omega) hwriting
  have hpadding : padding data.length < 512 := Nat.mod_lt _ (by decide)
  have hskip := comes_skipLoop hread fuel (List.replicate (padding data.length) 0)
    (pos + data.length) (drop_text hfile) (by rw [List.length_replicate]; omega)
    ({ d₁ with opened := none } : Disk)
  rw [List.length_replicate] at hskip
  have hask := comes_ask (diskSystem base accept) (.openTrunc (base ++ slash :: rel)) pos d
  rw [hopen] at hask
  have hclose := comes_ask (diskSystem base accept) (.close 3) (pos + data.length) d₁
  refine ⟨{ d₁ with opened := none }, ?_, hd₁.here, hd₁.besides⟩
  exact (comes_mkdirs hbase rel hshort habove).bind
    (hask.bind (hcopy.bind (hclose.bind (hskip.bind (comes_pure _ _ _)))))

end Contents

section Extraction

variable {base : CStr} {accept : Disk → List UInt8 → Nat} {d : Disk} {file : List UInt8}
  {read : Reads} {rest : List UInt8} {e : ArchiveEntry} {f : HeaderFields} {t : Tree CStr UInt8}

private theorem Fit.length_joined (h : f.Fit) : f.joined.length ≤ 256 := by
  have hname := h.name.1
  have hinit := h.namePrefix.1
  rw [HeaderFields.joined]
  split
  · rw [List.length_append, List.length_cons]
    omega
  · omega

theorem comes_extractEntry (hread : Pieces file read) (haccept : Accepts accept) (hbase : IsBase base)
    (hshort : base.length + 257 < pathMax) (hf : f.HeaderOf e) (hne : e.path ≠ [])
    (hnames : ∀ c ∈ e.path, IsName c) (htarget : e.content ≠ .symlink [])
    (hsize : e.content.payload.length < 2 ^ 64) (hfree : Free d.tree e.path)
    (habove : ∀ p, p <+: e.path → p ≠ e.path → (d.tree.lookup p).isSome = true)
    (fuel pos : Nat) (hfuel : e.content.payload.length + 512 < fuel)
    (hfile : file.drop pos = e.content.payload ++
      (List.replicate (padding e.content.payload.length) 0 ++ rest)) :
    ∃ d', Comes (extractEntry (diskSystem base accept) read base fuel f.bytes) pos d (some true)
        (pos + e.content.payload.length + padding e.content.payload.length) d' ∧
      Adds d d' e.path e.content.node := by
  obtain ⟨hparts, hsafe⟩ := header_name hne hnames (hf.joined_eq.imp_right And.right)
  have hout : (base ++ slash :: f.joined).length < pathMax := by
    have hjoined := Fit.length_joined hf.toFit
    rw [List.length_append, List.length_cons]
    omega
  rw [extractEntry, hf.typeflag_bytes, hf.relName_bytes, hf.entrySize_bytes, hsafe]
  have hkind := hf.kind
  have hpad : padding 0 = 0 := rfl
  cases hcontent : e.content with
  | directory =>
      rw [hcontent] at hkind
      obtain ⟨d', hrun, hadds⟩ := comes_makeDir base accept hfree hparts pos
      refine ⟨d', ?_, hadds⟩
      show Comes _ pos d (some true) (pos + 0 + padding 0) d'
      rw [hpad, hkind, if_neg (by decide), if_neg (by decide), if_pos rfl]
      exact hrun.map some
  | symlink target =>
      rw [hcontent] at hkind htarget
      obtain ⟨hflag, hlink⟩ := hkind
      have hname : linkName f.bytes = target := hf.linkName_bytes.trans hlink
      have hnonempty : linkName f.bytes ≠ [] := by
        rw [hname]
        rintro rfl
        exact htarget rfl
      obtain ⟨d', hrun, hadds⟩ :=
        comes_extractLink base accept hfree hparts hnonempty pos
      rw [hname] at hadds
      refine ⟨d', ?_, hadds⟩
      show Comes _ pos d (some true) (pos + 0 + padding 0) d'
      rw [hpad, hflag, if_neg (by decide), if_neg (by decide), if_neg (by decide), if_pos rfl]
      exact hrun.map some
  | regular data =>
      rw [hcontent] at hkind hsize hfuel hfile
      obtain ⟨hflag, hfield⟩ := hkind
      have hcuts : ∀ r b, f.joined = r ++ slash :: b →
          (d.tree.lookup (parts slash r)).isSome = true := by
        intro r b hrel
        have hname : f.joined = e.name := by
          refine hf.joined_eq.resolve_right fun hdirectory => ?_
          rw [hcontent] at hdirectory
          cases hdirectory.1
        obtain ⟨hinit, hproper⟩ := cut_above hne hnames (hname.symm.trans hrel)
        exact habove _ hinit hproper
      obtain ⟨d', hrun, hadds⟩ := comes_extractFile base hfree hparts hread haccept hbase
        hout hcuts fuel data pos hfile hfuel
      refine ⟨d', ?_, hadds⟩
      rw [parseNum_sizeField hsize hfield]
      rcases hflag with hflag | hflag
      · rw [hflag, if_neg (by decide), if_neg (by decide), if_neg (by decide), if_neg (by decide),
          if_pos (by decide)]
        exact hrun
      · rw [hflag, if_neg (by decide), if_neg (by decide), if_neg (by decide), if_neg (by decide),
          if_pos (by decide)]
        exact hrun

theorem extracted_nil : Extracted [] emptyDisk.tree := by
  intro q n
  rw [emptyDisk, emptyDir]
  by_cases hq : q = []
  · subst hq
    rw [Finmap.lookup_singleton_eq]
    simp [eq_comm]
  · have hnone : Finmap.lookup q (Finmap.singleton [] Node.dir : Tree CStr UInt8) = none := by
      rw [Finmap.lookup_eq_none, Finmap.mem_singleton]
      exact hq
    rw [hnone]
    simp [hq]

private theorem Extracted.snoc {es : List ArchiveEntry} {d' : Disk} (h : Extracted es d.tree)
    (hfree : d.tree.lookup e.path = none) (hadds : Adds d d' e.path e.content.node) :
    Extracted (es ++ [e]) d'.tree := by
  intro q n
  simp only [List.mem_append, List.mem_singleton, or_and_right, exists_or, exists_eq_left]
  by_cases hq : q = e.path
  · subst hq
    rw [hadds.1, Option.some.injEq]
    have hnot : ¬ (e.path = [] ∧ n = .dir ∨ ∃ e' ∈ es, e'.path = e.path ∧ e'.content.node = n) := by
      rw [← h e.path n, hfree]
      exact fun hsome => Option.some_ne_none n hsome.symm
    rw [← or_assoc, or_iff_right hnot, and_iff_right rfl]
  · rw [hadds.2 q hq, h q n]
    have hnot : ¬ (e.path = q ∧ e.content.node = n) := fun hhere => hq hhere.1.symm
    rw [or_iff_left hnot]

private theorem Archive.next_free (a : Archive) {earlier later : List ArchiveEntry}
    (hsplit : a.entries = earlier ++ e :: later) (h : Extracted earlier t) :
    Free t e.path ∧ ∀ p, p <+: e.path → p ≠ e.path → t.lookup p = some .dir := by
  have hmem : e ∈ a.entries := hsplit ▸ List.mem_append_right _ List.mem_cons_self
  obtain ⟨hne, -⟩ := a.named e hmem
  have habove : ∀ p, p <+: e.path → p ≠ e.path → t.lookup p = some .dir := by
    intro p hinit hproper
    rw [h p .dir]
    by_cases hp : p = []
    · exact Or.inl ⟨hp, rfl⟩
    · exact Or.inr ⟨_, a.parents earlier e later hsplit p hinit hp hproper, rfl, rfl⟩
  refine ⟨⟨?_, ?_⟩, habove⟩
  · cases hlookup : t.lookup e.path with
    | none => rfl
    | some n =>
        rcases (h e.path n).mp hlookup with ⟨hnil, -⟩ | ⟨e', he', hsame, -⟩
        · exact absurd hnil hne
        · have hdistinct := a.distinct
          rw [hsplit, List.map_append, List.map_cons, List.nodup_append] at hdistinct
          exact absurd hsame (hdistinct.2.2 e'.path (List.mem_map_of_mem he') e.path
            List.mem_cons_self)
  · have hlast : e.path.dropLast ≠ e.path := by
      intro heq
      have hlen := congrArg List.length heq
      rw [List.length_dropLast] at hlen
      have hpos := List.length_pos_of_ne_nil hne
      omega
    rw [isDir, habove _ (List.dropLast_prefix _) hlast]

/-- The rest of an archive is extracted after what comes before it. -/
theorem comes_extractTar (a : Archive) (hread : Pieces file read) (haccept : Accepts accept)
    (hbase : IsBase base) (hshort : base.length + 257 < pathMax) {later : List ArchiveEntry}
    {bytes : List UInt8} (hencodes : Encodes later bytes) (earlier : List ArchiveEntry)
    (hsplit : a.entries = earlier ++ later) (hd : Extracted earlier d.tree) (pos fuel : Nat)
    (hfile : file.drop pos = bytes ++ rest) (hfuel : bytes.length + 1 < fuel) :
    ∃ pos' d', Comes (extractTar (diskSystem base accept) read base fuel) pos d (some true) pos' d' ∧
      Extracted a.entries d'.tree := by
  induction hencodes generalizing earlier d pos fuel with
  | stop =>
      obtain ⟨fuel, rfl⟩ : ∃ n, fuel = n + 1 := ⟨fuel - 1, by omega⟩
      rw [List.append_nil] at hsplit
      have hhdr : fread read pos hdrLen = List.replicate 512 0 := by
        rw [fread_eq hread, hfile, List.take_append_of_le_length, List.take_replicate]
        · rfl
        · rw [List.length_replicate]
          decide
      have hfull : ¬ (List.replicate 512 (0 : UInt8)).length < hdrLen := by
        rw [List.length_replicate]
        exact Nat.lt_irrefl 512
      refine ⟨pos + 512, d, fun trace => ⟨trace, ?_⟩, hsplit ▸ hd⟩
      rw [extractTar_succ _ _ _ _ _ _ hhdr, if_neg hfull, if_pos]
      · rw [List.length_replicate]
      · rw [allzero, List.all_eq_true]
        intro b hb
        exact decide_eq_true (List.eq_of_mem_replicate hb)
  | @entry e later bytes f hf _ ih =>
      obtain ⟨fuel, rfl⟩ : ∃ n, fuel = n + 1 := ⟨fuel - 1, by omega⟩
      have hmem : e ∈ a.entries := hsplit ▸ List.mem_append_right _ List.mem_cons_self
      obtain ⟨hne, hnames⟩ := a.named e hmem
      obtain ⟨hfree, habove⟩ := a.next_free hsplit hd
      have hlen : f.bytes.length = hdrLen := hf.length_bytes
      have hhdr : fread read pos hdrLen = f.bytes := by
        rw [fread_eq hread, hfile, List.append_assoc, List.take_left' hlen]
      rw [List.append_assoc] at hfile
      have hbody := drop_text hfile
      simp only [List.append_assoc] at hbody
      simp only [List.length_append, List.length_replicate, hlen, hdrLen] at hfuel
      obtain ⟨d', hentry, hadds⟩ := comes_extractEntry hread haccept hbase hshort hf hne hnames
        (a.targets e hmem) (a.sizes e hmem) hfree
        (fun p hp hproper => by rw [habove p hp hproper]; rfl) fuel (pos + f.bytes.length) (by omega)
        hbody
      have hnext := drop_text (drop_text hbody)
      rw [List.length_replicate] at hnext
      obtain ⟨pos', d'', hrun, hall⟩ := ih (earlier ++ [e])
        (by rw [hsplit, List.append_assoc, List.singleton_append])
        (hd.snoc hfree.absent hadds) _ fuel hnext (by omega)
      refine ⟨pos', d'', fun trace => ?_, hall⟩
      have hfull : ¬ f.bytes.length < hdrLen := hlen ▸ Nat.lt_irrefl hdrLen
      have hjoined : f.joined ≠ [] := by
        intro hnil
        have hparts := (header_name hne hnames (hf.joined_eq.imp_right And.right)).1
        rw [hnil, parts_nil] at hparts
        exact hne hparts.symm
      obtain ⟨trace', hone⟩ := hentry
        (trace ++ [.header (pos + f.bytes.length - hdrLen) f.bytes])
      rw [extractTar_succ _ _ _ _ _ _ hhdr, if_neg hfull, if_neg (hf.not_zero hjoined)]
      dsimp only
      rw [hone]
      exact hrun trace'

end Extraction

section Alignment

variable {σ α β : Type} {sys : System σ} {file : List UInt8} {read : Reads}

/-- The computation does not read. -/
def Stays (m : StateM (Proc σ) α) : Prop := ∀ s, (m s).2.pos = s.pos

/-- When the computation succeeds, it has read `n` bytes. -/
def Moves (m : StateM (Proc σ) (Option Bool)) (n : Nat) : Prop :=
  ∀ s s', m s = (some true, s') → s'.pos = s.pos + n

theorem stays_pure (a : α) : Stays (σ := σ) (pure a) := fun _ => rfl

theorem Stays.bind {m : StateM (Proc σ) α} {k : α → StateM (Proc σ) β} (hm : Stays m)
    (hk : ∀ a, Stays (k a)) : Stays (m >>= k) :=
  fun s => (hk (m s).1 (m s).2).trans (hm s)

theorem stays_ask (c : SysCall) : Stays (ask sys c) := fun _ => rfl

theorem stays_makeDir (p : CStr) : Stays (makeDir sys p) := by
  refine (stays_ask _).bind fun a => ?_
  cases a with
  | ok n => exact stays_pure _
  | err e => exact stays_pure _

theorem stays_mkdirs (p : CStr) : Stays (mkdirs sys p) := by
  have hloop : ∀ done rest : CStr, Stays (mkdirsLoop sys done rest) := by
    intro done rest
    induction rest generalizing done with
    | nil => exact stays_makeDir done
    | cons c rest ih =>
        rw [mkdirsLoop]
        split
        · refine (stays_makeDir done).bind fun made => ?_
          cases made with
          | false => exact stays_pure _
          | true => exact ih _
        · exact ih _
  rw [mkdirs]
  split
  · exact stays_pure _
  · split
    · exact stays_makeDir []
    · exact hloop _ _

theorem stays_writeAll (fd fuel : Nat) (data : List UInt8) : Stays (writeAll sys fd fuel data) := by
  induction fuel generalizing data with
  | zero => exact stays_pure _
  | succ fuel ih =>
      rw [writeAll]
      split
      · exact stays_pure _
      · refine (stays_ask _).bind fun a => ?_
        split
        · exact ih _
        · exact ih _
        · exact stays_pure _

theorem stays_extractLink (hdr out : CStr) : Stays (extractLink sys hdr out) := by
  have hlink : Stays (ask sys (.symlink (linkName hdr) out)) := stays_ask _
  refine (stays_ask _).bind fun a => ?_
  split
  · refine hlink.bind fun a => ?_
    split <;> exact stays_pure _
  · refine hlink.bind fun a => ?_
    split <;> exact stays_pure _
  · exact stays_pure _

theorem moves_done : Moves (σ := σ) (pure (some true)) 0 :=
  fun _ _ h => (congrArg (fun r => r.2.pos) h).symm

theorem moves_failed {n : Nat} {r : Option Bool} (hr : r ≠ some true) :
    Moves (σ := σ) (pure r) n :=
  fun _ _ h => absurd (congrArg Prod.fst h) hr

theorem Stays.moves {m : StateM (Proc σ) α} {k : α → StateM (Proc σ) (Option Bool)} {n : Nat}
    (hm : Stays m) (hk : ∀ a, Moves (k a) n) : Moves (m >>= k) n := by
  intro s s' h
  rw [← hm s]
  exact hk (m s).1 (m s).2 s' h

theorem Moves.andThen {m : StateM (Proc σ) (Option Bool)}
    {k : Option Bool → StateM (Proc σ) (Option Bool)} {a b : Nat} (hm : Moves m a)
    (hk : Moves (k (some true)) b) (hfail : ∀ r n, r ≠ some true → Moves (k r) n) :
    Moves (m >>= k) (a + b) := by
  intro s s' h
  rw [bind_run] at h
  by_cases hr : (m s).1 = some true
  · rw [hr] at h
    rw [hk _ s' h, hm s (m s).2 (Prod.ext hr rfl), Nat.add_assoc]
  · have hnever := hfail (m s).1 0 hr (m s).2 s' h
    have hnever' := hfail (m s).1 1 hr (m s).2 s' h
    omega

private theorem moves_getBytes (hread : Pieces file read) {want n : Nat} (hwant : want ≤ n)
    {k : List UInt8 → StateM (Proc σ) (Option Bool)}
    (hk : ∀ got : List UInt8, got.length ≤ n → Moves (k got) (n - got.length)) :
    Moves (getBytes read want >>= k) n := by
  intro s s' h
  have hlen : (fread read s.pos want).length ≤ n := by
    rw [fread_eq hread]
    exact Nat.le_trans (List.length_take_le _ _) hwant
  have hmove := hk _ hlen _ s' h
  rw [hmove]
  dsimp only
  omega

private theorem want_le (limit n : Nat) : (if n > limit then limit else n) ≤ n := by
  split <;> omega

theorem moves_skipLoop (hread : Pieces file read) (fuel left : Nat) :
    Moves (σ := σ) (skipLoop read fuel left) left := by
  induction fuel generalizing left with
  | zero =>
      rw [skipLoop]
      split
      next hzero => exact hzero ▸ moves_done
      next => exact moves_failed (by decide)
  | succ fuel ih =>
      rw [skipLoop]
      split
      next hzero => exact hzero ▸ moves_done
      next =>
        refine moves_getBytes hread (want_le hdrLen left) fun got _ => ?_
        split
        · exact moves_failed (by decide)
        · exact ih _

theorem moves_copyData (hread : Pieces file read) (fd fuel size : Nat) :
    Moves (copyData sys read fd fuel size) size := by
  induction fuel generalizing size with
  | zero =>
      rw [copyData]
      split
      next hzero => exact hzero ▸ moves_done
      next => exact moves_failed (by decide)
  | succ fuel ih =>
      rw [copyData]
      split
      next hzero => exact hzero ▸ moves_done
      next =>
        refine moves_getBytes hread (want_le chunk size) fun got _ => ?_
        split
        · exact moves_failed (by decide)
        · refine (stays_writeAll fd fuel got).moves fun r => ?_
          split
          · exact ih _
          · next hr => exact moves_failed hr

theorem moves_skipPadded (hread : Pieces file read) (fuel size : Nat) :
    Moves (σ := σ) (skipPadded read fuel size) (size + padding size) := by
  refine (moves_skipLoop hread fuel size).andThen (moves_skipLoop hread fuel _) fun r n hr => ?_
  match r with
  | none => exact moves_failed hr
  | some false => exact moves_failed hr
  | some true => exact absurd rfl hr

private theorem moves_padding (hread : Pieces file read) (fuel size : Nat) (ok : Bool) :
    Moves (σ := σ) (skipPadOnly read fuel size >>= fun skipped =>
      pure (skipped.map fun skipped => ok && skipped)) (padding size) := by
  intro s s' h
  rw [bind_run] at h
  have hresult := congrArg Prod.fst h
  have hstate := congrArg (fun r => r.2) h
  dsimp only at hresult hstate
  obtain ⟨skipped, hskipped, hand⟩ := Option.map_eq_some_iff.mp hresult
  rw [Bool.and_eq_true] at hand
  rw [hand.2] at hskipped
  exact moves_skipLoop hread fuel (padding size) s s' (Prod.ext hskipped hstate)

theorem moves_extractFile (hread : Pieces file read) (fuel size : Nat) (out : CStr) :
    Moves (extractFile sys read fuel size out) (size + padding size) := by
  refine (stays_mkdirs _).moves fun made => ?_
  cases made with
  | false => exact moves_failed (by decide)
  | true =>
      refine (stays_ask _).moves fun a => ?_
      cases a with
      | err e => exact moves_failed (by decide)
      | ok fd =>
          refine (moves_copyData hread fd fuel size).andThen ?_ fun r n hr => ?_
          · exact (stays_ask _).moves fun closed => moves_padding hread fuel size _
          · match r with
            | none => exact moves_failed hr
            | some true => exact absurd rfl hr
            | some false =>
                refine (stays_ask _).moves fun closed s s' h => ?_
                have hresult := congrArg Prod.fst h
                obtain ⟨skipped, -, hand⟩ := Option.map_eq_some_iff.mp hresult
                cases hand

variable (sys)

theorem extractEntry_aligned (hread : Pieces file read) (base : CStr) (fuel : Nat)
    (hdr : List UInt8) (s s' : Proc σ)
    (h : extractEntry sys read base fuel hdr s = (some true, s')) :
    ∃ k, s'.pos = s.pos + 512 * k := by
  have hblocks : ∀ size, ∃ k, size + padding size = 512 * k := by
    intro size
    refine ⟨(size + padding size) / 512, ?_⟩
    rw [padding]
    omega
  have hmoved : ∀ n, (∃ k, n = 512 * k) → Moves (extractEntry sys read base fuel hdr) n →
      ∃ k, s'.pos = s.pos + 512 * k := by
    rintro n ⟨k, rfl⟩ hmoves
    exact ⟨k, hmoves s s' h⟩
  have hstays : ∀ m : StateM (Proc σ) Bool, Stays m → Moves (some <$> m) 0 := by
    intro m hm s s' h
    rw [← hm s]
    exact (congrArg (fun r => r.2.pos) h).symm
  rw [extractEntry] at hmoved
  dsimp only at hmoved
  split at hmoved
  · exact hmoved _ (hblocks _) (moves_skipPadded hread fuel _)
  split at hmoved
  · exact hmoved 0 ⟨0, rfl⟩ (moves_failed (by decide))
  split at hmoved
  · exact hmoved 0 ⟨0, rfl⟩ (hstays _ (stays_makeDir _))
  split at hmoved
  · exact hmoved 0 ⟨0, rfl⟩ (hstays _ (stays_extractLink _ _))
  split at hmoved
  · exact hmoved _ (hblocks _) (moves_extractFile hread fuel _ _)
  · exact hmoved _ (hblocks _) (moves_skipPadded hread fuel _)

/-- Every header that is interpreted starts at a multiple of a block. -/
theorem extractTar_aligned (hread : Pieces file read) {base : CStr} (hbase : IsBase base)
    (fuel : Nat) (s : Proc σ) :
    ∃ added, (extractTar sys read base fuel s).2.trace = s.trace ++ added ∧
      ∀ p hdr, .header p hdr ∈ added → ∃ k, p = s.pos + 512 * k := by
  induction fuel generalizing s with
  | zero => exact ⟨[], (List.append_nil _).symm, fun _ _ he => absurd he List.not_mem_nil⟩
  | succ fuel ih =>
      have hlen : (fread read s.pos hdrLen).length ≤ hdrLen := by
        rw [fread_eq hread]
        exact List.length_take_le _ _
      rw [extractTar_succ sys read base fuel s _ rfl]
      generalize fread read s.pos hdrLen = hdr at hlen
      split
      next => exact ⟨[], (List.append_nil _).symm, fun _ _ he => absurd he List.not_mem_nil⟩
      next hfull =>
        have hhdr : hdr.length = hdrLen := Nat.le_antisymm hlen (Nat.not_lt.mp hfull)
        split
        next => exact ⟨[], (List.append_nil _).symm, fun _ _ he => absurd he List.not_mem_nil⟩
        next =>
          rw [hhdr, Nat.add_sub_cancel]
          have hentry := emits_extractEntry sys read
            (P := fun e => ∀ p h, e ≠ .header p h) hbase fuel hdr
            (fun _ _ c _ st p h heq => Event.noConfusion heq)
            { s with pos := s.pos + hdrLen, trace := s.trace ++ [.header s.pos hdr] }
          have haligned := extractEntry_aligned sys hread base fuel hdr
            { s with pos := s.pos + hdrLen, trace := s.trace ++ [.header s.pos hdr] }
          generalize extractEntry sys read base fuel hdr _ = result at hentry haligned ⊢
          obtain ⟨r, s₁⟩ := result
          obtain ⟨entry, htrace, hentryP⟩ := hentry
          dsimp only at htrace
          rw [List.append_assoc, List.singleton_append] at htrace
          have hhere : ∀ p h, .header p h ∈ Event.header s.pos hdr :: entry →
              ∃ k, p = s.pos + 512 * k := by
            intro p h he
            rcases List.mem_cons.mp he with heq | he
            · cases heq
              exact ⟨0, rfl⟩
            · exact absurd rfl (hentryP _ he p h)
          split
          next s₂ heq =>
            obtain ⟨rfl, rfl⟩ := Prod.mk.inj heq
            obtain ⟨k, hk⟩ := haligned s₁ rfl
            obtain ⟨rest, hrest, hrestP⟩ := ih s₁
            refine ⟨(.header s.pos hdr :: entry) ++ rest, ?_, ?_⟩
            · rw [hrest, htrace, List.append_assoc]
            · intro p h he
              rcases List.mem_append.mp he with he | he
              · exact hhere p h he
              · obtain ⟨k', hk'⟩ := hrestP p h he
                refine ⟨1 + k + k', ?_⟩
                have hpos : s₁.pos = s.pos + hdrLen + 512 * k := hk
                rw [hk', hpos, hdrLen]
                omega
          next => exact ⟨.header s.pos hdr :: entry, htrace, hhere⟩

end Alignment

section Layout

/-- An archive, wherever it stands in the stream and however it is read, is extracted to exactly its
entries; and whatever the stream holds, headers are interpreted at multiples of a block only. -/
theorem extraction_follows_layout {base : CStr} (hbase : IsBase base) :
    (∀ (a : Archive) (bytes before after : List UInt8) (read : Reads)
      (accept : Disk → List UInt8 → Nat), Encodes a.entries bytes →
      Pieces (before ++ (bytes ++ after)) read → Accepts accept → base.length + 257 < pathMax →
      ∀ᶠ fuel in Filter.atTop, ∃ s, extractTar (diskSystem base accept) read base fuel
          ⟨before.length, emptyDisk, []⟩ = (some true, s) ∧ Extracted a.entries s.state.tree) ∧
    ∀ (σ : Type) (sys : System σ) (file : List UInt8) (read : Reads) (fuel pos : Nat) (st : σ),
      Pieces file read → ∀ p hdr,
        .header p hdr ∈ (extractTar sys read base fuel ⟨pos, st, []⟩).2.trace →
        ∃ k, p = pos + 512 * k := by
  refine ⟨?_, ?_⟩
  · intro a bytes before after read accept hencodes hread haccept hshort
    refine Filter.eventually_atTop.mpr ⟨bytes.length + 2, fun fuel hfuel => ?_⟩
    obtain ⟨pos', d', hrun, hall⟩ := comes_extractTar a hread haccept hbase hshort hencodes []
      (List.nil_append _).symm extracted_nil before.length fuel List.drop_left (by omega)
    obtain ⟨trace', htrace⟩ := hrun []
    exact ⟨_, htrace, hall⟩
  · intro σ sys file read fuel pos st hread p hdr hmem
    obtain ⟨added, htrace, hall⟩ := extractTar_aligned sys hread hbase fuel ⟨pos, st, []⟩
    rw [htrace, List.nil_append] at hmem
    exact hall p hdr hmem

/-- A directory "d" with a file "f" in it. -/
def sampleArchive : Archive where
  entries := [⟨[[100]], .directory⟩, ⟨[[100], [102]], .regular [7]⟩]
  named := by
    intro e he
    have hname : ∀ c : CStr, c = [100] ∨ c = [102] → IsName c := by
      rintro c (rfl | rfl)
      · exact ⟨by decide, by decide, by decide⟩
      · exact ⟨by decide, by decide, by decide⟩
    rcases List.mem_pair.mp he with rfl | rfl
    · exact ⟨by decide, fun c hc => hname c (Or.inl (List.mem_singleton.mp hc))⟩
    · exact ⟨by decide, fun c hc => hname c (List.mem_pair.mp hc)⟩
  distinct := by decide
  parents := by
    intro earlier e later hsplit p hinit hp hproper
    match earlier with
    | [] =>
        obtain ⟨rfl, -⟩ := List.cons.inj hsplit
        rcases List.prefix_cons_iff.mp hinit with hnil | ⟨t, rfl, ht⟩
        · exact absurd hnil hp
        · exact absurd (congrArg _ (List.prefix_nil.mp ht)) hproper
    | [x] =>
        obtain ⟨rfl, htail⟩ := List.cons.inj hsplit
        obtain ⟨rfl, -⟩ := List.cons.inj htail
        rcases List.prefix_cons_iff.mp hinit with hnil | ⟨t, rfl, ht⟩
        · exact absurd hnil hp
        · rcases List.prefix_cons_iff.mp ht with rfl | ⟨t', rfl, ht'⟩
          · exact List.mem_singleton_self _
          · rw [List.prefix_nil.mp ht'] at hproper
            exact absurd rfl hproper
    | _ :: _ :: more =>
        have hlen := congrArg List.length hsplit
        simp only [List.length_append, List.length_cons, List.length_nil] at hlen
        omega
  targets := by
    intro e he
    rcases List.mem_pair.mp he with rfl | rfl
    · exact Content.noConfusion
    · exact Content.noConfusion
  sizes := by
    intro e he
    rcases List.mem_pair.mp he with rfl | rfl
    · decide
    · decide

/-- A header with a name only, with NULs in the fields that are not interpreted. -/
def plainHeader (name : CStr) (flag : UInt8) (size : Nat) : HeaderFields where
  name := name
  size := (digits 8 11 size).map (fun d => UInt8.ofNat (48 + d)) ++ [0]
  flag := flag
  link := []
  namePrefix := []
  ids := List.replicate 24 0
  times := List.replicate 20 0
  owner := List.replicate 88 0
  rest := List.replicate 12 0

theorem plainHeader_fit {name : CStr} (hname : name.length ≤ 100 ∧ 0 ∉ name) (flag : UInt8)
    (size : Nat) : (plainHeader name flag size).Fit where
  name := hname
  size := by rw [plainHeader, List.length_append, List.length_map, length_digits]; rfl
  link := ⟨Nat.zero_le _, List.not_mem_nil⟩
  namePrefix := ⟨Nat.zero_le _, List.not_mem_nil⟩
  ids := List.length_replicate
  times := List.length_replicate
  owner := List.length_replicate
  rest := List.length_replicate

/-- The archive, read byte by byte, extracted to the directory "w". -/
theorem sample_extracted :
    ∃ bytes, Encodes sampleArchive.entries bytes ∧
      ∀ᶠ fuel in Filter.atTop, ∃ s, extractTar (diskSystem [119] fun _ _ => 1)
          (fun pos want => if want = 0 then [] else ((bytes ++ [1]).drop pos).take 1) [119] fuel
          ⟨0, emptyDisk, []⟩ = (some true, s) ∧ Extracted sampleArchive.entries s.state.tree := by
  have hfile : (plainHeader [100, slash, 102] 48 1).HeaderOf ⟨[[100], [102]], .regular [7]⟩ :=
    { plainHeader_fit (by decide) 48 1 with
      joined_eq := Or.inl rfl
      kind := ⟨Or.inl rfl, .octal 0 (by decide) (Or.inl rfl)⟩ }
  have hdirectory : (plainHeader [100, slash] 53 0).HeaderOf ⟨[[100]], .directory⟩ :=
    { plainHeader_fit (by decide) 53 0 with
      joined_eq := Or.inr ⟨rfl, rfl⟩
      kind := rfl }
  have hencodes := Encodes.entry _ hdirectory (.entry _ hfile .stop)
  refine ⟨_, hencodes, ?_⟩
  generalize HeaderFields.bytes _ ++ _ = bytes at hencodes ⊢
  have hbase : IsBase [119] := ⟨by decide, by decide⟩
  refine (extraction_follows_layout hbase).1 sampleArchive bytes []
    [1] _ _ hencodes ⟨?_, ?_⟩ (fun d data hdata => ⟨Nat.one_pos, List.length_pos_of_ne_nil hdata⟩)
    (by decide)
  · intro pos want hwant hpos
    exact ⟨1, Nat.one_pos, hwant, hpos, if_neg (Nat.ne_of_gt hwant)⟩
  · intro pos want hend
    split
    · rfl
    · rw [List.nil_append] at hend
      rw [List.drop_eq_nil_of_le hend, List.take_nil]

end Layout

end CZet.Driver.Tar
