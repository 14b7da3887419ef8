/- source: src/czet.c (extract_tar, mkdirs, write_all, copy_data), Makefile (BLOB_TAR)
   digest: The calls with which the blob is extracted, and the tree that they end in. -/

import CZet.Lib.FileTree

set_option autoImplicit false
set_option relaxedAutoImplicit false

namespace CZet.Driver

open CZet.Lib.FileTree

abbrev FsTree := Tree String UInt8

abbrev FsCall := Call String UInt8

/-- A header of the archive with its payload, by its type flag. -/
inductive TarEntry
  | directory (rel : List String)
  | symlink (rel : List String) (ln : List UInt8)
  | regular (rel : List String) (data : List UInt8)
  /-- Long names, hard links, devices: skipped with their payload. -/
  | skipped

namespace TarEntry

def rel : TarEntry → Option (List String)
  | directory rel | symlink rel _ | regular rel _ => some rel
  | skipped => none

/-- `mkdirs` makes every directory on the way down. -/
def mkdirs (path : List String) : List FsCall := path.inits.map .mkdir

def calls : TarEntry → List FsCall
  | directory rel => [.mkdir rel]
  | symlink rel ln => [.unlink rel, .symlink rel ln]
  | regular rel data => mkdirs rel.dropLast ++ [.create rel, .write rel data]
  | skipped => []

/-- The entry is in the tree, a file with its full contents. -/
def Present (t : FsTree) : TarEntry → Prop
  | directory rel => t.lookup rel = some .dir
  | symlink rel ln => t.lookup rel = some (.link ln)
  | regular rel data => t.lookup rel = some (.file data)
  | skipped => True

end TarEntry

def doneName : String := ".done"

/-- What `ensure_cache` extracts: an archive of a directory tree, as `tar` writes it, in which the
name of the marker is free. -/
structure Blob where
  entries : List TarEntry
  hash : UInt64
  distinct : (entries.filterMap TarEntry.rel).Nodup
  leaves : ∀ e ∈ entries, ∀ rel ∈ e.rel, (∀ r, e ≠ .directory r) →
    ∀ rel' ∈ entries.filterMap TarEntry.rel, rel <+: rel' → rel' = rel
  markerFree : ∀ rel ∈ entries.filterMap TarEntry.rel, rel.head? ≠ some doneName

/-- The calls of `extract_tar`. -/
def Blob.calls (b : Blob) : List FsCall := b.entries.flatMap TarEntry.calls

def Blob.Complete (b : Blob) (t : FsTree) : Prop := ∀ e ∈ b.entries, e.Present t

section Extraction

variable {t t' : FsTree}

private theorem finish_mkdirs {paths : List (List String)} {q : List String}
    (h : finish (paths.map Call.mkdir) t = some t') :
    (∀ n, t.lookup q = some n → t'.lookup q = some n) ∧
      (t.lookup q = none → t'.lookup q = none ∨ t'.lookup q = some .dir) := by
  induction paths generalizing t with
  | nil =>
      obtain rfl := Option.some.inj h
      exact ⟨fun _ hq => hq, Or.inl⟩
  | cons p paths ih =>
      obtain ⟨mid, hone, hrest⟩ := finish_cons h
      obtain ⟨hkeep, hnew⟩ := ih hrest
      refine ⟨fun n hq => hkeep n (mkdir_keeps hone hq), ?_⟩
      intro hq
      rcases mkdir_lookup (q := q) hone with hsame | ⟨-, -, hdir⟩
      · exact hnew (hsame.trans hq)
      · exact Or.inr (hkeep _ hdir)

private theorem entry_lookup_ne {e : TarEntry} {q : List String} (h : finish e.calls t = some t')
    (hq : ∀ rel ∈ e.rel, q ≠ rel) :
    (∀ n, t.lookup q = some n → t'.lookup q = some n) ∧
      (t.lookup q = none → t'.lookup q = none ∨ t'.lookup q = some .dir) := by
  cases e with
  | directory rel => exact @finish_mkdirs t t' [rel] q h
  | symlink rel ln =>
      have hne : q ≠ rel := hq rel rfl
      obtain ⟨mid, hunlink, hrest⟩ := finish_cons h
      obtain ⟨last, hlink, hdone⟩ := finish_cons hrest
      obtain rfl := Option.some.inj hdone
      rw [apply_lookup_ne hlink hne, apply_lookup_ne hunlink hne]
      exact ⟨fun _ hn => hn, Or.inl⟩
  | regular rel data =>
      have hne : q ≠ rel := hq rel rfl
      obtain ⟨made, hmkdirs, hrest⟩ := finish_split h
      obtain ⟨mid, hcreate, hrest⟩ := finish_cons hrest
      obtain ⟨last, hwrite, hdone⟩ := finish_cons hrest
      obtain rfl := Option.some.inj hdone
      rw [apply_lookup_ne hwrite hne, apply_lookup_ne hcreate hne]
      exact finish_mkdirs hmkdirs
  | skipped =>
      obtain rfl := Option.some.inj h
      exact ⟨fun _ hn => hn, Or.inl⟩

private theorem entry_present {e : TarEntry} (h : finish e.calls t = some t')
    (hfree : ∀ rel ∈ e.rel, t.lookup rel = none ∨ t.lookup rel = some .dir) : e.Present t' := by
  cases e with
  | directory rel =>
      obtain ⟨mid, hmkdir, hdone⟩ := finish_cons h
      obtain rfl := Option.some.inj hdone
      exact mkdir_makes hmkdir (hfree rel rfl)
  | symlink rel ln =>
      obtain ⟨mid, -, hrest⟩ := finish_cons h
      obtain ⟨last, hlink, hdone⟩ := finish_cons hrest
      obtain rfl := Option.some.inj hdone
      exact symlink_makes hlink
  | regular rel data =>
      obtain ⟨made, -, hrest⟩ := finish_split h
      obtain ⟨mid, hcreate, hrest⟩ := finish_cons hrest
      obtain ⟨last, hwrite, hdone⟩ := finish_cons hrest
      obtain rfl := Option.some.inj hdone
      obtain ⟨old, hold, rfl⟩ := write_appends hwrite
      obtain rfl := Node.file.inj (Option.some.inj (hold.symm.trans (create_makes hcreate)))
      exact Finmap.lookup_insert _
  | skipped => trivial

private theorem present_of_lookup {e : TarEntry} (h : e.Present t)
    (hkeep : ∀ rel ∈ e.rel, ∀ n, t.lookup rel = some n → t'.lookup rel = some n) : e.Present t' := by
  cases e with
  | directory rel => exact hkeep rel rfl _ h
  | symlink rel ln => exact hkeep rel rfl _ h
  | regular rel data => exact hkeep rel rfl _ h
  | skipped => trivial

private theorem entries_present (entries : List TarEntry)
    (hdistinct : (entries.filterMap TarEntry.rel).Nodup)
    (hfree : ∀ rel ∈ entries.filterMap TarEntry.rel, t.lookup rel = none ∨ t.lookup rel = some .dir)
    (h : finish (entries.flatMap TarEntry.calls) t = some t') :
    (∀ e ∈ entries, e.Present t') ∧
      ∀ q, q ∉ entries.filterMap TarEntry.rel → ∀ n, t.lookup q = some n → t'.lookup q = some n := by
  induction entries generalizing t with
  | nil =>
      obtain rfl := Option.some.inj h
      exact ⟨fun e he => (List.not_mem_nil he).elim, fun _ _ _ hn => hn⟩
  | cons e entries ih =>
      rw [List.flatMap_cons] at h
      obtain ⟨mid, hone, hrest⟩ := finish_split h
      have hother : ∀ q, (∀ rel ∈ e.rel, q ≠ rel) → _ := fun q hq => entry_lookup_ne hone hq
      have hmem : ∀ rel ∈ e.rel, rel ∈ (e :: entries).filterMap TarEntry.rel :=
        fun rel hrel => List.mem_filterMap.mpr ⟨e, List.mem_cons_self, hrel⟩
      have hsub : ∀ rel ∈ entries.filterMap TarEntry.rel,
          rel ∈ (e :: entries).filterMap TarEntry.rel := by
        intro rel hrel
        obtain ⟨e', he', hrel'⟩ := List.mem_filterMap.mp hrel
        exact List.mem_filterMap.mpr ⟨e', List.mem_cons_of_mem _ he', hrel'⟩
      have hapart : ∀ rel ∈ e.rel, rel ∉ entries.filterMap TarEntry.rel := by
        intro rel hrel
        have hcons : (e :: entries).filterMap TarEntry.rel =
            rel :: entries.filterMap TarEntry.rel := List.filterMap_cons_some hrel
        rw [hcons, List.nodup_cons] at hdistinct
        exact hdistinct.1
      have hnodup : (entries.filterMap TarEntry.rel).Nodup :=
        hdistinct.sublist ((List.sublist_cons_self e entries).filterMap _)
      obtain ⟨hpresent, hkeep⟩ := ih hnodup (by
        intro rel hrel
        obtain ⟨hkeep, hnew⟩ := hother rel (fun r hr heq => hapart r hr (heq ▸ hrel))
        rcases hfree rel (hsub rel hrel) with hnone | hdir
        · exact hnew hnone
        · exact Or.inr (hkeep _ hdir)) hrest
      refine ⟨?_, ?_⟩
      · intro e' he'
        rcases List.mem_cons.mp he' with rfl | he'
        · have hnow := entry_present hone (fun rel hrel => hfree rel (hmem rel hrel))
          exact present_of_lookup hnow (fun rel hrel n hn => hkeep rel (hapart rel hrel) n hn)
        · exact hpresent e' he'
      · intro q hq n hn
        have hmid := (hother q (fun r hr heq => hq (heq ▸ hmem r hr))).1 n hn
        exact hkeep q (fun hin => hq (hsub q hin)) n hmid

/-- When no call of the extraction fails, every entry of the blob is in the tree that it ends in. -/
theorem extraction_complete (b : Blob) (h : finish b.calls emptyDir = some t') : b.Complete t' := by
  have hempty : ∀ rel : List String, (emptyDir : FsTree).lookup rel = none ∨
      (emptyDir : FsTree).lookup rel = some .dir := by
    intro rel
    by_cases hrel : rel = []
    · subst hrel
      exact Or.inr Finmap.lookup_singleton_eq
    · refine Or.inl (Finmap.lookup_eq_none.mpr ?_)
      rwa [emptyDir, Finmap.mem_singleton]
  exact (entries_present b.entries b.distinct (fun rel _ => hempty rel) h).1

theorem Blob.Complete.of_lookup_ne {b : Blob} (h : b.Complete t)
    (hkeep : ∀ q, q ≠ [doneName] → t'.lookup q = t.lookup q) : b.Complete t' := by
  intro e he
  refine present_of_lookup (h e he) ?_
  intro rel hrel n hn
  have hmem : rel ∈ b.entries.filterMap TarEntry.rel := List.mem_filterMap.mpr ⟨e, he, hrel⟩
  rw [hkeep rel, hn]
  rintro rfl
  exact b.markerFree _ hmem rfl

end Extraction

end CZet.Driver
