/- source: src/czet.c (ensure_cache)
   digest: Runs of `ensure_cache`: one after another they survive a stop at any call, as long as no
     error is taken for the end of the archive or for a missing marker, and side by side they keep
     what was given back as long as nobody renames behind the back of another. -/

import CZet.Driver.Cache

set_option autoImplicit false
set_option relaxedAutoImplicit false

namespace CZet.Driver

open CZet.Lib.FileTree CZet.Lib.OpRun

variable {Pid W : Type} [DecidableEq Pid] [DecidableEq W]

/-- No directory is renamed into place while another process, which found none, is on its way to
replace what is there. -/
def RenamesApart (b : Blob) (op : CacheOp Pid W) (s : Cache Pid W) : Prop :=
  op.act = .rename → renames s.final = true → ∀ q, q ≠ op.pid → (s.procs q).busy b = false

/-- No marker fails to be written. -/
def Stamps (op : CacheOp Pid W) (s : Cache Pid W) : Prop :=
  op.act = .fail → ∀ w todo, s.procs op.pid ≠ .stamp w todo

/-- A run of `ensure_cache` starts after the end of every other. -/
def Sequential (op : CacheOp Pid W) (s : Cache Pid W) : Prop :=
  op.act = .mkdirs → ∀ q, q ≠ op.pid → (s.procs q).live = false

/-- No entry of the archive is lost to a failed read of its header. -/
def HeadersRead (op : CacheOp Pid W) (s : Cache Pid W) : Prop :=
  op.act = .readError → ∀ w todo unread, s.procs op.pid = .extract w todo unread →
    ∀ e ∈ unread, e = .skipped

/-- No valid marker fails to be opened or read. -/
def Looks (b : Blob) (op : CacheOp Pid W) (s : Cache Pid W) : Prop :=
  op.act = .fail → (s.procs op.pid).looking = true → ¬ b.Valid s.final

/-- What a step has to meet when runs follow each other. -/
structure MeetsAlone (b : Blob) (op : CacheOp Pid W) (s : Cache Pid W) : Prop where
  sequential : Sequential op s
  headers : HeadersRead op s
  looks : Looks b op s

/-- What a step has to meet when processes run side by side. -/
structure MeetsShared (b : Blob) (op : CacheOp Pid W) (s : Cache Pid W) : Prop where
  apart : RenamesApart b op s
  stamps : Stamps op s
  headers : HeadersRead op s
  looks : Looks b op s

/-- The next call of the process is a `rename` that fails because of a complete extraction. -/
def LosesRace (b : Blob) (s : Cache Pid W) (p : Pid) : Prop :=
  (∃ w, s.procs p = .replace w []) ∧ b.Valid s.final

section Runs

variable {b : Blob} {strict : Prop} {s s' s₀ : Cache Pid W} {op : CacheOp Pid W}
  {out : List (Event Pid)}

private theorem cacheInv_step (h : CacheInv b strict s) (hapart : RenamesApart b op s)
    (hstamps : strict → Stamps op s) (hheaders : HeadersRead op s) (hlooks : Looks b op s)
    (hstep : cacheStep b op s = some (out, s')) : CacheInv b strict s' := by
  obtain ⟨ph, hm, hprocs, -⟩ := cacheStep_moves hstep
  refine h.moves hm rfl ?_ ?_ rfl rfl hapart hstamps hheaders hlooks
  · rw [hprocs, Function.update_self]
  · intro q hq
    rw [hprocs, Function.update_of_ne hq]

omit [DecidableEq Pid] [DecidableEq W] in
private theorem live_of_looking {ph : Phase W} (h : ph.looking = true) : ph.live = true := by
  cases ph <;> simp_all [Phase.looking, Phase.live]

private theorem live_step (h : ∀ p q, (s.procs p).live = true → (s.procs q).live = true → p = q)
    (hguard : Sequential op s) (hstep : cacheStep b op s = some (out, s')) :
    ∀ p q, (s'.procs p).live = true → (s'.procs q).live = true → p = q := by
  obtain ⟨ph, hm, hprocs, -⟩ := cacheStep_moves hstep
  have hlive : ph.live = true → ∀ q, q ≠ op.pid → (s.procs q).live = false := by
    intro hph q hq
    have hbefore : (s.procs op.pid).live = true ∨ op.act = .mkdirs := by
      generalize s.procs op.pid = before, op.act = a, s'.final = final, s'.work = work at hm
      cases hm with
      | mkdirs => exact Or.inr rfl
      | cannotStart => cases hph
      | cannotLook _ hlooking => exact Or.inl (live_of_looking hlooking)
      | crash _ hcrash => exact Or.inl hcrash
      | _ => exact Or.inl rfl
    rcases hbefore with hbefore | hmkdirs
    · rw [Bool.eq_false_iff]
      exact fun hq' => hq (h q op.pid hq' hbefore)
    · exact hguard hmkdirs q hq
  intro p q hp hq
  rw [hprocs] at hp hq
  by_cases hpo : p = op.pid
  · by_cases hqo : q = op.pid
    · rw [hpo, hqo]
    · rw [hpo, Function.update_self] at hp
      rw [Function.update_of_ne hqo, hlive hp q hqo] at hq
      cases hq
  · rw [Function.update_of_ne hpo] at hp
    by_cases hqo : q = op.pid
    · rw [hqo, Function.update_self] at hq
      rw [hlive hq p hpo] at hp
      cases hp
    · rw [Function.update_of_ne hqo] at hq
      exact h p q hp hq

omit [DecidableEq Pid] [DecidableEq W] in
private theorem live_of_busy {ph : Phase W} (h : ph.busy b = true) : ph.live = true := by
  cases ph <;> simp_all [Phase.busy, Phase.live]

private theorem renamesApart_of_live
    (h : ∀ p q, (s.procs p).live = true → (s.procs q).live = true → p = q)
    (hstep : cacheStep b op s = some (out, s')) : RenamesApart b op s := by
  intro hrename _ q hq
  obtain ⟨ph, hm, -, -⟩ := cacheStep_moves hstep
  have hlive : (s.procs op.pid).live = true := by
    rw [hrename] at hm
    generalize s.procs op.pid = before, s'.final = final, s'.work = work at hm
    cases hm <;> rfl
  rw [Bool.eq_false_iff]
  exact fun hbusy => hq (h q op.pid (live_of_busy hbusy) hlive)

/-- Runs of `ensure_cache` that follow each other, each stopped at any call, take no part of a tree
for the cached one, and the directory that a run gives back holds every entry of the blob, unless an
error is taken for the end of the archive or for a missing marker. -/
theorem ensure_cache_crash_safe (b : Blob) (s₀ s : Cache Pid W) (ops : List (CacheOp Pid W))
    (events : List (Event Pid)) (hinit : Initial b s₀)
    (hguard : GuardedRun (cacheStep b) (MeetsAlone b) ops s₀)
    (hrun : runOps (cacheStep b) ops s₀ = some (events, s)) :
    (∀ t, s.final = some t → b.Marked t → b.Complete t) ∧
      ∀ op out s' p, cacheStep b op s = some (out, s') → Event.returned p ∈ out →
        ∃ t, s'.final = some t ∧ b.Complete t := by
  have hinv := guardedRun_invariant
    (P := fun (_ : List (Event Pid)) s => CacheInv b False s ∧
      ∀ p q, (s.procs p).live = true → (s.procs q).live = true → p = q)
    (fun _ op s _ s' h hmeets hstep =>
      ⟨cacheInv_step h.1 (renamesApart_of_live h.2 hstep) False.elim hmeets.headers hmeets.looks
        hstep, live_step h.2 hmeets.sequential hstep⟩)
    ops [] s₀ s events ⟨cacheInv_initial hinit, fun p _ hp => by
      rw [hinit.start p] at hp
      cases hp⟩ hguard hrun
  refine ⟨hinv.1.cached, ?_⟩
  intro op out s' p hstep hp
  obtain ⟨ph, hm, -, rfl⟩ := cacheStep_moves hstep
  have hreturned : ph = .returned := by
    cases ph <;> simp_all [Phase.events]
  rw [hreturned] at hm
  exact hinv.1.moves_returned hm

/-- When every directory is renamed into place with no other process on its way, every marker is
written, and no error is taken for the end of the archive or for a missing marker, a directory that a
process has given back is complete and stays as it is, and no process fails for another's
extraction. -/
theorem ensure_cache_shares (b : Blob) (s₀ s s' : Cache Pid W) (ops later : List (CacheOp Pid W))
    (events events' : List (Event Pid)) (hinit : Initial b s₀)
    (hguard : GuardedRun (cacheStep b) (MeetsShared b) ops s₀)
    (hrun : runOps (cacheStep b) ops s₀ = some (events, s))
    (hguard' : GuardedRun (cacheStep b) (MeetsShared b) later s)
    (hlater : runOps (cacheStep b) later s = some (events', s')) :
    (∀ p, s.procs p = .returned →
      ∃ t, s.final = some t ∧ b.Complete t ∧ b.Marked t ∧ s'.final = some t) ∧
      ∀ p, ¬ LosesRace b s p := by
  have hinv : CacheInv b True s := guardedRun_invariant
    (P := fun (_ : List (Event Pid)) s => CacheInv b True s)
    (fun _ _ _ _ _ h hmeets hstep =>
      cacheInv_step h hmeets.apart (fun _ => hmeets.stamps) hmeets.headers hmeets.looks hstep)
    ops [] s₀ s events (cacheInv_initial hinit) hguard hrun
  constructor
  · intro p hp
    obtain ⟨t, ht, hmarked⟩ := hinv.returned trivial p hp
    refine ⟨t, ht, hinv.cached t ht hmarked, hmarked, ?_⟩
    have hkept := guardedRun_invariant
      (P := fun (_ : List (Event Pid)) s => CacheInv b True s ∧ s.final = some t)
      (fun _ _ _ _ _ h hmeets hstep => by
        refine ⟨cacheInv_step h.1 hmeets.apart (fun _ => hmeets.stamps) hmeets.headers
          hmeets.looks hstep, ?_⟩
        obtain ⟨ph, hm, -, -⟩ := cacheStep_moves hstep
        rw [h.1.moves_valid hm ⟨t, h.2, hmarked⟩, h.2])
      later [] s s' events' ⟨hinv, ht⟩ hguard' hlater
    exact hkept.2
  · rintro p ⟨⟨w, hw⟩, hvalid⟩
    exact hinv.pending p (by rw [hw]; rfl) hvalid

end Runs

section Schedules

private def oneFile : Blob where
  entries := [.regular ["a"] [1, 2]]
  hash := 0
  distinct := by decide
  leaves := by
    intro e he rel hrel _ rel' hrel' _
    simp only [List.mem_cons, List.not_mem_nil, or_false] at he
    subst he
    cases hrel
    simp only [List.filterMap_cons_some (show (TarEntry.regular ["a"] [1, 2]).rel =
      some ["a"] from rfl),
      List.filterMap_nil, List.mem_cons, List.not_mem_nil, or_false] at hrel'
    exact hrel'
  markerFree := by decide

private def noCache : Cache Nat Nat := ⟨none, fun _ => none, fun _ => .start⟩

private theorem noCache_initial : Initial oneFile noCache :=
  ⟨fun _ => rfl, fun _ ht => nomatch ht⟩

/-- From `mkdtemp` to the last call before the removal of what is there. -/
private def extraction (p w : Nat) : List (CacheOp Nat Nat) :=
  [⟨p, .mkdtemp w⟩, ⟨p, .header⟩, ⟨p, .call 0⟩, ⟨p, .call 0⟩, ⟨p, .call 1⟩, ⟨p, .call 5⟩,
    ⟨p, .endOfArchive⟩, ⟨p, .call 0⟩, ⟨p, .call 16⟩, ⟨p, .fclose⟩]

/-- A run crashes within the file; the next one comes to its `rename`. -/
private def crashedFirst : List (CacheOp Nat Nat) :=
  [⟨0, .mkdirs⟩, ⟨0, .fopen⟩, ⟨0, .mkdtemp 0⟩, ⟨0, .header⟩, ⟨0, .call 0⟩, ⟨0, .call 0⟩,
    ⟨0, .call 1⟩, ⟨0, .crash⟩, ⟨1, .mkdirs⟩, ⟨1, .fopen⟩] ++ extraction 1 1 ++
    [⟨1, .remove true []⟩, ⟨1, .remove true []⟩]

theorem second_run_complete :
    ∃ events s, runOps (cacheStep oneFile) crashedFirst noCache = some (events, s) ∧
      ∃ out s', cacheStep oneFile ⟨1, .rename⟩ s = some (out, s') ∧
        ∃ t, s'.final = some t ∧ oneFile.Complete t := by
  refine ⟨_, _, rfl, _, _, rfl, ?_⟩
  refine (ensure_cache_crash_safe oneFile noCache _ crashedFirst _ noCache_initial ?_ rfl).2
    ⟨1, .rename⟩ _ _ 1 rfl List.mem_cons_self
  refine guardedRun_cons ⟨fun _ _ _ => rfl, (nomatch ·), (nomatch ·)⟩ rfl ?_
  iterate 7
    refine guardedRun_cons ⟨(nomatch ·), (nomatch ·), (nomatch ·)⟩ rfl ?_
  refine guardedRun_cons ⟨?_, (nomatch ·), (nomatch ·)⟩ rfl ?_
  · intro _ q _
    by_cases hq : q = 0
    · subst hq
      rfl
    · simp only [Function.update_of_ne hq]
      rfl
  iterate 13
    refine guardedRun_cons ⟨(nomatch ·), (nomatch ·), (nomatch ·)⟩ rfl ?_
  trivial

/-- The header of the file is not read, for an error. -/
private def headerError : List (CacheOp Nat Nat) :=
  [⟨0, .mkdirs⟩, ⟨0, .fopen⟩, ⟨0, .mkdtemp 0⟩, ⟨0, .readError⟩, ⟨0, .call 0⟩, ⟨0, .call 16⟩,
    ⟨0, .fclose⟩, ⟨0, .remove true []⟩, ⟨0, .remove true []⟩]

/-- The directory is given back without the file. -/
theorem header_error_loses_file :
    ¬ ∀ ops events s, GuardedRun (cacheStep oneFile) Sequential ops noCache →
      runOps (cacheStep oneFile) ops noCache = some (events, s) →
      (∀ t, s.final = some t → oneFile.Marked t → oneFile.Complete t) ∧
        ∀ op out s' p, cacheStep oneFile op s = some (out, s') → Event.returned p ∈ out →
          ∃ t, s'.final = some t ∧ oneFile.Complete t := by
  intro h
  have hguard : GuardedRun (cacheStep oneFile) Sequential headerError noCache := by
    refine guardedRun_cons (fun _ _ _ => rfl) rfl ?_
    iterate 8
      refine guardedRun_cons (nomatch ·) rfl ?_
    trivial
  obtain ⟨t, ht, hcomplete⟩ :=
    (h headerError _ _ hguard rfl).2 ⟨0, .rename⟩ _ _ 0 rfl List.mem_cons_self
  have hfile : t.lookup ["a"] = some (.file [1, 2]) := hcomplete _ List.mem_cons_self
  have hgone : (some t).bind (·.lookup ["a"]) = none := by
    rw [← ht]
    rfl
  rw [Option.bind_some, hfile] at hgone
  cases hgone

private def extractedOnce : List (CacheOp Nat Nat) :=
  [⟨0, .mkdirs⟩, ⟨0, .fopen⟩] ++ extraction 0 0 ++
    [⟨0, .remove true []⟩, ⟨0, .remove true []⟩, ⟨0, .rename⟩]

private def foundLater : List (CacheOp Nat Nat) := [⟨1, .mkdirs⟩, ⟨1, .fopen⟩, ⟨1, .fread⟩]

theorem found_later_shared :
    ∃ events s events' s', runOps (cacheStep oneFile) extractedOnce noCache = some (events, s) ∧
      runOps (cacheStep oneFile) foundLater s = some (events', s') ∧
      (∃ t, s.final = some t ∧ oneFile.Complete t ∧ oneFile.Marked t ∧ s'.final = some t) ∧
      ¬ LosesRace oneFile s 1 := by
  refine ⟨_, _, _, _, rfl, rfl, ?_⟩
  have hshares := ensure_cache_shares oneFile noCache _ _ extractedOnce foundLater _ _
    noCache_initial ?_ rfl ?_ rfl
  · exact ⟨hshares.1 0 rfl, hshares.2 1⟩
  · iterate 14
      refine guardedRun_cons ⟨(nomatch ·), (nomatch ·), (nomatch ·), (nomatch ·)⟩ rfl ?_
    refine guardedRun_cons ⟨?_, (nomatch ·), (nomatch ·), (nomatch ·)⟩ rfl trivial
    intro _ _ q hq
    simp only [Function.update_of_ne hq]
    rfl
  · iterate 3
      refine guardedRun_cons ⟨(nomatch ·), (nomatch ·), (nomatch ·), (nomatch ·)⟩ rfl ?_
    trivial

/-- Both processes look for the marker before either renames. -/
private def bothLook : List (CacheOp Nat Nat) :=
  [⟨0, .mkdirs⟩, ⟨0, .fopen⟩, ⟨1, .mkdirs⟩, ⟨1, .fopen⟩] ++ extraction 0 0 ++
    [⟨0, .remove true []⟩, ⟨0, .remove true []⟩, ⟨0, .rename⟩]

private def removedLater : List (CacheOp Nat Nat) :=
  extraction 1 1 ++ [⟨1, .remove true ["a", doneName]⟩, ⟨1, .remove true []⟩, ⟨1, .remove true []⟩]

/-- The second process removes the file from the directory that the first one has given back. -/
theorem racing_process_removes :
    ¬ ∀ ops later events events' s s', runOps (cacheStep oneFile) ops noCache = some (events, s) →
      runOps (cacheStep oneFile) later s = some (events', s') →
      (∀ p, s.procs p = .returned → ∃ t, s.final = some t ∧ oneFile.Complete t ∧
        ∃ t', s'.final = some t' ∧ ∀ q n, t.lookup q = some n → t'.lookup q = some n) ∧
      ∀ p, ¬ LosesRace oneFile s p := by
  intro h
  obtain ⟨t, -, hcomplete, t', ht', hkeep⟩ :=
    (h bothLook removedLater _ _ _ _ rfl rfl).1 0 rfl
  have hfile : t.lookup ["a"] = some (.file [1, 2]) := hcomplete _ List.mem_cons_self
  have hgone : (some t').bind (·.lookup ["a"]) = none := by
    rw [← ht']
    rfl
  rw [Option.bind_some, hkeep _ _ hfile] at hgone
  cases hgone

end Schedules

end CZet.Driver
