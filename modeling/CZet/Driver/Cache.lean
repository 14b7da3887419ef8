/- source: src/czet.c (ensure_cache, remove_tree)
   digest: Processes that share one extraction cache: what a call of one of them does, and what
     every call keeps. -/

import CZet.Driver.Extract
import CZet.Lib.OpRun

set_option autoImplicit false
set_option relaxedAutoImplicit false

namespace CZet.Driver

open CZet.Lib.FileTree CZet.Lib.OpRun

def hexDigit (n : Nat) : UInt8 := UInt8.ofNat (if n < 10 then 48 + n else 87 + n)

/-- `%016llx` of the hash in the trailer. -/
def hashstr (hash : UInt64) : List UInt8 :=
  (List.range 16).reverse.map fun i => hexDigit (hash.toNat / 16 ^ i % 16)

namespace Blob

variable (b : Blob)

/-- What `fread` gives of the marker names the blob. -/
def accepts (data : List UInt8) : Bool :=
  let marker := data.take 16
  16 ≤ marker.length && marker = hashstr b.hash

def stampCalls : List FsCall := [.create [doneName], .write [doneName] (hashstr b.hash)]

/-- The tree has a valid marker. -/
def Marked (t : FsTree) : Prop :=
  ∃ data, t.lookup [doneName] = some (.file data) ∧ b.accepts data = true

end Blob

/-- Where a process stands in `ensure_cache`: before which call, with the calls of the loop it is in
that are left, and the entries of the archive whose headers are not read yet. -/
inductive Phase (W : Type)
  | start
  | check
  | marker (data : List UInt8)
  | mkdtemp
  | extract (work : W) (todo : List FsCall) (unread : List TarEntry)
  | stamp (work : W) (todo : List FsCall)
  | replace (work : W) (todo : List (Removal String))
  | cleanup (work : W) (todo : List (Removal String))
  | returned
  | failed
  | crashed

/-- The next call of a process, or its end. -/
inductive Act (W : Type)
  | mkdirs
  | fopen
  | fread
  | mkdtemp (work : W)
  | header
  | call (k : Nat)
  | endOfArchive
  | readError
  | fclose
  | remove (ok : Bool) (names : List String)
  | rename
  | noMemory
  | fail
  | crash

namespace Phase

variable {W : Type}

def live : Phase W → Bool
  | start | returned | failed | crashed => false
  | _ => true

/-- The process looks for the marker. -/
def looking : Phase W → Bool
  | check | marker _ => true
  | _ => false

/-- The process has not found the directory complete, and is to replace it. -/
def busy (b : Blob) : Phase W → Bool
  | marker data => !b.accepts data
  | mkdtemp | extract .. | stamp .. | replace .. => true
  | _ => false

/-- The work directory that the process still uses. -/
def owns : Phase W → Option W
  | extract work _ _ | stamp work _ | replace work _ | cleanup work (_ :: _) => some work
  | _ => none

end Phase

/-- `rename` replaces no directory but an empty one. -/
def renames : Option FsTree → Bool
  | none => true
  | some t => emptyBelow t []

def markerData (final : Option FsTree) : Option (List UInt8) :=
  match final.bind (·.lookup [doneName]) with
  | some (.file data) => some data
  | _ => none

section Process

variable {W : Type} [DecidableEq W]

/-- One call of a process: the phase after it, the cache directory and the work directories. -/
def processStep (b : Blob) (final : Option FsTree) (work : W → Option FsTree) :
    Phase W → Act W → Option (Phase W × Option FsTree × (W → Option FsTree))
  | .start, .mkdirs => some (.check, some (final.getD emptyDir), work)
  | .start, .fail => some (.failed, final, work)
  | .check, .fopen =>
      match markerData final with
      | some data => some (.marker data, final, work)
      | none => some (.mkdtemp, final, work)
  | .check, .noMemory => some (.failed, final, work)
  | .marker data, .fread =>
      some (if b.accepts data then .returned else .mkdtemp, final, work)
  -- a marker that cannot be opened or read counts as none
  | .check, .fail | .marker _, .fail => some (.mkdtemp, final, work)
  | .mkdtemp, .mkdtemp w =>
      if work w = none then
        some (.extract w [] b.entries, final, Function.update work w (some emptyDir))
      else none
  | .mkdtemp, .fail => some (.failed, final, work)
  | .extract w [] (e :: unread), .header => some (.extract w e.calls unread, final, work)
  | .extract w todo unread, .call k => do
      let (todo', t) ← (work w).bind (nextCall k todo)
      pure (.extract w todo' unread, final, Function.update work w (some t))
  | .extract w [] [], .endOfArchive => some (.stamp w b.stampCalls, final, work)
  -- at the header, a `fread` that fails gives 0, as at the end of the archive
  | .extract w [] _, .readError => some (.stamp w b.stampCalls, final, work)
  | .extract w _ _, .fail => some (.cleanup w [.lstat []], final, work)
  | .stamp w todo, .call k => do
      let (todo', t) ← (work w).bind (nextCall k todo)
      pure (.stamp w todo', final, Function.update work w (some t))
  | .stamp w [], .fclose => some (.replace w [.lstat []], final, work)
  -- a marker that cannot be opened or written is not an error
  | .stamp w (_ :: _), .fail => some (.replace w [.lstat []], final, work)
  | .replace w todo, .remove ok names => do
      let (todo', d) ← nextRemoval ok names todo final
      pure (.replace w todo', d, work)
  | .replace w [], .rename =>
      if (work w).isSome && renames final then
        some (.returned, work w, Function.update work w none)
      else some (.cleanup w [.lstat []], final, work)
  | .replace w [], .fail => some (.cleanup w [.lstat []], final, work)
  | .cleanup w todo, .remove ok names => do
      let (todo', d) ← nextRemoval ok names todo (work w)
      pure (.cleanup w todo', final, Function.update work w d)
  | .cleanup _ [], .fail => some (.failed, final, work)
  | ph, .crash => if ph.live then some (.crashed, final, work) else none
  | _, _ => none

/-- What `processStep` does, call by call. -/
inductive Moves (b : Blob) (final : Option FsTree) (work : W → Option FsTree) :
    Phase W → Act W → Phase W → Option FsTree → (W → Option FsTree) → Prop
  | mkdirs : Moves b final work .start .mkdirs .check (some (final.getD emptyDir)) work
  | cannotStart : Moves b final work .start .fail .failed final work
  | opened (data : List UInt8) (h : markerData final = some data) :
      Moves b final work .check .fopen (.marker data) final work
  | noMarker (h : markerData final = none) :
      Moves b final work .check .fopen .mkdtemp final work
  | cached (data : List UInt8) (h : b.accepts data = true) :
      Moves b final work (.marker data) .fread .returned final work
  | stale (data : List UInt8) (h : b.accepts data = false) :
      Moves b final work (.marker data) .fread .mkdtemp final work
  | noPath : Moves b final work .check .noMemory .failed final work
  | cannotLook (ph : Phase W) (h : ph.looking = true) :
      Moves b final work ph .fail .mkdtemp final work
  | mkdtemp (w : W) (h : work w = none) :
      Moves b final work .mkdtemp (.mkdtemp w) (.extract w [] b.entries) final
        (Function.update work w (some emptyDir))
  | cannotWork : Moves b final work .mkdtemp .fail .failed final work
  | header (w : W) (e : TarEntry) (unread : List TarEntry) :
      Moves b final work (.extract w [] (e :: unread)) .header (.extract w e.calls unread) final work
  | extract (w : W) (k : Nat) (todo todo' : List FsCall) (unread : List TarEntry) (t t' : FsTree)
      (hwork : work w = some t) (h : nextCall k todo t = some (todo', t')) :
      Moves b final work (.extract w todo unread) (.call k) (.extract w todo' unread) final
        (Function.update work w (some t'))
  | extracted (w : W) :
      Moves b final work (.extract w [] []) .endOfArchive (.stamp w b.stampCalls) final work
  | cutShort (w : W) (unread : List TarEntry) :
      Moves b final work (.extract w [] unread) .readError (.stamp w b.stampCalls) final work
  | cannotExtract (w : W) (todo : List FsCall) (unread : List TarEntry) :
      Moves b final work (.extract w todo unread) .fail (.cleanup w [.lstat []]) final work
  | stamp (w : W) (k : Nat) (todo todo' : List FsCall) (t t' : FsTree) (hwork : work w = some t)
      (h : nextCall k todo t = some (todo', t')) :
      Moves b final work (.stamp w todo) (.call k) (.stamp w todo') final
        (Function.update work w (some t'))
  | stamped (w : W) : Moves b final work (.stamp w []) .fclose (.replace w [.lstat []]) final work
  | cannotStamp (w : W) (todo : List FsCall) (h : todo ≠ []) :
      Moves b final work (.stamp w todo) .fail (.replace w [.lstat []]) final work
  | remove (w : W) (ok : Bool) (names : List String) (todo todo' : List (Removal String))
      (d : Option FsTree) (h : nextRemoval ok names todo final = some (todo', d)) :
      Moves b final work (.replace w todo) (.remove ok names) (.replace w todo') d work
  | rename (w : W) (h : renames final = true) :
      Moves b final work (.replace w []) .rename .returned (work w) (Function.update work w none)
  | cannotRename (w : W) (a : Act W)
      (h : a = .fail ∨ a = .rename ∧ ((work w).isSome && renames final) = false) :
      Moves b final work (.replace w []) a (.cleanup w [.lstat []]) final work
  | cleanup (w : W) (ok : Bool) (names : List String) (todo todo' : List (Removal String))
      (d : Option FsTree) (h : nextRemoval ok names todo (work w) = some (todo', d)) :
      Moves b final work (.cleanup w todo) (.remove ok names) (.cleanup w todo') final
        (Function.update work w d)
  | gaveUp (w : W) : Moves b final work (.cleanup w []) .fail .failed final work
  | crash (ph : Phase W) (h : ph.live = true) :
      Moves b final work ph .crash .crashed final work

theorem processStep_moves {b : Blob} {final final' : Option FsTree} {work work' : W → Option FsTree}
    {ph ph' : Phase W} {a : Act W} (h : processStep b final work ph a = some (ph', final', work')) :
    Moves b final work ph a ph' final' work' := by
  unfold processStep at h
  split at h
  case h_1 | h_2 | h_4 | h_9 | h_10 | h_12 | h_13 | h_14 | h_16 | h_22 =>
    cases h
    constructor
  case h_3 =>
    split at h
    next data hdata =>
      cases h
      exact .opened data hdata
    next hnone =>
      cases h
      exact .noMarker hnone
  case h_5 data =>
    cases h
    split
    next haccepts => exact .cached data haccepts
    next hrejects => exact .stale data (Bool.eq_false_iff.mpr hrejects)
  case h_6 | h_7 =>
    cases h
    exact .cannotLook _ rfl
  case h_8 w =>
    split at h
    next hfree =>
      cases h
      exact .mkdtemp w hfree
    next => cases h
  case h_11 w todo unread k =>
    obtain ⟨⟨todo', t'⟩, hcall, hres⟩ := Option.bind_eq_some_iff.mp h
    obtain ⟨t, hwork, hnext⟩ := Option.bind_eq_some_iff.mp hcall
    cases hres
    exact .extract w k todo todo' unread t t' hwork hnext
  case h_15 w todo k =>
    obtain ⟨⟨todo', t'⟩, hcall, hres⟩ := Option.bind_eq_some_iff.mp h
    obtain ⟨t, hwork, hnext⟩ := Option.bind_eq_some_iff.mp hcall
    cases hres
    exact .stamp w k todo todo' t t' hwork hnext
  case h_17 w c todo =>
    cases h
    exact .cannotStamp w _ (List.cons_ne_nil c todo)
  case h_18 w todo ok names =>
    obtain ⟨⟨todo', d⟩, hnext, hres⟩ := Option.bind_eq_some_iff.mp h
    cases hres
    exact .remove w ok names todo _ _ hnext
  case h_19 w =>
    split at h
    next hrenames =>
      cases h
      exact .rename w (Bool.and_eq_true_iff.mp hrenames).2
    next hblocked =>
      cases h
      exact .cannotRename w _ (Or.inr ⟨rfl, Bool.eq_false_iff.mpr hblocked⟩)
  case h_20 w =>
    cases h
    exact .cannotRename w _ (Or.inl rfl)
  case h_21 w todo ok names =>
    obtain ⟨⟨todo', d⟩, hnext, hres⟩ := Option.bind_eq_some_iff.mp h
    cases hres
    exact .cleanup w ok names todo _ _ hnext
  case h_23 =>
    split at h
    next hlive =>
      cases h
      exact .crash _ hlive
    next => cases h
  case h_24 => cases h

end Process

/-- The processes, the cache directory they share and their work directories beside it. -/
structure Cache (Pid W : Type) where
  final : Option FsTree
  work : W → Option FsTree
  procs : Pid → Phase W

structure CacheOp (Pid W : Type) where
  pid : Pid
  act : Act W

/-- What `ensure_cache` gives back: the directory, or `NULL`. -/
inductive Event (Pid : Type)
  | returned (p : Pid)
  | failed (p : Pid)

def Phase.events {Pid W : Type} (p : Pid) : Phase W → List (Event Pid)
  | returned => [.returned p]
  | failed => [.failed p]
  | _ => []

section Processes

variable {Pid W : Type} [DecidableEq Pid] [DecidableEq W]

def cacheStep (b : Blob) (op : CacheOp Pid W) (s : Cache Pid W) :
    Option (List (Event Pid) × Cache Pid W) :=
  (processStep b s.final s.work (s.procs op.pid) op.act).map fun (ph, final, work) =>
    (ph.events op.pid, ⟨final, work, Function.update s.procs op.pid ph⟩)

theorem cacheStep_moves {b : Blob} {op : CacheOp Pid W} {s s' : Cache Pid W}
    {out : List (Event Pid)} (h : cacheStep b op s = some (out, s')) :
    ∃ ph, Moves b s.final s.work (s.procs op.pid) op.act ph s'.final s'.work ∧
      s'.procs = Function.update s.procs op.pid ph ∧ out = ph.events op.pid := by
  obtain ⟨⟨ph, final, work⟩, hprocess, hpair⟩ := Option.map_eq_some_iff.mp h
  obtain ⟨rfl, rfl⟩ := Prod.mk.inj hpair
  exact ⟨ph, processStep_moves hprocess, rfl, rfl⟩

/-- No process runs yet, and what earlier runs left is not a part of a tree with a valid marker. -/
structure Initial (b : Blob) (s : Cache Pid W) : Prop where
  start : ∀ p, s.procs p = .start
  cached : ∀ t, s.final = some t → b.Marked t → b.Complete t

def Blob.Valid (b : Blob) (final : Option FsTree) : Prop := ∃ t, final = some t ∧ b.Marked t

section Marker

variable {b : Blob} {t t' : FsTree}

private theorem hashstr_length (hash : UInt64) : (hashstr hash).length = 16 := by
  rw [hashstr, List.length_map, List.length_reverse, List.length_range]

private theorem accepts_hashstr (b : Blob) : b.accepts (hashstr b.hash) = true := by
  have htake : (hashstr b.hash).take 16 = hashstr b.hash :=
    List.take_of_length_le (Nat.le_of_eq (hashstr_length b.hash))
  rw [Blob.accepts, htake, hashstr_length]
  simp

private theorem marked_of_stamps (h : finish b.stampCalls t = some t') : b.Marked t' := by
  obtain ⟨mid, hcreate, hrest⟩ := finish_cons h
  obtain ⟨last, hwrite, hdone⟩ := finish_cons hrest
  obtain rfl := Option.some.inj hdone
  obtain ⟨old, hold, rfl⟩ := write_appends hwrite
  obtain rfl := Node.file.inj (Option.some.inj (hold.symm.trans (create_makes hcreate)))
  exact ⟨hashstr b.hash, Finmap.lookup_insert _, accepts_hashstr b⟩

private theorem stampCalls_path : ∀ c ∈ b.stampCalls, c.path = [doneName] := by
  intro c hc
  simp only [Blob.stampCalls, List.mem_cons, List.not_mem_nil, or_false] at hc
  rcases hc with rfl | rfl <;> rfl

private theorem markerData_iff {final : Option FsTree} {data : List UInt8} :
    markerData final = some data ↔
      ∃ t, final = some t ∧ t.lookup [doneName] = some (.file data) := by
  cases final with
  | none => simp [markerData]
  | some t =>
      simp only [markerData, Option.bind_some, Option.some.injEq, exists_eq_left']
      split
      next d hd =>
        rw [hd, Option.some.injEq, Option.some.injEq, Node.file.injEq]
      next hne =>
        refine iff_of_false (by simp) ?_
        intro h
        exact hne data h

private theorem valid_iff {final : Option FsTree} :
    b.Valid final ↔ ∃ data, markerData final = some data ∧ b.accepts data = true := by
  constructor
  · rintro ⟨t, rfl, data, hdata, haccepts⟩
    exact ⟨data, markerData_iff.mpr ⟨t, rfl, hdata⟩, haccepts⟩
  · rintro ⟨data, hdata, haccepts⟩
    obtain ⟨t, rfl, hlookup⟩ := markerData_iff.mp hdata
    exact ⟨t, rfl, data, hlookup, haccepts⟩

private theorem not_valid_empty : ¬ b.Valid (some emptyDir) := by
  rintro ⟨t, ht, data, hdata, -⟩
  obtain rfl := Option.some.inj ht
  have hmem := Finmap.mem_of_lookup_eq_some hdata
  rw [emptyDir, Finmap.mem_singleton] at hmem
  cases hmem

private theorem not_valid_removal {ok : Bool} {names : List String}
    {todo todo' : List (Removal String)} {d d' : Option FsTree}
    (h : nextRemoval ok names todo d = some (todo', d')) (hd : ¬ b.Valid d) : ¬ b.Valid d' := by
  rintro ⟨t', rfl, data, hdata, haccepts⟩
  obtain ⟨t, rfl, hkeep⟩ := nextRemoval_lookup h rfl
  exact hd ⟨t, rfl, data, hkeep _ _ hdata, haccepts⟩

private theorem not_valid_of_renames {final : Option FsTree} (h : renames final = true) :
    ¬ b.Valid final := by
  rintro ⟨t, rfl, data, hdata, -⟩
  have hbelow := of_decide_eq_true h [doneName]
    (Finmap.mem_keys.mpr (Finmap.mem_of_lookup_eq_some hdata)) List.nil_prefix
  cases hbelow

end Marker

/-- What the work directory of a process holds where it stands. -/
def PhaseTree (b : Blob) (strict : Prop) : Phase W → FsTree → Prop
  | .extract _ todo unread, t =>
      ∀ t', finish (todo ++ unread.flatMap TarEntry.calls) t = some t' → b.Complete t'
  | .stamp _ todo, t => b.Complete t ∧ (∀ c ∈ todo, c.path = [doneName]) ∧
      (strict → ∀ t', finish todo t = some t' → b.Marked t')
  | .replace _ _, t => b.Complete t ∧ (strict → b.Marked t)
  | .cleanup _ todo, _ => RootLast todo
  | _, _ => True

/-- A valid marker stands in a complete tree, and nobody is about to replace that tree; with
`strict`, the marker of every directory given back is valid. -/
structure CacheInv (b : Blob) (strict : Prop) (s : Cache Pid W) : Prop where
  cached : ∀ t, s.final = some t → b.Marked t → b.Complete t
  pending : ∀ p, (s.procs p).busy b = true → ¬ b.Valid s.final
  opened : ∀ p data, s.procs p = .marker data → b.accepts data = true → b.Valid s.final
  returned : strict → ∀ p, s.procs p = .returned → b.Valid s.final
  tree : ∀ p w, (s.procs p).owns = some w →
    ∃ t, s.work w = some t ∧ PhaseTree b strict (s.procs p) t
  apart : ∀ p q w, (s.procs p).owns = some w → (s.procs q).owns = some w → p = q

section Invariant

variable {b : Blob} {strict : Prop} {s s' : Cache Pid W} {op : CacheOp Pid W}
  {out : List (Event Pid)}

omit [DecidableEq Pid] [DecidableEq W] in
theorem cacheInv_initial (h : Initial b s) : CacheInv b strict s where
  cached := h.cached
  pending p hp := by
    rw [h.start p] at hp
    cases hp
  opened p data hp := by
    rw [h.start p] at hp
    cases hp
  returned _ p hp := by
    rw [h.start p] at hp
    cases hp
  tree p w hp := by
    rw [h.start p] at hp
    cases hp
  apart p q w hp := by
    rw [h.start p] at hp
    cases hp

omit [DecidableEq W] in
private theorem CacheInv.move (h : CacheInv b strict s) {p : Pid} {ph : Phase W}
    (hself : s'.procs p = ph) (hother : ∀ q, q ≠ p → s'.procs q = s.procs q)
    (hfinal : s'.final = s.final ∨ ¬ b.Valid s.final ∧ ¬ b.Valid s'.final)
    (hwork : ∀ q, q ≠ p → ∀ w, (s.procs q).owns = some w → s'.work w = s.work w)
    (hbusy : ph.busy b = true → ¬ b.Valid s'.final)
    (hopened : ∀ data, ph = .marker data → b.accepts data = true → b.Valid s'.final)
    (hreturned : strict → ph = .returned → b.Valid s'.final)
    (htree : ∀ w, ph.owns = some w → ∃ t, s'.work w = some t ∧ PhaseTree b strict ph t)
    (hapart : ∀ w, ph.owns = some w → ∀ q, q ≠ p → (s.procs q).owns ≠ some w) :
    CacheInv b strict s' := by
  have hvalid : b.Valid s'.final ↔ b.Valid s.final := by
    rcases hfinal with hsame | ⟨hbefore, hafter⟩
    · rw [hsame]
    · exact iff_of_false hafter hbefore
  constructor
  · intro t ht hmarked
    rcases hfinal with hsame | ⟨-, hafter⟩
    · exact h.cached t (hsame ▸ ht) hmarked
    · exact absurd ⟨t, ht, hmarked⟩ hafter
  · intro q hq
    by_cases hqp : q = p
    · rw [hqp, hself] at hq
      exact hbusy hq
    · rw [hother q hqp] at hq
      exact fun hv => h.pending q hq (hvalid.mp hv)
  · intro q data hq haccepts
    by_cases hqp : q = p
    · rw [hqp, hself] at hq
      exact hopened data hq haccepts
    · rw [hother q hqp] at hq
      exact hvalid.mpr (h.opened q data hq haccepts)
  · intro hstrict q hq
    by_cases hqp : q = p
    · rw [hqp, hself] at hq
      exact hreturned hstrict hq
    · rw [hother q hqp] at hq
      exact hvalid.mpr (h.returned hstrict q hq)
  · intro q w hq
    by_cases hqp : q = p
    · rw [hqp, hself] at hq ⊢
      exact htree w hq
    · rw [hother q hqp] at hq ⊢
      obtain ⟨t, ht, hphase⟩ := h.tree q w hq
      exact ⟨t, (hwork q hqp w hq).trans ht, hphase⟩
  · intro q r w hq hr
    by_cases hqp : q = p
    · by_cases hrp : r = p
      · rw [hqp, hrp]
      · rw [hqp, hself] at hq
        rw [hother r hrp] at hr
        exact absurd hr (hapart w hq r hrp)
    · rw [hother q hqp] at hq
      by_cases hrp : r = p
      · rw [hrp, hself] at hr
        exact absurd hq (hapart w hr q hqp)
      · rw [hother r hrp] at hr
        exact h.apart q r w hq hr

omit [DecidableEq W] in
private theorem CacheInv.stand (h : CacheInv b strict s) {p : Pid} {ph : Phase W}
    (hself : s'.procs p = ph) (hother : ∀ q, q ≠ p → s'.procs q = s.procs q)
    (hfinal : s'.final = s.final) (hwork : s'.work = s.work)
    (hbusy : ph.busy b = true → ¬ b.Valid s.final)
    (hopened : ∀ data, ph = .marker data → b.accepts data = true → b.Valid s.final)
    (hreturned : strict → ph = .returned → b.Valid s.final)
    (howns : ∀ w, ph.owns = some w → (s.procs p).owns = some w)
    (htree : ∀ w t, ph.owns = some w → PhaseTree b strict (s.procs p) t → PhaseTree b strict ph t) :
    CacheInv b strict s' := by
  refine h.move hself hother (Or.inl hfinal) (fun _ _ _ _ => by rw [hwork]) ?_ ?_ ?_ ?_ ?_
  · rwa [hfinal]
  · rwa [hfinal]
  · rwa [hfinal]
  · intro w hw
    obtain ⟨t, ht, hphase⟩ := h.tree p w (howns w hw)
    exact ⟨t, by rw [hwork, ht], htree w t hw hphase⟩
  · intro w hw q hq hqw
    exact hq (h.apart q p w hqw (howns w hw))

private theorem CacheInv.workIn (h : CacheInv b strict s) {p : Pid} {ph : Phase W} {w : W}
    {d : Option FsTree}
    (hself : s'.procs p = ph) (hother : ∀ q, q ≠ p → s'.procs q = s.procs q)
    (hfinal : s'.final = s.final) (hwork : s'.work = Function.update s.work w d)
    (hfree : ∀ q, q ≠ p → (s.procs q).owns ≠ some w)
    (hbusy : ph.busy b = true → ¬ b.Valid s.final)
    (hmarker : ∀ data, ph ≠ .marker data) (hreturned : ph ≠ .returned)
    (howns : ∀ w', ph.owns = some w' → w' = w)
    (htree : ph.owns = some w → ∃ t, d = some t ∧ PhaseTree b strict ph t) :
    CacheInv b strict s' := by
  refine h.move hself hother (Or.inl hfinal) ?_ ?_ ?_ ?_ ?_ ?_
  · intro q hq w' hw'
    have hne : w' ≠ w := by
      rintro rfl
      exact hfree q hq hw'
    rw [hwork, Function.update_of_ne hne]
  · rwa [hfinal]
  · exact fun data hdata => absurd hdata (hmarker data)
  · exact fun _ hret => absurd hret hreturned
  · intro w' hw'
    obtain rfl := howns w' hw'
    rw [hwork, Function.update_self]
    exact htree hw'
  · intro w' hw'
    obtain rfl := howns w' hw'
    exact hfree

/-- What one call keeps, by the call. -/
theorem CacheInv.moves (h : CacheInv b strict s) {p : Pid} {a : Act W} {before ph : Phase W}
    {final : Option FsTree} {work : W → Option FsTree}
    (hm : Moves b s.final s.work before a ph final work) (hbefore : s.procs p = before)
    (hself : s'.procs p = ph) (hother : ∀ q, q ≠ p → s'.procs q = s.procs q)
    (hfinal : s'.final = final) (hwork : s'.work = work)
    (hapart : a = .rename → renames s.final = true → ∀ q, q ≠ p → (s.procs q).busy b = false)
    (hstamps : strict → a = .fail → ∀ w todo, before ≠ .stamp w todo)
    (hheaders : a = .readError → ∀ w todo unread, before = .extract w todo unread →
      ∀ e ∈ unread, e = .skipped)
    (hlooks : a = .fail → before.looking = true → ¬ b.Valid s.final) :
    CacheInv b strict s' := by
  have howner : ∀ w, before.owns = some w → ∀ q, q ≠ p → (s.procs q).owns ≠ some w := by
    intro w hw q hq hqw
    exact hq (h.apart q p w hqw (hbefore ▸ hw))
  have htree : ∀ w, before.owns = some w →
      ∃ t, s.work w = some t ∧ PhaseTree b strict before t := by
    intro w hw
    have := h.tree p w (hbefore ▸ hw)
    rwa [hbefore] at this
  have hpending : before.busy b = true → ¬ b.Valid s.final := fun hb => h.pending p (hbefore ▸ hb)
  cases hm with
  | mkdirs =>
      refine h.move hself hother ?_ (fun _ _ _ _ => by rw [hwork]) ?_ ?_ ?_ ?_ ?_
      · cases hcase : s.final with
        | none =>
            rw [hcase, Option.getD_none] at hfinal
            refine Or.inr ⟨?_, hfinal ▸ not_valid_empty⟩
            rintro ⟨t, ht, -⟩
            cases ht
        | some t =>
            rw [hcase, Option.getD_some] at hfinal
            exact Or.inl hfinal
      all_goals simp [Phase.busy, Phase.owns]
  | cannotStart | noPath | cannotWork | gaveUp | crash =>
      refine h.stand hself hother hfinal hwork ?_ ?_ ?_ ?_ ?_
      all_goals simp [Phase.busy, Phase.owns]
  | opened data hdata =>
      refine h.stand hself hother hfinal hwork ?_ ?_ ?_ ?_ ?_
      · intro hrejects hvalid
        obtain ⟨data', hdata', haccepts⟩ := valid_iff.mp hvalid
        obtain rfl := Option.some.inj (hdata'.symm.trans hdata)
        simp [Phase.busy, haccepts] at hrejects
      · intro data' heq haccepts
        obtain rfl := Phase.marker.inj heq
        exact valid_iff.mpr ⟨data, hdata, haccepts⟩
      all_goals simp [Phase.owns]
  | noMarker hnone =>
      refine h.stand hself hother hfinal hwork ?_ ?_ ?_ ?_ ?_
      · intro _ hvalid
        obtain ⟨data, hdata, -⟩ := valid_iff.mp hvalid
        rw [hnone] at hdata
        cases hdata
      all_goals simp [Phase.owns]
  | cached data haccepts =>
      refine h.stand hself hother hfinal hwork ?_ ?_ ?_ ?_ ?_
      · simp [Phase.busy]
      · simp
      · exact fun _ _ => h.opened p data hbefore haccepts
      all_goals simp [Phase.owns]
  | stale data hrejects =>
      refine h.stand hself hother hfinal hwork ?_ ?_ ?_ ?_ ?_
      · exact fun _ => hpending (by simp [Phase.busy, hrejects])
      all_goals simp [Phase.owns]
  | cannotLook _ hlooking =>
      refine h.stand hself hother hfinal hwork ?_ ?_ ?_ ?_ ?_
      · exact fun _ => hlooks rfl hlooking
      all_goals simp [Phase.owns]
  | mkdtemp w hfree =>
      refine h.workIn hself hother hfinal hwork ?_ (fun _ => hpending rfl) (by simp) (by simp) ?_ ?_
      · intro q _ hqw
        obtain ⟨t, ht, -⟩ := h.tree q w hqw
        rw [hfree] at ht
        cases ht
      · intro w' hw'
        exact (Option.some.inj hw').symm
      · exact fun _ => ⟨emptyDir, rfl, fun _ hfinish => extraction_complete b hfinish⟩
  | header w e unread =>
      refine h.stand hself hother hfinal hwork (fun _ => hpending rfl) (by simp) (by simp) ?_ ?_
      · rw [hbefore]
        exact fun _ hw => hw
      · rw [hbefore]
        exact fun _ t _ hphase last hlast => hphase last hlast
  | extract w k todo todo' unread t t' ht hnext =>
      obtain ⟨t₀, ht₀, hphase⟩ := htree w rfl
      obtain rfl := Option.some.inj (ht.symm.trans ht₀)
      refine h.workIn hself hother hfinal hwork (howner w rfl) (fun _ => hpending rfl) (by simp)
        (by simp) ?_ ?_
      · intro w' hw'
        exact (Option.some.inj hw').symm
      · refine fun _ => ⟨t', rfl, fun last hlast => hphase last ?_⟩
        rw [finish_append, nextCall_finish hnext, ← finish_append, hlast]
  | extracted w =>
      refine h.stand hself hother hfinal hwork (fun _ => hpending rfl) (by simp) (by simp) ?_ ?_
      · rw [hbefore]
        exact fun _ hw => hw
      · rw [hbefore]
        exact fun _ t _ hphase =>
          ⟨hphase t rfl, stampCalls_path, fun _ last hlast => marked_of_stamps hlast⟩
  | cutShort w unread =>
      have hnone : unread.flatMap TarEntry.calls = [] := by
        rw [List.flatMap_eq_nil_iff]
        intro e he
        rw [hheaders rfl w [] unread rfl e he]
        rfl
      refine h.stand hself hother hfinal hwork (fun _ => hpending rfl) (by simp) (by simp) ?_ ?_
      · rw [hbefore]
        exact fun _ hw => hw
      · rw [hbefore]
        refine fun _ t _ hphase =>
          ⟨hphase t ?_, stampCalls_path, fun _ last hlast => marked_of_stamps hlast⟩
        rw [hnone]
        rfl
  | cannotExtract w todo =>
      refine h.stand hself hother hfinal hwork (by simp [Phase.busy]) (by simp) (by simp) ?_ ?_
      · rw [hbefore]
        exact fun _ hw => hw
      · exact fun _ _ _ _ r hr => (List.not_mem_nil hr).elim
  | stamp w k todo todo' t t' ht hnext =>
      obtain ⟨t₀, ht₀, hcomplete, hpath, hmarks⟩ := htree w rfl
      obtain rfl := Option.some.inj (ht.symm.trans ht₀)
      refine h.workIn hself hother hfinal hwork (howner w rfl) (fun _ => hpending rfl) (by simp)
        (by simp) ?_ ?_
      · intro w' hw'
        exact (Option.some.inj hw').symm
      · intro _
        have hkeep := fun q (hq : q ≠ [doneName]) => nextCall_ne hnext hpath hq
        refine ⟨t', rfl, hcomplete.of_lookup_ne fun q hq => (hkeep q hq).1, ?_, ?_⟩
        · exact (hkeep [] (by simp)).2
        · intro hstrict last hlast
          refine hmarks hstrict last ?_
          rw [nextCall_finish hnext, hlast]
  | stamped w =>
      refine h.stand hself hother hfinal hwork (fun _ => hpending rfl) (by simp) (by simp) ?_ ?_
      · rw [hbefore]
        exact fun _ hw => hw
      · rw [hbefore]
        exact fun _ t _ hphase => ⟨hphase.1, fun hstrict => hphase.2.2 hstrict t rfl⟩
  | cannotStamp w todo hne =>
      refine h.stand hself hother hfinal hwork (fun _ => hpending rfl) (by simp) (by simp) ?_ ?_
      · rw [hbefore]
        exact fun _ hw => hw
      · rw [hbefore]
        exact fun _ t _ hphase =>
          ⟨hphase.1, fun hstrict => absurd rfl (hstamps hstrict rfl w todo)⟩
  | remove w ok names todo todo' d hnext =>
      have hinvalid := hpending rfl
      have hstill : ¬ b.Valid s'.final := by
        rw [hfinal]
        exact not_valid_removal hnext hinvalid
      refine h.move hself hother (Or.inr ⟨hinvalid, hstill⟩) (fun _ _ _ _ => by rw [hwork])
        (fun _ => hstill) (by simp) (by simp) ?_ ?_
      · intro w' hw'
        obtain rfl := Option.some.inj hw'
        rw [hwork]
        exact htree w rfl
      · intro w' hw'
        obtain rfl := Option.some.inj hw'
        exact howner w rfl
  | rename w hrenames =>
      obtain ⟨t, ht, hcomplete, hmarks⟩ := htree w rfl
      have hothers := hapart rfl hrenames
      have hinvalid : ¬ b.Valid s.final := not_valid_of_renames hrenames
      rw [ht] at hfinal
      constructor
      · intro t' ht' _
        obtain rfl := Option.some.inj (hfinal.symm.trans ht')
        exact hcomplete
      · intro q hq
        by_cases hqp : q = p
        · rw [hqp, hself] at hq
          cases hq
        · rw [hother q hqp, hothers q hqp] at hq
          cases hq
      · intro q data hq haccepts
        by_cases hqp : q = p
        · rw [hqp, hself] at hq
          cases hq
        · rw [hother q hqp] at hq
          exact absurd (h.opened q data hq haccepts) hinvalid
      · exact fun hstrict q _ => ⟨t, hfinal, hmarks hstrict⟩
      · intro q w' hq
        by_cases hqp : q = p
        · rw [hqp, hself] at hq
          cases hq
        · rw [hother q hqp] at hq ⊢
          have hne : w' ≠ w := by
            rintro rfl
            exact howner w' rfl q hqp hq
          rw [hwork, Function.update_of_ne hne]
          exact h.tree q w' hq
      · intro q r w' hq hr
        by_cases hqp : q = p
        · rw [hqp, hself] at hq
          cases hq
        · by_cases hrp : r = p
          · rw [hrp, hself] at hr
            cases hr
          · rw [hother q hqp] at hq
            rw [hother r hrp] at hr
            exact h.apart q r w' hq hr
  | cannotRename w =>
      refine h.stand hself hother hfinal hwork (by simp [Phase.busy]) (by simp) (by simp) ?_ ?_
      · rw [hbefore]
        exact fun _ hw => hw
      · exact fun _ _ _ _ r hr => (List.not_mem_nil hr).elim
  | cleanup w ok names todo todo' d hnext =>
      have hcons : ∃ r rest, todo = r :: rest := by
        cases todo with
        | nil => cases hnext
        | cons r rest => exact ⟨r, rest, rfl⟩
      obtain ⟨r, rest, rfl⟩ := hcons
      obtain ⟨t, ht, hphase⟩ := htree w rfl
      have hroot := nextRemoval_root hnext hphase (by rw [ht]; rfl)
      refine h.workIn hself hother hfinal hwork (howner w rfl) (by simp [Phase.busy]) (by simp)
        (by simp) ?_ ?_
      · intro w' hw'
        cases todo' with
        | nil => cases hw'
        | cons => exact (Option.some.inj hw').symm
      · intro hw
        have hne : todo' ≠ [] := by
          rintro rfl
          cases hw
        obtain ⟨t', rfl⟩ := Option.isSome_iff_exists.mp (hroot.2 hne)
        exact ⟨t', rfl, hroot.1⟩

omit [DecidableEq Pid] in
theorem CacheInv.moves_valid (h : CacheInv b strict s) {p : Pid} {a : Act W} {ph : Phase W}
    {final : Option FsTree} {work : W → Option FsTree}
    (hm : Moves b s.final s.work (s.procs p) a ph final work) (hvalid : b.Valid s.final) :
    final = s.final := by
  generalize hbefore : s.procs p = before at hm
  cases hm with
  | mkdirs =>
      obtain ⟨t, ht, -⟩ := hvalid
      rw [ht, Option.getD_some]
  | remove =>
      have hbusy : (s.procs p).busy b = true := by rw [hbefore]; rfl
      exact absurd hvalid (h.pending p hbusy)
  | rename w hrenames => exact absurd hvalid (not_valid_of_renames hrenames)
  | _ => rfl

omit [DecidableEq Pid] in
theorem CacheInv.moves_returned (h : CacheInv b strict s) {p : Pid} {a : Act W}
    {final : Option FsTree} {work : W → Option FsTree}
    (hm : Moves b s.final s.work (s.procs p) a .returned final work) :
    ∃ t, final = some t ∧ b.Complete t := by
  generalize hbefore : s.procs p = before at hm
  cases hm with
  | cached data haccepts =>
      obtain ⟨t, ht, hmarked⟩ := h.opened p data hbefore haccepts
      exact ⟨t, ht, h.cached t ht hmarked⟩
  | rename w =>
      obtain ⟨t, ht, hphase⟩ := h.tree p w (by rw [hbefore]; rfl)
      rw [hbefore] at hphase
      exact ⟨t, ht, hphase.1⟩

end Invariant

end Processes

end CZet.Driver
