/- source: stdlib/utils/thread_pool.h
   digest: No reachable state of the thread pool has a thread asleep that should have been woken. -/

import CZet.Stdlib.ThreadPool

set_option autoImplicit false
set_option relaxedAutoImplicit false

namespace CZet.Stdlib

open CZet.Lib.Threads CZet.Lib.OpRun

variable {cfg : PoolConfig} {Task : Type}

/-- The worker takes no task unless it is woken. -/
def WorkerPc.resting : WorkerPc Task → Bool
  | .blocked => true
  | .exited => true
  | _ => false

def CallerPc.isSubmitWoken : CallerPc Task → Bool
  | .submitWoken _ => true
  | _ => false

/-- The submitters that are woken and have not resumed yet. -/
def wokenSubmitters (s : PoolState cfg Task) : Nat :=
  (Finset.univ.filter fun c => (s.callers c).isSubmitWoken = true).card

/-- Why no thread sleeps on. -/
structure PoolAwake (s : PoolState cfg Task) : Prop where
  queued : 0 < s.count → ∃ w, (s.workers w).resting = false
  exited : ∀ w, s.workers w = .exited → s.shutdown = true ∧ s.count = 0
  noWorker : s.shutdown = true → ∀ w, condNotEmpty.blocked (s.workers w) = false
  submitters : ∀ c, condNotFull.blocked (s.callers c) = true →
    s.shutdown = false ∧ cfg.queueSize ≤ s.count + wokenSubmitters s
  waiters : ∀ c, condFinished.blocked (s.callers c) = true → ¬ (s.count = 0 ∧ s.active = 0)

section Frames

private def woken (pc : CallerPc Task) : Nat := if pc.isSubmitWoken = true then 1 else 0

private theorem wokenSubmitters_eq (s : PoolState cfg Task) :
    wokenSubmitters s = ∑ c, woken (s.callers c) :=
  Finset.card_filter _ _

private theorem woken_le_one (pc : CallerPc Task) : woken pc ≤ 1 := by
  unfold woken
  split <;> omega

private theorem woken_of_blocked {pc : CallerPc Task} (h : condNotFull.blocked pc = true) :
    woken (condNotFull.wake pc) = 1 ∧ woken pc = 0 := by
  cases pc with
  | submitBlocked task => exact ⟨rfl, rfl⟩
  | _ => cases h

private theorem woken_setCaller (s : PoolState cfg Task) (c : Fin cfg.numCallers)
    (pc : CallerPc Task) :
    wokenSubmitters (setCaller s c pc) + woken (s.callers c) = wokenSubmitters s + woken pc := by
  rw [wokenSubmitters_eq, wokenSubmitters_eq]
  exact sum_update woken s.callers c pc

private theorem awake_setWorker {s : PoolState cfg Task} (h : PoolAwake s)
    (w : Fin cfg.numThreads) (pc : WorkerPc Task)
    (hrest : 0 < s.count → pc.resting = false)
    (hexit : pc = .exited → s.shutdown = true ∧ s.count = 0)
    (hblocked : s.shutdown = true → condNotEmpty.blocked pc = false) :
    PoolAwake (setWorker s w pc) := by
  refine ⟨?_, ?_, ?_, h.submitters, h.waiters⟩
  · intro hcount
    exact ⟨w, by rw [setWorker_self]; exact hrest hcount⟩
  · intro w' hw'
    by_cases heq : w' = w
    · rw [heq, setWorker_self] at hw'
      exact hexit hw'
    · rw [setWorker_other s heq] at hw'
      exact h.exited w' hw'
  · intro hshutdown w'
    by_cases heq : w' = w
    · rw [heq, setWorker_self]
      exact hblocked hshutdown
    · rw [setWorker_other s heq]
      exact h.noWorker hshutdown w'

/-- One caller moves; `hbound` keeps the other blocked submitters covered. -/
private theorem awake_setCaller {s : PoolState cfg Task} (h : PoolAwake s)
    (c : Fin cfg.numCallers) (pc : CallerPc Task)
    (hfull : condNotFull.blocked pc = true → s.shutdown = false ∧ cfg.queueSize ≤ s.count)
    (hbusy : condFinished.blocked pc = true → ¬ (s.count = 0 ∧ s.active = 0))
    (hbound : ∀ c', condNotFull.blocked (s.callers c') = true →
      cfg.queueSize ≤ s.count + wokenSubmitters (setCaller s c pc)) :
    PoolAwake (setCaller s c pc) := by
  refine ⟨h.queued, h.exited, h.noWorker, ?_, ?_⟩
  · intro c' hc'
    by_cases heq : c' = c
    · rw [heq, setCaller_self] at hc'
      obtain ⟨hopen, hroom⟩ := hfull hc'
      exact ⟨hopen, Nat.le_add_right_of_le hroom⟩
    · rw [setCaller_other s heq] at hc'
      exact ⟨(h.submitters c' hc').1, hbound c' hc'⟩
  · intro c' hc'
    by_cases heq : c' = c
    · rw [heq, setCaller_self] at hc'
      exact hbusy hc'
    · rw [setCaller_other s heq] at hc'
      exact h.waiters c' hc'

private theorem bound_of_not_woken {s : PoolState cfg Task} (h : PoolAwake s)
    {c : Fin cfg.numCallers} (pc : CallerPc Task) (hwoken : woken (s.callers c) = 0)
    (c' : Fin cfg.numCallers) (hc' : condNotFull.blocked (s.callers c') = true) :
    cfg.queueSize ≤ s.count + wokenSubmitters (setCaller s c pc) := by
  have hset := woken_setCaller s c pc
  have hle := (h.submitters c' hc').2
  omega

private theorem notFull_wake_finished {pc : CallerPc Task} (h : condFinished.blocked pc = true) :
    condNotFull.blocked (condFinished.wake pc) = false := by
  cases pc with
  | waitBlocked => rfl
  | _ => cases h

private theorem finished_wake_notFull (pc : CallerPc Task) :
    condFinished.blocked (condNotFull.wake pc) = condFinished.blocked pc := by
  cases pc <;> rfl

private theorem wake_ne_exited {pc : WorkerPc Task} (h : condNotEmpty.blocked pc = true) :
    condNotEmpty.wake pc ≠ .exited := by
  cases pc with
  | blocked =>
      intro heq
      cases heq
  | _ => cases h

private theorem resting_of_awake {pc : WorkerPc Task} (h : condNotEmpty.blocked pc = false)
    (hexit : pc ≠ .exited) : pc.resting = false := by
  cases pc with
  | blocked => cases h
  | exited => exact absurd rfl hexit
  | _ => rfl

end Frames

section Moves

private theorem awake_take {s : PoolState cfg Task} (h : PoolAwake s) {w : Fin cfg.numThreads}
    {pick : Option (Fin cfg.numCallers)} {callers : Fin cfg.numCallers → CallerPc Task}
    (hcount : 0 < s.count) (hsignal : signal condNotFull s.callers pick = some callers)
    (head : Nat) (task : Task) :
    PoolAwake (setWorker { s with
      head := head, count := s.count - 1, active := s.active + 1, callers := callers }
      w (.running task)) := by
  have hbase : PoolAwake { s with
      head := head, count := s.count - 1, active := s.active + 1, callers := callers } := by
    refine ⟨fun _ => h.queued hcount, ?_, h.noWorker, ?_, ?_⟩
    · intro w' hw'
      exact absurd (h.exited w' hw').2 (Nat.ne_of_gt hcount)
    · intro c hc
      rcases signal_cases hsignal with ⟨i, hi, rfl⟩ | ⟨hnone, rfl⟩
      · have hwokenSet := woken_setCaller s i (condNotFull.wake (s.callers i))
        obtain ⟨hopen, hle⟩ := h.submitters i hi
        refine ⟨hopen, ?_⟩
        obtain ⟨hnew, hold⟩ := woken_of_blocked hi
        have hsame : wokenSubmitters { s with
            head := head, count := s.count - 1, active := s.active + 1,
            callers := Function.update s.callers i (condNotFull.wake (s.callers i)) } =
            wokenSubmitters (setCaller s i (condNotFull.wake (s.callers i))) := rfl
        rw [hsame]
        simp only
        omega
      · rw [hnone c] at hc
        cases hc
    · intro c _ hidle
      cases hidle.2
  exact awake_setWorker hbase w _ (fun _ => rfl) (fun hpc => by cases hpc) (fun _ => rfl)

private theorem awake_finish {s : PoolState cfg Task} (h : PoolAwake s) (w : Fin cfg.numThreads) :
    PoolAwake (poolWorkerFinish s w) := by
  have hcallers : ∀ c, (poolWorkerFinish s w).callers c = s.callers c ∨
      condFinished.blocked (s.callers c) = true ∧
        (poolWorkerFinish s w).callers c = condFinished.wake (s.callers c) := by
    intro c
    simp only [poolWorkerFinish, setWorker]
    split
    · exact broadcast_apply condFinished s.callers c
    · exact Or.inl rfl
  have hwoken : ∀ pc : CallerPc Task, woken (condFinished.wake pc) = woken pc := by
    intro pc
    cases pc <;> rfl
  have hbase : PoolAwake { s with
      active := s.active - 1, callers := (poolWorkerFinish s w).callers } := by
    refine ⟨h.queued, h.exited, h.noWorker, ?_, ?_⟩
    · intro c hc
      have hold : condNotFull.blocked (s.callers c) = true := by
        rcases hcallers c with heq | ⟨hblocked, heq⟩
        · rw [← heq]
          exact hc
        · simp only [heq, notFull_wake_finished hblocked] at hc
          cases hc
      have hsame : wokenSubmitters { s with
          active := s.active - 1, callers := (poolWorkerFinish s w).callers } =
          wokenSubmitters s := by
        rw [wokenSubmitters_eq, wokenSubmitters_eq]
        exact sum_congr_of_wake hwoken hcallers
      rw [hsame]
      exact h.submitters c hold
    · intro c hc hidle
      have hbroadcast : (poolWorkerFinish s w).callers = broadcast condFinished s.callers :=
        if_pos hidle
      simp only [hbroadcast, broadcast, condFinished.awake] at hc
      cases hc
  exact awake_setWorker hbase w _ (fun _ => rfl) (fun hpc => by cases hpc) (fun _ => rfl)

private theorem awake_accept {s : PoolState cfg Task} (h : PoolAwake s) {c : Fin cfg.numCallers}
    {pick : Option (Fin cfg.numThreads)} {workers : Fin cfg.numThreads → WorkerPc Task}
    (hopen : s.shutdown = false) (hsignal : signal condNotEmpty s.workers pick = some workers)
    (queue : Nat → Task) (tail : Nat) :
    PoolAwake (setCaller { s with
      queue := queue, tail := tail, count := s.count + 1, workers := workers } c .idle) := by
  have hnoExit : ∀ w, workers w ≠ .exited := by
    intro w hw
    rcases signal_apply hsignal w with heq | ⟨hblocked, heq⟩
    · rw [heq] at hw
      rw [(h.exited w hw).1] at hopen
      cases hopen
    · rw [heq] at hw
      exact wake_ne_exited hblocked hw
  have hbase : PoolAwake { s with
      queue := queue, tail := tail, count := s.count + 1, workers := workers } := by
    refine ⟨?_, ?_, ?_, ?_, ?_⟩
    · intro _
      have hne : Nonempty (Fin cfg.numThreads) := ⟨⟨0, cfg.threadsPos⟩⟩
      obtain ⟨w, hw⟩ := exists_awake_of_signal hsignal
      refine ⟨w, ?_⟩
      exact resting_of_awake hw (hnoExit w)
    · intro w hw
      exact absurd hw (hnoExit w)
    · intro hshutdown
      rw [hopen] at hshutdown
      cases hshutdown
    · intro c' hc'
      obtain ⟨hopen', hle⟩ := h.submitters c' hc'
      have hsame : wokenSubmitters { s with
          queue := queue, tail := tail, count := s.count + 1, workers := workers } =
          wokenSubmitters s := rfl
      rw [hsame]
      exact ⟨hopen', by simp only; omega⟩
    · intro c' _ hidle
      cases hidle.1
  refine awake_setCaller hbase c .idle (fun hfull => by cases hfull) (fun hbusy => by cases hbusy) ?_
  -- the slot taken by a resuming submitter makes up for the one it no longer stands for
  intro c' hc'
  have hset := woken_setCaller { s with
    queue := queue, tail := tail, count := s.count + 1, workers := workers } c .idle
  have hone := woken_le_one (s.callers c)
  have hle := (h.submitters c' hc').2
  have hsame : wokenSubmitters { s with
      queue := queue, tail := tail, count := s.count + 1, workers := workers } =
      wokenSubmitters s := rfl
  rw [hsame] at hset
  simp only at hset ⊢
  omega

private theorem awake_destroy {s : PoolState cfg Task} (h : PoolAwake s) (c : Fin cfg.numCallers) :
    PoolAwake (poolDestroy s c).2 := by
  have hbase : PoolAwake { s with
      shutdown := true
      workers := broadcast condNotEmpty s.workers
      callers := broadcast condNotFull s.callers } := by
    refine ⟨?_, ?_, ?_, ?_, ?_⟩
    · intro hcount
      obtain ⟨w, hw⟩ := h.queued hcount
      refine ⟨w, ?_⟩
      cases hpc : s.workers w with
      | blocked => simp [hpc, WorkerPc.resting] at hw
      | exited => simp [hpc, WorkerPc.resting] at hw
      | _ => simp [broadcast, hpc, condNotEmpty, WorkerPc.resting]
    · intro w hw
      have hold : s.workers w = .exited := by
        rcases broadcast_apply condNotEmpty s.workers w with heq | ⟨hblocked, heq⟩
        · rw [← heq]
          exact hw
        · exact absurd (heq.symm.trans hw) (wake_ne_exited hblocked)
      exact ⟨rfl, (h.exited w hold).2⟩
    · intro _ w
      exact condNotEmpty.awake _
    · intro c' hc'
      simp only [broadcast, condNotFull.awake] at hc'
      cases hc'
    · intro c' hc'
      simp only [broadcast, finished_wake_notFull] at hc'
      exact h.waiters c' hc'
  refine awake_setCaller hbase c .joining (fun hfull => by cases hfull) (fun hbusy => by cases hbusy)
    ?_
  intro c' hc'
  simp only [broadcast, condNotFull.awake] at hc'
  cases hc'

theorem PoolAwake.move {s s' : PoolState cfg Task} {out : List (PoolEvent cfg Task)}
    (h : PoolAwake s) (hmove : PoolMove s out s') : PoolAwake s' := by
  cases hmove with
  | sleep w hpc hcount hopen =>
      refine awake_setWorker h w .blocked (fun hpos => absurd hcount (Nat.ne_of_gt hpos))
        (fun hexit => by cases hexit) ?_
      intro hshutdown
      rw [hopen] at hshutdown
      cases hshutdown
  | exit w hpc hcount hshutdown =>
      exact awake_setWorker h w .exited (fun hpos => absurd hcount (Nat.ne_of_gt hpos))
        (fun _ => ⟨hshutdown, hcount⟩) (fun _ => rfl)
  | take w pick callers hpc hcount hsignal => exact awake_take h hcount hsignal _ _
  | run w task hpc =>
      exact awake_setWorker h w .ran (fun _ => rfl) (fun hexit => by cases hexit) (fun _ => rfl)
  | finish w hpc => exact awake_finish h w
  | submitSleep c task hpc hfull hopen =>
      refine awake_setCaller h c _ (fun _ => ⟨hopen, Nat.le_of_eq hfull.symm⟩)
        (fun hbusy => by cases hbusy) ?_
      intro _ _
      exact Nat.le_add_right_of_le (Nat.le_of_eq hfull.symm)
  | refuse c task hpc =>
      refine awake_setCaller h c .idle (fun hfull => by cases hfull) (fun hbusy => by cases hbusy) ?_
      intro c' hc'
      rcases hpc with hidle | ⟨-, hshutdown⟩
      · exact bound_of_not_woken h .idle (by rw [hidle]; rfl) c' hc'
      · rw [(h.submitters c' hc').1] at hshutdown
        cases hshutdown
  | accept c task pick workers hpc hroom hopen hsignal => exact awake_accept h hopen hsignal _ _
  | waitSleep c hpc hbusy =>
      refine awake_setCaller h c .waitBlocked (fun hfull => by cases hfull) (fun _ => hbusy) ?_
      refine bound_of_not_woken h .waitBlocked ?_
      rcases hpc with hpc | hpc <;> rw [hpc] <;> rfl
  | waitReturn c hpc hcount hactive =>
      refine awake_setCaller h c .idle (fun hfull => by cases hfull) (fun hbusy => by cases hbusy) ?_
      refine bound_of_not_woken h .idle ?_
      rcases hpc with hpc | hpc <;> rw [hpc] <;> rfl
  | destroy c hpc => exact awake_destroy h c
  | join c hpc hexited =>
      exact awake_setCaller h c .destroyed (fun hfull => by cases hfull)
        (fun hbusy => by cases hbusy) (bound_of_not_woken h .destroyed (by rw [hpc]; rfl))
  | wakeWorker w hpc =>
      exact awake_setWorker h w .ready (fun _ => rfl) (fun hexit => by cases hexit) (fun _ => rfl)
  | wakeSubmitter c task hpc =>
      exact awake_setCaller h c (.submitWoken task) (fun hfull => by cases hfull)
        (fun hbusy => by cases hbusy) (bound_of_not_woken h _ (by rw [hpc]; rfl))
  | wakeWaiter c hpc =>
      exact awake_setCaller h c .waitWoken (fun hfull => by cases hfull)
        (fun hbusy => by cases hbusy) (bound_of_not_woken h _ (by rw [hpc]; rfl))

theorem poolCreate_awake [Inhabited Task] : PoolAwake (poolCreate cfg Task) := by
  refine ⟨?_, ?_, ?_, ?_, ?_⟩
  · intro hcount
    cases hcount
  · intro w hw
    cases hw
  · intro hshutdown
    cases hshutdown
  · intro c hc
    cases hc
  · intro c hc
    cases hc

theorem awake_of_run [Inhabited Task] {acts : List (PoolAction cfg Task)}
    {evs : List (PoolEvent cfg Task)} {s : PoolState cfg Task}
    (h : runOps poolStep acts (poolCreate cfg Task) = some (evs, s)) : PoolAwake s :=
  runOps_invariant (P := fun _ s => PoolAwake s)
    (fun _ _ _ _ _ hawake hstep => hawake.move (poolStep_move hstep)) acts [] _ _ evs
    poolCreate_awake h

end Moves

/-- The workers do not all sleep while there is a task or a shutdown, no submitter sleeps while
there is room that no woken submitter will take or a shutdown, and no caller of `pool_wait` sleeps
while the pool is idle. -/
theorem pool_loses_no_wakeup [Inhabited Task] {acts : List (PoolAction cfg Task)}
    {evs : List (PoolEvent cfg Task)} {s : PoolState cfg Task}
    (h : runOps poolStep acts (poolCreate cfg Task) = some (evs, s)) :
    ¬ ((∀ w, s.workers w = .blocked) ∧ (0 < s.count ∨ s.shutdown = true)) ∧
    (∀ c task, s.callers c = .submitBlocked task →
      ¬ (s.count + wokenSubmitters s < cfg.queueSize ∨ s.shutdown = true)) ∧
    (∀ c, s.callers c = .waitBlocked → ¬ (s.count = 0 ∧ s.active = 0)) := by
  have hawake := awake_of_run h
  refine ⟨?_, ?_, ?_⟩
  · rintro ⟨hblocked, hcount | hshutdown⟩
    · obtain ⟨w, hw⟩ := hawake.queued hcount
      rw [hblocked w] at hw
      cases hw
    · have hw := hawake.noWorker hshutdown ⟨0, cfg.threadsPos⟩
      rw [hblocked] at hw
      cases hw
  · intro c task hpc
    obtain ⟨hopen, hle⟩ := hawake.submitters c (by rw [hpc]; rfl)
    rintro (hroom | hshutdown)
    · omega
    · rw [hopen] at hshutdown
      cases hshutdown
  · intro c hpc
    exact hawake.waiters c (by rw [hpc]; rfl)

/-- The worker sleeps, one submitter fills the queue and wakes it, another finds the queue full. -/
theorem full_queue_wakeups :
    ∃ s, runOps poolStep
        [.take 0 none, .submit 0 7 (some 0), .submit 1 8 none]
        (poolCreate ⟨1, 1, 2, by decide, by decide⟩ Nat) =
        some ([PoolEvent.accepted 0 7], s) ∧
      ¬ ((∀ w, s.workers w = .blocked) ∧ (0 < s.count ∨ s.shutdown = true)) ∧
      (∀ c task, s.callers c = .submitBlocked task →
        ¬ (s.count + wokenSubmitters s < 1 ∨ s.shutdown = true)) ∧
      (∀ c, s.callers c = .waitBlocked → ¬ (s.count = 0 ∧ s.active = 0)) := by
  have hrun : runOps poolStep [.take 0 none, .submit 0 7 (some 0), .submit 1 8 none]
      (poolCreate ⟨1, 1, 2, by decide, by decide⟩ Nat) = some ([PoolEvent.accepted 0 7], _) := rfl
  exact ⟨_, hrun, pool_loses_no_wakeup hrun⟩

end CZet.Stdlib
