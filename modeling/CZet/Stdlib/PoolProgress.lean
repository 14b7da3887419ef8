/- source: stdlib/utils/thread_pool.h
   digest: The pool never stands still while a call is going on, and what is going on ends: every
     call returns, once the tasks do. A pool that is destroyed last is freed with nobody inside. -/

import CZet.Stdlib.PoolQueue
import CZet.Stdlib.PoolWakeups

set_option autoImplicit false
set_option relaxedAutoImplicit false

namespace CZet.Stdlib

open CZet.Lib.Threads CZet.Lib.OpRun

variable {cfg : PoolConfig} {Task : Type}

/-- The step goes on with what has begun: no new call, and no spurious wake-up. -/
def PoolAction.continuing : PoolAction cfg Task → Bool
  | .take _ _ => true
  | .run _ => true
  | .finish _ => true
  | .resumeSubmit _ _ => true
  | .resumeWait _ => true
  | .join _ => true
  | _ => false

/-- The caller is in no call. -/
def CallerPc.returned : CallerPc Task → Bool
  | .idle => true
  | .destroyed => true
  | _ => false

section Measure

/-- A worker that is through with its task may wake every caller of `pool_wait`. -/
def WorkerPc.work (callers : Nat) : WorkerPc Task → Nat
  | .ready => 1
  | .running _ => callers + 3
  | .ran => callers + 2
  | _ => 0

/-- A submitter that gets through leaves a task behind and a worker awake. -/
def CallerPc.work (callers : Nat) : CallerPc Task → Nat
  | .submitBlocked _ => callers + 5
  | .submitWoken _ => callers + 6
  | .waitBlocked => 1
  | .waitWoken => 2
  | .joining => 1
  | _ => 0

/-- A bound on the steps that the pool can still make by itself. -/
def poolWork (s : PoolState cfg Task) : Nat :=
  (∑ w, (s.workers w).work cfg.numCallers) + (cfg.numCallers + 4) * s.count +
    ∑ c, (s.callers c).work cfg.numCallers

variable {s s' : PoolState cfg Task} {out : List (PoolEvent cfg Task)}

private theorem work_setWorker (s : PoolState cfg Task) (w : Fin cfg.numThreads)
    (pc : WorkerPc Task) :
    poolWork (setWorker s w pc) + (s.workers w).work cfg.numCallers =
      poolWork s + pc.work cfg.numCallers := by
  have hsum := sum_update (WorkerPc.work cfg.numCallers) s.workers w pc
  simp only [poolWork, setWorker]
  omega

private theorem work_setCaller (s : PoolState cfg Task) (c : Fin cfg.numCallers)
    (pc : CallerPc Task) :
    poolWork (setCaller s c pc) + (s.callers c).work cfg.numCallers =
      poolWork s + pc.work cfg.numCallers := by
  have hsum := sum_update (CallerPc.work cfg.numCallers) s.callers c pc
  simp only [poolWork, setCaller]
  omega

private theorem wake_worker_le (callers : Nat) (pc : WorkerPc Task) :
    (condNotEmpty.wake pc).work callers ≤ pc.work callers + 1 := by
  cases pc with
  | blocked => exact Nat.le_refl _
  | _ => exact Nat.le_succ _

private theorem wake_submitter_le (callers : Nat) (pc : CallerPc Task) :
    (condNotFull.wake pc).work callers ≤ pc.work callers + 1 := by
  cases pc with
  | submitBlocked task => exact Nat.le_refl _
  | _ => exact Nat.le_succ _

private theorem wake_waiter_le (callers : Nat) (pc : CallerPc Task) :
    (condFinished.wake pc).work callers ≤ pc.work callers + 1 := by
  cases pc with
  | waitBlocked => exact Nat.le_refl _
  | _ => exact Nat.le_succ _

private theorem work_take {w : Fin cfg.numThreads} {pick : Option (Fin cfg.numCallers)}
    (hpc : s.workers w = .ready) (h : poolWorkerTake s w pick = some (out, s')) :
    poolWork s' < poolWork s := by
  have hready : (s.workers w).work cfg.numCallers = 1 := by rw [hpc]; rfl
  unfold poolWorkerTake at h
  split at h
  · cases h
    have hwork := work_setWorker s w .blocked
    rw [hready] at hwork
    exact Nat.lt_of_succ_le hwork.le
  · split at h
    · cases h
      have hwork := work_setWorker s w .exited
      rw [hready] at hwork
      exact Nat.lt_of_succ_le hwork.le
    · rename_i hsleep hexit
      have hcount : 0 < s.count := by
        cases hshutdown : s.shutdown with
        | false => exact Nat.pos_of_ne_zero fun hzero => hsleep ⟨hzero, hshutdown⟩
        | true => exact Nat.pos_of_ne_zero fun hzero => hexit ⟨hzero, hshutdown⟩
      simp only [Option.bind_eq_bind, Option.pure_def, Option.bind_eq_some_iff] at h
      obtain ⟨callers, hsignal, h⟩ := h
      cases h
      have hcallers := sum_signal_le (wake_submitter_le cfg.numCallers) hsignal
      have hworkers := sum_update (WorkerPc.work cfg.numCallers) s.workers w
        (.running (s.queue s.head))
      have hrunning : (WorkerPc.running (s.queue s.head)).work cfg.numCallers =
          cfg.numCallers + 3 := rfl
      obtain ⟨n, hn⟩ := Nat.exists_eq_succ_of_ne_zero hcount.ne'
      simp only [poolWork, setWorker, hn, Nat.succ_eq_add_one, Nat.add_sub_cancel, Nat.mul_add]
      omega

private theorem work_finish {w : Fin cfg.numThreads} (hpc : s.workers w = .ran) :
    poolWork (poolWorkerFinish s w) < poolWork s := by
  have hran : (s.workers w).work cfg.numCallers = cfg.numCallers + 2 := by rw [hpc]; rfl
  have hready : (WorkerPc.ready : WorkerPc Task).work cfg.numCallers = 1 := rfl
  have hworkers := sum_update (WorkerPc.work cfg.numCallers) s.workers w .ready
  have hcallers : ∑ c, ((poolWorkerFinish s w).callers c).work cfg.numCallers ≤
      (∑ c, (s.callers c).work cfg.numCallers) + cfg.numCallers := by
    simp only [poolWorkerFinish, setWorker]
    split
    · have hwoken := sum_broadcast_le (wake_waiter_le cfg.numCallers) s.callers
      rwa [Fintype.card_fin] at hwoken
    · exact Nat.le_add_right _ _
  have hcount : (poolWorkerFinish s w).count = s.count := rfl
  have hsame : (poolWorkerFinish s w).workers = Function.update s.workers w .ready := rfl
  rw [poolWork, poolWork, hcount, hsame]
  omega

private theorem work_submit {c : Fin cfg.numCallers} {task : Task}
    {pick : Option (Fin cfg.numThreads)} (hpc : s.callers c = .submitWoken task)
    (h : poolSubmit s c task pick = some (out, s')) : poolWork s' < poolWork s := by
  have hwoken : (s.callers c).work cfg.numCallers = cfg.numCallers + 6 := by rw [hpc]; rfl
  unfold poolSubmit at h
  split at h
  · cases h
    have hwork := work_setCaller s c (.submitBlocked task)
    have hblocked : (CallerPc.submitBlocked task).work cfg.numCallers = cfg.numCallers + 5 := rfl
    omega
  · have hidle : (CallerPc.idle : CallerPc Task).work cfg.numCallers = 0 := rfl
    split at h
    · cases h
      have hwork := work_setCaller s c .idle
      omega
    · simp only [poolEnqueue, Option.bind_eq_bind, Option.pure_def, Option.bind_eq_some_iff] at h
      obtain ⟨workers, hsignal, h⟩ := h
      cases h
      have hworkers := sum_signal_le (wake_worker_le cfg.numCallers) hsignal
      have hcallers := sum_update (CallerPc.work cfg.numCallers) s.callers c .idle
      simp only [poolWork, setCaller, Nat.mul_add]
      omega

private theorem work_wait {c : Fin cfg.numCallers} (hpc : s.callers c = .waitWoken) :
    poolWork (poolWait s c).2 < poolWork s := by
  have hwoken : (s.callers c).work cfg.numCallers = 2 := by rw [hpc]; rfl
  unfold poolWait
  split
  · have hwork := work_setCaller s c .waitBlocked
    have hblocked : (CallerPc.waitBlocked : CallerPc Task).work cfg.numCallers = 1 := rfl
    show poolWork (setCaller s c .waitBlocked) < poolWork s
    omega
  · have hwork := work_setCaller s c .idle
    have hidle : (CallerPc.idle : CallerPc Task).work cfg.numCallers = 0 := rfl
    show poolWork (setCaller s c .idle) < poolWork s
    omega

/-- What the pool does by itself uses up its work. -/
theorem work_lt {a : PoolAction cfg Task} (ha : a.continuing = true)
    (h : poolStep a s = some (out, s')) : poolWork s' < poolWork s := by
  cases a with
  | take w pick =>
      simp only [poolStep] at h
      split at h
      · exact work_take ‹_› h
      · cases h
  | run w =>
      simp only [poolStep] at h
      split at h
      · rename_i task hpc
        cases h
        have hwork := work_setWorker s w .ran
        have hrunning : (s.workers w).work cfg.numCallers = cfg.numCallers + 3 := by rw [hpc]; rfl
        have hran : (WorkerPc.ran : WorkerPc Task).work cfg.numCallers = cfg.numCallers + 2 := rfl
        omega
      · cases h
  | finish w =>
      simp only [poolStep] at h
      split at h
      · cases h
        exact work_finish ‹_›
      · cases h
  | resumeSubmit c pick =>
      simp only [poolStep] at h
      split at h
      · exact work_submit ‹_› h
      · cases h
  | resumeWait c =>
      simp only [poolStep] at h
      split at h
      · rename_i hpc
        obtain rfl := (Prod.mk.inj (Option.some.inj h)).2
        exact work_wait hpc
      · cases h
  | join c =>
      simp only [poolStep] at h
      split at h
      · rename_i hpc
        split at h
        · cases h
          have hwork := work_setCaller s c .destroyed
          have hjoining : (s.callers c).work cfg.numCallers = 1 := by rw [hpc]; rfl
          have hdestroyed : (CallerPc.destroyed : CallerPc Task).work cfg.numCallers = 0 := rfl
          omega
        · cases h
      · cases h
  | _ => cases ha

end Measure

section Shutdown

/-- Who joins the workers has set the flag. -/
def JoinsAfterShutdown (s : PoolState cfg Task) : Prop :=
  ∀ c, s.callers c = .joining → s.shutdown = true

private theorem joins_setCaller {s : PoolState cfg Task} (h : JoinsAfterShutdown s)
    (c : Fin cfg.numCallers) {pc : CallerPc Task} (hpc : pc ≠ .joining) :
    JoinsAfterShutdown (setCaller s c pc) := by
  intro c' hc'
  by_cases hsame : c' = c
  · subst hsame
    rw [setCaller_self] at hc'
    exact absurd hc' hpc
  · rw [setCaller_other s hsame] at hc'
    exact h c' hc'

private theorem joins_of_wake {s : PoolState cfg Task} (h : JoinsAfterShutdown s)
    {cv : CondVar (CallerPc Task)} (hcv : ∀ pc, cv.wake pc = .joining → pc = .joining)
    {callers : Fin cfg.numCallers → CallerPc Task}
    (hwake : ∀ c, callers c = s.callers c ∨
      cv.blocked (s.callers c) = true ∧ callers c = cv.wake (s.callers c)) (c : Fin cfg.numCallers)
    (hc : callers c = .joining) : s.shutdown = true := by
  obtain heq | ⟨-, heq⟩ := hwake c
  · exact h c (heq ▸ hc)
  · exact h c (hcv _ (heq ▸ hc))

theorem JoinsAfterShutdown.move {s s' : PoolState cfg Task} {out : List (PoolEvent cfg Task)}
    (h : JoinsAfterShutdown s) (hmove : PoolMove s out s') : JoinsAfterShutdown s' := by
  have hnotFull : ∀ pc : CallerPc Task, condNotFull.wake pc = .joining → pc = .joining := by
    intro pc hpc
    cases pc <;> cases hpc
    rfl
  have hfinished : ∀ pc : CallerPc Task, condFinished.wake pc = .joining → pc = .joining := by
    intro pc hpc
    cases pc <;> cases hpc
    rfl
  cases hmove with
  | take w pick callers hpc hcount hsignal => exact joins_of_wake h hnotFull (signal_apply hsignal)
  | finish w hpc =>
      intro c hc
      show s.shutdown = true
      simp only [poolWorkerFinish, setWorker] at hc
      split at hc
      · exact joins_of_wake h hfinished (broadcast_apply condFinished s.callers) c hc
      · exact h c hc
  | destroy c hpc => exact fun _ _ => rfl
  | submitSleep c task hpc hfull hopen => exact joins_setCaller h c (by simp)
  | refuse c task hpc => exact joins_setCaller h c (by simp)
  | accept c task pick workers hpc hroom hopen hsignal =>
      have hbase : JoinsAfterShutdown { s with
          queue := Function.update s.queue s.tail task
          tail := (s.tail + 1) % cfg.queueSize
          count := s.count + 1
          workers := workers } := h
      exact joins_setCaller hbase c (by simp)
  | waitSleep c hpc hbusy => exact joins_setCaller h c (by simp)
  | waitReturn c hpc hcount hactive => exact joins_setCaller h c (by simp)
  | join c hpc hexited => exact joins_setCaller h c (by simp)
  | wakeSubmitter c task hpc => exact joins_setCaller h c (by simp)
  | wakeWaiter c hpc => exact joins_setCaller h c (by simp)
  | sleep w hpc => exact h
  | exit w hpc => exact h
  | run w task hpc => exact h
  | wakeWorker w hpc => exact h

theorem joins_of_run [Inhabited Task] {acts : List (PoolAction cfg Task)}
    {evs : List (PoolEvent cfg Task)} {s : PoolState cfg Task}
    (h : runOps poolStep acts (poolCreate cfg Task) = some (evs, s)) : JoinsAfterShutdown s :=
  runOps_invariant (P := fun _ s => JoinsAfterShutdown s)
    (fun _ _ _ _ _ hjoins hstep => hjoins.move (poolStep_move hstep)) acts [] _ _ evs
    (fun _ hc => by cases hc) h

end Shutdown

section Closing

/-- The step begins a call. -/
def PoolAction.calls : PoolAction cfg Task → Bool
  | .submit .. | .trySubmit .. | .wait _ | .destroy _ => true
  | _ => false

/-- The caller is in `pool_destroy` behind its critical section, or has freed the pool. -/
def CallerPc.closing : CallerPc Task → Bool
  | .joining => true
  | .destroyed => true
  | _ => false

/-- `pool_destroy` is called when no other call is going on, and no call is made after it. -/
structure DestroyedLast (a : PoolAction cfg Task) (s : PoolState cfg Task) : Prop where
  noneLater : a.calls = true → ∀ c, (s.callers c).closing = false
  alone : ∀ c, a = .destroy c → ∀ c', c' ≠ c → s.callers c' = .idle

/-- While the pool is destroyed no other caller is in a call, and its memory is freed behind the last
worker. -/
structure ClosedLast (s : PoolState cfg Task) : Prop where
  alone : ∀ c, (s.callers c).closing = true → ∀ c', c' ≠ c → s.callers c' = .idle
  exited : ∀ c, s.callers c = .destroyed → ∀ w, (s.workers w).hasExited = true

variable {s s' : PoolState cfg Task} {out : List (PoolEvent cfg Task)}

/-- The caller stays where it is, goes on within a submit or a wait, or frees the pool. -/
private def Continues (s s' : PoolState cfg Task) (c : Fin cfg.numCallers) : Prop :=
  s'.callers c = s.callers c ∨
    s.callers c ≠ .idle ∧ (s.callers c).closing = false ∧ (s'.callers c).closing = false ∨
    s.callers c = .joining ∧ s'.callers c = .destroyed ∧ ∀ w, (s.workers w).hasExited = true

private theorem continues_of_wake {cv : CondVar (CallerPc Task)}
    (hcv : ∀ pc, cv.blocked pc = true →
      pc ≠ .idle ∧ pc.closing = false ∧ (cv.wake pc).closing = false) {c : Fin cfg.numCallers}
    (h : s'.callers c = s.callers c ∨
      cv.blocked (s.callers c) = true ∧ s'.callers c = cv.wake (s.callers c)) :
    Continues s s' c := by
  obtain hsame | ⟨hblocked, hwoken⟩ := h
  · exact .inl hsame
  · rw [Continues, hwoken]
    exact .inr (.inl (hcv _ hblocked))

private theorem continues_setCaller {base : PoolState cfg Task} {c : Fin cfg.numCallers}
    {pc : CallerPc Task} (hbase : base.callers = s.callers)
    (hpc : s.callers c ≠ .idle ∧ (s.callers c).closing = false ∧ pc.closing = false)
    (c' : Fin cfg.numCallers) : Continues s (setCaller base c pc) c' := by
  by_cases hsame : c' = c
  · subst hsame
    rw [Continues, setCaller_self]
    exact .inr (.inl hpc)
  · rw [Continues, setCaller_other base hsame, hbase]
    exact .inl rfl

private theorem submit_continues {c : Fin cfg.numCallers} {task : Task}
    {pick : Option (Fin cfg.numThreads)} (hpc : s.callers c = .submitWoken task)
    (h : poolSubmit s c task pick = some (out, s')) (c' : Fin cfg.numCallers) :
    Continues s s' c' := by
  have hinside : s.callers c ≠ .idle ∧ (s.callers c).closing = false := by
    rw [hpc]
    exact ⟨nofun, rfl⟩
  unfold poolSubmit at h
  split at h
  · cases h
    exact continues_setCaller rfl ⟨hinside.1, hinside.2, rfl⟩ c'
  · split at h
    · cases h
      exact continues_setCaller rfl ⟨hinside.1, hinside.2, rfl⟩ c'
    · simp only [poolEnqueue, Option.bind_eq_bind, Option.pure_def, Option.bind_eq_some_iff] at h
      obtain ⟨workers, -, h⟩ := h
      cases h
      exact continues_setCaller rfl ⟨hinside.1, hinside.2, rfl⟩ c'

private theorem wait_continues {c : Fin cfg.numCallers} (hpc : s.callers c = .waitWoken)
    (c' : Fin cfg.numCallers) : Continues s (poolWait s c).2 c' := by
  have hinside : s.callers c ≠ .idle ∧ (s.callers c).closing = false := by
    rw [hpc]
    exact ⟨nofun, rfl⟩
  unfold poolWait
  split
  · exact continues_setCaller rfl ⟨hinside.1, hinside.2, rfl⟩ c'
  · exact continues_setCaller rfl ⟨hinside.1, hinside.2, rfl⟩ c'

private theorem step_continues {a : PoolAction cfg Task} (ha : a.calls = false)
    (h : poolStep a s = some (out, s')) (c : Fin cfg.numCallers) : Continues s s' c := by
  have hnotFull : ∀ pc : CallerPc Task, condNotFull.blocked pc = true →
      pc ≠ .idle ∧ pc.closing = false ∧ (condNotFull.wake pc).closing = false := by
    intro pc hpc
    cases pc with
    | submitBlocked task => exact ⟨nofun, rfl, rfl⟩
    | _ => cases hpc
  have hfinished : ∀ pc : CallerPc Task, condFinished.blocked pc = true →
      pc ≠ .idle ∧ pc.closing = false ∧ (condFinished.wake pc).closing = false := by
    intro pc hpc
    cases pc with
    | waitBlocked => exact ⟨nofun, rfl, rfl⟩
    | _ => cases hpc
  cases a with
  | take w pick =>
      simp only [poolStep] at h
      split at h
      · unfold poolWorkerTake at h
        split at h
        · cases h
          exact .inl rfl
        · split at h
          · cases h
            exact .inl rfl
          · simp only [Option.bind_eq_bind, Option.pure_def, Option.bind_eq_some_iff] at h
            obtain ⟨callers, hsignal, h⟩ := h
            cases h
            exact continues_of_wake hnotFull (signal_apply hsignal c)
      · cases h
  | run w =>
      simp only [poolStep] at h
      split at h
      · cases h
        exact .inl rfl
      · cases h
  | finish w =>
      simp only [poolStep] at h
      split at h
      · cases h
        by_cases hdrained : s.count = 0 ∧ s.active - 1 = 0
        · refine continues_of_wake hfinished ?_
          simp only [poolWorkerFinish, setWorker, if_pos hdrained]
          exact broadcast_apply condFinished s.callers c
        · refine .inl ?_
          simp only [poolWorkerFinish, setWorker, if_neg hdrained]
      · cases h
  | resumeSubmit c₁ pick =>
      simp only [poolStep] at h
      split at h
      · exact submit_continues ‹_› h c
      · cases h
  | resumeWait c₁ =>
      simp only [poolStep] at h
      split at h
      · rename_i hpc
        obtain rfl := (Prod.mk.inj (Option.some.inj h)).2
        exact wait_continues hpc c
      · cases h
  | join c₁ =>
      simp only [poolStep] at h
      split at h
      · rename_i hpc
        split at h
        · rename_i hexited
          cases h
          by_cases hsame : c = c₁
          · subst hsame
            exact .inr (.inr ⟨hpc, setCaller_self s c _, hexited⟩)
          · exact .inl (setCaller_other s hsame _)
        · cases h
      · cases h
  | wakeWorker w =>
      simp only [poolStep] at h
      split at h
      · cases h
        exact .inl rfl
      · cases h
  | wakeCaller c₁ =>
      simp only [poolStep] at h
      split at h
      · rename_i task hpc
        cases h
        refine continues_setCaller rfl ?_ c
        rw [hpc]
        exact ⟨nofun, rfl, rfl⟩
      · rename_i hpc
        cases h
        refine continues_setCaller rfl ?_ c
        rw [hpc]
        exact ⟨nofun, rfl, rfl⟩
      · cases h
  | _ => cases ha

private theorem exited_setWorker {base : PoolState cfg Task} {w w' : Fin cfg.numThreads}
    {pc : WorkerPc Task} (hbase : base.workers = s.workers)
    (hpc : (s.workers w').hasExited = false) (hw : (s.workers w).hasExited = true) :
    ((setWorker base w' pc).workers w).hasExited = true := by
  have hne : w ≠ w' := by
    rintro rfl
    rw [hpc] at hw
    cases hw
  rw [setWorker_other base hne, hbase]
  exact hw

private theorem exited_of_wake {w : Fin cfg.numThreads} {pc : WorkerPc Task}
    (hw : (s.workers w).hasExited = true)
    (h : pc = s.workers w ∨
      condNotEmpty.blocked (s.workers w) = true ∧ pc = condNotEmpty.wake (s.workers w)) :
    pc.hasExited = true := by
  obtain rfl | ⟨hblocked, -⟩ := h
  · exact hw
  · cases hpc : s.workers w with
    | exited => rw [hpc] at hblocked; cases hblocked
    | _ => rw [hpc] at hw; cases hw

private theorem exited_stays {w : Fin cfg.numThreads} (hw : (s.workers w).hasExited = true)
    (h : PoolMove s out s') : (s'.workers w).hasExited = true := by
  cases h with
  | sleep w' hpc => exact exited_setWorker rfl (by rw [hpc]; rfl) hw
  | exit w' hpc => exact exited_setWorker rfl (by rw [hpc]; rfl) hw
  | take w' pick callers hpc => exact exited_setWorker rfl (by rw [hpc]; rfl) hw
  | run w' task hpc => exact exited_setWorker rfl (by rw [hpc]; rfl) hw
  | finish w' hpc => exact exited_setWorker rfl (by rw [hpc]; rfl) hw
  | wakeWorker w' hpc => exact exited_setWorker rfl (by rw [hpc]; rfl) hw
  | accept c task pick workers hpc hroom hopen hsignal =>
      exact exited_of_wake hw (signal_apply hsignal w)
  | destroy c hpc => exact exited_of_wake hw (broadcast_apply condNotEmpty s.workers w)
  | _ => exact hw

private theorem open_setCaller {base : PoolState cfg Task} {c : Fin cfg.numCallers}
    {pc : CallerPc Task} (hbase : base.callers = s.callers)
    (hopen : ∀ c, (s.callers c).closing = false) (hpc : pc.closing = false)
    (c' : Fin cfg.numCallers) : ((setCaller base c pc).callers c').closing = false := by
  by_cases hsame : c' = c
  · rw [hsame, setCaller_self]
    exact hpc
  · rw [setCaller_other base hsame, hbase]
    exact hopen c'

private theorem enqueue_open (hopen : ∀ c, (s.callers c).closing = false) {c : Fin cfg.numCallers}
    {task : Task} {pick : Option (Fin cfg.numThreads)}
    (h : poolEnqueue s c task pick = some (out, s')) (c' : Fin cfg.numCallers) :
    (s'.callers c').closing = false := by
  simp only [poolEnqueue, Option.bind_eq_bind, Option.pure_def, Option.bind_eq_some_iff] at h
  obtain ⟨workers, -, h⟩ := h
  cases h
  exact open_setCaller rfl hopen rfl c'

private theorem call_opens {a : PoolAction cfg Task} (ha : a.calls = true)
    (hopen : ∀ c, (s.callers c).closing = false) (h : poolStep a s = some (out, s')) :
    (∃ c, a = .destroy c ∧ s' = (poolDestroy s c).2) ∨ ∀ c, (s'.callers c).closing = false := by
  cases a with
  | submit c task pick =>
      right
      simp only [poolStep] at h
      split at h
      · unfold poolSubmit at h
        split at h
        · cases h
          exact open_setCaller rfl hopen rfl
        · split at h
          · cases h
            exact open_setCaller rfl hopen rfl
          · exact enqueue_open hopen h
      · cases h
  | trySubmit c task pick =>
      right
      simp only [poolStep] at h
      split at h
      · unfold poolTrySubmit at h
        split at h
        · cases h
          exact open_setCaller rfl hopen rfl
        · exact enqueue_open hopen h
      · cases h
  | wait c =>
      right
      simp only [poolStep] at h
      split at h
      · have hwait : s' = (poolWait s c).2 := congrArg Prod.snd (Option.some.inj h).symm
        intro c'
        rw [hwait, poolWait]
        split
        · exact open_setCaller rfl hopen rfl c'
        · exact open_setCaller rfl hopen rfl c'
      · cases h
  | destroy c =>
      left
      simp only [poolStep] at h
      split at h
      · cases h
        exact ⟨c, rfl, rfl⟩
      · cases h
  | _ => cases ha

private theorem destroy_closes {c : Fin cfg.numCallers}
    (halone : ∀ c', c' ≠ c → s.callers c' = .idle) :
    ClosedLast (poolDestroy s c).2 := by
  have hself : (poolDestroy s c).2.callers c = .joining := setCaller_self _ c _
  have hother : ∀ c', c' ≠ c → (poolDestroy s c).2.callers c' = .idle := by
    intro c' hc'
    refine (setCaller_other _ hc' _).trans ?_
    show condNotFull.wake (s.callers c') = .idle
    rw [halone c' hc']
    rfl
  constructor
  · intro c₁ hc₁ c' hc'
    by_cases hsame : c₁ = c
    · exact hother c' (hsame ▸ hc')
    · rw [hother c₁ hsame] at hc₁
      cases hc₁
  · intro c₁ hc₁
    by_cases hsame : c₁ = c
    · rw [hsame, hself] at hc₁
      cases hc₁
    · rw [hother c₁ hsame] at hc₁
      cases hc₁

theorem ClosedLast.step {a : PoolAction cfg Task} (h : ClosedLast s) (hguard : DestroyedLast a s)
    (hstep : poolStep a s = some (out, s')) : ClosedLast s' := by
  cases ha : a.calls with
  | true =>
      obtain ⟨c, rfl, rfl⟩ | hopen := call_opens ha (hguard.noneLater ha) hstep
      · exact destroy_closes (hguard.alone c rfl)
      · constructor
        · intro c hc
          rw [hopen c] at hc
          cases hc
        · intro c hc
          have hclosed := hopen c
          rw [hc] at hclosed
          cases hclosed
  | false =>
      have hstays := fun w hw => exited_stays (w := w) hw (poolStep_move hstep)
      constructor
      · intro c hc c' hc'
        have hclosing : (s.callers c).closing = true := by
          obtain hsame | ⟨-, -, hopen⟩ | ⟨hjoining, -⟩ := step_continues ha hstep c
          · rwa [hsame] at hc
          · rw [hopen] at hc
            cases hc
          · rw [hjoining]
            rfl
        have hidle := h.alone c hclosing c' hc'
        obtain hsame | ⟨hinside, -⟩ | ⟨hjoining, -⟩ := step_continues ha hstep c'
        · rw [hsame, hidle]
        · exact absurd hidle hinside
        · rw [hidle] at hjoining
          cases hjoining
      · intro c hc w
        obtain hsame | ⟨-, -, hopen⟩ | ⟨-, -, hexited⟩ := step_continues ha hstep c
        · exact hstays w (h.exited c (hsame ▸ hc) w)
        · rw [hc] at hopen
          cases hopen
        · exact hstays w (hexited w)

theorem ClosedLast.calls_of_step (h : ClosedLast s) {c : Fin cfg.numCallers}
    (hfreed : s.callers c = .destroyed) {a : PoolAction cfg Task}
    (hstep : poolStep a s = some (out, s')) : a.calls = true := by
  have hworker : ∀ w, s.workers w = .exited := by
    intro w
    have hexited := h.exited c hfreed w
    cases hpc : s.workers w with
    | exited => rfl
    | _ => rw [hpc] at hexited; cases hexited
  have hcaller : ∀ c', s.callers c' = .idle ∨ s.callers c' = .destroyed := by
    intro c'
    by_cases hsame : c' = c
    · exact .inr (hsame ▸ hfreed)
    · exact .inl (h.alone c (by rw [hfreed]; rfl) c' hsame)
  cases a with
  | take w pick | run w | finish w | wakeWorker w => simp [poolStep, hworker w] at hstep
  | resumeSubmit c' pick | resumeWait c' | join c' | wakeCaller c' =>
      rcases hcaller c' with hpc | hpc
      · simp [poolStep, hpc] at hstep
      · simp [poolStep, hpc] at hstep
  | _ => rfl

end Closing

section Progress

variable {s : PoolState cfg Task}

/-- The pool can go on by itself. -/
def GoesOn (s : PoolState cfg Task) : Prop :=
  ∃ a out s', PoolAction.continuing a = true ∧ poolStep a s = some (out, s')

private theorem goesOn_of_worker {w : Fin cfg.numThreads}
    (h : (s.workers w).resting = false) : GoesOn s := by
  cases hpc : s.workers w with
  | ready =>
      obtain ⟨pick, callers, hsignal⟩ : ∃ pick callers,
          signal condNotFull s.callers pick = some callers := exists_signal s.callers
      refine ⟨.take w pick, ?_⟩
      simp only [poolStep, hpc, poolWorkerTake]
      split
      · exact ⟨_, _, rfl, rfl⟩
      · split
        · exact ⟨_, _, rfl, rfl⟩
        · rw [hsignal]
          exact ⟨_, _, rfl, rfl⟩
  | running task => exact ⟨.run w, _, _, rfl, by simp only [poolStep, hpc]; rfl⟩
  | ran => exact ⟨.finish w, _, _, rfl, by simp only [poolStep, hpc]; rfl⟩
  | blocked => rw [hpc] at h; cases h
  | exited => rw [hpc] at h; cases h

private theorem goesOn_of_submitter {c : Fin cfg.numCallers} {task : Task}
    (hpc : s.callers c = .submitWoken task) : GoesOn s := by
  obtain ⟨pick, workers, hsignal⟩ : ∃ pick workers,
      signal condNotEmpty s.workers pick = some workers := exists_signal s.workers
  refine ⟨.resumeSubmit c pick, ?_⟩
  simp only [poolStep, hpc, poolSubmit]
  split
  · exact ⟨_, _, rfl, rfl⟩
  · split
    · exact ⟨_, _, rfl, rfl⟩
    · rw [poolEnqueue, hsignal]
      exact ⟨_, _, rfl, rfl⟩

private theorem goesOn_of_busy (hawake : PoolAwake s) (hcounters : PoolCounters s)
    (h : ¬ (s.count = 0 ∧ s.active = 0)) : GoesOn s := by
  by_cases hcount : 0 < s.count
  · obtain ⟨w, hw⟩ := hawake.queued hcount
    exact goesOn_of_worker hw
  · have hactive : 0 < ∑ w, (s.workers w).busy := by
      rw [← hcounters.active]
      omega
    obtain ⟨w, -, hw⟩ := Finset.exists_ne_zero_of_sum_ne_zero hactive.ne'
    apply goesOn_of_worker (w := w)
    cases hpc : s.workers w with
    | running task => rfl
    | ran => rfl
    | _ => rw [hpc] at hw; exact absurd rfl hw

/-- As long as a call has not returned, some thread can make a step. -/
theorem goesOn_of_call (hawake : PoolAwake s) (hcounters : PoolCounters s)
    (hjoins : JoinsAfterShutdown s) {c : Fin cfg.numCallers}
    (h : (s.callers c).returned = false) : GoesOn s := by
  cases hpc : s.callers c with
  | idle => rw [hpc] at h; cases h
  | destroyed => rw [hpc] at h; cases h
  | submitWoken task => exact goesOn_of_submitter hpc
  | waitWoken =>
      refine ⟨.resumeWait c, ?_⟩
      simp only [poolStep, hpc]
      exact ⟨_, _, rfl, rfl⟩
  | waitBlocked =>
      have hbusy := hawake.waiters c (by rw [hpc]; rfl)
      exact goesOn_of_busy hawake hcounters hbusy
  | submitBlocked task =>
      obtain ⟨-, hfull⟩ := hawake.submitters c (by rw [hpc]; rfl)
      by_cases hwoken : 0 < wokenSubmitters s
      · -- the room is kept for a submitter that is awake
        obtain ⟨c', hc'⟩ := Finset.card_pos.mp hwoken
        have hpc' := (Finset.mem_filter.mp hc').2
        cases hcaller : s.callers c' with
        | submitWoken task' => exact goesOn_of_submitter hcaller
        | _ => rw [hcaller] at hpc'; cases hpc'
      · have hpos := cfg.queuePos
        obtain ⟨w, hw⟩ := hawake.queued (by omega)
        exact goesOn_of_worker hw
  | joining =>
      have hshutdown := hjoins c hpc
      by_cases hexited : ∀ w, (s.workers w).hasExited = true
      · refine ⟨.join c, ?_⟩
        simp only [poolStep, hpc]
        rw [if_pos hexited]
        exact ⟨_, _, rfl, rfl⟩
      · obtain ⟨w, hw⟩ := not_forall.mp hexited
        have hnot := hawake.noWorker hshutdown w
        apply goesOn_of_worker (w := w)
        cases hworker : s.workers w with
        | blocked => rw [hworker] at hnot; cases hnot
        | exited => rw [hworker] at hw; exact absurd rfl hw
        | _ => rfl

private theorem destroyedLast_of_continuing {later : List (PoolAction cfg Task)}
    (hlater : ∀ a ∈ later, a.continuing = true) (s : PoolState cfg Task) :
    GuardedRun poolStep DestroyedLast later s := by
  induction later generalizing s with
  | nil => trivial
  | cons a later ih =>
      have hgoes := hlater a List.mem_cons_self
      refine ⟨⟨?_, ?_⟩, fun _ s' _ => ih (fun b hb => hlater b (List.mem_cons_of_mem a hb)) s'⟩
      · intro hcalls
        cases a <;> simp_all [PoolAction.calls, PoolAction.continuing]
      · rintro c rfl
        cases hgoes

/-- From any state that a run reaches in which the pool is destroyed last, the pool makes only so many
steps by itself; when it can make no more, every call has returned; and when it is freed, only a new
call could still use it. -/
theorem pool_calls_return [Inhabited Task] {acts later : List (PoolAction cfg Task)}
    {evs evs' : List (PoolEvent cfg Task)} {s t : PoolState cfg Task}
    (hlast : GuardedRun poolStep DestroyedLast acts (poolCreate cfg Task))
    (h : runOps poolStep acts (poolCreate cfg Task) = some (evs, s))
    (hlater : ∀ a ∈ later, a.continuing = true) (hrun : runOps poolStep later s = some (evs', t)) :
    later.length ≤ poolWork s ∧ (GoesOn t ∨ ∀ c, (t.callers c).returned = true) ∧
      ∀ c, t.callers c = .destroyed → ∀ a out u, poolStep a t = some (out, u) → a.calls = true := by
  have hwhole := runOps_append h hrun
  refine ⟨?_, ?_, ?_⟩
  · have hlength := runOps_length_le (P := fun a => PoolAction.continuing a = true)
      (fun _ _ _ _ ha hstep => work_lt ha hstep) later hlater s t evs' hrun
    omega
  · by_cases hall : ∀ c, (t.callers c).returned = true
    · exact .inr hall
    · obtain ⟨c, hc⟩ := not_forall.mp hall
      left
      exact goesOn_of_call (awake_of_run hwhole) (pool_history_of_run hwhole).1
        (joins_of_run hwhole) (Bool.eq_false_of_not_eq_true hc)
  · have hcreated : ClosedLast (poolCreate cfg Task) := ⟨nofun, nofun⟩
    have hclosed : ClosedLast s := guardedRun_invariant (P := fun _ s => ClosedLast s)
      (fun _ _ _ _ _ hclosed hguard hstep => hclosed.step hguard hstep) acts [] _ s evs hcreated
      hlast h
    have hclosed : ClosedLast t := guardedRun_invariant (P := fun _ s => ClosedLast s)
      (fun _ _ _ _ _ hclosed hguard hstep => hclosed.step hguard hstep) later [] s t evs' hclosed
      (destroyedLast_of_continuing hlater s) hrun
    exact fun c hfreed a out u hstep => hclosed.calls_of_step hfreed hstep

/-- One worker, a queue for one task, and two callers. -/
private def narrow : PoolConfig := ⟨1, 1, 2, by decide, by decide⟩

private def onlyWorker : Fin narrow.numThreads := ⟨0, by decide⟩

private def caller₀ : Fin narrow.numCallers := ⟨0, by decide⟩

private def caller₁ : Fin narrow.numCallers := ⟨1, by decide⟩

/-- The second submitter finds the queue full, and gets through once the worker has taken the first
task; then the first one destroys the pool. -/
private def submitsThenDestroy : List (PoolAction narrow Nat) :=
  [.submit caller₀ 7 none, .submit caller₁ 8 none, .take onlyWorker (some caller₁),
    .run onlyWorker, .resumeSubmit caller₁ none, .destroy caller₀]

private def emptying : List (PoolAction narrow Nat) :=
  [.finish onlyWorker, .take onlyWorker none, .run onlyWorker, .finish onlyWorker,
    .take onlyWorker none, .join caller₀]

theorem full_queue_empties :
    GuardedRun poolStep DestroyedLast submitsThenDestroy (poolCreate narrow Nat) ∧
    ∃ evs evs' s t, runOps poolStep submitsThenDestroy (poolCreate narrow Nat) = some (evs, s) ∧
      runOps poolStep emptying s = some (evs', t) ∧ acceptedTasks (evs ++ evs') = [7, 8] ∧
      t.callers caller₀ = .destroyed ∧ 6 ≤ poolWork s ∧
      (GoesOn t ∨ ∀ c, (t.callers c).returned = true) ∧
      ∀ a out u, poolStep a t = some (out, u) → a.calls = true := by
  have hguard : GuardedRun poolStep DestroyedLast submitsThenDestroy (poolCreate narrow Nat) := by
    refine guardedRun_cons ⟨fun _ => by decide, nofun⟩ rfl ?_
    refine guardedRun_cons ⟨fun _ => by decide, nofun⟩ rfl ?_
    iterate 3
      refine guardedRun_cons ⟨nofun, nofun⟩ rfl ?_
    refine guardedRun_cons ⟨fun _ => by decide, ?_⟩ rfl trivial
    rintro c hc c' hc'
    cases hc
    obtain rfl : c' = caller₁ := by
      have hval : c'.val ≠ 0 := fun hzero => hc' (Fin.ext hzero)
      exact Fin.ext (by have := c'.isLt; simp only [narrow, caller₁] at *; omega)
    rfl
  obtain ⟨s, hfirst⟩ : ∃ s, runOps poolStep submitsThenDestroy (poolCreate narrow Nat) =
      some ([.accepted caller₀ 7, .dequeued onlyWorker 7, .executed onlyWorker 7,
        .accepted caller₁ 8, .shutdownSet caller₀], s) := ⟨_, rfl⟩
  obtain ⟨t, hsecond, hfreed⟩ : ∃ t, runOps poolStep emptying s =
      some ([.dequeued onlyWorker 8, .executed onlyWorker 8, .exited onlyWorker,
        .destroyed caller₀], t) ∧ t.callers caller₀ = .destroyed := by
    cases hfirst
    exact ⟨_, rfl, rfl⟩
  obtain ⟨hlength, hgoes, hclosed⟩ := pool_calls_return hguard hfirst (by decide) hsecond
  exact ⟨hguard, _, _, s, t, hfirst, hsecond, rfl, hfreed, hlength, hgoes,
    hclosed caller₀ hfreed⟩

end Progress

end CZet.Stdlib
