/- source: stdlib/utils/thread_pool.h
   digest: The thread pool as steps of its workers and callers, each critical section one step. -/

import Mathlib.Data.Fintype.Fin
import CZet.Lib.OpRun
import CZet.Lib.RingBuffer
import CZet.Lib.Threads

set_option autoImplicit false
set_option relaxedAutoImplicit false

namespace CZet.Stdlib

open CZet.Lib.RingBuffer CZet.Lib.Threads CZet.Lib.OpRun

/-- The arguments that `pool_create` accepts, and the number of threads that use the pool. -/
structure PoolConfig where
  numThreads : Nat
  queueSize : Nat
  numCallers : Nat
  threadsPos : 0 < numThreads
  queuePos : 0 < queueSize

/-- Where a worker stands.  `ready` is in front of the lock at the top of the loop or on the way
out of `pthread_cond_wait`: both go on with the test of the inner loop. -/
inductive WorkerPc (Task : Type)
  | ready
  | blocked
  | running (task : Task)
  | ran
  | exited

/-- Where a thread that uses the pool stands. -/
inductive CallerPc (Task : Type)
  | idle
  | submitBlocked (task : Task)
  | submitWoken (task : Task)
  | waitBlocked
  | waitWoken
  | joining
  | destroyed

inductive PoolEvent (cfg : PoolConfig) (Task : Type)
  | accepted (c : Fin cfg.numCallers) (task : Task)
  | refused (c : Fin cfg.numCallers) (task : Task)
  | dequeued (w : Fin cfg.numThreads) (task : Task)
  | executed (w : Fin cfg.numThreads) (task : Task)
  | exited (w : Fin cfg.numThreads)
  | waitReturned (c : Fin cfg.numCallers)
  | shutdownSet (c : Fin cfg.numCallers)
  | destroyed (c : Fin cfg.numCallers)

/-- `struct pool` with the program points of all threads.  Each counter is bounded by the size of
an array in memory, so no `size_t` wraps. -/
structure PoolState (cfg : PoolConfig) (Task : Type) where
  queue : Nat → Task
  head : Nat
  tail : Nat
  count : Nat
  active : Nat
  shutdown : Bool
  workers : Fin cfg.numThreads → WorkerPc Task
  callers : Fin cfg.numCallers → CallerPc Task

section ConditionVariables

variable {Task : Type}

def condNotEmpty : CondVar (WorkerPc Task) where
  blocked
    | .blocked => true
    | _ => false
  wake
    | .blocked => .ready
    | pc => pc
  awake pc := by cases pc <;> rfl
  other pc h := by
    cases pc with
    | blocked => cases h
    | _ => rfl

def condNotFull : CondVar (CallerPc Task) where
  blocked
    | .submitBlocked _ => true
    | _ => false
  wake
    | .submitBlocked task => .submitWoken task
    | pc => pc
  awake pc := by cases pc <;> rfl
  other pc h := by
    cases pc with
    | submitBlocked => cases h
    | _ => rfl

def condFinished : CondVar (CallerPc Task) where
  blocked
    | .waitBlocked => true
    | _ => false
  wake
    | .waitBlocked => .waitWoken
    | pc => pc
  awake pc := by cases pc <;> rfl
  other pc h := by
    cases pc with
    | waitBlocked => cases h
    | _ => rfl

end ConditionVariables

section Sections

variable {cfg : PoolConfig} {Task : Type}

/-- `pool_create`: the calloc'ed queue holds the default task in every slot. -/
def poolCreate (cfg : PoolConfig) (Task : Type) [Inhabited Task] : PoolState cfg Task where
  queue := fun _ => default
  head := 0
  tail := 0
  count := 0
  active := 0
  shutdown := false
  workers := fun _ => .ready
  callers := fun _ => .idle

def setWorker (s : PoolState cfg Task) (w : Fin cfg.numThreads) (pc : WorkerPc Task) :
    PoolState cfg Task :=
  { s with workers := Function.update s.workers w pc }

def setCaller (s : PoolState cfg Task) (c : Fin cfg.numCallers) (pc : CallerPc Task) :
    PoolState cfg Task :=
  { s with callers := Function.update s.callers c pc }

theorem setWorker_self (s : PoolState cfg Task) (w : Fin cfg.numThreads) (pc : WorkerPc Task) :
    (setWorker s w pc).workers w = pc := by
  simp [setWorker]

theorem setWorker_other (s : PoolState cfg Task) {w w' : Fin cfg.numThreads} (h : w' ≠ w)
    (pc : WorkerPc Task) : (setWorker s w pc).workers w' = s.workers w' := by
  simp [setWorker, h]

theorem setCaller_self (s : PoolState cfg Task) (c : Fin cfg.numCallers) (pc : CallerPc Task) :
    (setCaller s c pc).callers c = pc := by
  simp [setCaller]

theorem setCaller_other (s : PoolState cfg Task) {c c' : Fin cfg.numCallers} (h : c' ≠ c)
    (pc : CallerPc Task) : (setCaller s c pc).callers c' = s.callers c' := by
  simp [setCaller, h]

/-- `pool_worker` from the test of the inner loop to the wait, the exit or the first unlock;
`pick` is the submitter that the signal wakes. -/
def poolWorkerTake (s : PoolState cfg Task) (w : Fin cfg.numThreads)
    (pick : Option (Fin cfg.numCallers)) : Option (List (PoolEvent cfg Task) × PoolState cfg Task) :=
  if s.count = 0 ∧ s.shutdown = false then some ([], setWorker s w .blocked)
  else if s.count = 0 ∧ s.shutdown = true then some ([.exited w], setWorker s w .exited)
  else do
    let task := s.queue s.head
    let callers ← signal condNotFull s.callers pick
    pure ([.dequeued w task],
      setWorker { s with
        head := (s.head + 1) % cfg.queueSize
        count := s.count - 1
        active := s.active + 1
        callers := callers } w (.running task))

/-- `pool_worker` from the second lock to the second unlock. -/
def poolWorkerFinish (s : PoolState cfg Task) (w : Fin cfg.numThreads) : PoolState cfg Task :=
  let active := s.active - 1
  setWorker { s with
    active := active
    callers := if s.count = 0 ∧ active = 0 then broadcast condFinished s.callers else s.callers }
    w .ready

/-- Put the task behind the tail and wake a worker: the common end of both submits. -/
def poolEnqueue (s : PoolState cfg Task) (c : Fin cfg.numCallers) (task : Task)
    (pick : Option (Fin cfg.numThreads)) :
    Option (List (PoolEvent cfg Task) × PoolState cfg Task) := do
  let workers ← signal condNotEmpty s.workers pick
  pure ([.accepted c task],
    setCaller { s with
      queue := Function.update s.queue s.tail task
      tail := (s.tail + 1) % cfg.queueSize
      count := s.count + 1
      workers := workers } c .idle)

/-- `pool_submit` from the test of its loop on. -/
def poolSubmit (s : PoolState cfg Task) (c : Fin cfg.numCallers) (task : Task)
    (pick : Option (Fin cfg.numThreads)) :
    Option (List (PoolEvent cfg Task) × PoolState cfg Task) :=
  if s.count = cfg.queueSize ∧ s.shutdown = false then
    some ([], setCaller s c (.submitBlocked task))
  else if s.shutdown = true then some ([.refused c task], setCaller s c .idle)
  else poolEnqueue s c task pick

def poolTrySubmit (s : PoolState cfg Task) (c : Fin cfg.numCallers) (task : Task)
    (pick : Option (Fin cfg.numThreads)) :
    Option (List (PoolEvent cfg Task) × PoolState cfg Task) :=
  if s.shutdown = true ∨ s.count = cfg.queueSize then
    some ([.refused c task], setCaller s c .idle)
  else poolEnqueue s c task pick

/-- `pool_wait` from the test of its loop on. -/
def poolWait (s : PoolState cfg Task) (c : Fin cfg.numCallers) :
    List (PoolEvent cfg Task) × PoolState cfg Task :=
  if s.count ≠ 0 ∨ s.active ≠ 0 then ([], setCaller s c .waitBlocked)
  else ([.waitReturned c], setCaller s c .idle)

/-- The critical section of `pool_destroy`. -/
def poolDestroy (s : PoolState cfg Task) (c : Fin cfg.numCallers) :
    List (PoolEvent cfg Task) × PoolState cfg Task :=
  ([.shutdownSet c],
    setCaller { s with
      shutdown := true
      workers := broadcast condNotEmpty s.workers
      callers := broadcast condNotFull s.callers } c .joining)

def WorkerPc.hasExited : WorkerPc Task → Bool
  | .exited => true
  | _ => false

end Sections

/-- One step of one thread, or a spurious wake-up. -/
inductive PoolAction (cfg : PoolConfig) (Task : Type)
  | take (w : Fin cfg.numThreads) (pick : Option (Fin cfg.numCallers))
  | run (w : Fin cfg.numThreads)
  | finish (w : Fin cfg.numThreads)
  | submit (c : Fin cfg.numCallers) (task : Task) (pick : Option (Fin cfg.numThreads))
  | resumeSubmit (c : Fin cfg.numCallers) (pick : Option (Fin cfg.numThreads))
  | trySubmit (c : Fin cfg.numCallers) (task : Task) (pick : Option (Fin cfg.numThreads))
  | wait (c : Fin cfg.numCallers)
  | resumeWait (c : Fin cfg.numCallers)
  | destroy (c : Fin cfg.numCallers)
  | join (c : Fin cfg.numCallers)
  | wakeWorker (w : Fin cfg.numThreads)
  | wakeCaller (c : Fin cfg.numCallers)

section Steps

variable {cfg : PoolConfig} {Task : Type}

/-- `none` when the thread is not where the step begins. -/
def poolStep (a : PoolAction cfg Task) (s : PoolState cfg Task) :
    Option (List (PoolEvent cfg Task) × PoolState cfg Task) :=
  match a with
  | .take w pick =>
      match s.workers w with
      | .ready => poolWorkerTake s w pick
      | _ => none
  | .run w =>
      match s.workers w with
      | .running task => some ([.executed w task], setWorker s w .ran)
      | _ => none
  | .finish w =>
      match s.workers w with
      | .ran => some ([], poolWorkerFinish s w)
      | _ => none
  | .submit c task pick =>
      match s.callers c with
      | .idle => poolSubmit s c task pick
      | _ => none
  | .resumeSubmit c pick =>
      match s.callers c with
      | .submitWoken task => poolSubmit s c task pick
      | _ => none
  | .trySubmit c task pick =>
      match s.callers c with
      | .idle => poolTrySubmit s c task pick
      | _ => none
  | .wait c =>
      match s.callers c with
      | .idle => some (poolWait s c)
      | _ => none
  | .resumeWait c =>
      match s.callers c with
      | .waitWoken => some (poolWait s c)
      | _ => none
  | .destroy c =>
      match s.callers c with
      | .idle => some (poolDestroy s c)
      | _ => none
  | .join c =>
      match s.callers c with
      | .joining =>
          if ∀ w, (s.workers w).hasExited = true then some ([.destroyed c], setCaller s c .destroyed)
          else none
      | _ => none
  | .wakeWorker w =>
      match s.workers w with
      | .blocked => some ([], setWorker s w .ready)
      | _ => none
  | .wakeCaller c =>
      match s.callers c with
      | .submitBlocked task => some ([], setCaller s c (.submitWoken task))
      | .waitBlocked => some ([], setCaller s c .waitWoken)
      | _ => none

end Steps

section Moves

variable {cfg : PoolConfig} {Task : Type}

/-- What a step can do to the pool. -/
inductive PoolMove (s : PoolState cfg Task) :
    List (PoolEvent cfg Task) → PoolState cfg Task → Prop
  | sleep (w : Fin cfg.numThreads) (hpc : s.workers w = .ready) (hcount : s.count = 0)
      (hopen : s.shutdown = false) : PoolMove s [] (setWorker s w .blocked)
  | exit (w : Fin cfg.numThreads) (hpc : s.workers w = .ready) (hcount : s.count = 0)
      (hshutdown : s.shutdown = true) : PoolMove s [.exited w] (setWorker s w .exited)
  | take (w : Fin cfg.numThreads) (pick : Option (Fin cfg.numCallers))
      (callers : Fin cfg.numCallers → CallerPc Task) (hpc : s.workers w = .ready)
      (hcount : 0 < s.count) (hsignal : signal condNotFull s.callers pick = some callers) :
      PoolMove s [.dequeued w (s.queue s.head)]
        (setWorker { s with
          head := (s.head + 1) % cfg.queueSize
          count := s.count - 1
          active := s.active + 1
          callers := callers } w (.running (s.queue s.head)))
  | run (w : Fin cfg.numThreads) (task : Task) (hpc : s.workers w = .running task) :
      PoolMove s [.executed w task] (setWorker s w .ran)
  | finish (w : Fin cfg.numThreads) (hpc : s.workers w = .ran) :
      PoolMove s [] (poolWorkerFinish s w)
  | submitSleep (c : Fin cfg.numCallers) (task : Task)
      (hpc : s.callers c = .idle ∨ s.callers c = .submitWoken task)
      (hfull : s.count = cfg.queueSize) (hopen : s.shutdown = false) :
      PoolMove s [] (setCaller s c (.submitBlocked task))
  | refuse (c : Fin cfg.numCallers) (task : Task)
      (hpc : s.callers c = .idle ∨ s.callers c = .submitWoken task ∧ s.shutdown = true) :
      PoolMove s [.refused c task] (setCaller s c .idle)
  | accept (c : Fin cfg.numCallers) (task : Task) (pick : Option (Fin cfg.numThreads))
      (workers : Fin cfg.numThreads → WorkerPc Task)
      (hpc : s.callers c = .idle ∨ s.callers c = .submitWoken task)
      (hroom : s.count ≠ cfg.queueSize) (hopen : s.shutdown = false)
      (hsignal : signal condNotEmpty s.workers pick = some workers) :
      PoolMove s [.accepted c task]
        (setCaller { s with
          queue := Function.update s.queue s.tail task
          tail := (s.tail + 1) % cfg.queueSize
          count := s.count + 1
          workers := workers } c .idle)
  | waitSleep (c : Fin cfg.numCallers) (hpc : s.callers c = .idle ∨ s.callers c = .waitWoken)
      (hbusy : ¬ (s.count = 0 ∧ s.active = 0)) : PoolMove s [] (setCaller s c .waitBlocked)
  | waitReturn (c : Fin cfg.numCallers) (hpc : s.callers c = .idle ∨ s.callers c = .waitWoken)
      (hcount : s.count = 0) (hactive : s.active = 0) :
      PoolMove s [.waitReturned c] (setCaller s c .idle)
  | destroy (c : Fin cfg.numCallers) (hpc : s.callers c = .idle) :
      PoolMove s [.shutdownSet c] (poolDestroy s c).2
  | join (c : Fin cfg.numCallers) (hpc : s.callers c = .joining)
      (hexited : ∀ w, (s.workers w).hasExited = true) :
      PoolMove s [.destroyed c] (setCaller s c .destroyed)
  | wakeWorker (w : Fin cfg.numThreads) (hpc : s.workers w = .blocked) :
      PoolMove s [] (setWorker s w .ready)
  | wakeSubmitter (c : Fin cfg.numCallers) (task : Task) (hpc : s.callers c = .submitBlocked task) :
      PoolMove s [] (setCaller s c (.submitWoken task))
  | wakeWaiter (c : Fin cfg.numCallers) (hpc : s.callers c = .waitBlocked) :
      PoolMove s [] (setCaller s c .waitWoken)

variable {s s' : PoolState cfg Task} {out : List (PoolEvent cfg Task)}

private theorem take_move {w : Fin cfg.numThreads} {pick : Option (Fin cfg.numCallers)}
    (hpc : s.workers w = .ready) (h : poolWorkerTake s w pick = some (out, s')) :
    PoolMove s out s' := by
  unfold poolWorkerTake at h
  split at h
  · rename_i hsleep
    cases h
    exact .sleep w hpc hsleep.1 hsleep.2
  · split at h
    · rename_i hexit
      cases h
      exact .exit w hpc hexit.1 hexit.2
    · rename_i hsleep hexit
      have hcount : 0 < s.count := by
        apply Nat.pos_of_ne_zero
        intro hzero
        cases hshutdown : s.shutdown with
        | false => exact hsleep ⟨hzero, hshutdown⟩
        | true => exact hexit ⟨hzero, hshutdown⟩
      simp only [Option.bind_eq_bind, Option.pure_def, Option.bind_eq_some_iff] at h
      obtain ⟨callers, hsignal, h⟩ := h
      cases h
      exact .take w pick callers hpc hcount hsignal

private theorem enqueue_move {c : Fin cfg.numCallers} {task : Task}
    {pick : Option (Fin cfg.numThreads)}
    (hpc : s.callers c = .idle ∨ s.callers c = .submitWoken task)
    (hroom : s.count ≠ cfg.queueSize) (hopen : s.shutdown = false)
    (h : poolEnqueue s c task pick = some (out, s')) : PoolMove s out s' := by
  simp only [poolEnqueue, Option.bind_eq_bind, Option.pure_def, Option.bind_eq_some_iff] at h
  obtain ⟨workers, hsignal, h⟩ := h
  cases h
  exact .accept c task pick workers hpc hroom hopen hsignal

private theorem submit_move {c : Fin cfg.numCallers} {task : Task}
    {pick : Option (Fin cfg.numThreads)}
    (hpc : s.callers c = .idle ∨ s.callers c = .submitWoken task)
    (h : poolSubmit s c task pick = some (out, s')) : PoolMove s out s' := by
  unfold poolSubmit at h
  split at h
  · rename_i hsleep
    cases h
    exact .submitSleep c task hpc hsleep.1 hsleep.2
  · rename_i hsleep
    split at h
    · rename_i hshutdown
      cases h
      exact .refuse c task (hpc.imp_right fun hwoken => ⟨hwoken, hshutdown⟩)
    · rename_i hopen
      have hopen : s.shutdown = false := Bool.eq_false_of_not_eq_true hopen
      exact enqueue_move hpc (fun hfull => hsleep ⟨hfull, hopen⟩) hopen h

private theorem wait_move {c : Fin cfg.numCallers}
    (hpc : s.callers c = .idle ∨ s.callers c = .waitWoken) (h : poolWait s c = (out, s')) :
    PoolMove s out s' := by
  unfold poolWait at h
  split at h
  · rename_i hbusy
    cases h
    exact .waitSleep c hpc (by omega)
  · rename_i hidle
    cases h
    exact .waitReturn c hpc (by omega) (by omega)

theorem poolStep_move {a : PoolAction cfg Task} (h : poolStep a s = some (out, s')) :
    PoolMove s out s' := by
  cases a with
  | take w pick =>
      simp only [poolStep] at h
      split at h
      · rename_i hpc
        exact take_move hpc h
      · cases h
  | run w =>
      simp only [poolStep] at h
      split at h
      · rename_i task hpc
        cases h
        exact .run w task hpc
      · cases h
  | finish w =>
      simp only [poolStep] at h
      split at h
      · rename_i hpc
        cases h
        exact .finish w hpc
      · cases h
  | submit c task pick =>
      simp only [poolStep] at h
      split at h
      · rename_i hpc
        exact submit_move (Or.inl hpc) h
      · cases h
  | resumeSubmit c pick =>
      simp only [poolStep] at h
      split at h
      · rename_i task hpc
        exact submit_move (Or.inr hpc) h
      · cases h
  | trySubmit c task pick =>
      simp only [poolStep] at h
      split at h
      · rename_i hpc
        unfold poolTrySubmit at h
        split at h
        · cases h
          exact .refuse c task (Or.inl hpc)
        · rename_i hopen
          rw [not_or] at hopen
          exact enqueue_move (Or.inl hpc) hopen.2 (Bool.eq_false_of_not_eq_true hopen.1) h
      · cases h
  | wait c =>
      simp only [poolStep] at h
      split at h
      · rename_i hpc
        exact wait_move (Or.inl hpc) (Option.some.inj h)
      · cases h
  | resumeWait c =>
      simp only [poolStep] at h
      split at h
      · rename_i hpc
        exact wait_move (Or.inr hpc) (Option.some.inj h)
      · cases h
  | destroy c =>
      simp only [poolStep] at h
      split at h
      · rename_i hpc
        cases h
        exact .destroy c hpc
      · cases h
  | join c =>
      simp only [poolStep] at h
      split at h
      · rename_i hpc
        split at h
        · rename_i hexited
          cases h
          exact .join c hpc hexited
        · cases h
      · cases h
  | wakeWorker w =>
      simp only [poolStep] at h
      split at h
      · rename_i hpc
        cases h
        exact .wakeWorker w hpc
      · cases h
  | wakeCaller c =>
      simp only [poolStep] at h
      split at h
      · rename_i task hpc
        cases h
        exact .wakeSubmitter c task hpc
      · rename_i hpc
        cases h
        exact .wakeWaiter c hpc
      · cases h

end Moves

end CZet.Stdlib
