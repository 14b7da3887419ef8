/- source: stdlib/utils/thread_pool.h
   digest: The thread pool runs every accepted task once, in the order of acceptance, and
     `pool_wait` and `pool_destroy` wait for all of them. -/

import CZet.Stdlib.PoolWakeups

set_option autoImplicit false
set_option relaxedAutoImplicit false

namespace CZet.Stdlib

open CZet.Lib.RingBuffer CZet.Lib.Threads CZet.Lib.OpRun

variable {cfg : PoolConfig} {Task : Type}

section Histories

/-- The tasks for which a submit returned 0. -/
def acceptedTasks (evs : List (PoolEvent cfg Task)) : List Task :=
  evs.filterMap fun
    | .accepted _ task => some task
    | _ => none

def dequeuedTasks (evs : List (PoolEvent cfg Task)) : List Task :=
  evs.filterMap fun
    | .dequeued _ task => some task
    | _ => none

/-- The tasks whose function has returned. -/
def executedTasks (evs : List (PoolEvent cfg Task)) : List Task :=
  evs.filterMap fun
    | .executed _ task => some task
    | _ => none

theorem acceptedTasks_append (evs out : List (PoolEvent cfg Task)) :
    acceptedTasks (evs ++ out) = acceptedTasks evs ++ acceptedTasks out :=
  List.filterMap_append

theorem dequeuedTasks_append (evs out : List (PoolEvent cfg Task)) :
    dequeuedTasks (evs ++ out) = dequeuedTasks evs ++ dequeuedTasks out :=
  List.filterMap_append

theorem executedTasks_append (evs out : List (PoolEvent cfg Task)) :
    executedTasks (evs ++ out) = executedTasks evs ++ executedTasks out :=
  List.filterMap_append

/-- The tasks in the queue, the oldest first. -/
def queuedTasks (s : PoolState cfg Task) : List Task :=
  contents s.queue cfg.queueSize s.head s.count

def WorkerPc.holding : WorkerPc Task → Multiset Task
  | .running task => {task}
  | _ => 0

def WorkerPc.busy : WorkerPc Task → Nat
  | .running _ => 1
  | .ran => 1
  | _ => 0

/-- The indices of the ring and the number of running tasks. -/
structure PoolCounters (s : PoolState cfg Task) : Prop where
  head : s.head < cfg.queueSize
  tail : s.tail = slot cfg.queueSize s.head s.count
  count : s.count ≤ cfg.queueSize
  active : s.active = ∑ w, (s.workers w).busy

/-- Where the accepted tasks are: dequeued or in the queue, executed or with a worker. -/
structure PoolHistory (evs : List (PoolEvent cfg Task)) (s : PoolState cfg Task) : Prop where
  queued : acceptedTasks evs = dequeuedTasks evs ++ queuedTasks s
  held : (dequeuedTasks evs : Multiset Task) =
    executedTasks evs + ∑ w, (s.workers w).holding

end Histories

section Counters

private theorem sum_setWorker {M : Type} [AddCommMonoid M] (f : WorkerPc Task → M)
    (s : PoolState cfg Task) (w : Fin cfg.numThreads) (pc : WorkerPc Task) :
    (∑ w', f ((setWorker s w pc).workers w')) + f (s.workers w) =
      (∑ w', f (s.workers w')) + f pc :=
  sum_update f s.workers w pc

private theorem busy_wake (pc : WorkerPc Task) : (condNotEmpty.wake pc).busy = pc.busy := by
  cases pc <;> rfl

private theorem holding_wake (pc : WorkerPc Task) :
    (condNotEmpty.wake pc).holding = pc.holding := by
  cases pc <;> rfl

private theorem counters_setWorker {s : PoolState cfg Task} (h : PoolCounters s)
    (w : Fin cfg.numThreads) (pc : WorkerPc Task) (hbusy : (s.workers w).busy = pc.busy) :
    PoolCounters (setWorker s w pc) := by
  refine ⟨h.head, h.tail, h.count, ?_⟩
  have hsum := sum_setWorker WorkerPc.busy s w pc
  have hactive : (setWorker s w pc).active = s.active := rfl
  have hold := h.active
  omega

private theorem active_of_wake {s : PoolState cfg Task} (h : PoolCounters s)
    {workers : Fin cfg.numThreads → WorkerPc Task}
    (hwake : ∀ w, workers w = s.workers w ∨
      condNotEmpty.blocked (s.workers w) = true ∧ workers w = condNotEmpty.wake (s.workers w)) :
    s.active = ∑ w, (workers w).busy := by
  rw [sum_congr_of_wake busy_wake hwake]
  exact h.active

theorem PoolCounters.move {s s' : PoolState cfg Task} {out : List (PoolEvent cfg Task)}
    (h : PoolCounters s) (hmove : PoolMove s out s') : PoolCounters s' := by
  cases hmove with
  | sleep w hpc => exact counters_setWorker h w .blocked (by rw [hpc]; rfl)
  | exit w hpc => exact counters_setWorker h w .exited (by rw [hpc]; rfl)
  | run w task hpc => exact counters_setWorker h w .ran (by rw [hpc]; rfl)
  | wakeWorker w hpc => exact counters_setWorker h w .ready (by rw [hpc]; rfl)
  | take w pick callers hpc hcount hsignal =>
      refine ⟨Nat.mod_lt _ cfg.queuePos, ?_, ?_, ?_⟩
      · obtain ⟨n, hn⟩ := Nat.exists_eq_succ_of_ne_zero (Nat.ne_of_gt hcount)
        have htail := h.tail
        simp only [setWorker, hn, Nat.succ_eq_add_one, Nat.add_sub_cancel] at htail ⊢
        rw [htail, slot_pop]
      · exact (Nat.sub_le _ _).trans h.count
      · have hsum := sum_setWorker WorkerPc.busy s w (.running (s.queue s.head))
        have hready : (s.workers w).busy = 0 := by rw [hpc]; rfl
        have hbusy : (WorkerPc.running (s.queue s.head)).busy = 1 := rfl
        have hold := h.active
        simp only [setWorker] at hsum ⊢
        omega
  | finish w hpc =>
      refine ⟨h.head, h.tail, h.count, ?_⟩
      have hsum := sum_setWorker WorkerPc.busy s w .ready
      have hran : (s.workers w).busy = 1 := by rw [hpc]; rfl
      have hready : (WorkerPc.ready : WorkerPc Task).busy = 0 := rfl
      have hold := h.active
      simp only [poolWorkerFinish, setWorker] at hsum ⊢
      omega
  | accept c task pick workers hpc hroom hopen hsignal =>
      refine ⟨h.head, ?_, ?_, active_of_wake h (signal_apply hsignal)⟩
      · have htail := h.tail
        simp only [setCaller]
        rw [htail, slot_succ]
      · exact Nat.lt_of_le_of_ne h.count hroom
  | destroy c hpc =>
      exact ⟨h.head, h.tail, h.count, active_of_wake h (broadcast_apply condNotEmpty s.workers)⟩
  | _ => exact ⟨h.head, h.tail, h.count, h.active⟩

theorem poolCreate_counters [Inhabited Task] : PoolCounters (poolCreate cfg Task) := by
  refine ⟨cfg.queuePos, ?_, Nat.zero_le _, ?_⟩
  · exact (Nat.zero_mod _).symm
  · exact (Finset.sum_eq_zero fun _ _ => rfl).symm

end Counters

section Tasks

private theorem history_of_silent {evs out : List (PoolEvent cfg Task)} {s s' : PoolState cfg Task}
    (h : PoolHistory evs s) (haccepted : acceptedTasks out = []) (hdequeued : dequeuedTasks out = [])
    (hqueued : queuedTasks s' = queuedTasks s)
    (hheld : (executedTasks out : Multiset Task) + ∑ w, (s'.workers w).holding =
      ∑ w, (s.workers w).holding) : PoolHistory (evs ++ out) s' := by
  refine ⟨?_, ?_⟩
  · rw [acceptedTasks_append, dequeuedTasks_append, haccepted, hdequeued, hqueued,
      List.append_nil, List.append_nil]
    exact h.queued
  · rw [dequeuedTasks_append, executedTasks_append, hdequeued, List.append_nil, h.held,
      ← Multiset.coe_add, add_assoc, hheld]

private theorem holding_setWorker (s : PoolState cfg Task) (w : Fin cfg.numThreads)
    (pc : WorkerPc Task) (hold : (s.workers w).holding = 0) (hnew : pc.holding = 0) :
    ∑ w', ((setWorker s w pc).workers w').holding = ∑ w', (s.workers w').holding := by
  have hsum := sum_setWorker WorkerPc.holding s w pc
  rwa [hold, hnew, add_zero, add_zero] at hsum

theorem PoolHistory.move {evs out : List (PoolEvent cfg Task)} {s s' : PoolState cfg Task}
    (h : PoolHistory evs s) (hcounters : PoolCounters s) (hmove : PoolMove s out s') :
    PoolHistory (evs ++ out) s' := by
  cases hmove with
  | sleep w hpc =>
      refine history_of_silent h rfl rfl rfl ?_
      exact (zero_add _).trans (holding_setWorker s w .blocked (by rw [hpc]; rfl) rfl)
  | exit w hpc =>
      refine history_of_silent h rfl rfl rfl ?_
      exact (zero_add _).trans (holding_setWorker s w .exited (by rw [hpc]; rfl) rfl)
  | wakeWorker w hpc =>
      refine history_of_silent h rfl rfl rfl ?_
      exact (zero_add _).trans (holding_setWorker s w .ready (by rw [hpc]; rfl) rfl)
  | finish w hpc =>
      refine history_of_silent h rfl rfl rfl ?_
      exact (zero_add _).trans (holding_setWorker s w .ready (by rw [hpc]; rfl) rfl)
  | run w task hpc =>
      refine history_of_silent h rfl rfl rfl ?_
      have hsum := sum_setWorker WorkerPc.holding s w .ran
      have hran : (WorkerPc.ran : WorkerPc Task).holding = 0 := rfl
      have hrunning : (s.workers w).holding = {task} := by rw [hpc]; rfl
      rw [hran, hrunning, add_zero, add_comm] at hsum
      exact hsum
  | take w pick callers hpc hcount hsignal =>
      obtain ⟨n, hn⟩ := Nat.exists_eq_succ_of_ne_zero (Nat.ne_of_gt hcount)
      have hpop : queuedTasks s = s.queue s.head ::
          contents s.queue cfg.queueSize ((s.head + 1) % cfg.queueSize) (s.count - 1) := by
        rw [queuedTasks, hn, Nat.succ_eq_add_one, Nat.add_sub_cancel]
        exact contents_pop hcounters.head n s.queue
      refine ⟨?_, ?_⟩
      · rw [acceptedTasks_append, dequeuedTasks_append, h.queued, hpop]
        exact (List.append_nil _).trans (List.append_cons _ _ _)
      · have hsum := sum_setWorker WorkerPc.holding s w (.running (s.queue s.head))
        have hready : (s.workers w).holding = 0 := by rw [hpc]; rfl
        have hnew : (WorkerPc.running (s.queue s.head)).holding = {s.queue s.head} := rfl
        rw [hready, hnew, add_zero] at hsum
        rw [dequeuedTasks_append, executedTasks_append, ← Multiset.coe_add, h.held, add_assoc]
        have hout : executedTasks [PoolEvent.dequeued w (s.queue s.head)] = [] := rfl
        rw [hout, List.append_nil]
        exact congrArg _ hsum.symm
  | accept c task pick workers hpc hroom hopen hsignal =>
      have hpush : queuedTasks (setCaller { s with
          queue := Function.update s.queue s.tail task
          tail := (s.tail + 1) % cfg.queueSize
          count := s.count + 1
          workers := workers } c .idle) = queuedTasks s ++ [task] := by
        have hlt := Nat.lt_of_le_of_ne hcounters.count hroom
        simp only [queuedTasks, setCaller, hcounters.tail]
        exact contents_push hlt s.queue task
      refine ⟨?_, ?_⟩
      · have hout : dequeuedTasks [PoolEvent.accepted c task] = [] := rfl
        rw [acceptedTasks_append, dequeuedTasks_append, h.queued, hpush, hout, List.append_nil]
        exact List.append_assoc _ _ _
      · rw [dequeuedTasks_append, executedTasks_append]
        refine Eq.trans ?_ (h.held.trans ?_)
        · exact congrArg _ (List.append_nil _)
        · exact congrArg₂ _ (congrArg _ (List.append_nil _).symm)
            (sum_congr_of_wake holding_wake (signal_apply hsignal)).symm
  | destroy c hpc =>
      refine history_of_silent h rfl rfl rfl ?_
      exact (zero_add _).trans
        (sum_congr_of_wake holding_wake (broadcast_apply condNotEmpty s.workers))
  | _ => exact history_of_silent h rfl rfl rfl (zero_add _)

end Tasks

section Quiescence

variable {evs : List (PoolEvent cfg Task)} {s : PoolState cfg Task}

private theorem all_executed (h : PoolHistory evs s) (hcount : s.count = 0)
    (hidle : ∀ w, (s.workers w).holding = 0) :
    (acceptedTasks evs).Perm (executedTasks evs) := by
  have hqueued : queuedTasks s = [] := by
    rw [queuedTasks, hcount, contents_zero]
  rw [h.queued, hqueued, List.append_nil, ← Multiset.coe_eq_coe, h.held,
    Finset.sum_eq_zero fun w _ => hidle w, add_zero]

private theorem idle_of_waitReturned {s' : PoolState cfg Task} {out : List (PoolEvent cfg Task)}
    {c : Fin cfg.numCallers} (hmove : PoolMove s out s') (hmem : PoolEvent.waitReturned c ∈ out) :
    s.count = 0 ∧ s.active = 0 := by
  cases hmove with
  | waitReturn _ _ hcount hactive => exact ⟨hcount, hactive⟩
  | _ => simp at hmem

private theorem slots_kept {s' : PoolState cfg Task} {out : List (PoolEvent cfg Task)}
    (h : PoolCounters s) (hmove : PoolMove s out s') {i : Nat} (hi : i < s.count) :
    s'.queue (slot cfg.queueSize s.head i) = s.queue (slot cfg.queueSize s.head i) := by
  cases hmove with
  | accept c task pick workers hpc hroom hopen hsignal =>
      have hlt := Nat.lt_of_le_of_ne h.count hroom
      simp only [setCaller, h.tail]
      exact update_slot hlt s.queue task hi
  | _ => rfl

theorem pool_history_of_run [Inhabited Task] {acts : List (PoolAction cfg Task)}
    (h : runOps poolStep acts (poolCreate cfg Task) = some (evs, s)) :
    PoolCounters s ∧ PoolHistory evs s := by
  have hinit : PoolHistory [] (poolCreate cfg Task) := by
    refine ⟨rfl, ?_⟩
    have hidle : ∑ w, ((poolCreate cfg Task).workers w).holding = 0 :=
      Finset.sum_eq_zero fun _ _ => rfl
    rw [hidle]
    rfl
  exact runOps_invariant (P := fun evs s => PoolCounters s ∧ PoolHistory evs s)
    (fun _ _ _ _ _ hinv hstep => ⟨hinv.1.move (poolStep_move hstep),
      hinv.2.move hinv.1 (poolStep_move hstep)⟩) acts [] _ _ evs ⟨poolCreate_counters, hinit⟩ h

end Quiescence

/-- In every reachable state: the tail follows the head, the tasks taken so far and then the queue
are the accepted tasks in their order, a step leaves the occupied slots alone, and a task is only
left in the queue while some worker is neither asleep nor gone.  `pool_wait` returns and all workers
are gone only when each accepted task has been executed, once for each time it was accepted. -/
theorem pool_runs_accepted_tasks [Inhabited Task] {acts : List (PoolAction cfg Task)}
    {evs : List (PoolEvent cfg Task)} {s : PoolState cfg Task}
    (h : runOps poolStep acts (poolCreate cfg Task) = some (evs, s)) :
    (s.tail = (s.head + s.count) % cfg.queueSize ∧ s.count ≤ cfg.queueSize) ∧
    acceptedTasks evs = dequeuedTasks evs ++ queuedTasks s ∧
    (∀ a out s', poolStep a s = some (out, s') → ∀ i < s.count,
      s'.queue ((s.head + i) % cfg.queueSize) = s.queue ((s.head + i) % cfg.queueSize)) ∧
    ((∀ w, s.workers w = .blocked ∨ s.workers w = .exited) →
      dequeuedTasks evs = acceptedTasks evs) ∧
    (∀ a out s' c, poolStep a s = some (out, s') → .waitReturned c ∈ out →
      (acceptedTasks evs).Perm (executedTasks evs)) ∧
    ((∀ w, s.workers w = .exited) → s.shutdown = true ∧
      (acceptedTasks evs).Perm (executedTasks evs)) := by
  obtain ⟨hcounters, hhistory⟩ := pool_history_of_run h
  have hawake := awake_of_run h
  refine ⟨⟨hcounters.tail, hcounters.count⟩, hhistory.queued, ?_, ?_, ?_, ?_⟩
  · intro a out s' hstep i hi
    exact slots_kept hcounters (poolStep_move hstep) hi
  · intro hresting
    have hcount : s.count = 0 := by
      apply Nat.eq_zero_of_not_pos
      intro hpos
      obtain ⟨w, hw⟩ := hawake.queued hpos
      rcases hresting w with hpc | hpc <;> rw [hpc] at hw <;> cases hw
    rw [hhistory.queued, queuedTasks, hcount, contents_zero, List.append_nil]
  · intro a out s' c hstep hmem
    obtain ⟨hcount, hactive⟩ := idle_of_waitReturned (poolStep_move hstep) hmem
    refine all_executed hhistory hcount fun w => ?_
    have hbusy : (s.workers w).busy = 0 := by
      have hsum := hcounters.active.symm.trans hactive
      exact Finset.sum_eq_zero_iff.mp hsum w (Finset.mem_univ w)
    cases hpc : s.workers w with
    | running task =>
        rw [hpc] at hbusy
        cases hbusy
    | _ => rfl
  · intro hexited
    obtain ⟨hshutdown, hcount⟩ := hawake.exited ⟨0, cfg.threadsPos⟩ (hexited _)
    refine ⟨hshutdown, all_executed hhistory hcount fun w => ?_⟩
    rw [hexited w]
    rfl

/-- Two tasks through a queue of one slot, a wait in between and a shutdown at the end. -/
theorem two_tasks_run :
    ∃ s : PoolState ⟨1, 1, 2, Nat.one_pos, Nat.one_pos⟩ Nat, runOps poolStep
        [.submit 0 7 none, .take 0 none, .wait 1, .submit 0 8 none, .run 0, .finish 0,
          .take 0 none, .run 0, .finish 0, .resumeWait 1, .destroy 1, .take 0 none]
        (poolCreate ⟨1, 1, 2, Nat.one_pos, Nat.one_pos⟩ Nat) =
        some ([PoolEvent.accepted 0 7, PoolEvent.dequeued 0 7, PoolEvent.accepted 0 8,
          PoolEvent.executed 0 7, PoolEvent.dequeued 0 8, PoolEvent.executed 0 8,
          PoolEvent.waitReturned 1, PoolEvent.shutdownSet 1, PoolEvent.exited 0], s) ∧
      (s.tail = (s.head + s.count) % 1 ∧ s.count ≤ 1) ∧
      s.shutdown = true ∧ [7, 8].Perm [7, 8] := by
  have hrun : runOps poolStep
      [.submit 0 7 none, .take 0 none, .wait 1, .submit 0 8 none, .run 0, .finish 0,
        .take 0 none, .run 0, .finish 0, .resumeWait 1, .destroy 1, .take 0 none]
      (poolCreate ⟨1, 1, 2, Nat.one_pos, Nat.one_pos⟩ Nat) =
      some ([PoolEvent.accepted 0 7, PoolEvent.dequeued 0 7, PoolEvent.accepted 0 8,
        PoolEvent.executed 0 7, PoolEvent.dequeued 0 8, PoolEvent.executed 0 8,
        PoolEvent.waitReturned 1, PoolEvent.shutdownSet 1, PoolEvent.exited 0], _) := rfl
  obtain ⟨hring, -, -, -, -, hexited⟩ := pool_runs_accepted_tasks hrun
  refine ⟨_, hrun, hring, hexited fun w => ?_⟩
  rw [Subsingleton.elim w 0]
  rfl

end CZet.Stdlib
