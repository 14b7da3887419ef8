/- source: stdlib/utils/aco.h
   digest: The round-robin scheduler of coroutines: each pass over the table resumes every
     unfinished task once, until all tasks are done. -/

import CZet.Lib.Settling
import Mathlib.Algebra.Order.Ring.Nat
import Mathlib.Data.List.Basic

set_option autoImplicit false
set_option relaxedAutoImplicit false

open Filter

namespace CZet.Stdlib.Coroutines

open CZet.Lib.Settling

section Tasks

/-- The function of a task: what it spawns and where it yields, until it returns. -/
inductive TaskFn
  | ret
  | spawn (child next : TaskFn)
  | yield (next : TaskFn)
  deriving DecidableEq

namespace TaskFn

def yields : TaskFn → Nat
  | ret => 0
  | spawn _ next => next.yields
  | yield next => next.yields + 1

/-- Where the function stands after one resumption; `none` when it has returned. -/
def after : TaskFn → Option TaskFn
  | ret => none
  | spawn _ next => next.after
  | yield next => some next

/-- How often the function, and all that it spawns, can go on. -/
def weight : TaskFn → Nat
  | ret => 1
  | spawn child next => child.weight + next.weight + 1
  | yield next => next.weight + 1

end TaskFn

/-- `struct co_task`; `left` is what the coroutine has still to do. -/
structure CoTask where
  fn : TaskFn
  left : TaskFn
  done : Bool
  deriving DecidableEq

namespace CoTask

/-- A task as `co_spawn` makes it. -/
def fresh (fn : TaskFn) : CoTask := ⟨fn, fn, false⟩

/-- How often the task is still to be resumed. -/
def owed (t : CoTask) : Nat := if t.done then 0 else t.left.yields + 1

def weight (t : CoTask) : Nat := if t.done then 0 else t.left.weight

/-- The task after a resumption of which `after` is left.  The trampoline marks it done when its
function has returned. -/
def resumed (t : CoTask) : Option TaskFn → CoTask
  | none => { t with left := .ret, done := true }
  | some next => { t with left := next }

theorem owed_eq_zero {t : CoTask} : t.owed = 0 ↔ t.done = true := by
  unfold owed
  split
  next hdone => exact iff_of_true rfl hdone
  next hleft => exact iff_of_false (Nat.succ_ne_zero _) hleft

end CoTask

end Tasks

section Scheduler

/-- `struct co_sched`; the table has room for `cap` tasks.  `calls` counts the allocations. -/
structure CoSched where
  mainCo : Bool
  tasks : List CoTask
  cap : Nat
  current : Option Nat
  calls : Nat
  room : tasks.length ≤ cap

namespace CoSched

/-- `s->count` -/
def count (s : CoSched) : Nat := s.tasks.length

/-- The task with this index is there and done. -/
def isDone (s : CoSched) (i : Nat) : Bool := (s.tasks[i]?).any CoTask.done

def modifyTask (s : CoSched) (i : Nat) (f : CoTask → CoTask) : CoSched :=
  { s with
    tasks := s.tasks.modify i f
    room := Nat.le_trans (Nat.le_of_eq (List.length_modify ..)) s.room }

/-- `s->tasks[s->count++] = t` -/
def push (s : CoSched) (t : CoTask) (hroom : s.tasks.length < s.cap) : CoSched :=
  { s with
    tasks := s.tasks ++ [t]
    room := by rw [List.length_append]; exact hroom }

end CoSched

variable (grants : Nat → Bool)

/-- An allocation, granted or not. -/
def alloc (s : CoSched) : Bool × CoSched := (grants s.calls, { s with calls := s.calls + 1 })

/-- The table before a task is added; `none` when `realloc` fails. -/
def growTable (s : CoSched) : Option { s : CoSched // s.tasks.length < s.cap } :=
  if hfull : s.tasks.length = s.cap then
    let ncap := if s.cap ≠ 0 then s.cap * 2 else 8
    have hgrown : s.tasks.length < ncap := by
      simp only [ncap]
      split <;> omega
    if (alloc grants s).1 then
      some ⟨{ s with cap := ncap, calls := s.calls + 1, room := Nat.le_of_lt hgrown }, hgrown⟩
    else none
  else some ⟨s, Nat.lt_of_le_of_ne s.room hfull⟩

/-- The index of the new task and the scheduler; the index is missing when a call fails. -/
def coSpawn (s : CoSched) (fn : TaskFn) : Option Nat × CoSched :=
  if s.mainCo = false then (none, s)
  else
    match growTable grants s with
    | none => (none, (alloc grants s).2)
    | some ⟨s, hroom⟩ =>
        let task := grants s.calls
        let stack := grants (s.calls + 1)
        let co := grants (s.calls + 2)
        if task = false then (none, { s with calls := s.calls + 1 })
        else if stack = false then (none, { s with calls := s.calls + 2 })
        else if co = false then (none, { s with calls := s.calls + 3 })
        else
          (some s.count, CoSched.push { s with calls := s.calls + 3 } (.fresh fn) hroom)

/-- `aco_resume` of task `i`, whose function has the rest `left`: it goes on up to its next yield.
After a return `co_task_entry` marks the task done and yields. -/
def acoResume (i : Nat) : TaskFn → CoSched → CoSched
  | .ret, s => s.modifyTask i fun t => t.resumed none
  | .spawn child next, s => acoResume i next (coSpawn grants s child).2
  | .yield next, s => s.modifyTask i fun t => t.resumed (some next)

/-- A resumption and the table at that time. -/
structure Resumption where
  task : Nat
  table : List CoTask
  deriving DecidableEq

/-- The `for` loop of `co_run` from index `i` on, for at most `fuel` turns: `pending`, what was
resumed and the scheduler. -/
def coPass : Nat → Nat → Bool → CoSched → Option (Bool × List Resumption × CoSched)
  | 0, _, _, _ => none
  | fuel + 1, i, pending, s =>
      match s.tasks[i]? with
      | none => some (pending, [], s)
      | some t =>
          if t.done then coPass fuel (i + 1) pending s
          else
            (coPass fuel (i + 1) true (acoResume grants i t.left { s with current := some i })).map
              fun (pending, resumed, s') => (pending, ⟨i, s.tasks⟩ :: resumed, s')

/-- A pass over the table: the scheduler before it, what was resumed and the scheduler after it. -/
structure Pass where
  start : CoSched
  resumed : List Resumption
  finish : CoSched

/-- The `do` loop of `co_run`, for at most `passes` passes of at most `fuel` turns. -/
def coRunLoop (fuel : Nat) : Nat → CoSched → Option (List Pass × CoSched)
  | 0, _ => none
  | passes + 1, s =>
      (coPass grants fuel 0 false s).bind fun (pending, resumed, s') =>
        if pending then
          (coRunLoop fuel passes s').map fun (rest, s'') => (⟨s, resumed, s'⟩ :: rest, s'')
        else some ([⟨s, resumed, s'⟩], { s' with current := none })

def coRun (fuel : Nat) (s : CoSched) : Option (List Pass × CoSched) :=
  coRunLoop grants fuel fuel s

/-- A scheduler after `co_sched_init` has succeeded. -/
def coSchedInit (calls : Nat) : CoSched := ⟨true, [], 0, none, calls, Nat.le_of_eq List.length_nil⟩

def coSchedFree (s : CoSched) : CoSched :=
  ⟨false, [], 0, s.current, s.calls, Nat.le_of_eq List.length_nil⟩

/-- The schedulers that a program comes to outside of tasks. -/
inductive Reached : CoSched → Prop
  | init (calls : Nat) : Reached (coSchedInit calls)
  | spawn {s : CoSched} (fn : TaskFn) : Reached s → Reached (coSpawn grants s fn).2
  | run {s s' : CoSched} {passes : List Pass} :
      Reached s → SettlesTo atTop (fun fuel => coRun grants fuel s) (passes, s') → Reached s'
  | free {s : CoSched} : Reached s → Reached (coSchedFree s)

end Scheduler

section Accounts

/-- What the unfinished tasks can still do together. -/
def CoSched.weight (s : CoSched) : Nat := (s.tasks.map CoTask.weight).sum

/-- From `s` to `s'` the tasks of `log` are resumed: every resumption is one of those that its task
was owed, the new tasks are owed one more than their yields, and all of it comes out of the
weight. -/
structure Progress (s : CoSched) (log : List Nat) (s' : CoSched) : Prop where
  fns : s.tasks.map CoTask.fn <+: s'.tasks.map CoTask.fn
  inside : ∀ i ∈ log, i < s'.count
  account : ∀ (i : Nat) (t' : CoTask), s'.tasks[i]? = some t' →
    t'.owed + log.count i = ((s.tasks[i]?).map CoTask.owed).getD (t'.fn.yields + 1)
  spent : s'.weight + s'.count + log.length ≤ s.weight + s.count

theorem Progress.refl {s s' : CoSched} (h : s'.tasks = s.tasks) : Progress s [] s' where
  fns := by rw [h]
  inside := fun i hi => absurd hi List.not_mem_nil
  account := by
    intro i t' ht'
    rw [← h, ht']
    rfl
  spent := by
    unfold CoSched.weight CoSched.count
    rw [h]
    exact Nat.le_refl _

theorem Progress.count_le {s s' : CoSched} {log : List Nat} (h : Progress s log s') :
    s.count ≤ s'.count := by
  have hlen := h.fns.length_le
  rwa [List.length_map, List.length_map] at hlen

private theorem fn_eq_of_prefix {tasks tasks' : List CoTask}
    (h : tasks.map CoTask.fn <+: tasks'.map CoTask.fn) {i : Nat} {t t' : CoTask}
    (ht : tasks[i]? = some t) (ht' : tasks'[i]? = some t') : t'.fn = t.fn := by
  obtain ⟨more, hmore⟩ := h
  have hfn : (tasks.map CoTask.fn ++ more)[i]? = some t.fn := by
    rw [List.getElem?_append_left]
    · rw [List.getElem?_map, ht]
      rfl
    · rw [List.length_map]
      exact (List.getElem?_eq_some_iff.mp ht).1
  rw [hmore, List.getElem?_map, ht'] at hfn
  exact Option.some.inj hfn

theorem Progress.trans {s s' s'' : CoSched} {log log' : List Nat} (h : Progress s log s')
    (h' : Progress s' log' s'') : Progress s (log ++ log') s'' where
  fns := h.fns.trans h'.fns
  inside := by
    intro i hi
    rcases List.mem_append.mp hi with hfirst | hlast
    · exact Nat.lt_of_lt_of_le (h.inside i hfirst) h'.count_le
    · exact h'.inside i hlast
  account := by
    intro i t'' ht''
    have hlast := h'.account i t'' ht''
    rw [List.count_append]
    cases ht' : s'.tasks[i]? with
    | some t' =>
        have hfirst := h.account i t' ht'
        have hfn := fn_eq_of_prefix h'.fns ht' ht''
        rw [ht'] at hlast
        simp only [Option.map_some, Option.getD_some] at hlast
        rw [hfn, ← hfirst]
        omega
    | none =>
        have hlen' : s'.count ≤ i := List.getElem?_eq_none_iff.mp ht'
        have ht : s.tasks[i]? = none :=
          List.getElem?_eq_none_iff.mpr (Nat.le_trans h.count_le hlen')
        have hnever : log.count i = 0 :=
          List.count_eq_zero.mpr fun hi => Nat.not_lt.mpr hlen' (h.inside i hi)
        rw [ht'] at hlast
        rw [hnever, Nat.zero_add, ht]
        exact hlast
  spent := by
    have hfirst := h.spent
    have hlast := h'.spent
    rw [List.length_append]
    omega

theorem Progress.isDone_eq {s s' : CoSched} {log : List Nat} (h : Progress s log s') {i : Nat}
    (hi : i ∉ log) : s'.isDone i = s.isDone i := by
  unfold CoSched.isDone
  cases ht' : s'.tasks[i]? with
  | none =>
      have hlen : s.count ≤ i := Nat.le_trans h.count_le (List.getElem?_eq_none_iff.mp ht')
      rw [List.getElem?_eq_none_iff.mpr hlen]
  | some t' =>
      have haccount := h.account i t' ht'
      rw [List.count_eq_zero.mpr hi, Nat.add_zero] at haccount
      rw [Option.any_some]
      cases ht : s.tasks[i]? with
      | none =>
          rw [ht] at haccount
          have howed : t'.owed ≠ 0 := by
            rw [haccount]
            exact Nat.succ_ne_zero _
          rw [ne_eq, CoTask.owed_eq_zero, Bool.not_eq_true] at howed
          exact howed
      | some t =>
          rw [ht] at haccount
          have howed : t'.owed = t.owed := haccount
          rw [Option.any_some, Bool.eq_iff_iff, ← CoTask.owed_eq_zero, howed, CoTask.owed_eq_zero]

end Accounts

section Modify

variable {α β : Type} {f : α → α} {i : Nat}

private theorem modify_append {l r : List α} (hi : i < l.length) :
    (l ++ r).modify i f = l.modify i f ++ r := by
  induction l generalizing i with
  | nil => cases hi
  | cons a l ih =>
      cases i with
      | zero => rfl
      | succ i =>
          rw [List.cons_append, List.modify_succ_cons, ih (Nat.lt_of_succ_lt_succ hi),
            List.modify_succ_cons, List.cons_append]

private theorem map_modify {g : α → β} (hg : ∀ a, g (f a) = g a) (l : List α) :
    (l.modify i f).map g = l.map g := by
  apply List.ext_getElem?
  intro j
  rw [List.getElem?_map, List.getElem?_map, List.getElem?_modify]
  split
  · cases l[j]? with
    | none => rfl
    | some a => exact congrArg some (hg a)
  · cases l[j]? with
    | none => rfl
    | some a => rfl

private theorem sum_modify {w : α → Nat} {l : List α} {a : α} (ha : l[i]? = some a) :
    ((l.modify i f).map w).sum + w a = (l.map w).sum + w (f a) := by
  induction l generalizing i with
  | nil => cases ha
  | cons b l ih =>
      cases i with
      | zero =>
          obtain rfl : b = a := Option.some.inj ha
          rw [List.modify_zero_cons, List.map_cons, List.map_cons, List.sum_cons, List.sum_cons]
          omega
      | succ i =>
          have hrest := ih (i := i) ha
          rw [List.modify_succ_cons, List.map_cons, List.map_cons, List.sum_cons, List.sum_cons]
          omega

end Modify

section Resuming

variable (grants : Nat → Bool)

theorem coSpawn_tasks (s : CoSched) (fn : TaskFn) :
    (coSpawn grants s fn).2.tasks = s.tasks ∨
      (coSpawn grants s fn).2.tasks = s.tasks ++ [.fresh fn] := by
  unfold coSpawn
  split
  · exact Or.inl rfl
  · cases hgrow : growTable grants s with
    | none => exact Or.inl rfl
    | some grown =>
        obtain ⟨s', hroom⟩ := grown
        have hsame : s'.tasks = s.tasks := by
          unfold growTable at hgrow
          split at hgrow
          · dsimp only at hgrow
            split at hgrow
            · rw [← Subtype.mk.inj (Option.some.inj hgrow)]
            · cases hgrow
          · rw [← Subtype.mk.inj (Option.some.inj hgrow)]
        dsimp only
        rw [← hsame]
        split
        · exact Or.inl rfl
        · split
          · exact Or.inl rfl
          · split
            · exact Or.inl rfl
            · exact Or.inr rfl

/-- A resumption adds fresh tasks and takes the task on to its next yield.  What it adds comes out
of the weight of the task. -/
theorem acoResume_tasks (i : Nat) (left : TaskFn) (s : CoSched) (hi : i < s.tasks.length) :
    ∃ spawned : List TaskFn,
      (acoResume grants i left s).tasks =
        s.tasks.modify i (fun t => t.resumed left.after) ++ spawned.map CoTask.fresh ∧
      (left.after.map TaskFn.weight).getD 0 + (spawned.map TaskFn.weight).sum + spawned.length + 1 ≤
        left.weight := by
  induction left generalizing s with
  | ret => exact ⟨[], (List.append_nil _).symm, by decide⟩
  | spawn child next _ ih =>
      rw [acoResume, TaskFn.after, TaskFn.weight]
      rcases coSpawn_tasks grants s child with hsame | hpush
      · obtain ⟨spawned, htasks, hweight⟩ := ih (coSpawn grants s child).2 (by rwa [hsame])
        exact ⟨spawned, by rw [htasks, hsame], by omega⟩
      · have hi' : i < (coSpawn grants s child).2.tasks.length := by
          rw [hpush, List.length_append]
          omega
        obtain ⟨spawned, htasks, hweight⟩ := ih (coSpawn grants s child).2 hi'
        refine ⟨child :: spawned, ?_, ?_⟩
        · rw [htasks, hpush, modify_append hi, List.append_assoc]
          rfl
        · rw [List.map_cons, List.sum_cons, List.length_cons]
          omega
  | yield next _ =>
      refine ⟨[], (List.append_nil _).symm, ?_⟩
      rw [TaskFn.after, TaskFn.weight]
      simp

private theorem resumed_fn (t : CoTask) (after : Option TaskFn) : (t.resumed after).fn = t.fn := by
  cases after <;> rfl

private theorem resumed_owed {t : CoTask} (hleft : t.done = false) :
    (t.resumed t.left.after).owed + 1 = t.owed := by
  have hafter : ∀ left : TaskFn,
      left.yields = (left.after.map fun next => next.yields + 1).getD 0 := by
    intro left
    induction left with
    | ret => rfl
    | spawn child next _ ih => exact ih
    | yield next _ => rfl
  rw [CoTask.owed, CoTask.owed, hleft, hafter t.left]
  cases t.left.after with
  | none => rfl
  | some next => simp [CoTask.resumed, hleft]

private theorem resumed_weight {t : CoTask} (hleft : t.done = false) :
    (t.resumed t.left.after).weight = (t.left.after.map TaskFn.weight).getD 0 := by
  cases t.left.after with
  | none => rfl
  | some next => simp [CoTask.resumed, CoTask.weight, hleft]

theorem acoResume_progress {s s₀ : CoSched} {i : Nat} {t : CoTask} (ht : s.tasks[i]? = some t)
    (hleft : t.done = false) (hs : s₀.tasks = s.tasks) :
    Progress s [i] (acoResume grants i t.left s₀) := by
  have hi : i < s.tasks.length := (List.getElem?_eq_some_iff.mp ht).1
  obtain ⟨spawned, htasks, hweight⟩ := acoResume_tasks grants i t.left s₀ (hs ▸ hi)
  rw [hs] at htasks
  have hfresh : (spawned.map CoTask.fresh).map CoTask.weight = spawned.map TaskFn.weight := by
    rw [List.map_map]
    rfl
  refine ⟨?_, ?_, ?_, ?_⟩
  · rw [htasks, List.map_append, map_modify fun t' => resumed_fn t' _]
    exact List.prefix_append _ _
  · intro j hj
    rw [List.mem_singleton] at hj
    rw [hj, CoSched.count, htasks, List.length_append, List.length_modify]
    omega
  · intro j t' ht'
    rw [htasks] at ht'
    by_cases hj : j < s.tasks.length
    · rw [List.getElem?_append_left (by rwa [List.length_modify])] at ht'
      by_cases hji : i = j
      · subst hji
        rw [List.getElem?_modify_eq, ht] at ht'
        rw [← Option.some.inj ht', ht, List.count_singleton_self]
        exact resumed_owed hleft
      · rw [List.getElem?_modify_ne _ _ hji] at ht'
        rw [ht', List.count_eq_zero.mpr fun hmem => hji (List.mem_singleton.mp hmem).symm]
        rfl
    · rw [List.getElem?_append_right (by rw [List.length_modify]; omega), List.getElem?_map] at ht'
      obtain ⟨fn, _, rfl⟩ := Option.map_eq_some_iff.mp ht'
      have hne : j ∉ [i] := by
        rw [List.mem_singleton]
        omega
      rw [List.count_eq_zero.mpr hne, List.getElem?_eq_none_iff.mpr (Nat.not_lt.mp hj)]
      rfl
  · have hsum := sum_modify (w := CoTask.weight) (f := fun t' => t'.resumed t.left.after) ht
    have htask : t.weight = t.left.weight := by rw [CoTask.weight, hleft]; rfl
    rw [resumed_weight hleft, htask] at hsum
    unfold CoSched.weight CoSched.count
    rw [htasks, List.map_append, List.sum_append, hfresh, List.length_append, List.length_modify,
      List.length_map, List.length_singleton]
    omega

end Resuming

section Passes

variable (grants : Nat → Bool)

/-- From index `i` on, a pass resumes every task once, in the order of the table, that is not done
already, those spawned meanwhile included. -/
theorem coPass_spec (fuel : Nat) (i : Nat) (pending : Bool) (s : CoSched) (hi : i ≤ s.count)
    (hfuel : s.weight + s.count < fuel + i) :
    ∃ resumed s', coPass grants fuel i pending s = some (pending || !resumed.isEmpty, resumed, s') ∧
      Progress s (resumed.map Resumption.task) s' ∧
      resumed.map Resumption.task =
        (List.range' i (s'.count - i)).filter (fun j => !s.isDone j) ∧
      ∀ r ∈ resumed, ∃ t, r.table[r.task]? = some t ∧ t.done = false := by
  induction fuel generalizing i pending s with
  | zero => omega
  | succ fuel ih =>
      rw [coPass]
      cases ht : s.tasks[i]? with
      | none =>
          have hend : s.count ≤ i := List.getElem?_eq_none_iff.mp ht
          refine ⟨[], s, by simp, .refl rfl, ?_, fun r hr => absurd hr List.not_mem_nil⟩
          rw [Nat.sub_eq_zero_of_le hend]
          rfl
      | some t =>
          have hlt : i < s.count := (List.getElem?_eq_some_iff.mp ht).1
          have hdone : s.isDone i = t.done := by
            rw [CoSched.isDone, ht]
            rfl
          -- the indices that are left: this one and those behind it
          have hsplit : ∀ s' : CoSched, i < s'.count →
              List.range' i (s'.count - i) = i :: List.range' (i + 1) (s'.count - (i + 1)) := by
            intro s' hs'
            rw [← List.range'_succ]
            congr 1
            omega
          by_cases hskip : t.done = true
          · obtain ⟨resumed, s', hrun, hprogress, hindices, htables⟩ :=
              ih (i + 1) pending s hlt (by omega)
            refine ⟨resumed, s', ?_, hprogress, ?_, htables⟩
            · dsimp only
              rw [if_pos hskip]
              exact hrun
            · rw [hindices, hsplit s' (Nat.lt_of_lt_of_le hlt hprogress.count_le),
                List.filter_cons_of_neg]
              rw [hdone, hskip]
              decide
          · rw [Bool.not_eq_true] at hskip
            have hstep : Progress s [i] (acoResume grants i t.left { s with current := some i }) :=
              acoResume_progress grants ht hskip rfl
            have hspent := hstep.spent
            rw [List.length_singleton] at hspent
            obtain ⟨resumed, s', hrun, hprogress, hindices, htables⟩ :=
              ih (i + 1) true _ (Nat.lt_of_lt_of_le hlt hstep.count_le) (by omega)
            have hlt' : i < s'.count :=
              Nat.lt_of_lt_of_le hlt (Nat.le_trans hstep.count_le hprogress.count_le)
            refine ⟨⟨i, s.tasks⟩ :: resumed, s', ?_, hstep.trans hprogress, ?_, ?_⟩
            · dsimp only
              rw [if_neg (by rw [hskip]; decide), hrun]
              simp
            · rw [List.map_cons, hindices, hsplit s' hlt', List.filter_cons_of_pos]
              · congr 1
                apply List.filter_congr
                intro j hj
                have hne : j ∉ [i] := by
                  rw [List.mem_singleton]
                  have hlow := (List.mem_range'_1.mp hj).1
                  omega
                rw [hstep.isDone_eq hne]
              · rw [hdone, hskip]
                rfl
            · intro r hr
              rcases List.mem_cons.mp hr with rfl | hrest
              · exact ⟨t, ht, hskip⟩
              · exact htables r hrest

/-- What is resumed in some passes, in order. -/
def resumptions (passes : List Pass) : List Nat :=
  passes.flatMap fun p => p.resumed.map Resumption.task

/-- A pass resumes, in the order of the table, the tasks that are not done before it and those that
are spawned in it, and it resumes none that is done. -/
structure Pass.Fair (p : Pass) : Prop where
  order : p.resumed.map Resumption.task =
    (List.range p.finish.count).filter fun i => !p.start.isDone i
  unfinished : ∀ r ∈ p.resumed, ∃ t, r.table[r.task]? = some t ∧ t.done = false

theorem coRunLoop_spec {fuel : Nat} (n : Nat) (s : CoSched) (hfuel : s.weight + s.count < fuel)
    (hn : s.weight + s.count < n) :
    ∃ passes s', coRunLoop grants fuel n s = some (passes, s') ∧
      Progress s (resumptions passes) s' ∧ (∀ t ∈ s'.tasks, t.done = true) ∧
      ∀ p ∈ passes, p.Fair := by
  induction n generalizing s with
  | zero => omega
  | succ n ih =>
      obtain ⟨resumed, s', hpass, hprogress, hindices, htables⟩ :=
        coPass_spec grants fuel 0 false s (Nat.zero_le _) hfuel
      have hfair : Pass.Fair ⟨s, resumed, s'⟩ := by
        refine ⟨?_, htables⟩
        rw [List.range_eq_range']
        exact hindices
      have hspent := hprogress.spent
      rw [List.length_map] at hspent
      rw [coRunLoop, hpass, Option.bind_some]
      cases resumed with
      | nil =>
          refine ⟨[⟨s, [], s'⟩], { s' with current := none }, rfl, ?_, ?_, ?_⟩
          · have hidle : Progress s' [] { s' with current := none } := Progress.refl rfl
            exact hprogress.trans hidle
          · intro t ht
            obtain ⟨i, hi, hget⟩ := List.getElem_of_mem ht
            have hdone : s.isDone i = true := by
              by_contra hopen
              have hmem : i ∈ (List.range' 0 (s'.count - 0)).filter fun j => !s.isDone j := by
                rw [List.mem_filter, List.mem_range'_1]
                exact ⟨⟨Nat.zero_le i, by rw [Nat.zero_add]; exact hi⟩, by simpa using hopen⟩
              rw [← hindices] at hmem
              cases hmem
            rw [← hprogress.isDone_eq List.not_mem_nil, CoSched.isDone,
              List.getElem?_eq_getElem hi, Option.any_some] at hdone
            rw [← hget]
            exact hdone
          · intro p hp
            rw [List.mem_singleton] at hp
            rw [hp]
            exact hfair
      | cons r rest =>
          rw [List.length_cons] at hspent
          obtain ⟨passes, s'', hrun, hafter, hdone, hall⟩ := ih s' (by omega) (by omega)
          refine ⟨⟨s, r :: rest, s'⟩ :: passes, s'', ?_, hprogress.trans hafter, hdone, ?_⟩
          · simp [hrun]
          · intro p hp
            rcases List.mem_cons.mp hp with rfl | hp
            · exact hfair
            · exact hall p hp

private theorem coPass_mono {fuel fuel' i : Nat} {pending : Bool} {s : CoSched}
    {r : Bool × List Resumption × CoSched} (hle : fuel ≤ fuel')
    (hrun : coPass grants fuel i pending s = some r) : coPass grants fuel' i pending s = some r := by
  induction fuel generalizing fuel' i pending s r with
  | zero => cases hrun
  | succ fuel ih =>
      obtain ⟨fuel', rfl⟩ : ∃ n, fuel' = n + 1 := ⟨fuel' - 1, by omega⟩
      have hle' : fuel ≤ fuel' := Nat.le_of_succ_le_succ hle
      rw [coPass] at hrun ⊢
      cases ht : s.tasks[i]? with
      | none =>
          rw [ht] at hrun
          exact hrun
      | some t =>
          rw [ht] at hrun
          dsimp only at hrun ⊢
          by_cases hskip : t.done = true
          · rw [if_pos hskip] at hrun ⊢
            exact ih hle' hrun
          · rw [if_neg hskip] at hrun ⊢
            obtain ⟨rest, hrest, rfl⟩ := Option.map_eq_some_iff.mp hrun
            rw [ih hle' hrest]
            rfl

private theorem coRunLoop_mono {fuel fuel' n n' : Nat} {s : CoSched} {r : List Pass × CoSched}
    (hle : fuel ≤ fuel') (hn : n ≤ n') (hrun : coRunLoop grants fuel n s = some r) :
    coRunLoop grants fuel' n' s = some r := by
  induction n generalizing n' s r with
  | zero => cases hrun
  | succ n ih =>
      obtain ⟨n', rfl⟩ : ∃ m, n' = m + 1 := ⟨n' - 1, by omega⟩
      rw [coRunLoop] at hrun ⊢
      obtain ⟨⟨pending, resumed, s'⟩, hpass, hrest⟩ := Option.bind_eq_some_iff.mp hrun
      rw [coPass_mono grants hle hpass, Option.bind_some]
      dsimp only at hrest ⊢
      by_cases hpending : pending = true
      · rw [if_pos hpending] at hrest ⊢
        obtain ⟨rest, hrun', rfl⟩ := Option.map_eq_some_iff.mp hrest
        rw [ih (Nat.le_of_succ_le_succ hn) hrun']
        rfl
      · rw [if_neg hpending] at hrest ⊢
        exact hrest

theorem coRun_settles (s : CoSched) :
    ∃ passes s', SettlesTo atTop (fun fuel => coRun grants fuel s) (passes, s') ∧
      Progress s (resumptions passes) s' ∧ (∀ t ∈ s'.tasks, t.done = true) ∧
      ∀ p ∈ passes, p.Fair := by
  obtain ⟨passes, s', hrun, hprogress, hdone, hfair⟩ :=
    coRunLoop_spec grants (s.weight + s.count + 1) s (Nat.lt_succ_self _)
      (Nat.lt_succ_self _)
  refine ⟨passes, s', ?_, hprogress, hdone, hfair⟩
  refine eventually_atTop.mpr ⟨s.weight + s.count + 1, fun fuel hfuel => ?_⟩
  exact coRunLoop_mono grants hfuel hfuel hrun

end Passes

section RoundRobin

variable {grants : Nat → Bool}

theorem reached_idle {s : CoSched} (hs : Reached grants s) (t : CoTask) (ht : t ∈ s.tasks) :
    t.done = true ∨ t.left = t.fn := by
  induction hs with
  | init calls => cases ht
  | @spawn s₀ fn _ ih =>
      rcases coSpawn_tasks grants s₀ fn with hsame | hpush
      · rw [hsame] at ht
        exact ih ht
      · rw [hpush, List.mem_append, List.mem_singleton] at ht
        rcases ht with hold | rfl
        · exact ih hold
        · exact Or.inr rfl
  | @run s₀ s₁ passes _ hrun _ =>
      obtain ⟨passes', s', hrun', _, hdone, _⟩ := coRun_settles grants s₀
      have hsame : s₁ = s' := congrArg Prod.snd (hrun.unique hrun')
      rw [hsame] at ht
      exact Or.inl (hdone t ht)
  | free _ _ => cases ht

/-- `co_run` comes to an end with all tasks done.  Each task that was not done before, or that is
spawned meanwhile, has been resumed once more than it yields, in passes that take the unfinished
tasks in the order of the table. -/
theorem round_robin {s : CoSched} (hs : Reached grants s) :
    ∃ passes s', SettlesTo atTop (fun fuel => coRun grants fuel s) (passes, s') ∧
      s.tasks.map CoTask.fn <+: s'.tasks.map CoTask.fn ∧
      (∀ (i : Nat) (t : CoTask), s'.tasks[i]? = some t → t.done = true ∧
        (resumptions passes).count i = if s.isDone i then 0 else t.fn.yields + 1) ∧
      ∀ p ∈ passes, p.Fair := by
  obtain ⟨passes, s', hrun, hprogress, hdone, hfair⟩ := coRun_settles grants s
  refine ⟨passes, s', hrun, hprogress.fns, fun i t' ht' => ?_, hfair⟩
  have hdone' : t'.done = true := hdone t' (List.mem_of_getElem? ht')
  have haccount := hprogress.account i t' ht'
  rw [CoTask.owed_eq_zero.mpr hdone', Nat.zero_add] at haccount
  refine ⟨hdone', ?_⟩
  rw [haccount, CoSched.isDone]
  cases ht : s.tasks[i]? with
  | none => rfl
  | some t =>
      have hfn : t'.fn = t.fn := fn_eq_of_prefix hprogress.fns ht ht'
      rw [Option.map_some, Option.getD_some, Option.any_some, CoTask.owed, hfn]
      split
      · rfl
      · rename_i hopen
        rw [(reached_idle hs t (List.mem_of_getElem? ht)).resolve_left hopen]

/-- A task that spawns another one and yields once, and a task that yields twice. -/
def twoTasks : CoSched :=
  (coSpawn (fun _ => true) (coSpawn (fun _ => true) (coSchedInit 0) (.spawn .ret (.yield .ret))).2
    (.yield (.yield .ret))).2

theorem twoTasks_finish_in_turn :
    ∃ passes s', SettlesTo atTop (fun fuel => coRun (fun _ => true) fuel twoTasks) (passes, s') ∧
      twoTasks.tasks.map CoTask.fn <+: s'.tasks.map CoTask.fn ∧
      (∀ (i : Nat) (t : CoTask), s'.tasks[i]? = some t → t.done = true ∧
        (resumptions passes).count i = if twoTasks.isDone i then 0 else t.fn.yields + 1) ∧
      ∀ p ∈ passes, p.Fair :=
  round_robin (.spawn _ (.spawn _ (.init 0)))

example : ((coRun (fun _ => true) 9 twoTasks).map fun r => resumptions r.1) =
    some [0, 1, 2, 0, 1, 1] := by
  decide

end RoundRobin

end CZet.Stdlib.Coroutines
