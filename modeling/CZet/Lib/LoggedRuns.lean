/- digest: Computations that may give up and that write a log, and what they come to while
     the log stays as it should. -/

import Mathlib.Data.List.Basic

set_option autoImplicit false
set_option relaxedAutoImplicit false

namespace CZet.Lib.LoggedRuns

variable {σ α β : Type}

/-- Computations that may give up. -/
class GivesUp (m : Type → Type) where
  giveUp : {γ : Type} → m γ

instance : GivesUp Option := ⟨none⟩

/-- The log is kept when the computation gives up. -/
abbrev Logged (σ : Type) := OptionT (StateM (List σ))

instance : GivesUp (Logged σ) := ⟨failure⟩

/-- The result on a log, and the log behind it. -/
def Logged.on (m : Logged σ α) (log : List σ) : Option α × List σ := m.run.run log

theorem on_bind (m : Logged σ α) (k : α → Logged σ β) (log : List σ) :
    Logged.on (m >>= k) log =
      match m.on log with
      | (some a, log') => (k a).on log'
      | (none, log') => (none, log') := by
  simp only [Logged.on, OptionT.run_bind, Option.elimM, StateT.run_bind]
  cases StateT.run m.run log with
  | mk r log' => cases r <;> rfl

section Entries

variable (ok : List σ → σ → Prop)

/-- The entries of `new`, added to `log` one after the other, are all as they should be on the
log before them. -/
def Added : List σ → List σ → Prop
  | _, [] => True
  | log, s :: new => ok log s ∧ Added (log ++ [s]) new

instance [∀ log s, Decidable (ok log s)] : ∀ log new, Decidable (Added ok log new)
  | _, [] => .isTrue trivial
  | log, s :: new =>
      haveI := instDecidableAdded (log ++ [s]) new
      inferInstanceAs (Decidable (ok log s ∧ Added ok (log ++ [s]) new))

variable {ok}

theorem added_append {log new new' : List σ} :
    Added ok log (new ++ new') ↔ Added ok log new ∧ Added ok (log ++ new) new' := by
  induction new generalizing log with
  | nil => simp [Added]
  | cons s new ih => simp only [List.cons_append, Added, ih, List.append_assoc, and_assoc,
      List.nil_append]

theorem Added.entry {log new pre post : List σ} {s : σ} (h : Added ok log new)
    (hnew : new = pre ++ s :: post) : ok (log ++ pre) s := by
  subst hnew
  exact (added_append.mp h).2.1

end Entries

/-- The computation only adds to the log, and where what it adds is as it should be it comes to
what `p` comes to. -/
def Follows (ok : List σ → σ → Prop) (m : Logged σ α) (p : Option α) : Prop :=
  ∀ log, ∃ new, (m.on log).2 = log ++ new ∧ (Added ok log new → (m.on log).1 = p)

variable {ok : List σ → σ → Prop}

theorem Follows.pure (a : α) : Follows ok (Pure.pure a : Logged σ α) (some a) :=
  fun log => ⟨[], (List.append_nil log).symm, fun _ => rfl⟩

theorem Follows.giveUp : Follows ok (GivesUp.giveUp : Logged σ α) GivesUp.giveUp :=
  fun log => ⟨[], (List.append_nil log).symm, fun _ => rfl⟩

theorem Follows.bind {m : Logged σ α} {p : Option α} {k : α → Logged σ β} {q : α → Option β}
    (hm : Follows ok m p) (hk : ∀ a, Follows ok (k a) (q a)) :
    Follows ok (m >>= k) (p >>= q) := by
  intro log
  obtain ⟨new, hlog, hagrees⟩ := hm log
  rw [on_bind]
  cases hrun : m.on log with
  | mk r log' =>
      rw [hrun] at hlog hagrees
      obtain rfl : log' = log ++ new := hlog
      cases r with
      | none =>
          refine ⟨new, rfl, fun hnew => ?_⟩
          rw [← hagrees hnew]
          rfl
      | some a =>
          obtain ⟨new', hlog', hagrees'⟩ := hk a (log ++ new)
          refine ⟨new ++ new', by rw [← List.append_assoc]; exact hlog', fun hnew => ?_⟩
          obtain ⟨hfirst, hrest⟩ := added_append.mp hnew
          rw [← hagrees hfirst]
          exact hagrees' hrest

theorem Follows.map {m : Logged σ α} {p : Option α} (f : α → β) (hm : Follows ok m p) :
    Follows ok (f <$> m) (f <$> p) := by
  rw [map_eq_pure_bind, map_eq_pure_bind]
  exact hm.bind fun a => .pure (f a)

theorem Follows.on_eq {m : Logged σ α} {p : Option α} (hm : Follows ok m p) (log : List σ)
    (hsteady : ∀ r new, m.on log = (r, log ++ new) → Added ok log new) : (m.on log).1 = p := by
  obtain ⟨new, hlog, hagrees⟩ := hm log
  exact hagrees (hsteady _ new (Prod.ext rfl hlog))

/-- What a computation comes to that has added `new`. -/
theorem Follows.result {m : Logged σ α} {p : Option α} (hm : Follows ok m p)
    {log new : List σ} {r : Option α} (hrun : m.on log = (r, log ++ new))
    (hnew : Added ok log new) : r = p := by
  obtain ⟨new', hlog, hagrees⟩ := hm log
  rw [hrun] at hlog hagrees
  obtain rfl : new = new' := List.append_cancel_left hlog
  exact hagrees hnew

/-- Add to the log and go on with a value that depends on it. -/
def record (new : List σ) (f : List σ → α) : Logged σ α := do
  modify (· ++ new)
  let log ← get
  pure (f log)

theorem Follows.record {new : List σ} {f : List σ → α} {a : α}
    (h : ∀ log, Added ok log new → f (log ++ new) = a) :
    Follows ok (LoggedRuns.record new f) (some a) :=
  fun log => ⟨new, rfl, fun hnew => congrArg some (h log hnew)⟩

end CZet.Lib.LoggedRuns
