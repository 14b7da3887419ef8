/- digest: Runs of partial operations, their guarded runs, and refinement of a total machine. -/

import Mathlib.Data.List.Basic

set_option autoImplicit false
set_option relaxedAutoImplicit false

namespace CZet.Lib.OpRun

variable {Op S A O : Type}

/-- Perform the operations in order; `none` when one of them is refused. -/
def runOps (step : Op → S → Option (List O × S)) : List Op → S → Option (List O × S)
  | [], s => some ([], s)
  | op :: ops, s => do
      let (out, s') ← step op s
      let (outs, s'') ← runOps step ops s'
      pure (out ++ outs, s'')

/-- The same for a machine whose operations never refuse. -/
def specOps (spec : Op → A → List O × A) : List Op → A → List O × A
  | [], a => ([], a)
  | op :: ops, a =>
      let r := spec op a
      let rs := specOps spec ops r.2
      (r.1 ++ rs.1, rs.2)

/-- Every operation of the run is performed in a state that meets `guard`. -/
def GuardedRun (step : Op → S → Option (List O × S)) (guard : Op → S → Prop) :
    List Op → S → Prop
  | [], _ => True
  | op :: ops, s => guard op s ∧ ∀ out s', step op s = some (out, s') →
      GuardedRun step guard ops s'

theorem runOps_cons {step : Op → S → Option (List O × S)} {op : Op} {ops : List Op}
    {s t : S} {outs : List O} (h : runOps step (op :: ops) s = some (outs, t)) :
    ∃ out s' rest, step op s = some (out, s') ∧ runOps step ops s' = some (rest, t) ∧
      outs = out ++ rest := by
  simp only [runOps, Option.bind_eq_bind, Option.pure_def, Option.bind_eq_some_iff] at h
  obtain ⟨⟨out, s'⟩, hstep, ⟨rest, s''⟩, hrun, hres⟩ := h
  simp only [Option.some.injEq, Prod.mk.injEq] at hres
  obtain ⟨rfl, rfl⟩ := hres
  exact ⟨out, s', rest, hstep, hrun, rfl⟩

theorem runOps_cons_of_step {step : Op → S → Option (List O × S)} {op : Op} {ops : List Op}
    {s s' t : S} {out rest : List O} (hstep : step op s = some (out, s'))
    (hrun : runOps step ops s' = some (rest, t)) :
    runOps step (op :: ops) s = some (out ++ rest, t) := by
  simp [runOps, hstep, hrun]

theorem guardedRun_cons {step : Op → S → Option (List O × S)} {guard : Op → S → Prop}
    {op : Op} {ops : List Op} {s s' : S} {out : List O} (hguard : guard op s)
    (hstep : step op s = some (out, s')) (hrest : GuardedRun step guard ops s') :
    GuardedRun step guard (op :: ops) s := by
  refine ⟨hguard, ?_⟩
  intro out' t ht
  obtain ⟨-, rfl⟩ := Prod.mk.inj (Option.some.inj (hstep.symm.trans ht))
  exact hrest

theorem guardedRun_congr {step : Op → S → Option (List O × S)} {guard guard' : Op → S → Prop}
    {P : S → Prop} (hguard : ∀ op s, P s → (guard op s ↔ guard' op s))
    (hstep : ∀ op s out s', P s → guard' op s → step op s = some (out, s') → P s')
    (ops : List Op) (s : S) (h : P s) :
    GuardedRun step guard ops s ↔ GuardedRun step guard' ops s := by
  induction ops generalizing s with
  | nil => exact Iff.rfl
  | cons op ops ih =>
      rw [GuardedRun, GuardedRun, hguard op s h]
      refine and_congr_right fun hop => forall_congr' fun out => forall_congr' fun s' => ?_
      refine imp_congr_right fun hone => ?_
      exact ih s' (hstep op s out s' h hop hone)

/-- A guarded run refines the total machine along `abs` when every guarded step does. -/
theorem runOps_refines {step : Op → S → Option (List O × S)} {guard : Op → S → Prop}
    {spec : Op → A → List O × A} {abs : S → A}
    (hstep : ∀ op s out s', guard op s → step op s = some (out, s') →
      spec op (abs s) = (out, abs s'))
    (ops : List Op) (s t : S) (outs : List O) (hguard : GuardedRun step guard ops s)
    (hrun : runOps step ops s = some (outs, t)) :
    specOps spec ops (abs s) = (outs, abs t) := by
  induction ops generalizing s outs with
  | nil =>
      simp only [runOps, Option.some.injEq, Prod.mk.injEq] at hrun
      obtain ⟨rfl, rfl⟩ := hrun
      rfl
  | cons op ops ih =>
      obtain ⟨out, s', rest, hone, hmany, rfl⟩ := runOps_cons hrun
      have hspec := hstep op s out s' hguard.1 hone
      have hrest := ih s' rest (hguard.2 out s' hone) hmany
      simp only [specOps, hspec, hrest]

theorem runOps_invariant {step : Op → S → Option (List O × S)} {P : List O → S → Prop}
    (hstep : ∀ outs op s out s', P outs s → step op s = some (out, s') → P (outs ++ out) s')
    (ops : List Op) (outs : List O) (s t : S) (outs' : List O) (h : P outs s)
    (hrun : runOps step ops s = some (outs', t)) : P (outs ++ outs') t := by
  induction ops generalizing outs s outs' with
  | nil =>
      simp only [runOps, Option.some.injEq, Prod.mk.injEq] at hrun
      obtain ⟨rfl, rfl⟩ := hrun
      rw [List.append_nil]
      exact h
  | cons op ops ih =>
      obtain ⟨out, s', rest, hone, hmany, rfl⟩ := runOps_cons hrun
      rw [← List.append_assoc]
      exact ih _ s' rest (hstep outs op s out s' h hone) hmany

/-- What a guarded step preserves holds at the end of a guarded run. -/
theorem guardedRun_invariant {step : Op → S → Option (List O × S)} {guard : Op → S → Prop}
    {P : List O → S → Prop}
    (hstep : ∀ outs op s out s', P outs s → guard op s → step op s = some (out, s') →
      P (outs ++ out) s')
    (ops : List Op) (outs : List O) (s t : S) (outs' : List O) (h : P outs s)
    (hguard : GuardedRun step guard ops s) (hrun : runOps step ops s = some (outs', t)) :
    P (outs ++ outs') t := by
  induction ops generalizing outs s outs' with
  | nil =>
      simp only [runOps, Option.some.injEq, Prod.mk.injEq] at hrun
      obtain ⟨rfl, rfl⟩ := hrun
      rw [List.append_nil]
      exact h
  | cons op ops ih =>
      obtain ⟨out, s', rest, hone, hmany, rfl⟩ := runOps_cons hrun
      have hnext := hstep outs op s out s' h hguard.1 hone
      rw [← List.append_assoc]
      exact ih _ s' rest hnext (hguard.2 out s' hone) hmany

theorem runOps_length_le {step : Op → S → Option (List O × S)} {P : Op → Prop} {m : S → Nat}
    (hstep : ∀ op s out s', P op → step op s = some (out, s') → m s' < m s)
    (ops : List Op) (hops : ∀ op ∈ ops, P op) (s t : S) (outs : List O)
    (hrun : runOps step ops s = some (outs, t)) : ops.length + m t ≤ m s := by
  induction ops generalizing s outs with
  | nil =>
      simp only [runOps, Option.some.injEq, Prod.mk.injEq] at hrun
      rw [hrun.2]
      exact Nat.le_of_eq (Nat.zero_add _)
  | cons op ops ih =>
      obtain ⟨out, s', rest, hone, hmany, rfl⟩ := runOps_cons hrun
      have hless := hstep op s out s' (hops op List.mem_cons_self) hone
      have hrest := ih (fun op' h => hops op' (List.mem_cons_of_mem op h)) s' rest hmany
      rw [List.length_cons]
      omega

theorem runOps_append {step : Op → S → Option (List O × S)} {ops later : List Op} {s t u : S}
    {outs outs' : List O} (h : runOps step ops s = some (outs, t))
    (h' : runOps step later t = some (outs', u)) :
    runOps step (ops ++ later) s = some (outs ++ outs', u) := by
  induction ops generalizing s outs with
  | nil =>
      simp only [runOps, Option.some.injEq, Prod.mk.injEq] at h
      obtain ⟨rfl, rfl⟩ := h
      exact h'
  | cons op ops ih =>
      obtain ⟨out, s', rest, hone, hmany, rfl⟩ := runOps_cons h
      rw [List.append_assoc]
      exact runOps_cons_of_step hone (ih hmany)

/-- When every operation on related states succeeds with the output of the total machine and
keeps the states related, so does every run. -/
theorem runOps_simulates {step : Op → S → Option (List O × S)} {spec : Op → A → List O × A}
    {R : S → A → Prop}
    (hstep : ∀ op s a, R s a → ∃ s', step op s = some ((spec op a).1, s') ∧ R s' (spec op a).2)
    (ops : List Op) (s : S) (a : A) (h : R s a) :
    ∃ t, runOps step ops s = some ((specOps spec ops a).1, t) ∧ R t (specOps spec ops a).2 := by
  induction ops generalizing s a with
  | nil => exact ⟨s, rfl, h⟩
  | cons op ops ih =>
      obtain ⟨s', hone, hR⟩ := hstep op s a h
      obtain ⟨t, hmany, ht⟩ := ih s' (spec op a).2 hR
      exact ⟨t, runOps_cons_of_step hone hmany, ht⟩

end CZet.Lib.OpRun
