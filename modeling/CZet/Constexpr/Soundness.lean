/- source: src/gcc/gcc/c/c-fold.cc (c_fold_cx_eval, c_fold_cx_exec, c_fold_constexpr_call)
   digest: A constant found by the compile-time evaluator is the value of the call at run time. -/

import CZet.Constexpr.SaveExprs

set_option autoImplicit false
set_option relaxedAutoImplicit false
set_option linter.unusedSectionVars false

namespace CZet

open Lib.LoggedRuns

variable {F X O L : Type}

section Writes

mutual
/-- The variables that an expression assigns. -/
def CxExpr.writes : CxExpr F X O → List X
  | .const _ => []
  | .var _ => []
  | .op _ args => exprsWrites args
  | .lazy _ a b => a.writes ++ b.writes
  | .cond c a b => c.writes ++ (a.writes ++ b.writes)
  | .call _ args => exprsWrites args
  | .assign x e => x :: e.writes
  | .assignTo _ e => e.writes

def exprsWrites : List (CxExpr F X O) → List X
  | [] => []
  | e :: es => e.writes ++ exprsWrites es
end

mutual
/-- The variables that a statement assigns, increments or decrements; a declaration with an
initializer is no assignment. -/
def CxStmt.writes : CxStmt F X O L → List X
  | .cond c thn els => c.writes ++ (optionWrites thn ++ optionWrites els)
  | .modify x e => x :: e.writes
  | .modifyResult e => e.writes
  | .step x _ => [x]
  | .bind _ body => listWrites body
  | .list body => listWrites body
  | .ret (some e) => e.writes
  | _ => []

def optionWrites : Option (CxStmt F X O L) → List X
  | none => []
  | some s => s.writes

def listWrites : List (CxStmt F X O L) → List X
  | [] => []
  | s :: rest => s.writes ++ listWrites rest
end

mutual
/-- The variables that a statement increments or decrements. -/
def CxStmt.stepped : CxStmt F X O L → List X
  | .cond _ thn els => optionStepped thn ++ optionStepped els
  | .step x _ => [x]
  | .bind _ body => listStepped body
  | .list body => listStepped body
  | _ => []

def optionStepped : Option (CxStmt F X O L) → List X
  | none => []
  | some s => s.stepped

def listStepped : List (CxStmt F X O L) → List X
  | [] => []
  | s :: rest => s.stepped ++ listStepped rest
end

theorem listWrites_of_mem {body : List (CxStmt F X O L)} {s : CxStmt F X O L} (hs : s ∈ body)
    {x : X} (hx : x ∈ s.writes) : x ∈ listWrites body := by
  induction body with
  | nil => exact absurd hs List.not_mem_nil
  | cons s' body ih =>
      simp only [listWrites, List.mem_append]
      rcases List.mem_cons.mp hs with rfl | hs
      · exact .inl hx
      · exact .inr (ih hs)

theorem listStepped_of_mem {body : List (CxStmt F X O L)} {s : CxStmt F X O L} (hs : s ∈ body)
    {x : X} (hx : x ∈ s.stepped) : x ∈ listStepped body := by
  induction body with
  | nil => exact absurd hs List.not_mem_nil
  | cons s' body ih =>
      simp only [listStepped, List.mem_append]
      rcases List.mem_cons.mp hs with rfl | hs
      · exact .inl hx
      · exact .inr (ih hs)

mutual
theorem mem_writes_subst {env : CxEnv X} {x : X} :
    ∀ e : CxExpr F X O, x ∈ (CxExpr.substitute env e).writes → x ∈ e.writes ∧ env x = none
  | .const v, h => by simp [CxExpr.substitute, CxExpr.writes] at h
  | .var y, h => by
      rw [CxExpr.substitute] at h
      split at h <;> simp [CxExpr.writes] at h
  | .op o args, h => by
      simp only [CxExpr.substitute, CxExpr.writes] at h ⊢
      exact mem_writes_substAll args h
  | .lazy k a b, h => by
      simp only [CxExpr.substitute, CxExpr.writes, List.mem_append] at h ⊢
      rcases h with h | h
      · exact ⟨.inl (mem_writes_subst a h).1, (mem_writes_subst a h).2⟩
      · exact ⟨.inr (mem_writes_subst b h).1, (mem_writes_subst b h).2⟩
  | .cond c a b, h => by
      simp only [CxExpr.substitute, CxExpr.writes, List.mem_append] at h ⊢
      rcases h with h | h | h
      · exact ⟨.inl (mem_writes_subst c h).1, (mem_writes_subst c h).2⟩
      · exact ⟨.inr (.inl (mem_writes_subst a h).1), (mem_writes_subst a h).2⟩
      · exact ⟨.inr (.inr (mem_writes_subst b h).1), (mem_writes_subst b h).2⟩
  | .call f args, h => by
      simp only [CxExpr.substitute, CxExpr.writes] at h ⊢
      exact mem_writes_substAll args h
  | .assign y e, h => by
      rw [CxExpr.substitute] at h
      split at h
      · simp only [CxExpr.writes, List.mem_cons] at h ⊢
        exact ⟨.inr (mem_writes_subst e h).1, (mem_writes_subst e h).2⟩
      · rename_i hnone
        simp only [CxExpr.writes, List.mem_cons] at h ⊢
        rcases h with rfl | h
        · exact ⟨.inl rfl, hnone⟩
        · exact ⟨.inr (mem_writes_subst e h).1, (mem_writes_subst e h).2⟩
  | .assignTo v e, h => by
      simp only [CxExpr.substitute, CxExpr.writes] at h ⊢
      exact mem_writes_subst e h

theorem mem_writes_substAll {env : CxEnv X} {x : X} :
    ∀ es : List (CxExpr F X O), x ∈ exprsWrites (substituteAll env es) →
      x ∈ exprsWrites es ∧ env x = none
  | [], h => by simp [substituteAll, exprsWrites] at h
  | e :: es, h => by
      simp only [substituteAll, exprsWrites, List.mem_append] at h ⊢
      rcases h with h | h
      · exact ⟨.inl (mem_writes_subst e h).1, (mem_writes_subst e h).2⟩
      · exact ⟨.inr (mem_writes_substAll es h).1, (mem_writes_substAll es h).2⟩
end

end Writes

/-- A static local with an initializer. -/
def CxProgram.Frozen (P : CxProgram F X O L) (x : X) : Prop :=
  P.isStatic x = true ∧ (P.declInitial x).isSome = true

/-- No function assigns or increments a static local with an initializer, and none increments a
pointer whose elements take more than one byte. -/
structure CxProgram.Safe (P : CxProgram F X O L) : Prop where
  body : ∀ f fn, P.fns f = some fn → ∀ x ∈ listWrites fn.body, ¬ P.Frozen x
  initial : ∀ y e, P.declInitial y = some e → ∀ x ∈ e.writes, ¬ P.Frozen x
  stride : ∀ f fn, P.fns f = some fn → ∀ x ∈ listStepped fn.body, P.stride x = 1

section Keeps

private theorem evaluates_safe {P : CxProgram F X O L} (hsafe : P.Safe) {s : CxStmt F X O L}
    {e : CxExpr F X O} (he : P.evaluates s = some e) (hs : ∀ x ∈ s.writes, ¬ P.Frozen x) :
    ∀ x ∈ e.writes, ¬ P.Frozen x := by
  cases s with
  | decl x =>
      simp only [CxProgram.evaluates] at he
      split at he
      · simp at he
      · exact hsafe.initial x e he
  | cond c thn els =>
      obtain rfl := Option.some.inj he
      exact fun x hx => hs x (by simp [CxStmt.writes, hx])
  | modify y e' =>
      obtain rfl := Option.some.inj he
      exact fun x hx => hs x (by simp [CxStmt.writes, hx])
  | modifyResult e' =>
      obtain rfl := Option.some.inj he
      exact fun x hx => hs x (by simp [CxStmt.writes, hx])
  | ret e' =>
      simp only [CxProgram.evaluates] at he
      subst he
      exact fun x hx => hs x (by simp [CxStmt.writes, hx])
  | _ => simp [CxProgram.evaluates] at he

/-- A frame changes only at the variables `ws`, and frozen variables do not change unless they
are among them. -/
structure Kept (P : CxProgram F X O L) (ws : List X) (st st' : CxStore X) : Prop where
  frame : ∀ x, x ∉ ws → st'.frame x = st.frame x
  statics : (∀ x ∈ ws, ¬ P.Frozen x) → ∀ x, P.Frozen x → st'.statics x = st.statics x

theorem Kept.refl (P : CxProgram F X O L) (ws : List X) (st : CxStore X) : Kept P ws st st :=
  ⟨fun _ _ => rfl, fun _ _ _ => rfl⟩

theorem Kept.trans {P : CxProgram F X O L} {ws₁ ws₂ ws : List X} {st st₁ st₂ : CxStore X}
    (h₁ : Kept P ws₁ st st₁) (h₂ : Kept P ws₂ st₁ st₂) (hws₁ : ws₁ ⊆ ws) (hws₂ : ws₂ ⊆ ws) :
    Kept P ws st st₂ where
  frame x hx := (h₂.frame x fun h => hx (hws₂ h)).trans (h₁.frame x fun h => hx (hws₁ h))
  statics hw x hx := (h₂.statics (fun y hy => hw y (hws₂ hy)) x hx).trans
    (h₁.statics (fun y hy => hw y (hws₁ hy)) x hx)

/-- What a run keeps. -/
def CxJudgement.Keeps (P : CxProgram F X O L) : CxJudgement F X O L → Prop
  | .eval st e out => ∀ v st', out = some (v, st') → Kept P e.writes st st'
  | .evals st es out => ∀ vs st', out = some (vs, st') → Kept P (exprsWrites es) st st'
  | .stmt s _ st _ st' =>
      (∀ x ∈ s.writes, ¬ P.Frozen x) → ∀ x, P.Frozen x → st'.statics x = st.statics x
  | .exec body _ _ st _ st' =>
      (∀ x ∈ listWrites body, ¬ P.Frozen x) → ∀ x, P.Frozen x → st'.statics x = st.statics x

variable [DecidableEq X]

private theorem write_frame (P : CxProgram F X O L) (st : CxStore X) (x y : X) (v : Int)
    (hne : y ≠ x) : (P.write st x v).frame y = st.frame y := by
  unfold CxProgram.write
  split
  · rfl
  · exact Function.update_of_ne hne _ _

private theorem write_statics (P : CxProgram F X O L) (st : CxStore X) (x y : X) (v : Int)
    (hx : ¬ P.Frozen x) (hy : P.Frozen y) : (P.write st x v).statics y = st.statics y := by
  unfold CxProgram.write
  split
  · refine Function.update_of_ne ?_ _ _
    rintro rfl
    exact hx hy
  · rfl

private theorem plain_statics {P : CxProgram F X O L} {s : CxStmt F X O L} {st st' : CxStore X}
    {o : CxOutcome L} (h : P.plain st s = some (o, st')) (hs : ∀ x ∈ s.writes, ¬ P.Frozen x)
    {y : X} (hy : P.Frozen y) : st'.statics y = st.statics y := by
  cases s with
  | step x inc =>
      simp only [CxProgram.plain] at h
      split at h
      · obtain ⟨-, rfl⟩ := Prod.mk.inj (Option.some.inj h)
        rfl
      · split at h
        · obtain ⟨-, rfl⟩ := Prod.mk.inj (Option.some.inj h)
          rfl
        · obtain ⟨-, rfl⟩ := Prod.mk.inj (Option.some.inj h)
          exact write_statics P st x y _ (hs x (by simp [CxStmt.writes])) hy
  | decl x =>
      simp only [CxProgram.plain] at h
      split at h <;>
        obtain ⟨-, rfl⟩ := Prod.mk.inj (Option.some.inj h) <;> rfl
  | other effect =>
      simp only [CxProgram.plain] at h
      split at h <;>
        obtain ⟨-, rfl⟩ := Prod.mk.inj (Option.some.inj h) <;> rfl
  | ret e =>
      cases e with
      | none =>
          obtain ⟨-, rfl⟩ := Prod.mk.inj (Option.some.inj h)
          rfl
      | some e => simp [CxProgram.plain] at h
  | label | goto =>
      obtain ⟨-, rfl⟩ := Prod.mk.inj (Option.some.inj h)
      rfl
  | cond | modify | modifyResult | bind | list | debugBegin => simp [CxProgram.plain] at h

private theorem complete_statics {P : CxProgram F X O L} {s : CxStmt F X O L} {st st' : CxStore X}
    {o : CxOutcome L} {v : Int} {e : CxExpr F X O} (he : P.evaluates s = some e)
    (h : P.complete st v s = some (o, st')) (hs : ∀ x ∈ s.writes, ¬ P.Frozen x)
    {y : X} (hy : P.Frozen y) : st'.statics y = st.statics y := by
  cases s with
  | decl x =>
      obtain ⟨-, rfl⟩ := Prod.mk.inj (Option.some.inj h)
      refine write_statics P st x y v ?_ hy
      intro hx
      simp [CxProgram.evaluates, hx.1] at he
  | modify x e' =>
      obtain ⟨-, rfl⟩ := Prod.mk.inj (Option.some.inj h)
      exact write_statics P st x y v (hs x (by simp [CxStmt.writes])) hy
  | modifyResult | ret =>
      obtain ⟨-, rfl⟩ := Prod.mk.inj (Option.some.inj h)
      rfl
  | _ => simp [CxProgram.complete] at h

private theorem write_kept (P : CxProgram F X O L) (ws : List X) (st : CxStore X) (x : X)
    (v : Int) : Kept P (x :: ws) st (P.write st x v) where
  frame y hy := write_frame P st x y v fun h => hy (h ▸ List.mem_cons_self)
  statics hw y hy := write_statics P st x y v (hw x List.mem_cons_self) hy

variable [DecidableEq L]

theorem runs_keeps {P : CxProgram F X O L} (hsafe : P.Safe) {pol : CxPolicy F X O}
    {J : CxJudgement F X O L} (h : Runs P pol J) : J.Keeps P := by
  induction h with
  | const st v =>
      intro v' st' h
      obtain ⟨-, rfl⟩ := Prod.mk.inj (Option.some.inj h)
      exact .refl P _ _
  | var st x =>
      intro v' st' h
      obtain ⟨w, -, h⟩ := Option.map_eq_some_iff.mp h
      obtain ⟨-, rfl⟩ := Prod.mk.inj h
      exact .refl P _ _
  | op o _ ih =>
      intro v' st' h
      obtain ⟨w, -, h⟩ := Option.map_eq_some_iff.mp h
      obtain ⟨-, rfl⟩ := Prod.mk.inj h
      exact ih _ _ rfl
  | lazySkip k _ _ _ ih =>
      intro v' st' h
      obtain ⟨-, rfl⟩ := Prod.mk.inj (Option.some.inj h)
      exact (ih _ _ rfl).trans (.refl P [] _) (List.subset_append_left _ _) (List.nil_subset _)
  | lazyBoth k _ _ _ iha ihb =>
      intro v' st' h
      obtain ⟨⟨w, st₂⟩, hout, h⟩ := Option.map_eq_some_iff.mp h
      obtain ⟨-, rfl⟩ := Prod.mk.inj h
      exact (iha _ _ rfl).trans (ihb _ _ hout) (List.subset_append_left _ _)
        (List.subset_append_right _ _)
  | condThen _ _ _ _ ihc iha =>
      intro v' st' h
      exact (ihc _ _ rfl).trans (iha _ _ h) (List.subset_append_left _ _)
        (List.Subset.trans (List.subset_append_left _ _) (List.subset_append_right _ _))
  | condElse _ _ _ _ ihc ihb =>
      intro v' st' h
      exact (ihc _ _ rfl).trans (ihb _ _ h) (List.subset_append_left _ _)
        (List.Subset.trans (List.subset_append_right _ _) (List.subset_append_right _ _))
  | @call st st₁ st₂ f es vs fn o _ hfn _ _ ihs ihb =>
      intro v' st' h
      have hres : st' = { st₁ with statics := st₂.statics } := by
        cases o with
        | returned w =>
            cases w with
            | none => simp [CxProgram.callResult] at h
            | some w => exact (Prod.mk.inj (Option.some.inj h)).2.symm
        | finished | jump | undefined => simp [CxProgram.callResult] at h
      subst hres
      have hcallee : Kept P [] st₁ { st₁ with statics := st₂.statics } :=
        ⟨fun _ _ => rfl, fun _ x hx => ihb (hsafe.body f fn hfn) x hx⟩
      exact (ihs _ _ rfl).trans hcallee (List.Subset.refl _) (List.nil_subset _)
  | assign x _ ih =>
      intro v' st' h
      obtain ⟨-, rfl⟩ := Prod.mk.inj (Option.some.inj h)
      exact (ih _ _ rfl).trans (write_kept P _ _ x _) (List.subset_cons_self _ _)
        (List.Subset.refl _)
  | nil st =>
      intro vs st' h
      obtain ⟨-, rfl⟩ := Prod.mk.inj (Option.some.inj h)
      exact .refl P _ _
  | cons _ _ ihe ihs =>
      intro vs st' h
      obtain ⟨⟨ws, st₂⟩, hout, h⟩ := Option.map_eq_some_iff.mp h
      obtain ⟨-, rfl⟩ := Prod.mk.inj h
      exact (ihe _ _ rfl).trans (ihs _ _ hout) (List.subset_append_left _ _)
        (List.subset_append_right _ _)
  | opUndefined _ _ _
  | lazyUndefined _ _ _
  | condUndefined _ _
  | callUndefined _ _ _
  | assignUndefined _ _ _
  | consUndefined _ _ _ =>
      intro v' st' h
      simp at h
  | labelled l st => exact fun _ x _ => rfl
  | plain _ hs => exact fun hw x hx => plain_statics hs hw hx
  | marker st _ => exact fun _ x _ => rfl
  | exprUndefined _ _ _ => exact fun _ x _ => rfl
  | expr he _ _ hs ih =>
      intro hw x hx
      exact (complete_statics he hs hw hx).trans ((ih _ _ rfl).statics
        (evaluates_safe hsafe he hw) x hx)
  | condNoArm _ _ _ ih =>
      intro hw x hx
      refine (ih _ _ rfl).statics (fun y hy => hw y ?_) x hx
      simp [CxStmt.writes, hy]
  | @condArm c thn els arm _ _ _ v _ _ _ harm _ ihc iha =>
      intro hw x hx
      have harm' : ∀ y ∈ arm.writes, ¬ P.Frozen y := by
        intro y hy
        refine hw y ?_
        simp only [CxStmt.writes, List.mem_append]
        split at harm
        · exact .inr (.inr (by rw [harm]; exact hy))
        · exact .inr (.inl (by rw [harm]; exact hy))
      have hc : ∀ y ∈ c.writes, ¬ P.Frozen y := fun y hy => hw y (by simp [CxStmt.writes, hy])
      exact (iha harm' x hx).trans ((ihc _ _ rfl).statics hc x hx)
  | intoThen _ _ ih =>
      intro hw x hx
      refine ih (fun y hy => hw y ?_) x hx
      simp [CxStmt.writes, optionWrites, hy]
  | intoElse _ _ ih =>
      intro hw x hx
      refine ih (fun y hy => hw y ?_) x hx
      simp [CxStmt.writes, optionWrites, hy]
  | bind _ _ _ ih => exact fun hw x hx => ih hw x hx
  | list _ _ ih => exact fun hw x hx => ih hw x hx
  | done st _ => exact fun _ x _ => rfl
  | next hpc _ _ ihs ihb =>
      intro hw x hx
      have hs := fun y hy => hw y (listWrites_of_mem (List.mem_of_getElem? hpc) hy)
      exact (ihb hw x hx).trans (ihs hs x hx)
  | stop hpc _ _ ih =>
      exact fun hw x hx => ih (fun y hy => hw y (listWrites_of_mem (List.mem_of_getElem? hpc) hy))
        x hx
  | jumpIn hpc _ _ _ ihs ihb =>
      intro hw x hx
      have hs := fun y hy => hw y (listWrites_of_mem (List.mem_of_getElem? hpc) hy)
      exact (ihb hw x hx).trans (ihs hs x hx)
  | jumpOut hpc _ _ ih =>
      exact fun hw x hx => ih (fun y hy => hw y (listWrites_of_mem (List.mem_of_getElem? hpc) hy))
        x hx

end Keeps

/-- The static locals that are never written still have the values of their initializers. -/
def CxProgram.Initial (P : CxProgram F X O L) (statics : X → Int) : Prop :=
  ∀ x v, P.isStatic x = true → P.declInitial x = some (.const v) → statics x = v

private theorem initial_kept {P : CxProgram F X O L} {ws : List X} {st st' : CxStore X}
    (hkept : Kept P ws st st') (hws : ∀ x ∈ ws, ¬ P.Frozen x) (hinit : P.Initial st.statics) :
    P.Initial st'.statics := by
  intro x v hx he
  rw [hkept.statics hws x ⟨hx, by rw [he]; rfl⟩]
  exact hinit x v hx he

/-- The environment of the evaluator holds the values of the variables that have one, and of
the static locals only those that are never written. -/
structure Tracks (P : CxProgram F X O L) (env : CxEnv X) (st : CxStore X) : Prop where
  agrees : ∀ x v w, env x = some v → P.read st x = some w → w = v
  frozen : ∀ x v, env x = some v → P.isStatic x = true → P.Frozen x

theorem tracks_kept {P : CxProgram F X O L} {env : CxEnv X} {ws : List X} {st st' : CxStore X}
    (htracks : Tracks P env st) (hkept : Kept P ws st st') (hws : ∀ x ∈ ws, ¬ P.Frozen x)
    (hnew : ∀ x ∈ ws, env x = none) : Tracks P env st' := by
  refine ⟨?_, htracks.frozen⟩
  intro x v w hx hread
  refine htracks.agrees x v w hx ?_
  rw [← hread]
  unfold CxProgram.read
  split
  · rename_i hstatic
    rw [hkept.statics hws x (htracks.frozen x v hx hstatic)]
  · refine (hkept.frame x ?_).symm
    intro hmem
    simp [hnew x hmem] at hx

variable [DecidableEq X] [DecidableEq L]

/-- What is assumed of `fold`: it keeps the meaning of an expression, so that a constant is the
result only for an expression without effects and is then its value, and it adds as C does. -/
structure FoldKeeps (P : CxProgram F X O L) (fo : CxFold F X O) : Prop where
  node : ∀ e st out, Runs P .any (.eval st (fo.foldNode e) out) →
    Runs P .any (.eval st e out) ∨ Runs P .any (.eval st e none)
  add : ∀ x v d w, fo.foldAdd x v d = some w → P.addValue x v d = some w ∨ P.addValue x v d = none

/-- The constants found for calls are their values at run time, and such calls change nothing. -/
def CallsSound (P : CxProgram F X O L) (calls : CxCalls Option F) : Prop :=
  ∀ f vs v, calls f vs = some (some v) → ∀ statics, P.Initial statics →
    Returns P .any statics f vs v statics ∨ Undefined P statics f vs

section ConstantFold

private theorem constant_eq {e : CxExpr F X O} {v : Int} (h : e.constant = some v) :
    e = .const v := by
  cases e <;> simp_all [CxExpr.constant]

private theorem runs_constants (P : CxProgram F X O L) (st : CxStore X)
    (es : List (CxExpr F X O)) (vs : List Int) (h : es.mapM CxExpr.constant = some vs) :
    Runs P .any (.evals st es (some (vs, st))) := by
  induction es generalizing vs with
  | nil =>
      obtain rfl := Option.some.inj h
      exact .nil st
  | cons e es ih =>
      simp only [List.mapM_cons, Option.bind_eq_bind, Option.bind_eq_some_iff, Option.pure_def,
        Option.some.injEq] at h
      obtain ⟨v, hv, ws, hws, rfl⟩ := h
      rw [constant_eq hv]
      exact .cons (.const st v) (ih ws hws)

theorem constantFold_keeps (P : CxProgram F X O L) : FoldKeeps P (constantFold P) := by
  constructor
  · intro e st out h
    refine .inl ?_
    cases e with
    | op o args =>
        simp only [constantFold] at h
        split at h
        · rename_i v hv
          obtain ⟨vs, hvs, hv⟩ := Option.bind_eq_some_iff.mp hv
          cases h
          have hop := Runs.op o (runs_constants P st args vs hvs)
          rw [hv] at hop
          exact hop
        · exact h
    | lazy k a b =>
        cases a with
        | const v =>
            simp only [constantFold] at h
            split at h
            · rename_i hv
              cases h
              exact .lazySkip k (.const st v) hv trivial
            · rename_i hv
              split at h
              · rename_i w hw
                cases h
                rw [constant_eq hw]
                exact .lazyBoth k (.const st v) (by simpa using hv) (.const st w)
              · exact h
        | var | op | lazy | cond | call | assign | assignTo => exact h
    | cond c a b =>
        cases c with
        | const v =>
            simp only [constantFold] at h
            split at h
            · rename_i hv
              exact .condElse (.const st v) hv trivial h
            · rename_i hv
              exact .condThen (.const st v) hv trivial h
        | var | op | lazy | cond | call | assign | assignTo => exact h
    | const | var | call | assign | assignTo => exact h
  · intro x v d w h
    exact .inl h

end ConstantFold

section Expressions

private theorem runs_call {P : CxProgram F X O L} {st : CxStore X} {f : F}
    {es : List (CxExpr F X O)} {vs : List Int} {v : Int}
    (hes : Runs P .any (.evals st es (some (vs, st))))
    (hlen : ∀ fn, P.fns f = some fn → vs.length = fn.params.length)
    (hcall : Returns P .any st.statics f vs v st.statics ∨ Undefined P st.statics f vs) :
    Runs P .any (.eval st (.call f es) (some (v, st))) ∨
      Runs P .any (.eval st (.call f es) none) := by
  rcases hcall with ⟨fn, fr, hfn, hlen, hrun⟩ | ⟨fn, o, st', hfn, hrun, rfl⟩
  · exact .inl (Runs.call hes hfn hlen hrun)
  · exact .inr (Runs.call hes hfn (hlen fn hfn) hrun)

variable {P : CxProgram F X O L} {fo : CxFold F X O} {calls : CxCalls Option F}

private theorem refines_node (hfo : FoldKeeps P fo) {st : CxStore X} {e' e : CxExpr F X O}
    (he : ∀ out, Runs P .any (.eval st e' out) →
      Runs P .any (.eval st e out) ∨ Runs P .any (.eval st e none))
    {out : Option (Int × CxStore X)} (h : Runs P .any (.eval st (fo.foldNode e') out)) :
    Runs P .any (.eval st e out) ∨ Runs P .any (.eval st e none) := by
  rcases hfo.node _ _ _ h with h | h
  · exact he _ h
  · exact .inr ((he _ h).elim id id)

mutual
/-- A run of the folded expression is a run of the expression, unless that is undefined. -/
theorem fold_refines (hsafe : P.Safe) (hfo : FoldKeeps P fo) (hcalls : CallsSound P calls) :
    ∀ (e : CxExpr F X O) (r : CxExpr F X O), cFullyFoldInternal P fo calls e = some r →
      (∀ x ∈ e.writes, ¬ P.Frozen x) → ∀ st, P.Initial st.statics → ∀ out,
      Runs P .any (.eval st r out) →
      Runs P .any (.eval st e out) ∨ Runs P .any (.eval st e none)
  | .const v, r, h, _, st, _, out, hr => by
      simp only [cFullyFoldInternal, Option.pure_def, Option.some.injEq] at h
      subst h
      exact .inl hr
  | .var x, r, h, _, st, _, out, hr => by
      simp only [cFullyFoldInternal, Option.pure_def, Option.some.injEq] at h
      subst h
      exact .inl hr
  | .op o args, r, h, hw, st, hinit, out, hr => by
      simp only [cFullyFoldInternal, Option.bind_eq_bind, Option.bind_eq_some_iff, Option.pure_def,
        Option.some.injEq] at h
      obtain ⟨args', hargs, rfl⟩ := h
      have hargs := foldOperands_refines hsafe hfo hcalls args args' hargs hw st hinit
      have hop : ∀ out', Runs P .any (.eval st (.op o args') out') →
          Runs P .any (.eval st (.op o args) out') ∨ Runs P .any (.eval st (.op o args) none) := by
        intro out' h'
        cases h' with
        | opUndefined _ hes =>
            rcases hargs _ hes with hes | hes <;> exact .inr (.opUndefined o hes)
        | op _ hes =>
            rcases hargs _ hes with hes | hes
            · exact .inl (.op o hes)
            · exact .inr (.opUndefined o hes)
      exact refines_node hfo hop hr
  | .lazy k a b, r, h, hw, st, hinit, out, hr => by
      simp only [cFullyFoldInternal, Option.bind_eq_bind, Option.bind_eq_some_iff, Option.pure_def,
        Option.some.injEq] at h
      obtain ⟨a', ha, b', hb, rfl⟩ := h
      simp only [CxExpr.writes, List.mem_append] at hw
      have hwa : ∀ x ∈ a.writes, ¬ P.Frozen x := fun x hx => hw x (.inl hx)
      have ha : ∀ out, Runs P .any (.eval st a' out) →
          Runs P .any (.eval st a out) ∨ Runs P .any (.eval st a none) := by
        split at ha
        · obtain rfl := Option.some.inj ha
          exact fun out h => .inl h
        · exact fold_refines hsafe hfo hcalls a a' ha hwa st hinit
      have hb := fold_refines hsafe hfo hcalls b b' hb fun x hx => hw x (.inr hx)
      have hop : ∀ out', Runs P .any (.eval st (.lazy k a' b') out') →
          Runs P .any (.eval st (.lazy k a b) out') ∨ Runs P .any (.eval st (.lazy k a b) none) := by
        intro out' h'
        cases h' with
        | lazyUndefined _ h₁ =>
            rcases ha _ h₁ with h₁ | h₁ <;> exact .inr (.lazyUndefined k h₁)
        | lazySkip _ h₁ hv _ =>
            rcases ha _ h₁ with h₁ | h₁
            · exact .inl (.lazySkip k h₁ hv trivial)
            · exact .inr (.lazyUndefined k h₁)
        | lazyBoth _ h₁ hv h₂ =>
            rcases ha _ h₁ with h₁ | h₁
            · have hinit' := initial_kept (runs_keeps hsafe h₁ _ _ rfl) hwa hinit
              rcases hb _ hinit' _ h₂ with h₂ | h₂
              · exact .inl (.lazyBoth k h₁ hv h₂)
              · exact .inr (.lazyBoth k h₁ hv h₂)
            · exact .inr (.lazyUndefined k h₁)
      exact refines_node hfo hop hr
  | .cond c a b, r, h, hw, st, hinit, out, hr => by
      simp only [cFullyFoldInternal, Option.bind_eq_bind, Option.bind_eq_some_iff, Option.pure_def,
        Option.some.injEq] at h
      obtain ⟨c', hc, a', ha, b', hb, rfl⟩ := h
      simp only [CxExpr.writes, List.mem_append] at hw
      have hwc : ∀ x ∈ c.writes, ¬ P.Frozen x := fun x hx => hw x (.inl hx)
      have hc := fold_refines hsafe hfo hcalls c c' hc hwc st hinit
      have ha := fold_refines hsafe hfo hcalls a a' ha fun x hx => hw x (.inr (.inl hx))
      have hb := fold_refines hsafe hfo hcalls b b' hb fun x hx => hw x (.inr (.inr hx))
      have hop : ∀ out', Runs P .any (.eval st (.cond c' a' b') out') →
          Runs P .any (.eval st (.cond c a b) out') ∨ Runs P .any (.eval st (.cond c a b) none) := by
        intro out' h'
        cases h' with
        | condUndefined h₁ =>
            rcases hc _ h₁ with h₁ | h₁ <;> exact .inr (.condUndefined h₁)
        | condThen h₁ hv _ h₂ =>
            rcases hc _ h₁ with h₁ | h₁
            · have hinit' := initial_kept (runs_keeps hsafe h₁ _ _ rfl) hwc hinit
              rcases ha _ hinit' _ h₂ with h₂ | h₂
              · exact .inl (.condThen h₁ hv trivial h₂)
              · exact .inr (.condThen h₁ hv trivial h₂)
            · exact .inr (.condUndefined h₁)
        | condElse h₁ hv _ h₂ =>
            rcases hc _ h₁ with h₁ | h₁
            · have hinit' := initial_kept (runs_keeps hsafe h₁ _ _ rfl) hwc hinit
              rcases hb _ hinit' _ h₂ with h₂ | h₂
              · exact .inl (.condElse h₁ hv trivial h₂)
              · exact .inr (.condElse h₁ hv trivial h₂)
            · exact .inr (.condUndefined h₁)
      exact refines_node hfo hop hr
  | .call f args, r, h, hw, st, hinit, out, hr => by
      have hkeep := hfo.node (.call f args) st out
      simp only [cFullyFoldInternal] at h
      split at h
      · obtain rfl := Option.some.inj h
        exact hkeep hr
      · rename_i fn hfn
        split at h
        · rename_i hlen
          simp only [Option.bind_eq_bind, Option.bind_eq_some_iff] at h
          obtain ⟨values, hvalues, h⟩ := h
          split at h
          · obtain rfl := Option.some.inj h
            exact hkeep hr
          · rename_i vs
            simp only [Option.bind_eq_some_iff] at h
            obtain ⟨result, hresult, h⟩ := h
            split at h
            · obtain rfl := Option.some.inj h
              exact hkeep hr
            · rename_i v
              obtain rfl := Option.some.inj h
              cases hr
              obtain ⟨hvs, hes | hes⟩ :=
                foldArguments_values hsafe hfo hcalls args vs hvalues hw st hinit
              · refine runs_call hes ?_ (hcalls f vs v hresult st.statics hinit)
                intro fn' hfn'
                obtain rfl := Option.some.inj (hfn.symm.trans hfn')
                exact hvs.trans hlen
              · exact .inr (.callUndefined f hes)
        · obtain rfl := Option.some.inj h
          exact hkeep hr
  | .assign x e, r, h, _, st, _, out, hr => by
      simp only [cFullyFoldInternal, Option.pure_def, Option.some.injEq] at h
      subst h
      exact hfo.node _ _ _ hr
  | .assignTo v e, r, h, _, st, _, out, hr => by
      simp only [cFullyFoldInternal, Option.pure_def, Option.some.injEq] at h
      subst h
      exact hfo.node _ _ _ hr

theorem foldOperands_refines (hsafe : P.Safe) (hfo : FoldKeeps P fo)
    (hcalls : CallsSound P calls) :
    ∀ (es rs : List (CxExpr F X O)), foldOperands P fo calls es = some rs →
      (∀ x ∈ exprsWrites es, ¬ P.Frozen x) → ∀ st, P.Initial st.statics → ∀ out,
      Runs P .any (.evals st rs out) →
      Runs P .any (.evals st es out) ∨ Runs P .any (.evals st es none)
  | [], rs, h, _, st, _, out, hr => by
      simp only [foldOperands, Option.pure_def, Option.some.injEq] at h
      subst h
      exact .inl hr
  | e :: es, rs, h, hw, st, hinit, out, hr => by
      simp only [foldOperands, Option.bind_eq_bind, Option.bind_eq_some_iff, Option.pure_def,
        Option.some.injEq] at h
      obtain ⟨e', he, es', hes, rfl⟩ := h
      simp only [exprsWrites, List.mem_append] at hw
      have hwe : ∀ x ∈ e.writes, ¬ P.Frozen x := fun x hx => hw x (.inl hx)
      have he := fold_refines hsafe hfo hcalls e e' he hwe st hinit
      have hes := foldOperands_refines hsafe hfo hcalls es es' hes fun x hx => hw x (.inr hx)
      cases hr with
      | consUndefined _ h₁ =>
          rcases he _ h₁ with h₁ | h₁ <;> exact .inr (.consUndefined es h₁)
      | cons h₁ h₂ =>
          rcases he _ h₁ with h₁ | h₁
          · have hinit' := initial_kept (runs_keeps hsafe h₁ _ _ rfl) hwe hinit
            rcases hes _ hinit' _ h₂ with h₂ | h₂
            · exact .inl (.cons h₁ h₂)
            · exact .inr (.cons h₁ h₂)
          · exact .inr (.consUndefined es h₁)

theorem foldArguments_values (hsafe : P.Safe) (hfo : FoldKeeps P fo)
    (hcalls : CallsSound P calls) :
    ∀ (es : List (CxExpr F X O)) (vs : List Int), foldArguments P fo calls es = some (some vs) →
      (∀ x ∈ exprsWrites es, ¬ P.Frozen x) → ∀ st, P.Initial st.statics →
      vs.length = es.length ∧
        (Runs P .any (.evals st es (some (vs, st))) ∨ Runs P .any (.evals st es none))
  | [], vs, h, _, st, _ => by
      simp only [foldArguments, Option.pure_def, Option.some.injEq] at h
      subst h
      exact ⟨rfl, .inl (.nil st)⟩
  | e :: es, vs, h, hw, st, hinit => by
      simp only [foldArguments, Option.bind_eq_bind, Option.bind_eq_some_iff] at h
      obtain ⟨e', he, h⟩ := h
      simp only [exprsWrites, List.mem_append] at hw
      split at h
      · simp at h
      · rename_i v hconst
        simp only [Option.bind_eq_some_iff, Option.pure_def, Option.some.injEq,
          Option.map_eq_some_iff] at h
        obtain ⟨values, hvalues, ws, rfl, rfl⟩ := h
        rw [constant_eq hconst] at he
        have he := fold_refines hsafe hfo hcalls e _ he (fun x hx => hw x (.inl hx)) st hinit _
          (.const st v)
        obtain ⟨hlen, hes⟩ := foldArguments_values hsafe hfo hcalls es ws hvalues
          (fun x hx => hw x (.inr hx)) st hinit
        refine ⟨by simp [hlen], ?_⟩
        rcases he with he | he
        · rcases hes with hes | hes
          · exact .inl (.cons he hes)
          · exact .inr (.cons he hes)
        · exact .inr (.consUndefined es he)
end

private theorem tracks_run (hsafe : P.Safe) {env : CxEnv X} {e : CxExpr F X O}
    (hw : ∀ x ∈ e.writes, ¬ P.Frozen x) {st st' : CxStore X} {v : Int} (htracks : Tracks P env st)
    (h : Runs P .any (.eval st (CxExpr.substitute env e) (some (v, st')))) : Tracks P env st' :=
  tracks_kept htracks (runs_keeps hsafe h _ _ rfl)
    (fun x hx => hw x (mem_writes_subst e hx).1) (fun _ hx => (mem_writes_subst e hx).2)

mutual
theorem subst_refines (hsafe : P.Safe) {env : CxEnv X} :
    ∀ (e : CxExpr F X O), (∀ x ∈ e.writes, ¬ P.Frozen x) → ∀ st, Tracks P env st → ∀ out,
      Runs P .any (.eval st (CxExpr.substitute env e) out) →
      Runs P .any (.eval st e out) ∨ Runs P .any (.eval st e none)
  | .const v, _, st, _, out, h => by
      rw [CxExpr.substitute] at h
      exact .inl h
  | .var x, _, st, htracks, out, h => by
      rw [CxExpr.substitute] at h
      split at h
      · rename_i v hx
        cases h
        have hvar : Runs P .any (.eval st (.var x) ((P.read st x).map (·, st))) := .var st x
        cases hread : P.read st x with
        | none =>
            rw [hread] at hvar
            exact .inr hvar
        | some w =>
            rw [hread, htracks.agrees x v w hx hread] at hvar
            exact .inl hvar
      · exact .inl h
  | .op o args, hw, st, htracks, out, h => by
      simp only [CxExpr.substitute] at h
      have hargs := substAll_refines hsafe args hw st htracks
      cases h with
      | opUndefined _ hes =>
          rcases hargs _ hes with hes | hes <;> exact .inr (.opUndefined o hes)
      | op _ hes =>
          rcases hargs _ hes with hes | hes
          · exact .inl (.op o hes)
          · exact .inr (.opUndefined o hes)
  | .lazy k a b, hw, st, htracks, out, h => by
      simp only [CxExpr.substitute] at h
      simp only [CxExpr.writes, List.mem_append] at hw
      have hwa : ∀ x ∈ a.writes, ¬ P.Frozen x := fun x hx => hw x (.inl hx)
      have ha := subst_refines hsafe a hwa st htracks
      cases h with
      | lazyUndefined _ h₁ =>
          rcases ha _ h₁ with h₁ | h₁ <;> exact .inr (.lazyUndefined k h₁)
      | lazySkip _ h₁ hv _ =>
          rcases ha _ h₁ with h₁ | h₁
          · exact .inl (.lazySkip k h₁ hv trivial)
          · exact .inr (.lazyUndefined k h₁)
      | lazyBoth _ h₁ hv h₂ =>
          have hb := subst_refines hsafe b (fun x hx => hw x (.inr hx)) _
            (tracks_run hsafe hwa htracks h₁) _ h₂
          rcases ha _ h₁ with h₁ | h₁
          · rcases hb with h₂ | h₂
            · exact .inl (.lazyBoth k h₁ hv h₂)
            · exact .inr (.lazyBoth k h₁ hv h₂)
          · exact .inr (.lazyUndefined k h₁)
  | .cond c a b, hw, st, htracks, out, h => by
      simp only [CxExpr.substitute] at h
      simp only [CxExpr.writes, List.mem_append] at hw
      have hwc : ∀ x ∈ c.writes, ¬ P.Frozen x := fun x hx => hw x (.inl hx)
      have hc := subst_refines hsafe c hwc st htracks
      cases h with
      | condUndefined h₁ =>
          rcases hc _ h₁ with h₁ | h₁ <;> exact .inr (.condUndefined h₁)
      | condThen h₁ hv _ h₂ =>
          have ha := subst_refines hsafe a (fun x hx => hw x (.inr (.inl hx))) _
            (tracks_run hsafe hwc htracks h₁) _ h₂
          rcases hc _ h₁ with h₁ | h₁
          · rcases ha with h₂ | h₂
            · exact .inl (.condThen h₁ hv trivial h₂)
            · exact .inr (.condThen h₁ hv trivial h₂)
          · exact .inr (.condUndefined h₁)
      | condElse h₁ hv _ h₂ =>
          have hb := subst_refines hsafe b (fun x hx => hw x (.inr (.inr hx))) _
            (tracks_run hsafe hwc htracks h₁) _ h₂
          rcases hc _ h₁ with h₁ | h₁
          · rcases hb with h₂ | h₂
            · exact .inl (.condElse h₁ hv trivial h₂)
            · exact .inr (.condElse h₁ hv trivial h₂)
          · exact .inr (.condUndefined h₁)
  | .call f args, hw, st, htracks, out, h => by
      simp only [CxExpr.substitute] at h
      have hargs := substAll_refines hsafe args hw st htracks
      cases h with
      | callUndefined _ hes =>
          rcases hargs _ hes with hes | hes <;> exact .inr (.callUndefined f hes)
      | call hes hfn hlen hbody =>
          rcases hargs _ hes with hes | hes
          · exact .inl (.call hes hfn hlen hbody)
          · exact .inr (.callUndefined f hes)
  | .assign x e, hw, st, htracks, out, h => by
      rw [CxExpr.substitute] at h
      have he := subst_refines hsafe e (fun y hy => hw y (by simp [CxExpr.writes, hy])) st htracks
      split at h
      · cases h
      · cases h with
        | assignUndefined _ h₁ =>
            rcases he _ h₁ with h₁ | h₁ <;> exact .inr (.assignUndefined x h₁)
        | assign _ h₁ =>
            rcases he _ h₁ with h₁ | h₁
            · exact .inl (.assign x h₁)
            · exact .inr (.assignUndefined x h₁)
  | .assignTo v e, _, st, _, out, h => by
      rw [CxExpr.substitute] at h
      cases h

theorem substAll_refines (hsafe : P.Safe) {env : CxEnv X} :
    ∀ (es : List (CxExpr F X O)), (∀ x ∈ exprsWrites es, ¬ P.Frozen x) → ∀ st, Tracks P env st →
      ∀ out, Runs P .any (.evals st (substituteAll env es) out) →
      Runs P .any (.evals st es out) ∨ Runs P .any (.evals st es none)
  | [], _, st, _, out, h => by
      rw [substituteAll] at h
      exact .inl h
  | e :: es, hw, st, htracks, out, h => by
      simp only [substituteAll] at h
      simp only [exprsWrites, List.mem_append] at hw
      have hwe : ∀ x ∈ e.writes, ¬ P.Frozen x := fun x hx => hw x (.inl hx)
      have he := subst_refines hsafe e hwe st htracks
      cases h with
      | consUndefined _ h₁ =>
          rcases he _ h₁ with h₁ | h₁ <;> exact .inr (.consUndefined es h₁)
      | cons h₁ h₂ =>
          have hes := substAll_refines hsafe es (fun x hx => hw x (.inr hx)) _
            (tracks_run hsafe hwe htracks h₁) _ h₂
          rcases he _ h₁ with h₁ | h₁
          · rcases hes with h₂ | h₂
            · exact .inl (.cons h₁ h₂)
            · exact .inr (.cons h₁ h₂)
          · exact .inr (.consUndefined es h₁)
end

theorem eval_sound (hsafe : P.Safe) (hfo : FoldKeeps P fo) (hcalls : CallsSound P calls)
    {env : CxEnv X} {e : CxExpr F X O} {v : Int}
    (h : cFoldCxEval copied P fo calls env e = some (some v)) (hw : ∀ x ∈ e.writes, ¬ P.Frozen x)
    {st : CxStore X} (htracks : Tracks P env st) (hinit : P.Initial st.statics) :
    Runs P .any (.eval st e (some (v, st))) ∨ Runs P .any (.eval st e none) := by
  obtain ⟨r, hr, hconst⟩ := Option.map_eq_some_iff.mp h
  rw [constant_eq hconst] at hr
  have hsubst := fold_refines hsafe hfo hcalls _ _ hr
    (fun x hx => hw x (mem_writes_subst e hx).1) st hinit _ (.const st v)
  rcases hsubst with hsubst | hsubst
  · exact subst_refines hsafe e hw st htracks _ hsubst
  · exact .inr ((subst_refines hsafe e hw st htracks _ hsubst).elim id id)

end Expressions

section Statements

variable {P : CxProgram F X O L} {fo : CxFold F X O} {calls : CxCalls Option F}

theorem tracks_write {env : CxEnv X} {st : CxStore X} (htracks : Tracks P env st) {x : X}
    (hx : P.isStatic x = false) (v : Int) :
    Tracks P (Function.update env x (some v)) (P.write st x v) := by
  constructor
  · intro y w u hy hread
    by_cases hyx : y = x
    · subst hyx
      simp only [Function.update_self, Option.some.injEq] at hy
      simp only [CxProgram.read, CxProgram.write, hx, Bool.false_eq_true, if_false,
        Function.update_self, Option.some.injEq] at hread
      exact hread.symm.trans hy
    · rw [Function.update_of_ne hyx] at hy
      refine htracks.agrees y w u hy ?_
      rw [← hread]
      simp only [CxProgram.read, CxProgram.write, hx, Bool.false_eq_true, if_false,
        Function.update_of_ne hyx]
  · intro y w hy hstatic
    by_cases hyx : y = x
    · subst hyx
      simp [hx] at hstatic
    · rw [Function.update_of_ne hyx] at hy
      exact htracks.frozen y w hy hstatic

private theorem tracks_static {env : CxEnv X} {st : CxStore X} (htracks : Tracks P env st) {x : X}
    {v : Int} (hx : P.Frozen x) (hv : st.statics x = v) :
    Tracks P (Function.update env x (some v)) st := by
  constructor
  · intro y w u hy hread
    by_cases hyx : y = x
    · subst hyx
      simp only [Function.update_self, Option.some.injEq] at hy
      simp only [CxProgram.read, hx.1, if_true, Option.some.injEq] at hread
      rw [← hread, hv, hy]
    · rw [Function.update_of_ne hyx] at hy
      exact htracks.agrees y w u hy hread
  · intro y w hy hstatic
    by_cases hyx : y = x
    · exact hyx ▸ hx
    · rw [Function.update_of_ne hyx] at hy
      exact htracks.frozen y w hy hstatic

private theorem tracks_indeterminate {env : CxEnv X} {st : CxStore X} (htracks : Tracks P env st)
    {x : X} (hx : P.isStatic x = false) (hfr : st.frame x = none) (v : Int) :
    Tracks P (Function.update env x (some v)) st := by
  constructor
  · intro y w u hy hread
    by_cases hyx : y = x
    · subst hyx
      simp [CxProgram.read, hx, hfr] at hread
    · rw [Function.update_of_ne hyx] at hy
      exact htracks.agrees y w u hy hread
  · intro y w hy hstatic
    by_cases hyx : y = x
    · subst hyx
      simp [hx] at hstatic
    · rw [Function.update_of_ne hyx] at hy
      exact htracks.frozen y w hy hstatic

theorem tracks_forget {env : CxEnv X} {st st' : CxStore X} (htracks : Tracks P env st)
    (hfr : ∀ x, st'.frame x = none ∨ st'.frame x = st.frame x)
    (hst : st'.statics = st.statics) : Tracks P env st' := by
  refine ⟨?_, htracks.frozen⟩
  intro x v w hx hread
  refine htracks.agrees x v w hx ?_
  rw [← hread]
  unfold CxProgram.read
  split
  · rw [hst]
  · rename_i hstatic
    rcases hfr x with hnone | hsame
    · simp [CxProgram.read, hstatic, hnone] at hread
    · exact hsame.symm

theorem tracks_entered {env : CxEnv X} {st : CxStore X} (htracks : Tracks P env st)
    (vars : List X) : Tracks P env (CxProgram.enterBlock st vars) := by
  refine tracks_forget htracks ?_ rfl
  intro x
  by_cases hx : x ∈ vars
  · exact .inl (by simp [CxProgram.enterBlock, hx])
  · exact .inr (by simp [CxProgram.enterBlock, hx])

private theorem static_value {env : CxEnv X} {x : X} {e : CxExpr F X O} {v : Int}
    (hx : P.isStatic x = true) (he : P.declInitial x = some e)
    (h : cFoldCxEval copied P fo calls env e = some (some v)) {statics : X → Int}
    (hinit : P.Initial statics) : statics x = v := by
  obtain ⟨w, rfl⟩ := P.static_const x e hx he
  simp only [eval_copied, CxExpr.substitute, cFullyFoldInternal, Option.pure_def,
    Option.map_some, CxExpr.constant, Option.some.injEq] at h
  exact (hinit x w hx he).trans h

theorem declareAll_tracks (vars : List X) (env env' : CxEnv X)
    (h : declareAll copied P fo calls vars env = some (some env')) {st : CxStore X}
    (htracks : Tracks P env st) (hinit : P.Initial st.statics)
    (hvars : ∀ x ∈ vars, st.frame x = none) : Tracks P env' st := by
  induction vars generalizing env with
  | nil =>
      simp only [declareAll, Option.pure_def, Option.some.injEq] at h
      exact h ▸ htracks
  | cons x xs ih =>
      have hxs : ∀ y ∈ xs, st.frame y = none := fun y hy => hvars y (List.mem_cons_of_mem _ hy)
      simp only [declareAll] at h
      split at h
      · exact ih env h htracks hxs
      · rename_i e he
        simp only [Option.bind_eq_bind, Option.bind_eq_some_iff] at h
        obtain ⟨value, hvalue, h⟩ := h
        split at h
        · simp at h
        · rename_i v
          refine ih _ h ?_ hxs
          cases hstatic : P.isStatic x with
          | true =>
              exact tracks_static htracks ⟨hstatic, by rw [he]; rfl⟩
                (static_value hstatic he hvalue hinit)
          | false =>
              exact tracks_indeterminate htracks hstatic (hvars x List.mem_cons_self) v

/-- What holds of a list of statements that is evaluated at compile time. -/
structure SafeList (P : CxProgram F X O L) (body : List (CxStmt F X O L)) : Prop where
  labels : (listLabels body).Nodup
  writes : ∀ x ∈ listWrites body, ¬ P.Frozen x
  stride : ∀ x ∈ listStepped body, P.stride x = 1

/-- Undefined behaviour, or a run that leaves the static variables alone. -/
def RunsTo (P : CxProgram F X O L) (st : CxStore X)
    (J : CxOutcome L → CxStore X → CxJudgement F X O L) (o : CxOutcome L)
    (good : CxStore X → Prop) : Prop :=
  (∃ st', Runs P .any (J o st') ∧ st'.statics = st.statics ∧ good st') ∨
    ∃ st', Runs P .any (J .undefined st')

/-- What a result of `c_fold_cx_exec` says of the run of the list. -/
def CxResult.Sound (P : CxProgram F X O L) (body : List (CxStmt F X O L)) (pc : Nat)
    (entry : Option L) (st : CxStore X) : CxResult X → Prop
  | .failed => True
  | .finished env => RunsTo P st (.exec body pc entry st) .finished (Tracks P env)
  | .returned v => RunsTo P st (.exec body pc entry st) (.returned (some v)) fun _ => True

/-- What the next move of the evaluator says of the run of a statement. -/
def CxControl.Sound (P : CxProgram F X O L) (body : List (CxStmt F X O L)) (s : CxStmt F X O L)
    (st : CxStore X) : CxControl X → Prop
  | .goOn env => RunsTo P st (.stmt s none st) .finished (Tracks P env)
  | .goTo pc env =>
      (∃ l st', Runs P .any (.stmt s none st (.jump l) st') ∧ st'.statics = st.statics ∧
        labelIndex body l = some pc ∧ Tracks P env st') ∨
      ∃ st', Runs P .any (.stmt s none st .undefined st')
  | .stop .failed => True
  | .stop (.finished _) => ∃ st', Runs P .any (.stmt s none st .undefined st')
  | .stop (.returned v) => RunsTo P st (.stmt s none st) (.returned (some v)) fun _ => True

private theorem sound_of_undefined {body : List (CxStmt F X O L)} {s : CxStmt F X O L}
    {st st' : CxStore X} (h : Runs P .any (.stmt s none st .undefined st')) :
    ∀ c : CxControl X, c.Sound P body s st
  | .goOn _ => .inr ⟨st', h⟩
  | .goTo _ _ => .inr ⟨st', h⟩
  | .stop .failed => trivial
  | .stop (.finished _) => ⟨st', h⟩
  | .stop (.returned _) => .inr ⟨st', h⟩

private theorem jumpTo_sound {body : List (CxStmt F X O L)} {s : CxStmt F X O L} {env : CxEnv X}
    {l : L} {st st' : CxStore X} (h : Runs P .any (.stmt s none st (.jump l) st'))
    (hst : st'.statics = st.statics) (htracks : Tracks P env st') :
    (jumpTo body l env).Sound P body s st := by
  unfold jumpTo
  split
  · trivial
  · rename_i pc hpc
    exact .inl ⟨l, st', h, hst, hpc, htracks⟩

private theorem withValue_sound (hsafe : P.Safe) (hfo : FoldKeeps P fo)
    (hcalls : CallsSound P calls) {body : List (CxStmt F X O L)} {s : CxStmt F X O L}
    {env : CxEnv X} {e : CxExpr F X O} {go : Int → CxControl X} {c : CxControl X}
    (h : withValue copied P fo calls env e go = some c) (he : P.evaluates s = some e)
    (hs : ∀ x ∈ s.writes, ¬ P.Frozen x) {st : CxStore X} (htracks : Tracks P env st)
    (hinit : P.Initial st.statics)
    (hgo : ∀ v, Runs P .any (.eval st e (some (v, st))) → (go v).Sound P body s st) :
    c.Sound P body s st := by
  obtain ⟨value, hvalue, rfl⟩ := Option.map_eq_some_iff.mp h
  cases value with
  | none => trivial
  | some v =>
      have hw := evaluates_safe hsafe he hs
      rcases eval_sound hsafe hfo hcalls hvalue hw htracks hinit with hrun | hrun
      · exact hgo v hrun
      · exact sound_of_undefined (.exprUndefined he hrun) _

private theorem control_sound {body inner : List (CxStmt F X O L)} {s : CxStmt F X O L}
    {st st₀ : CxStore X} (hst : st₀.statics = st.statics)
    (hnest : ∀ o st', Runs P .any (.exec inner 0 none st₀ o st') →
      Runs P .any (.stmt s none st o st')) {r : CxResult X}
    (hr : r.Sound P inner 0 none st₀) : r.control.Sound P body s st := by
  cases r with
  | failed => trivial
  | finished env =>
      rcases hr with ⟨st', hrun, hst', htracks⟩ | ⟨st', hrun⟩
      · exact .inl ⟨st', hnest _ _ hrun, hst'.trans hst, htracks⟩
      · exact .inr ⟨st', hnest _ _ hrun⟩
  | returned v =>
      rcases hr with ⟨st', hrun, hst', -⟩ | ⟨st', hrun⟩
      · exact .inl ⟨st', hnest _ _ hrun, hst'.trans hst, trivial⟩
      · exact .inr ⟨st', hnest _ _ hrun⟩

private theorem write_statics_of_auto {x : X} (hx : P.isStatic x = false) (st : CxStore X)
    (v : Int) : (P.write st x v).statics = st.statics := by
  simp [CxProgram.write, hx]

private theorem auto_of_written {env : CxEnv X} {st : CxStore X} (htracks : Tracks P env st)
    {x : X} (hx : (env x).isSome = true) (hfrozen : ¬ P.Frozen x) : P.isStatic x = false := by
  obtain ⟨v, hv⟩ := Option.isSome_iff_exists.mp hx
  by_contra hstatic
  exact hfrozen (htracks.frozen x v hv (by simpa using hstatic))

private theorem step_sound (hfo : FoldKeeps P fo) {body : List (CxStmt F X O L)} {env : CxEnv X}
    {x : X} {inc : Bool} {st : CxStore X} (htracks : Tracks P env st) (hfrozen : ¬ P.Frozen x)
    (hstride : P.stride x = 1) {v w : Int} (hv : env x = some v)
    (hw : fo.foldAdd x v (if inc then 1 else -1) = some w) :
    (CxControl.goOn (Function.update env x (some w))).Sound P body (.step x inc) st := by
  have hauto := auto_of_written htracks (by rw [hv]; rfl) hfrozen
  cases hread : P.read st x with
  | none =>
      refine .inr ⟨st, .plain rfl ?_⟩
      simp only [CxProgram.plain, hread]
  | some u =>
      obtain rfl := htracks.agrees x v u hv hread
      rcases hfo.add x u _ w hw with hadd | hadd
      · refine .inl ⟨P.write st x w, .plain rfl ?_, write_statics_of_auto hauto st w,
          tracks_write htracks hauto w⟩
        simp only [CxProgram.plain, hread, hstride, hadd]
      · refine .inr ⟨st, .plain rfl ?_⟩
        simp only [CxProgram.plain, hread, hstride, hadd]

theorem statement_sound (hsafe : P.Safe) (hfo : FoldKeeps P fo)
    (hcalls : CallsSound P calls) {body : List (CxStmt F X O L)} {s : CxStmt F X O L}
    {block : List (CxStmt F X O L) → CxEnv X → Option (CxResult X)}
    (hblock : ∀ inner env r st, block inner env = some r → SafeList P inner →
      Tracks P env st → P.Initial st.statics → r.Sound P inner 0 none st)
    (hlabels : s.labels.Nodup) (hs : ∀ x ∈ s.writes, ¬ P.Frozen x)
    (hstride : ∀ x ∈ s.stepped, P.stride x = 1) {env : CxEnv X} {c : CxControl X}
    (h : cFoldCxStatement copied P fo calls block body env s = some c) {st : CxStore X}
    (htracks : Tracks P env st) (hinit : P.Initial st.statics) : c.Sound P body s st := by
  cases s with
  | label l =>
      simp only [cFoldCxStatement, Option.pure_def, Option.some.injEq] at h
      subst h
      exact .inl ⟨st, .plain rfl rfl, rfl, htracks⟩
  | goto l =>
      simp only [cFoldCxStatement, Option.pure_def, Option.some.injEq] at h
      subst h
      exact jumpTo_sound (.plain rfl rfl) rfl htracks
  | cond e thn els =>
      refine withValue_sound hsafe hfo hcalls h rfl hs htracks hinit ?_
      intro v hrun
      split
      · rename_i l harm
        exact jumpTo_sound (.condArm trivial hrun harm (.plain rfl rfl)) rfl htracks
      · trivial
  | decl x =>
      simp only [cFoldCxStatement] at h
      cases hstatic : P.isStatic x with
      | true =>
          have hplain : Runs P .any (.stmt (.decl x) none st .finished st) := by
            refine .plain (by simp [CxProgram.evaluates, hstatic]) ?_
            simp [CxProgram.plain, hstatic]
          split at h
          · obtain rfl := Option.some.inj h
            exact .inl ⟨st, hplain, rfl, htracks⟩
          · rename_i e he
            obtain ⟨value, hvalue, rfl⟩ := Option.map_eq_some_iff.mp h
            cases value with
            | none => trivial
            | some v =>
                refine .inl ⟨st, hplain, rfl, ?_⟩
                exact tracks_static htracks ⟨hstatic, by rw [he]; rfl⟩
                  (static_value hstatic he hvalue hinit)
      | false =>
          split at h
          · rename_i he
            obtain rfl := Option.some.inj h
            refine .inl ⟨{ st with frame := Function.update st.frame x none },
              .plain (by simp [CxProgram.evaluates, he]) (by simp [CxProgram.plain, hstatic]), rfl,
              tracks_forget htracks ?_ rfl⟩
            intro y
            by_cases hyx : y = x
            · subst hyx
              exact .inl (Function.update_self _ _ _)
            · exact .inr (Function.update_of_ne hyx _ _)
          · rename_i e he
            have heval : P.evaluates (.decl x) = some e := by
              simp [CxProgram.evaluates, hstatic, he]
            refine withValue_sound hsafe hfo hcalls h heval hs htracks hinit ?_
            intro v hrun
            exact .inl ⟨P.write st x v, .expr heval trivial hrun rfl,
              write_statics_of_auto hstatic st v, tracks_write htracks hstatic v⟩
  | modify x e =>
      refine withValue_sound hsafe hfo hcalls h rfl hs htracks hinit ?_
      intro v hrun
      split
      · rename_i hx
        have hauto := auto_of_written htracks hx (hs x (by simp [CxStmt.writes]))
        exact .inl ⟨P.write st x v, .expr rfl trivial hrun rfl, write_statics_of_auto hauto st v,
          tracks_write htracks hauto v⟩
      · trivial
  | modifyResult e =>
      refine withValue_sound hsafe hfo hcalls h rfl hs htracks hinit ?_
      intro v hrun
      exact .inl ⟨st, .expr rfl trivial hrun rfl, rfl, htracks⟩
  | step x inc =>
      simp only [cFoldCxStatement] at h
      split at h
      · obtain rfl := Option.some.inj h
        trivial
      · rename_i v hv
        split at h
        · obtain rfl := Option.some.inj h
          trivial
        · rename_i w hw
          obtain rfl := Option.some.inj h
          exact step_sound hfo htracks (hs x (by simp [CxStmt.writes]))
            (hstride x (by simp [CxStmt.stepped])) hv hw
  | bind vars inner =>
      simp only [cFoldCxStatement, Option.bind_eq_bind, Option.bind_eq_some_iff] at h
      obtain ⟨declared, hdeclared, h⟩ := h
      split at h
      · obtain rfl := Option.some.inj h
        trivial
      · rename_i env'
        simp only [Option.bind_eq_some_iff, Option.pure_def, Option.some.injEq] at h
        obtain ⟨r, hr, rfl⟩ := h
        have htracks' := declareAll_tracks vars env env' hdeclared (tracks_entered htracks vars) hinit
          (fun x hx => by simp [CxProgram.enterBlock, hx])
        have hstatics : (CxProgram.enterBlock st vars).statics = st.statics := rfl
        exact control_sound hstatics (fun o st' hrun => .bind trivial rfl hrun)
          (hblock inner env' r _ hr ⟨hlabels, hs, hstride⟩ htracks' hinit)
  | list inner =>
      simp only [cFoldCxStatement, Option.bind_eq_bind, Option.bind_eq_some_iff, Option.pure_def,
        Option.some.injEq] at h
      obtain ⟨r, hr, rfl⟩ := h
      exact control_sound rfl (fun o st' hrun => .list rfl hrun)
        (hblock inner env r _ hr ⟨hlabels, hs, hstride⟩ htracks hinit)
  | ret e =>
      cases e with
      | none =>
          simp only [cFoldCxStatement, Option.pure_def, Option.some.injEq] at h
          subst h
          trivial
      | some e =>
          refine withValue_sound hsafe hfo hcalls h rfl hs htracks hinit ?_
          intro v hrun
          exact .inl ⟨st, .expr rfl trivial hrun rfl, rfl, trivial⟩
  | debugBegin | other =>
      simp only [cFoldCxStatement, Option.pure_def, Option.some.injEq] at h
      subst h
      trivial

private theorem safeList_statement {body : List (CxStmt F X O L)} (hbody : SafeList P body)
    {s : CxStmt F X O L} (hs : s ∈ body) :
    s.labels.Nodup ∧ (∀ x ∈ s.writes, ¬ P.Frozen x) ∧ ∀ x ∈ s.stepped, P.stride x = 1 :=
  ⟨labels_nodup_of_mem hbody.labels hs, fun x hx => hbody.writes x (listWrites_of_mem hs hx),
    fun x hx => hbody.stride x (listStepped_of_mem hs hx)⟩

private theorem sound_continued {body : List (CxStmt F X O L)} {pc pc' : Nat}
    {entry entry' : Option L} {st st' : CxStore X} (hst : st'.statics = st.statics)
    (hrun : ∀ o st'', Runs P .any (.exec body pc' entry' st' o st'') →
      Runs P .any (.exec body pc entry st o st'')) :
    ∀ {r : CxResult X}, r.Sound P body pc' entry' st' → r.Sound P body pc entry st
  | .failed, _ => trivial
  | .finished _, .inl ⟨st'', h, hst', htracks⟩ => .inl ⟨st'', hrun _ _ h, hst'.trans hst, htracks⟩
  | .finished _, .inr ⟨st'', h⟩ => .inr ⟨st'', hrun _ _ h⟩
  | .returned _, .inl ⟨st'', h, hst', _⟩ => .inl ⟨st'', hrun _ _ h, hst'.trans hst, trivial⟩
  | .returned _, .inr ⟨st'', h⟩ => .inr ⟨st'', hrun _ _ h⟩

private theorem sound_of_exec_undefined {body : List (CxStmt F X O L)} {pc : Nat}
    {entry : Option L} {st st' : CxStore X}
    (h : Runs P .any (.exec body pc entry st .undefined st')) :
    ∀ r : CxResult X, r.Sound P body pc entry st
  | .failed => trivial
  | .finished _ => .inr ⟨st', h⟩
  | .returned _ => .inr ⟨st', h⟩

/-- A list evaluated from the statement `pc` on runs to the same end; a jump enters it at a
label. -/
theorem exec_sound (hsafe : P.Safe) (hfo : FoldKeeps P fo) (hcalls : CallsSound P calls)
    (n : Nat) (body : List (CxStmt F X O L)) (pc : Nat) (env : CxEnv X) (r : CxResult X)
    (h : cFoldCxExec copied P fo calls n body pc env = some r) (hbody : SafeList P body)
    (entry : Option L) (hentry : ∀ l, entry = some l → body[pc]? = some (.label l))
    (st : CxStore X) (htracks : Tracks P env st) (hinit : P.Initial st.statics) :
    r.Sound P body pc entry st := by
  induction n generalizing body pc env r entry st with
  | zero => simp at h
  | succ n ih =>
      rw [exec_copied] at h
      split at h
      · rename_i hpc
        obtain rfl := Option.some.inj h
        cases entry with
        | none => exact .inl ⟨st, .done st hpc, rfl, htracks⟩
        | some l => simp [hentry l rfl] at hpc
      · rename_i s hpc
        obtain ⟨hlabels, hwrites, hstride⟩ := safeList_statement hbody (List.mem_of_getElem? hpc)
        have hblock : ∀ inner env r st, cFoldCxExec copied P fo calls n inner 0 env = some r →
            SafeList P inner → Tracks P env st → P.Initial st.statics →
            r.Sound P inner 0 none st :=
          fun inner env r st hr hinner ht hi =>
            ih inner 0 env r hr hinner none (fun l hl => by simp at hl) st ht hi
        have hstmt : ∀ c, cFoldCxStatement copied P fo calls
          (fun inner => cFoldCxExec copied P fo calls n inner 0)
            body env s = some c → c.Sound P body s st :=
          fun c hc => statement_sound hsafe hfo hcalls hblock hlabels hwrites hstride hc htracks hinit
        -- a list entered at a label starts with the label, which does nothing
        have hfirst : ∀ o st', Runs P .any (.stmt s none st o st') →
            Runs P .any (.stmt s entry st o st') := by
          intro o st' hrun
          cases entry with
          | none => exact hrun
          | some l =>
              obtain rfl := Option.some.inj ((hentry l rfl).symm.trans hpc)
              obtain ⟨ho, hst⟩ := runs_unique (.plain rfl rfl : Runs P .any
                (.stmt (.label l) none st .finished st)) _ _ hrun
              rw [ho, hst]
              exact .labelled l st
        split at h
        · simp at h
        · rename_i env' hc
          rcases hstmt _ hc with ⟨st', hrun, hst, htracks'⟩ | ⟨st', hrun⟩
          · refine sound_continued hst (fun o st'' => .next hpc (hfirst _ _ hrun)) ?_
            exact ih body (pc + 1) env' r h hbody none (fun l hl => by simp at hl) st' htracks'
              (hst ▸ hinit)
          · exact sound_of_exec_undefined (.stop hpc (hfirst _ _ hrun) rfl) r
        · rename_i pc' env' hc
          rcases hstmt _ hc with ⟨l, st', hrun, hst, hindex, htracks'⟩ | ⟨st', hrun⟩
          · obtain ⟨hlabel, hresume⟩ := labelIndex_resume hbody.labels hindex
            refine sound_continued hst (fun o st'' => .jumpIn hpc (hfirst _ _ hrun) hresume) ?_
            refine ih body pc' env' r h hbody (some l) ?_ st' htracks' (hst ▸ hinit)
            rintro l' hl'
            exact Option.some.inj hl' ▸ hlabel
          · exact sound_of_exec_undefined (.stop hpc (hfirst _ _ hrun) rfl) r
        · rename_i r' hc
          obtain rfl := Option.some.inj h
          have hsound := hstmt _ hc
          cases r' with
          | failed => trivial
          | finished env' =>
              obtain ⟨st', hrun⟩ := hsound
              exact .inr ⟨st', .stop hpc (hfirst _ _ hrun) rfl⟩
          | returned v =>
              rcases hsound with ⟨st', hrun, hst, -⟩ | ⟨st', hrun⟩
              · exact .inl ⟨st', .stop hpc (hfirst _ _ hrun) rfl, hst, trivial⟩
              · exact .inr ⟨st', .stop hpc (hfirst _ _ hrun) rfl⟩

end Statements

section Calls

variable {P : CxProgram F X O L} {fo : CxFold F X O}

private theorem bindParams_mem {params : List X} {vs : List Int} {x : X} {v : Int}
    (h : CxProgram.bindParams params vs x = some v) : x ∈ params := by
  unfold CxProgram.bindParams at h
  have hfold : ∀ (ps : List (X × Int)) (fr : X → Option Int),
      (ps.foldl (fun (fr : X → Option Int) p => Function.update fr p.1 (some p.2)) fr) x = some v →
      (∃ p ∈ ps, p.1 = x) ∨ fr x = some v := by
    intro ps
    induction ps with
    | nil => exact fun fr h => .inr h
    | cons p ps ih =>
        intro fr h
        rcases ih _ h with ⟨q, hq, rfl⟩ | h
        · exact .inl ⟨q, List.mem_cons_of_mem _ hq, rfl⟩
        · by_cases hp : x = p.1
          · exact .inl ⟨p, List.mem_cons_self, hp.symm⟩
          · have hx : Function.update fr p.1 (some p.2) x = some v := h
            rw [Function.update_of_ne hp] at hx
            exact .inr hx
  rcases hfold _ _ h with ⟨p, hp, rfl⟩ | h
  · exact (List.of_mem_zip hp).1
  · simp at h

theorem tracks_params {f : F} {fn : CxFunction F X O L} (hfn : P.fns f = some fn)
    (vs : List Int) (statics : X → Int) :
    Tracks P (CxProgram.bindParams fn.params vs) ⟨CxProgram.bindParams fn.params vs, statics⟩ := by
  have hauto : ∀ x v, CxProgram.bindParams fn.params vs x = some v → P.isStatic x = false :=
    fun x v hx => P.params_auto f fn hfn x (bindParams_mem hx)
  constructor
  · intro x v w hx hread
    simp only [CxProgram.read, hauto x v hx, Bool.false_eq_true, if_false] at hread
    exact Option.some.inj (hread.symm.trans hx)
  · intro x v hx hstatic
    simp [hauto x v hx] at hstatic

/-- Every constant that `c_fold_constexpr_call` finds is the value of the call. -/
theorem calls_sound (hsafe : P.Safe) (hfo : FoldKeeps P fo) (n : Nat) :
    CallsSound P (cFoldConstexprCall copied P fo n) := by
  induction n with
  | zero =>
      intro f vs v h
      simp at h
  | succ n ih =>
      intro f vs v h statics hinit
      rw [call_copied] at h
      split at h
      · simp at h
      · rename_i fn hfn
        split at h
        · rename_i hlen
          split at h
          · simp at h
          · rename_i w hexec
            obtain rfl := Option.some.inj (Option.some.inj h)
            have hbody : SafeList P fn.body :=
              ⟨fn.labels_nodup, hsafe.body f fn hfn, hsafe.stride f fn hfn⟩
            have hsound := exec_sound hsafe hfo ih n fn.body 0 _ _ hexec hbody none
              (fun l hl => by simp at hl) _ (tracks_params hfn vs statics) hinit
            rcases hsound with ⟨⟨fr, statics'⟩, hrun, hst, -⟩ | ⟨st', hrun⟩
            · obtain rfl : statics' = statics := hst
              exact .inl ⟨fn, fr, hfn, hlen, hrun⟩
            · exact .inr ⟨fn, .undefined, st', hfn, hrun, rfl⟩
          · simp at h
        · simp at h

theorem frozen_of_automatic (hauto : ∀ x, P.isStatic x = false) (x : X) : ¬ P.Frozen x := by
  intro hx
  simp [CxProgram.Frozen, hauto x] at hx

theorem safe_of_automatic (hauto : ∀ x, P.isStatic x = false) (hint : ∀ x, P.stride x = 1) :
    P.Safe where
  body _ _ _ x _ := frozen_of_automatic hauto x
  initial _ _ _ x _ := frozen_of_automatic hauto x
  stride _ _ _ x _ := hint x

theorem initial_of_automatic (hauto : ∀ x, P.isStatic x = false) (statics : X → Int) :
    P.Initial statics := by
  intro x v hx
  simp [hauto x] at hx

theorem steady_call_sound (hsafe : P.Safe) (hfo : FoldKeeps P fo) {n : Nat} {f : F}
    {vs : List Int} {v : Int} {before new : List (CxWalk F X O)}
    (h : (cFoldConstexprCall cFoldCxSubst P fo n f vs).on before = (some (some v), before ++ new))
    (hsteady : Steady before new) {statics : X → Int} (hinit : P.Initial statics) :
    Returns P .any statics f vs v statics ∨ Undefined P statics f vs :=
  calls_sound hsafe hfo n f vs v ((call_follows n f vs).result h hsteady).symm statics hinit

/-- The static variables when the program starts. -/
def CxProgram.startStatics (P : CxProgram F X O L) (x : X) : Int :=
  ((P.declInitial x).bind CxExpr.constant).getD 0

private theorem startStatics_initial (P : CxProgram F X O L) : P.Initial P.startStatics := by
  intro x v _ he
  simp [CxProgram.startStatics, he, CxExpr.constant]

/-- Calls that a program makes one after the other, with the values they return. -/
def CallSequence (P : CxProgram F X O L) : (X → Int) → List (F × List Int × Int) → Prop
  | _, [] => True
  | statics, (f, vs, v) :: rest =>
      ∃ statics', Returns P .any statics f vs v statics' ∧ CallSequence P statics' rest

private theorem returns_unique {statics statics₁ statics₂ : X → Int} {f : F} {vs : List Int}
    {v w : Int} (h : Returns P .any statics f vs v statics₁)
    (h' : Returns P .any statics f vs w statics₂ ∨ Undefined P statics f vs) : w = v := by
  obtain ⟨fn, fr, hfn, -, hrun⟩ := h
  rcases h' with ⟨fn', fr', hfn', -, hrun'⟩ | ⟨fn', o, st, hfn', hrun', rfl⟩
  · obtain rfl := Option.some.inj (hfn.symm.trans hfn')
    have hsame := (runs_unique hrun _ _ hrun').1
    simpa using hsame
  · obtain rfl := Option.some.inj (hfn.symm.trans hfn')
    have hsame := (runs_unique hrun _ _ hrun').1
    simp at hsame

private theorem returns_initial (hsafe : P.Safe) {statics statics' : X → Int} {f : F}
    {vs : List Int} {v : Int} (h : Returns P .any statics f vs v statics')
    (hinit : P.Initial statics) : P.Initial statics' := by
  obtain ⟨fn, fr, hfn, -, hrun⟩ := h
  intro x w hx he
  have hkept := runs_keeps hsafe hrun (hsafe.body f fn hfn) x ⟨hx, by rw [he]; rfl⟩
  exact hkept.trans (hinit x w hx he)

private theorem sequence_agrees (hsafe : P.Safe)
    (calls : List (F × List Int × Int)) (statics : X → Int) (hinit : P.Initial statics)
    (hcalls : CallSequence P statics calls) {c : F × List Int × Int} (hc : c ∈ calls) {w : Int}
    (hfold : ∀ statics, P.Initial statics →
      Returns P .any statics c.1 c.2.1 w statics ∨ Undefined P statics c.1 c.2.1) : w = c.2.2 := by
  induction calls generalizing statics with
  | nil => exact absurd hc List.not_mem_nil
  | cons call calls ih =>
      obtain ⟨statics', hreturns, hrest⟩ := hcalls
      rcases List.mem_cons.mp hc with rfl | hc
      · exact returns_unique hreturns (hfold statics hinit)
      · exact ih statics' (returns_initial hsafe hreturns hinit) hrest hc

end Calls

section Samples

/-- The operators of the sample functions. -/
inductive SampleOp
  | plus | minus | mult | truncDiv | le
  deriving DecidableEq, Repr

def SampleOp.value : SampleOp → List Int → Option Int
  | .plus, [a, b] => some (a + b)
  | .minus, [a, b] => some (a - b)
  | .mult, [a, b] => some (a * b)
  | .truncDiv, [a, b] => if b = 0 then none else some (a.tdiv b)
  | .le, [a, b] => some (if a ≤ b then 1 else 0)
  | _, _ => none

/-- `int s = 0; while (n) { s = s + e; n--; } return s;`, with `n` the parameter, the variable 0,
and `s` the variable 1. -/
def loopFunction (e : CxExpr Unit Nat SampleOp) : CxFunction Unit Nat SampleOp Nat where
  params := [0]
  body := [.bind [1] [.decl 1, .label 0, .cond (.var 0) (some (.goto 1)) (some (.goto 2)), .label 1,
    .modify 1 (.op .plus [.var 1, e]), .step 0 false, .goto 0, .label 2, .ret (some (.var 1))]]
  labels_nodup := (by decide : [0, 1, 2].Nodup)

/-- A program of one function, with `initial` the initializer of the variable 1. -/
def integerProgram (initial : CxExpr Unit Nat SampleOp) (fn : CxFunction Unit Nat SampleOp Nat) :
    CxProgram Unit Nat SampleOp Nat where
  fns _ := some fn
  declInitial x := if x = 1 then some initial else none
  isStatic _ := false
  stride _ := 1
  opValue := SampleOp.value
  addValue _ a b := some (a + b)
  params_auto _ _ _ _ _ := rfl
  static_const _ _ h := by simp at h

/-- `n ?: 7`. -/
def orSeven : CxExpr Unit Nat SampleOp := .lazy (.omitted 0) (.var 0) (.const 7)

/-- `int s = n ?: 7; return s + s;`. -/
def twiceProgram : CxProgram Unit Nat SampleOp Nat :=
  integerProgram orSeven
    { params := [0]
      body := [.bind [1] [.decl 1, .ret (some (.op .plus [.var 1, .var 1]))]]
      labels_nodup := List.nodup_nil }

/-- `int s = 0; while (n) { s = s + (n ?: 7); n--; } return s;`. -/
def orSevenProgram : CxProgram Unit Nat SampleOp Nat :=
  integerProgram (.const 0) (loopFunction orSeven)

private theorem orSeven_runs {st : CxStore Nat} {n s : Int} (hn : st.frame 0 = some n)
    (hs : st.frame 1 = some s) (hne : n ≠ 0) :
    Runs orSevenProgram .any (.eval st (.op .plus [.var 1, orSeven]) (some (s + n, st))) := by
  have hvar : ∀ x v, st.frame x = some v →
      Runs orSevenProgram .any (.eval st (.var x) (some (v, st))) := by
    intro x v hx
    have hvar : Runs orSevenProgram .any
        (.eval st (.var x) ((orSevenProgram.read st x).map (·, st))) := .var st x
    rwa [show orSevenProgram.read st x = some v from hx] at hvar
  have hor : Runs orSevenProgram .any (.eval st orSeven (some (n, st))) :=
    .lazySkip (.omitted 0) (hvar 0 n hn) (by simp [LazyOp.decided, hne]) trivial
  exact .op SampleOp.plus (.cons (hvar 1 s hs) (.cons hor (.nil st)))

private theorem orSeven_returns :
    Returns orSevenProgram .any (fun _ => 0) () [2] 3 (fun _ => 0) := by
  let P := orSevenProgram
  let start : CxStore Nat :=
    P.write (CxProgram.enterBlock ⟨CxProgram.bindParams [0] [2], fun _ => 0⟩ [1]) 1 0
  let first : CxStore Nat := P.write (P.write start 1 (0 + 2)) 0 (2 + -1)
  let final : CxStore Nat := P.write (P.write first 1 (0 + 2 + (2 + -1))) 0 (2 + -1 + -1)
  refine ⟨_, final.frame, rfl, rfl, .stop rfl (.bind trivial rfl ?_) rfl⟩
  refine .next rfl (.expr rfl trivial (.const _ 0) rfl) (.next rfl (.plain rfl rfl) ?_)
  refine .jumpIn rfl (.condArm trivial (.var start 0) rfl (.plain rfl rfl)) rfl ?_
  refine .next rfl (.labelled 1 _) (.next rfl
    (.expr rfl trivial (orSeven_runs (n := 2) (s := 0) rfl rfl (by decide)) rfl)
    (.next rfl (.plain rfl rfl) ?_))
  refine .jumpIn rfl (.plain rfl rfl) rfl (.next rfl (.labelled 0 _) ?_)
  refine .jumpIn rfl (.condArm trivial (.var first 0) rfl (.plain rfl rfl)) rfl ?_
  refine .next rfl (.labelled 1 _) (.next rfl
    (.expr rfl trivial (orSeven_runs (n := 2 + -1) (s := 0 + 2) rfl rfl (by decide)) rfl)
    (.next rfl (.plain rfl rfl) ?_))
  refine .jumpIn rfl (.plain rfl rfl) rfl (.next rfl (.labelled 0 _) ?_)
  refine .jumpIn rfl (.condArm trivial (.var final 0) rfl (.plain rfl rfl)) rfl ?_
  exact .next rfl (.labelled 2 _) (.stop rfl (.expr rfl trivial (.var final 1) rfl) rfl)

/-- A program with one function and one local, the variable 0. -/
def localProgram (isStatic : Bool) (initial stride : Int)
    (body : List (CxStmt Unit Nat SampleOp Nat)) (hlabels : (listLabels body).Nodup) :
    CxProgram Unit Nat SampleOp Nat where
  fns _ := some ⟨[], body, hlabels⟩
  declInitial x := if x = 0 then some (.const initial) else none
  isStatic _ := isStatic
  stride _ := stride
  opValue := SampleOp.value
  addValue _ a b := some (a + b)
  params_auto _ fn hfn x hx := by
    obtain rfl := Option.some.inj hfn
    simp at hx
  static_const x e _ he := by
    split at he
    · exact ⟨initial, (Option.some.inj he).symm⟩
    · simp at he

/-- `{ c = c's initializer; return c ?: 7; }`. -/
def readLocal : List (CxStmt Unit Nat SampleOp Nat) :=
  [.bind [0] [.decl 0, .ret (some orSeven)]]

/-- `{ c = c's initializer; c++; return c; }`. -/
def stepLocal : List (CxStmt Unit Nat SampleOp Nat) :=
  [.bind [0] [.decl 0, .step 0 true, .ret (some (.var 0))]]

/-- `static int c = 5; return c ?: 7;`. -/
def limitProgram : CxProgram Unit Nat SampleOp Nat := localProgram true 5 1 readLocal (by decide)

private theorem limit_returns {statics : Nat → Int} (h : statics 0 = 5) :
    Returns limitProgram .any statics () [] 5 statics := by
  have hvar : ∀ fr, Runs limitProgram .any
      (.eval ⟨fr, statics⟩ (.var 0) (some (5, ⟨fr, statics⟩))) := by
    intro fr
    rw [← h]
    exact .var _ 0
  exact ⟨_, _, rfl, rfl, .stop rfl (.bind trivial rfl (.next rfl (.plain rfl rfl)
    (.stop rfl (.expr rfl trivial (.lazySkip (.omitted 0) (hvar _) rfl trivial) rfl) rfl))) rfl⟩

/-- `static int c = 0; c++; return c;`. -/
def counterProgram : CxProgram Unit Nat SampleOp Nat := localProgram true 0 1 stepLocal (by decide)

/-- `int *p = (int *) 1000; p++; return (long) p;`. -/
def pointerProgram : CxProgram Unit Nat SampleOp Nat :=
  localProgram false 1000 4 stepLocal (by decide)

private theorem counter_returns (statics : Nat → Int) :
    Returns counterProgram .any statics () [] (statics 0 + 1)
      (Function.update statics 0 (statics 0 + 1)) := by
  refine ⟨_, _, rfl, rfl, .stop rfl (.bind trivial rfl (.next rfl (.plain rfl rfl)
    (.next rfl (.plain rfl rfl) (.stop rfl (.expr rfl trivial (.var _ 0) rfl) rfl)))) rfl⟩

private theorem pointer_returns (statics : Nat → Int) :
    Returns pointerProgram .any statics () [] 1004 statics := by
  refine ⟨_, _, rfl, rfl, .stop rfl (.bind trivial rfl
    (.next rfl (.expr rfl trivial (.const _ 1000) rfl)
      (.next rfl (.plain rfl rfl) (.stop rfl (.expr rfl trivial (.var _ 0) rfl) rfl)))) rfl⟩

end Samples

end CZet
