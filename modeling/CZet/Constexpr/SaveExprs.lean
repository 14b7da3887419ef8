/- source: src/gcc/gcc/c/c-fold.cc (c_fold_cx_subst, c_fold_cx_eval, c_fold_cx_exec,
     c_fold_constexpr_call)
   digest: Compile-time evaluation with the SAVE_EXPRs that unshare_expr does not copy. -/

import CZet.Constexpr.Folder

set_option autoImplicit false
set_option relaxedAutoImplicit false
set_option linter.unusedSectionVars false

namespace CZet

open Lib.LoggedRuns

variable {F X O L : Type}

mutual
/-- The variables that `c_fold_cx_subst` looks up in an expression. -/
def CxExpr.vars : CxExpr F X O → List X
  | .const _ => []
  | .var x => [x]
  | .op _ args => varsAll args
  | .lazy _ a b => a.vars ++ b.vars
  | .cond c a b => c.vars ++ (a.vars ++ b.vars)
  | .call _ args => varsAll args
  | .assign x e => x :: e.vars
  | .assignTo _ e => e.vars

def varsAll : List (CxExpr F X O) → List X
  | [] => []
  | e :: es => e.vars ++ varsAll es
end

/-- The walk `w` over a `SAVE_EXPR` comes upon no constant, written by a walk before it, that is
not the value of its variable. -/
def FreshWalk (walks : List (CxWalk F X O)) (w : CxWalk F X O) : Prop :=
  ∀ x ∈ w.contents.vars, written walks w.save x = none ∨ w.env x = written walks w.save x

instance (walks : List (CxWalk F X O)) (w : CxWalk F X O) : Decidable (FreshWalk walks w) :=
  inferInstanceAs (Decidable (∀ x ∈ w.contents.vars,
    written walks w.save x = none ∨ w.env x = written walks w.save x))

/-- All walks of an evaluation, made behind earlier ones, are fresh. -/
abbrev Steady (before new : List (CxWalk F X O)) : Prop := Added FreshWalk before new

mutual
theorem walks_env {env : CxEnv X} : ∀ (e : CxExpr F X O), ∀ w ∈ e.walks env, w.env = env
  | .const _ => by simp [CxExpr.walks]
  | .var _ => by simp [CxExpr.walks]
  | .op _ args => walksAll_env args
  | .lazy k a b => by
      intro w hw
      simp only [CxExpr.walks, List.mem_append, List.mem_map] at hw
      rcases hw with ⟨save, -, rfl⟩ | hw | hw
      · rfl
      · exact walks_env a w hw
      · exact walks_env b w hw
  | .cond c a b => by
      intro w hw
      simp only [CxExpr.walks, List.mem_append] at hw
      rcases hw with hw | hw | hw
      · exact walks_env c w hw
      · exact walks_env a w hw
      · exact walks_env b w hw
  | .call _ args => walksAll_env args
  | .assign _ e => walks_env e
  | .assignTo _ e => walks_env e

theorem walksAll_env {env : CxEnv X} :
    ∀ (es : List (CxExpr F X O)), ∀ w ∈ walksAll env es, w.env = env
  | [] => by simp [walksAll]
  | e :: es => by
      intro w hw
      simp only [walksAll, List.mem_append] at hw
      rcases hw with hw | hw
      · exact walks_env e w hw
      · exact walksAll_env es w hw
end

private theorem written_append (walks new : List (CxWalk F X O)) (save : Nat) (x : X) :
    written (walks ++ new) save x = (written walks save x).or (written new save x) :=
  List.findSome?_append

private theorem written_eq {walks new : List (CxWalk F X O)} {env : CxEnv X}
    (h : Steady walks new) (hnew : ∀ w ∈ new, w.env = env) {w : CxWalk F X O} (hw : w ∈ new)
    {x : X} (hx : x ∈ w.contents.vars) : written (walks ++ new) w.save x = env x := by
  rw [written_append]
  cases hold : written walks w.save x with
  | some v =>
      obtain ⟨pre, post, hsplit⟩ := List.append_of_mem hw
      have hfresh := h.entry hsplit x hx
      rw [written_append, hold, hnew w hw] at hfresh
      have henv : env x = some v := by simpa using hfresh
      exact henv.symm
  | none =>
      rw [Option.none_or]
      cases hfound : written new w.save x with
      | none =>
          have hnone := List.findSome?_eq_none_iff.mp hfound w hw
          simpa [hnew w hw] using hnone.symm
      | some v =>
          obtain ⟨w', hw', hv⟩ := List.exists_of_findSome?_eq_some hfound
          split at hv
          · rw [← hnew w' hw', hv]
          · simp at hv

mutual
theorem substituteSaved_eq {walks new : List (CxWalk F X O)} (h : Steady walks new)
    {env here : CxEnv X} (hnew : ∀ w ∈ new, w.env = env) :
    ∀ e : CxExpr F X O, e.walks env ⊆ new → (∀ x ∈ e.vars, here x = env x) →
      e.substituteSaved (walks ++ new) here = e.substitute env
  | .const v, _, _ => by simp only [CxExpr.substituteSaved, CxExpr.substitute]
  | .var x, _, hhere => by
      simp only [CxExpr.substituteSaved, CxExpr.substitute, hhere x (by simp [CxExpr.vars])]
  | .op o args, hwalks, hhere => by
      simp only [CxExpr.substituteSaved, CxExpr.substitute,
        substituteSavedAll_eq h hnew args hwalks hhere]
  | .lazy k a b, hwalks, hhere => by
      simp only [CxExpr.walks, List.append_subset] at hwalks
      simp only [CxExpr.vars, List.mem_append] at hhere
      have hb := substituteSaved_eq h hnew b hwalks.2.2 fun x hx => hhere x (.inr hx)
      have ha : a.substituteSaved (walks ++ new) (k.contents (walks ++ new) here) =
          a.substitute env := by
        refine substituteSaved_eq h hnew a hwalks.2.1 ?_
        intro x hx
        cases k with
        | truthAndif | truthOrif => exact hhere x (.inl hx)
        | omitted save =>
            have hmem : (⟨save, a, env⟩ : CxWalk F X O) ∈ new :=
              hwalks.1 (List.mem_singleton.mpr rfl)
            exact written_eq h hnew hmem hx
      simp only [CxExpr.substituteSaved, CxExpr.substitute, ha, hb]
  | .cond c a b, hwalks, hhere => by
      simp only [CxExpr.walks, List.append_subset] at hwalks
      simp only [CxExpr.vars, List.mem_append] at hhere
      simp only [CxExpr.substituteSaved, CxExpr.substitute,
        substituteSaved_eq h hnew c hwalks.1 fun x hx => hhere x (.inl hx),
        substituteSaved_eq h hnew a hwalks.2.1 fun x hx => hhere x (.inr (.inl hx)),
        substituteSaved_eq h hnew b hwalks.2.2 fun x hx => hhere x (.inr (.inr hx))]
  | .call f args, hwalks, hhere => by
      simp only [CxExpr.substituteSaved, CxExpr.substitute,
        substituteSavedAll_eq h hnew args hwalks hhere]
  | .assign x e, hwalks, hhere => by
      simp only [CxExpr.vars, List.mem_cons] at hhere
      simp only [CxExpr.substituteSaved, CxExpr.substitute, hhere x (.inl rfl),
        substituteSaved_eq h hnew e hwalks fun y hy => hhere y (.inr hy)]
  | .assignTo v e, hwalks, hhere => by
      simp only [CxExpr.substituteSaved, CxExpr.substitute,
        substituteSaved_eq h hnew e hwalks hhere]

theorem substituteSavedAll_eq {walks new : List (CxWalk F X O)} (h : Steady walks new)
    {env here : CxEnv X} (hnew : ∀ w ∈ new, w.env = env) :
    ∀ es : List (CxExpr F X O), walksAll env es ⊆ new → (∀ x ∈ varsAll es, here x = env x) →
      substituteSavedAll (walks ++ new) here es = substituteAll env es
  | [], _, _ => by simp only [substituteSavedAll, substituteAll]
  | e :: es, hwalks, hhere => by
      simp only [walksAll, List.append_subset] at hwalks
      simp only [varsAll, List.mem_append] at hhere
      simp only [substituteSavedAll, substituteAll,
        substituteSaved_eq h hnew e hwalks.1 fun x hx => hhere x (.inl hx),
        substituteSavedAll_eq h hnew es hwalks.2 fun x hx => hhere x (.inr hx)]
end

theorem subst_follows (env : CxEnv X) (e : CxExpr F X O) :
    Follows FreshWalk (cFoldCxSubst env e) (copied env e) := by
  refine Follows.record fun log h => ?_
  exact substituteSaved_eq h (walks_env e) e (List.Subset.refl _) fun x _ => rfl

section Evaluation

variable {P : CxProgram F X O L} {fo : CxFold F X O} {calls : CxCalls (CxEvaluation F X O) F}
  {calls' : CxCalls Option F}

mutual
theorem fold_follows (hcalls : ∀ f vs, Follows FreshWalk (calls f vs) (calls' f vs)) :
    ∀ e : CxExpr F X O,
      Follows FreshWalk (cFullyFoldInternal P fo calls e) (cFullyFoldInternal P fo calls' e)
  | .const v => by
      simp only [cFullyFoldInternal]
      exact .pure _
  | .var x => by
      simp only [cFullyFoldInternal]
      exact .pure _
  | .op o args => by
      simp only [cFullyFoldInternal]
      exact (foldOperands_follows hcalls args).bind fun _ => .pure _
  | .lazy k a b => by
      have ha : Follows FreshWalk (if k.save.isSome then pure a else cFullyFoldInternal P fo calls a)
          (if k.save.isSome then pure a else cFullyFoldInternal P fo calls' a) := by
        split
        · exact .pure a
        · exact fold_follows hcalls a
      simp only [cFullyFoldInternal]
      exact ha.bind fun _ =>
        (fold_follows hcalls b).bind fun _ => .pure _
  | .cond c a b => by
      simp only [cFullyFoldInternal]
      exact (fold_follows hcalls c).bind fun _ =>
        (fold_follows hcalls a).bind fun _ =>
          (fold_follows hcalls b).bind fun _ => .pure _
  | .call f args => by
      simp only [cFullyFoldInternal]
      cases P.fns f with
      | none => exact .pure _
      | some fn =>
          simp only
          split
          · refine (foldArguments_follows hcalls args).bind fun values => ?_
            cases values with
            | none => exact .pure _
            | some vs =>
                refine (hcalls f vs).bind fun result => ?_
                cases result with
                | none => exact .pure _
                | some v => exact .pure _
          · exact .pure _
  | .assign x e => by
      simp only [cFullyFoldInternal]
      exact .pure _
  | .assignTo v e => by
      simp only [cFullyFoldInternal]
      exact .pure _

theorem foldOperands_follows (hcalls : ∀ f vs, Follows FreshWalk (calls f vs) (calls' f vs)) :
    ∀ es : List (CxExpr F X O),
      Follows FreshWalk (foldOperands P fo calls es) (foldOperands P fo calls' es)
  | [] => by
      simp only [foldOperands]
      exact .pure _
  | e :: es => by
      simp only [foldOperands]
      exact (fold_follows hcalls e).bind fun _ =>
        (foldOperands_follows hcalls es).bind fun _ => .pure _

theorem foldArguments_follows (hcalls : ∀ f vs, Follows FreshWalk (calls f vs) (calls' f vs)) :
    ∀ es : List (CxExpr F X O),
      Follows FreshWalk (foldArguments P fo calls es) (foldArguments P fo calls' es)
  | [] => by
      simp only [foldArguments]
      exact .pure _
  | e :: es => by
      simp only [foldArguments]
      refine (fold_follows hcalls e).bind fun e' => ?_
      cases e'.constant with
      | none => exact .pure _
      | some v =>
          exact (foldArguments_follows hcalls es).bind fun _ => .pure _
end

theorem eval_follows (hcalls : ∀ f vs, Follows FreshWalk (calls f vs) (calls' f vs)) (env : CxEnv X)
    (e : CxExpr F X O) : Follows FreshWalk (cFoldCxEval cFoldCxSubst P fo calls env e)
      (cFoldCxEval copied P fo calls' env e) :=
  (subst_follows env e).bind fun e' =>
    (fold_follows hcalls e').map _

variable [DecidableEq X]

theorem declareAll_follows (hcalls : ∀ f vs, Follows FreshWalk (calls f vs) (calls' f vs))
    (vars : List X) (env : CxEnv X) : Follows FreshWalk
      (declareAll cFoldCxSubst P fo calls vars env) (declareAll copied P fo calls' vars env) := by
  induction vars generalizing env with
  | nil => exact .pure _
  | cons x xs ih =>
      simp only [declareAll]
      cases P.declInitial x with
      | none => exact ih env
      | some e =>
          refine (eval_follows hcalls env e).bind fun value => ?_
          cases value with
          | none => exact .pure _
          | some v => exact ih _

private theorem withValue_follows (hcalls : ∀ f vs, Follows FreshWalk (calls f vs) (calls' f vs))
    (env : CxEnv X) (e : CxExpr F X O) (go : Int → CxControl X) : Follows FreshWalk
      (withValue cFoldCxSubst P fo calls env e go) (withValue copied P fo calls' env e go) :=
  (eval_follows hcalls env e).map _

variable [DecidableEq L]

theorem statement_follows (hcalls : ∀ f vs, Follows FreshWalk (calls f vs) (calls' f vs))
    {block : List (CxStmt F X O L) → CxEnv X → CxEvaluation F X O (CxResult X)}
    {block' : List (CxStmt F X O L) → CxEnv X → Option (CxResult X)}
    (hblock : ∀ inner env, Follows FreshWalk (block inner env) (block' inner env))
    (body : List (CxStmt F X O L)) (env : CxEnv X) (s : CxStmt F X O L) : Follows FreshWalk
      (cFoldCxStatement cFoldCxSubst P fo calls block body env s)
      (cFoldCxStatement copied P fo calls' block' body env s) := by
  cases s with
  | label | goto | debugBegin | other => exact .pure _
  | cond | modify | modifyResult => exact withValue_follows hcalls _ _ _
  | decl x =>
      simp only [cFoldCxStatement]
      cases P.declInitial x with
      | none => exact .pure _
      | some e => exact withValue_follows hcalls _ _ _
  | step x inc =>
      simp only [cFoldCxStatement]
      cases env x with
      | none => exact .pure _
      | some v =>
          simp only
          cases fo.foldAdd x v (if inc = true then 1 else -1) with
          | none => exact .pure _
          | some w => exact .pure _
  | bind vars inner =>
      refine (declareAll_follows hcalls vars env).bind fun declared => ?_
      cases declared with
      | none => exact .pure _
      | some env' => exact (hblock inner env').bind fun _ => .pure _
  | list inner => exact (hblock inner env).bind fun _ => .pure _
  | ret e =>
      cases e with
      | none => exact .pure _
      | some e => exact withValue_follows hcalls _ _ _

theorem exec_follows (hcalls : ∀ f vs, Follows FreshWalk (calls f vs) (calls' f vs)) (n : Nat)
    (body : List (CxStmt F X O L)) (pc : Nat) (env : CxEnv X) : Follows FreshWalk
      (cFoldCxExec cFoldCxSubst P fo calls n body pc env)
      (cFoldCxExec copied P fo calls' n body pc env) := by
  induction n generalizing body pc env with
  | zero => exact .giveUp
  | succ n ih =>
      simp only [cFoldCxExec]
      cases body[pc]? with
      | none => exact .pure _
      | some s =>
          refine (statement_follows hcalls (fun inner env => ih inner 0 env) body env s).bind
            fun control => ?_
          cases control with
          | goOn env' => exact ih body (pc + 1) env'
          | goTo pc' env' => exact ih body pc' env'
          | stop r => exact .pure r

/-- As long as the walks over `SAVE_EXPR`s are steady, a call is evaluated as if they were
copied. -/
theorem call_follows (n : Nat) (f : F) (vs : List Int) : Follows FreshWalk
    (cFoldConstexprCall cFoldCxSubst P fo n f vs) (cFoldConstexprCall copied P fo n f vs) := by
  induction n generalizing f vs with
  | zero => exact .giveUp
  | succ n ih =>
      simp only [cFoldConstexprCall]
      cases P.fns f with
      | none => exact .pure _
      | some fn =>
          simp only
          split
          · refine (exec_follows ih n fn.body 0 _).bind fun r => ?_
            cases r with
            | returned v => exact .pure _
            | failed | finished => exact .pure _
          · exact .pure _

end Evaluation

end CZet
