/- source: src/gcc/gcc/c/c-fold.cc (c_fold_cx_subst, c_fold_cx_eval, c_fold_cx_exec,
     c_fold_constexpr_call, c_fully_fold_internal)
   digest: The compile-time evaluator of constexpr calls, mutually recursive with the folder. -/

import Mathlib.Data.List.Nodup
import CZet.Constexpr.Language
import CZet.Lib.LoggedRuns

set_option autoImplicit false
set_option relaxedAutoImplicit false
set_option linter.unusedSectionVars false

namespace CZet

open Lib.LoggedRuns

variable {F X O L : Type} [DecidableEq X] [DecidableEq L]

/-- `c_fold_cx_env`. -/
abbrev CxEnv (X : Type) := X → Option Int

section Substitution

mutual
/-- Variables replaced by their constants in a copy of the expression; the target of an
assignment is replaced as well. -/
def CxExpr.substitute (env : CxEnv X) : CxExpr F X O → CxExpr F X O
  | .const v => .const v
  | .var x =>
      match env x with
      | some v => .const v
      | none => .var x
  | .op o args => .op o (substituteAll env args)
  | .lazy k a b => .lazy k (CxExpr.substitute env a) (CxExpr.substitute env b)
  | .cond c a b =>
      .cond (CxExpr.substitute env c) (CxExpr.substitute env a) (CxExpr.substitute env b)
  | .call f args => .call f (substituteAll env args)
  | .assign x e =>
      match env x with
      | some v => .assignTo v (CxExpr.substitute env e)
      | none => .assign x (CxExpr.substitute env e)
  | .assignTo v e => .assignTo v (CxExpr.substitute env e)

def substituteAll (env : CxEnv X) : List (CxExpr F X O) → List (CxExpr F X O)
  | [] => []
  | e :: es => CxExpr.substitute env e :: substituteAll env es
end

/-- A walk of `c_fold_cx_subst` over the contents of a `SAVE_EXPR`. -/
structure CxWalk (F X O : Type) where
  save : Nat
  contents : CxExpr F X O
  env : CxEnv X

mutual
/-- The walks over the contents of the `SAVE_EXPR`s of an expression. -/
def CxExpr.walks (env : CxEnv X) : CxExpr F X O → List (CxWalk F X O)
  | .const _ => []
  | .var _ => []
  | .op _ args => walksAll env args
  | .lazy k a b =>
      (k.save.toList.map fun save => ⟨save, a, env⟩) ++ (CxExpr.walks env a ++ CxExpr.walks env b)
  | .cond c a b => CxExpr.walks env c ++ (CxExpr.walks env a ++ CxExpr.walks env b)
  | .call _ args => walksAll env args
  | .assign _ e => CxExpr.walks env e
  | .assignTo _ e => CxExpr.walks env e

def walksAll (env : CxEnv X) : List (CxExpr F X O) → List (CxWalk F X O)
  | [] => []
  | e :: es => CxExpr.walks env e ++ walksAll env es
end

/-- The constant that stands for `x` in the contents of a `SAVE_EXPR`: the first walk that had a
value for `x` wrote it there, and no later walk finds `x`. -/
def written (walks : List (CxWalk F X O)) (save : Nat) : CxEnv X := fun x =>
  walks.findSome? fun w => if w.save = save then w.env x else none

/-- What stands for the variables of a first operand. -/
def LazyOp.contents (walks : List (CxWalk F X O)) (env : CxEnv X) : LazyOp → CxEnv X
  | .omitted save => written walks save
  | _ => env

mutual
/-- Variables replaced by their constants; the contents of a `SAVE_EXPR` are as the walks have
left them. -/
def CxExpr.substituteSaved (walks : List (CxWalk F X O)) (env : CxEnv X) :
    CxExpr F X O → CxExpr F X O
  | .const v => .const v
  | .var x =>
      match env x with
      | some v => .const v
      | none => .var x
  | .op o args => .op o (substituteSavedAll walks env args)
  | .lazy k a b =>
      .lazy k (CxExpr.substituteSaved walks (k.contents walks env) a)
        (CxExpr.substituteSaved walks env b)
  | .cond c a b =>
      .cond (CxExpr.substituteSaved walks env c) (CxExpr.substituteSaved walks env a)
        (CxExpr.substituteSaved walks env b)
  | .call f args => .call f (substituteSavedAll walks env args)
  | .assign x e =>
      match env x with
      | some v => .assignTo v (CxExpr.substituteSaved walks env e)
      | none => .assign x (CxExpr.substituteSaved walks env e)
  | .assignTo v e => .assignTo v (CxExpr.substituteSaved walks env e)

def substituteSavedAll (walks : List (CxWalk F X O)) (env : CxEnv X) :
    List (CxExpr F X O) → List (CxExpr F X O)
  | [] => []
  | e :: es => CxExpr.substituteSaved walks env e :: substituteSavedAll walks env es
end

/-- An evaluation that keeps the walks over `SAVE_EXPR`s, which are left in the functions' bodies. -/
abbrev CxEvaluation (F X O : Type) := Logged (CxWalk F X O)

/-- `unshare_expr` and the walk with `c_fold_cx_subst`: everything is copied and substituted but
the `SAVE_EXPR`s, which `unshare_expr` does not copy. -/
def cFoldCxSubst (env : CxEnv X) (e : CxExpr F X O) : CxEvaluation F X O (CxExpr F X O) :=
  record (e.walks env) fun walks => e.substituteSaved walks env

/-- The same if `unshare_expr` copied `SAVE_EXPR`s too. -/
def copied (env : CxEnv X) (e : CxExpr F X O) : Option (CxExpr F X O) := some (e.substitute env)

end Substitution

/-- The work of `fold` on one node whose operands are folded, and the constant that
`fold_build2 (PLUS_EXPR, ...)` gives in the type of a variable. -/
structure CxFold (F X O : Type) where
  foldNode : CxExpr F X O → CxExpr F X O
  foldAdd : X → Int → Int → Option Int

def CxExpr.constant : CxExpr F X O → Option Int
  | .const v => some v
  | _ => none

/-- A folder that evaluates operators on constants and drops the operands of `&&`, `||` and `?:`
that a constant makes unevaluated. -/
def constantFold (P : CxProgram F X O L) : CxFold F X O where
  foldNode
    | .op o args =>
        match (args.mapM CxExpr.constant).bind (P.opValue o) with
        | some v => .const v
        | none => .op o args
    | .lazy k (.const v) b =>
        if k.decided v then .const (k.decidedValue v)
        else match b.constant with
          | some w => .const (k.secondValue w)
          | none => .lazy k (.const v) b
    | .cond (.const v) a b => if v = 0 then b else a
    | e => e
  foldAdd := P.addValue

/-- Calls of constexpr functions with constant arguments: without a result where the evaluation
has not come to an end, without a value for `NULL_TREE`. -/
abbrev CxCalls (m : Type → Type) (F : Type) := F → List Int → m (Option Int)

/- The evaluator is written over the way in which variables are substituted: `cFoldCxSubst`, or
`copied` for what it would do with `SAVE_EXPR`s of its own. -/
variable {m : Type → Type} [Monad m]
  (subst : CxEnv X → CxExpr F X O → m (CxExpr F X O))

section Fold

variable (P : CxProgram F X O L) (fo : CxFold F X O) (calls : CxCalls m F)

mutual
/-- `c_fully_fold_internal`: every operand is folded, whether or not C evaluates it, and a call
of a constexpr function is evaluated when its arguments fold to constants.  The contents of a
`SAVE_EXPR` were folded by the parser, and so was what a `MODIFY_EXPR` assigns. -/
def cFullyFoldInternal : CxExpr F X O → m (CxExpr F X O)
  | .const v => pure (.const v)
  | .var x => pure (.var x)
  | .op o args => do
      let args' ← foldOperands args
      pure (fo.foldNode (.op o args'))
  | .lazy k a b => do
      let a' ← (if k.save.isSome then pure a else cFullyFoldInternal a)
      let b' ← cFullyFoldInternal b
      pure (fo.foldNode (.lazy k a' b'))
  | .cond c a b => do
      let c' ← cFullyFoldInternal c
      let a' ← cFullyFoldInternal a
      let b' ← cFullyFoldInternal b
      pure (fo.foldNode (.cond c' a' b'))
  | .call f args =>
      match P.fns f with
      | none => pure (fo.foldNode (.call f args))
      | some fn =>
          if args.length = fn.params.length then do
            let values ← foldArguments args
            match values with
            | none => pure (fo.foldNode (.call f args))
            | some vs =>
                let result ← calls f vs
                match result with
                | none => pure (fo.foldNode (.call f args))
                | some v => pure (.const v)
          else pure (fo.foldNode (.call f args))
  | .assign x e => pure (fo.foldNode (.assign x e))
  | .assignTo v e => pure (fo.foldNode (.assignTo v e))

def foldOperands : List (CxExpr F X O) → m (List (CxExpr F X O))
  | [] => pure []
  | e :: es => do
      let e' ← cFullyFoldInternal e
      let es' ← foldOperands es
      pure (e' :: es')

/-- The arguments of a call, up to the first that is no constant. -/
def foldArguments : List (CxExpr F X O) → m (Option (List Int))
  | [] => pure (some [])
  | e :: es => do
      let e' ← cFullyFoldInternal e
      match e'.constant with
      | none => pure none
      | some v =>
          let values ← foldArguments es
          pure (values.map (v :: ·))
end

/-- `c_fold_cx_eval`. -/
def cFoldCxEval (env : CxEnv X) (e : CxExpr F X O) : m (Option Int) := do
  let e' ← subst env e
  CxExpr.constant <$> cFullyFoldInternal P fo calls e'

/-- The loop over `BIND_EXPR_VARS`. -/
def declareAll : List X → CxEnv X → m (Option (CxEnv X))
  | [], env => pure (some env)
  | x :: xs, env =>
      match P.declInitial x with
      | none => declareAll xs env
      | some e => do
          let value ← cFoldCxEval subst P fo calls env e
          match value with
          | none => pure none
          | some v => declareAll xs (Function.update env x (some v))

end Fold

/-- `CX_FAILED`, `CX_FINISHED` with the environment, and `CX_RETURNED` with the value. -/
inductive CxResult (X : Type)
  | failed
  | finished (env : CxEnv X)
  | returned (v : Int)

/-- What a statement makes the loop of `c_fold_cx_exec` do. -/
inductive CxControl (X : Type)
  | goOn (env : CxEnv X)
  | goTo (pc : Nat) (env : CxEnv X)
  | stop (r : CxResult X)

/-- The label map of a list, in which the last statement with a label counts. -/
def labelIndex (body : List (CxStmt F X O L)) (l : L) : Option Nat :=
  (body.zipIdx.reverse.find? fun p =>
    match p.1 with
    | .label l' => decide (l' = l)
    | _ => false).map Prod.snd

def jumpTo (body : List (CxStmt F X O L)) (l : L) (env : CxEnv X) : CxControl X :=
  match labelIndex body l with
  | none => .stop .failed
  | some pc => .goTo pc env

/-- How the loop goes on behind a nested block. -/
def CxResult.control : CxResult X → CxControl X
  | .failed => .stop .failed
  | .finished env => .goOn env
  | .returned v => .stop (.returned v)

section LabelMaps

theorem listLabels_eq_flatMap (body : List (CxStmt F X O L)) :
    listLabels body = body.flatMap CxStmt.labels := by
  induction body with
  | nil => rfl
  | cons s body ih => rw [listLabels, ih, List.flatMap_cons]

theorem labels_nodup_of_mem {body : List (CxStmt F X O L)} (hnodup : (listLabels body).Nodup)
    {s : CxStmt F X O L} (hs : s ∈ body) : s.labels.Nodup := by
  rw [listLabels_eq_flatMap] at hnodup
  exact (List.nodup_flatMap.mp hnodup).1 s hs

/-- Where the labels of a list are distinct, a jump goes to the statement with the label. -/
theorem labelIndex_resume {body : List (CxStmt F X O L)} (hnodup : (listLabels body).Nodup)
    {l : L} {i : Nat} (h : labelIndex body l = some i) :
    body[i]? = some (.label l) ∧ resumeAt body l = some i := by
  obtain ⟨⟨s, j⟩, hfind, hj⟩ := Option.map_eq_some_iff.mp h
  obtain rfl : j = i := hj
  have hmem : (s, j) ∈ body.zipIdx :=
    List.mem_reverse.mp (List.mem_of_find?_eq_some hfind)
  have hs : s = .label l := by
    have hlabel := List.find?_some hfind
    simp only at hlabel
    split at hlabel
    · rename_i l'
      rw [of_decide_eq_true hlabel]
    · simp at hlabel
  subst hs
  have hget : body[j]? = some (.label l) := List.mem_zipIdx_iff_getElem?.mp hmem
  obtain ⟨hlt, hj⟩ := List.getElem?_eq_some_iff.mp hget
  refine ⟨hget, ?_⟩
  rw [resumeAt, List.findIdx?_eq_some_iff_getElem]
  refine ⟨hlt, by simp [hj, CxStmt.labels], ?_⟩
  intro k hk hlab
  rw [listLabels_eq_flatMap] at hnodup
  have hdisj := (List.pairwise_iff_getElem.mp (List.nodup_flatMap.mp hnodup).2) k j
    (Nat.lt_trans hk hlt) hlt hk
  refine hdisj (of_decide_eq_true hlab) ?_
  simp [hj, CxStmt.labels]

end LabelMaps

section Exec

variable (P : CxProgram F X O L) (fo : CxFold F X O) (calls : CxCalls m F)

/-- Evaluate an expression and go on with its value. -/
def withValue (env : CxEnv X) (e : CxExpr F X O) (go : Int → CxControl X) : m (CxControl X) :=
  (fun value =>
    match value with
    | none => .stop .failed
    | some v => go v) <$> cFoldCxEval subst P fo calls env e

/-- The `switch` of `c_fold_cx_exec` over one statement of `body`. -/
def cFoldCxStatement (block : List (CxStmt F X O L) → CxEnv X → m (CxResult X))
    (body : List (CxStmt F X O L)) (env : CxEnv X) : CxStmt F X O L → m (CxControl X)
  | .label _ => pure (.goOn env)
  | .goto l => pure (jumpTo body l env)
  | .cond c thn els =>
      withValue subst P fo calls env c fun v =>
        match if v = 0 then els else thn with
        | some (.goto l) => jumpTo body l env
        | _ => .stop .failed
  | .decl x =>
      match P.declInitial x with
      | none => pure (.goOn env)
      | some e =>
          withValue subst P fo calls env e fun v => .goOn (Function.update env x (some v))
  | .modify x e =>
      withValue subst P fo calls env e fun v =>
        if (env x).isSome then .goOn (Function.update env x (some v)) else .stop .failed
  | .modifyResult e => withValue subst P fo calls env e fun _ => .goOn env
  | .step x inc =>
      match env x with
      | none => pure (.stop .failed)
      | some v =>
          match fo.foldAdd x v (if inc then 1 else -1) with
          | none => pure (.stop .failed)
          | some w => pure (.goOn (Function.update env x (some w)))
  | .bind vars inner => do
      let declared ← declareAll subst P fo calls vars env
      match declared with
      | none => pure (.stop .failed)
      | some env' =>
          let r ← block inner env'
          pure r.control
  | .list inner => do
      let r ← block inner env
      pure r.control
  | .ret none => pure (.stop .failed)
  | .ret (some e) => withValue subst P fo calls env e fun v => .stop (.returned v)
  | .debugBegin => pure (.stop .failed)
  | .other _ => pure (.stop .failed)

variable [GivesUp m]

/-- `c_fold_cx_exec` from the statement `pc` of a list on; no result when the fuel runs out. -/
def cFoldCxExec : Nat → List (CxStmt F X O L) → Nat → CxEnv X → m (CxResult X)
  | 0, _, _, _ => GivesUp.giveUp
  | n + 1, body, pc, env =>
      match body[pc]? with
      | none => pure (.finished env)
      | some s => do
          let control ←
            cFoldCxStatement subst P fo calls (fun inner => cFoldCxExec n inner 0) body env s
          match control with
          | .goOn env' => cFoldCxExec n body (pc + 1) env'
          | .goTo pc' env' => cFoldCxExec n body pc' env'
          | .stop r => pure r

end Exec

/-- `c_fold_constexpr_call` behind the folding of the arguments. -/
def cFoldConstexprCall [GivesUp m] (P : CxProgram F X O L) (fo : CxFold F X O) : Nat → CxCalls m F
  | 0, _, _ => GivesUp.giveUp
  | n + 1, f, vs =>
      match P.fns f with
      | none => pure none
      | some fn =>
          if vs.length = fn.params.length then do
            let r ← cFoldCxExec subst P fo (cFoldConstexprCall P fo n) n fn.body 0
              (CxProgram.bindParams fn.params vs)
            match r with
            | .returned v => pure (some v)
            | _ => pure none
          else pure none

section Copied

variable {P : CxProgram F X O L} {fo : CxFold F X O} {calls : CxCalls Option F}

theorem eval_copied (env : CxEnv X) (e : CxExpr F X O) :
    cFoldCxEval copied P fo calls env e =
      (cFullyFoldInternal P fo calls (e.substitute env)).map CxExpr.constant := rfl

@[simp] theorem exec_copied_zero (body : List (CxStmt F X O L)) (pc : Nat) (env : CxEnv X) :
    cFoldCxExec copied P fo calls 0 body pc env = none := rfl

@[simp] theorem call_copied_zero (f : F) (vs : List Int) :
    cFoldConstexprCall copied P fo 0 f vs = none := rfl

theorem exec_copied (n : Nat) (body : List (CxStmt F X O L)) (pc : Nat) (env : CxEnv X) :
    cFoldCxExec copied P fo calls (n + 1) body pc env =
      match body[pc]? with
      | none => some (.finished env)
      | some s =>
          match cFoldCxStatement copied P fo calls
            (fun inner => cFoldCxExec copied P fo calls n inner 0) body env s with
          | none => none
          | some (.goOn env') => cFoldCxExec copied P fo calls n body (pc + 1) env'
          | some (.goTo pc' env') => cFoldCxExec copied P fo calls n body pc' env'
          | some (.stop r) => some r := by
  rw [cFoldCxExec]
  cases body[pc]? with
  | none => rfl
  | some s =>
      simp only
      cases cFoldCxStatement copied P fo calls
        (fun inner => cFoldCxExec copied P fo calls n inner 0) body env s with
      | none => rfl
      | some c => cases c <;> rfl

theorem call_copied (n : Nat) (f : F) (vs : List Int) :
    cFoldConstexprCall copied P fo (n + 1) f vs =
      match P.fns f with
      | none => some none
      | some fn =>
          if vs.length = fn.params.length then
            match cFoldCxExec copied P fo (cFoldConstexprCall copied P fo n) n fn.body 0
              (CxProgram.bindParams fn.params vs) with
            | none => none
            | some (.returned v) => some (some v)
            | some _ => some none
          else some none := by
  rw [cFoldConstexprCall]
  cases P.fns f with
  | none => rfl
  | some fn =>
      simp only
      split
      · cases cFoldCxExec copied P fo (cFoldConstexprCall copied P fo n) n fn.body 0
          (CxProgram.bindParams fn.params vs) with
        | none => rfl
        | some r => cases r <;> rfl
      · rfl

end Copied

end CZet
