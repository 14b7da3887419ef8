/- source: src/gcc/gcc/c/c-fold.cc (c_fold_cx_exec, c_fold_constexpr_call)
   digest: Which calls of functions over initialized locals the compile-time evaluator finds. -/

import CZet.Constexpr.Termination

set_option autoImplicit false
set_option relaxedAutoImplicit false
set_option linter.unusedSectionVars false

open Filter

namespace CZet

open Lib.Settling Lib.LoggedRuns

variable {F X O L : Type}

section Values

mutual
/-- Expressions without calls and assignments, over the variables `Γ`. -/
def CxExpr.Over (Γ : List X) : CxExpr F X O → Prop
  | .const _ => True
  | .var x => x ∈ Γ
  | .op _ args => AllOver Γ args
  | .lazy _ a b => a.Over Γ ∧ b.Over Γ
  | .cond c a b => c.Over Γ ∧ a.Over Γ ∧ b.Over Γ
  | .call _ _ | .assign _ _ | .assignTo _ _ => False

def AllOver (Γ : List X) : List (CxExpr F X O) → Prop
  | [] => True
  | e :: es => e.Over Γ ∧ AllOver Γ es
end

mutual
/-- The value of an expression without calls and assignments. -/
def CxProgram.value (P : CxProgram F X O L) (fr : X → Option Int) : CxExpr F X O → Option Int
  | .const v => some v
  | .var x => fr x
  | .op o args => (P.values fr args).bind (P.opValue o)
  | .lazy k a b =>
      (P.value fr a).bind fun v =>
        if k.decided v then some (k.decidedValue v) else (P.value fr b).map k.secondValue
  | .cond c a b => (P.value fr c).bind fun v => if v = 0 then P.value fr b else P.value fr a
  | .call _ _ | .assign _ _ | .assignTo _ _ => none

def CxProgram.values (P : CxProgram F X O L) (fr : X → Option Int) :
    List (CxExpr F X O) → Option (List Int)
  | [] => some []
  | e :: es => (P.value fr e).bind fun v => (P.values fr es).map (v :: ·)
end

mutual
/-- The `SAVE_EXPR`s of an expression. -/
def CxExpr.saves : CxExpr F X O → List Nat
  | .const _ => []
  | .var _ => []
  | .op _ args => savesAll args
  | .lazy k a b => k.save.toList ++ (a.saves ++ b.saves)
  | .cond c a b => c.saves ++ (a.saves ++ b.saves)
  | .call _ args => savesAll args
  | .assign _ e => e.saves
  | .assignTo _ e => e.saves

def savesAll : List (CxExpr F X O) → List Nat
  | [] => []
  | e :: es => e.saves ++ savesAll es
end

mutual
theorem saves_substitute (env : CxEnv X) :
    ∀ e : CxExpr F X O, (e.substitute env).saves = e.saves
  | .const v => by simp only [CxExpr.substitute]
  | .var x => by
      simp only [CxExpr.substitute]
      cases env x <;> simp only [CxExpr.saves]
  | .op o args => by simp only [CxExpr.substitute, CxExpr.saves, saves_substituteAll env args]
  | .lazy k a b => by
      simp only [CxExpr.substitute, CxExpr.saves, saves_substitute env a, saves_substitute env b]
  | .cond c a b => by
      simp only [CxExpr.substitute, CxExpr.saves, saves_substitute env c, saves_substitute env a,
        saves_substitute env b]
  | .call f args => by simp only [CxExpr.substitute, CxExpr.saves, saves_substituteAll env args]
  | .assign x e => by
      simp only [CxExpr.substitute]
      cases env x <;> simp only [CxExpr.saves, saves_substitute env e]
  | .assignTo v e => by simp only [CxExpr.substitute, CxExpr.saves, saves_substitute env e]

theorem saves_substituteAll (env : CxEnv X) :
    ∀ es : List (CxExpr F X O), savesAll (substituteAll env es) = savesAll es
  | [] => by simp only [substituteAll]
  | e :: es => by
      simp only [substituteAll, savesAll, saves_substitute env e, saves_substituteAll env es]
end

/-- The environment and the frame hold the same values for the variables `Γ`. -/
def Agree (Γ : List X) (env fr : X → Option Int) : Prop :=
  ∀ x ∈ Γ, ∃ v, env x = some v ∧ fr x = some v

variable {P : CxProgram F X O L} {fo : CxFold F X O}

mutual
theorem subst_agree {Γ : List X} {env fr : X → Option Int} (h : Agree Γ env fr) :
    ∀ e : CxExpr F X O, e.Over Γ →
      CxExpr.substitute env e = CxExpr.substitute fr e ∧ (CxExpr.substitute env e).Over []
  | .const v, _ => by
      simp only [CxExpr.substitute]
      exact ⟨trivial, trivial⟩
  | .var x, hx => by
      obtain ⟨v, henv, hfr⟩ := h x hx
      simp only [CxExpr.substitute, henv, hfr]
      exact ⟨trivial, trivial⟩
  | .op o args, hargs => by
      obtain ⟨heq, hover⟩ := substAll_agree h args hargs
      simp only [CxExpr.substitute, heq]
      exact ⟨trivial, heq ▸ hover⟩
  | .lazy k a b, ⟨ha, hb⟩ => by
      obtain ⟨haeq, haover⟩ := subst_agree h a ha
      obtain ⟨hbeq, hbover⟩ := subst_agree h b hb
      simp only [CxExpr.substitute, haeq, hbeq]
      exact ⟨trivial, haeq ▸ haover, hbeq ▸ hbover⟩
  | .cond c a b, ⟨hc, ha, hb⟩ => by
      obtain ⟨hceq, hcover⟩ := subst_agree h c hc
      obtain ⟨haeq, haover⟩ := subst_agree h a ha
      obtain ⟨hbeq, hbover⟩ := subst_agree h b hb
      simp only [CxExpr.substitute, hceq, haeq, hbeq]
      exact ⟨trivial, hceq ▸ hcover, haeq ▸ haover, hbeq ▸ hbover⟩

theorem substAll_agree {Γ : List X} {env fr : X → Option Int} (h : Agree Γ env fr) :
    ∀ es : List (CxExpr F X O), AllOver Γ es →
      substituteAll env es = substituteAll fr es ∧ AllOver [] (substituteAll env es)
  | [], _ => by
      simp only [substituteAll]
      exact ⟨trivial, trivial⟩
  | e :: es, ⟨he, hes⟩ => by
      obtain ⟨heeq, heover⟩ := subst_agree h e he
      obtain ⟨heseq, hesover⟩ := substAll_agree h es hes
      simp only [substituteAll, heeq, heseq]
      exact ⟨trivial, heeq ▸ heover, heseq ▸ hesover⟩
end

mutual
theorem value_subst {Γ : List X} {env fr fr' : X → Option Int} (h : Agree Γ env fr) :
    ∀ e : CxExpr F X O, e.Over Γ → P.value fr' (CxExpr.substitute env e) = P.value fr e
  | .const v, _ => by simp only [CxExpr.substitute, CxProgram.value]
  | .var x, hx => by
      obtain ⟨v, henv, hfr⟩ := h x hx
      simp only [CxExpr.substitute, henv, CxProgram.value, hfr]
  | .op o args, hargs => by
      simp only [CxExpr.substitute, CxProgram.value, values_subst h args hargs]
  | .lazy k a b, ⟨ha, hb⟩ => by
      simp only [CxExpr.substitute, CxProgram.value, value_subst h a ha, value_subst h b hb]
  | .cond c a b, ⟨hc, ha, hb⟩ => by
      simp only [CxExpr.substitute, CxProgram.value, value_subst h c hc, value_subst h a ha,
        value_subst h b hb]

theorem values_subst {Γ : List X} {env fr fr' : X → Option Int} (h : Agree Γ env fr) :
    ∀ es : List (CxExpr F X O), AllOver Γ es →
      P.values fr' (substituteAll env es) = P.values fr es
  | [], _ => by simp only [substituteAll, CxProgram.values]
  | e :: es, ⟨he, hes⟩ => by
      simp only [substituteAll, CxProgram.values, value_subst h e he, values_subst h es hes]
end

mutual
theorem fold_over {Γ : List X} : ∀ e : CxExpr F X O, e.Over Γ →
    ∃ r, ∀ calls, cFullyFoldInternal P fo calls e = some r
  | .const v, _ => ⟨.const v, fun calls => by simp only [cFullyFoldInternal, Option.pure_def]⟩
  | .var x, _ => ⟨.var x, fun calls => by simp only [cFullyFoldInternal, Option.pure_def]⟩
  | .op o args, hargs => by
      obtain ⟨args', hargs⟩ := foldOperands_over args hargs
      exact ⟨_, fun calls => by simp only [cFullyFoldInternal, hargs calls]; rfl⟩
  | .lazy k a b, ⟨ha, hb⟩ => by
      obtain ⟨a', ha⟩ := fold_over a ha
      obtain ⟨b', hb⟩ := fold_over b hb
      cases hk : k.save with
      | none =>
          refine ⟨fo.foldNode (.lazy k a' b'), fun calls => ?_⟩
          simp [cFullyFoldInternal, hk, ha calls, hb calls]
      | some save =>
          refine ⟨fo.foldNode (.lazy k a b'), fun calls => ?_⟩
          simp [cFullyFoldInternal, hk, hb calls]
  | .cond c a b, ⟨hc, ha, hb⟩ => by
      obtain ⟨c', hc⟩ := fold_over c hc
      obtain ⟨a', ha⟩ := fold_over a ha
      obtain ⟨b', hb⟩ := fold_over b hb
      exact ⟨_, fun calls => by simp only [cFullyFoldInternal, hc calls, ha calls, hb calls]; rfl⟩

theorem foldOperands_over {Γ : List X} : ∀ es : List (CxExpr F X O), AllOver Γ es →
    ∃ rs, ∀ calls, foldOperands P fo calls es = some rs
  | [], _ => ⟨[], fun calls => by simp only [foldOperands, Option.pure_def]⟩
  | e :: es, ⟨he, hes⟩ => by
      obtain ⟨e', he⟩ := fold_over e he
      obtain ⟨es', hes⟩ := foldOperands_over es hes
      exact ⟨_, fun calls => by simp only [foldOperands, he calls, hes calls]; rfl⟩
end

variable [DecidableEq X] [DecidableEq L]

mutual
theorem runs_value (hauto : ∀ x, P.isStatic x = false) {pol : CxPolicy F X O}
    (hpol : ∀ st e, pol.skipped st e) (st : CxStore X) {Γ : List X} :
    ∀ e : CxExpr F X O, e.Over Γ →
      Runs P pol (.eval st e ((P.value st.frame e).map (·, st)))
  | .const v, _ => .const st v
  | .var x, _ => by
      have hvar : Runs P pol (.eval st (.var x) ((P.read st x).map (·, st))) := .var st x
      simpa [CxProgram.read, hauto x, CxProgram.value] using hvar
  | .op o args, hargs => by
      have hes := runs_values hauto hpol st args hargs
      rw [CxProgram.value]
      cases hvs : P.values st.frame args with
      | none =>
          rw [hvs] at hes
          exact .opUndefined o hes
      | some vs =>
          rw [hvs] at hes
          exact .op o hes
  | .lazy k a b, ⟨ha, hb⟩ => by
      have ha := runs_value hauto hpol st a ha
      have hb := runs_value hauto hpol st b hb
      rw [CxProgram.value]
      cases hv : P.value st.frame a with
      | none =>
          rw [hv] at ha
          exact .lazyUndefined k ha
      | some v =>
          rw [hv] at ha
          by_cases hdec : k.decided v = true
          · simp only [Option.bind_some, if_pos hdec]
            exact .lazySkip k ha hdec (hpol st b)
          · have hrun := Runs.lazyBoth k ha (by simpa using hdec) hb
            simp only [Option.bind_some, if_neg hdec]
            cases hw : P.value st.frame b with
            | none =>
                rw [hw] at hrun
                exact hrun
            | some w =>
                rw [hw] at hrun
                exact hrun
  | .cond c a b, ⟨hc, ha, hb⟩ => by
      have hc := runs_value hauto hpol st c hc
      have ha := runs_value hauto hpol st a ha
      have hb := runs_value hauto hpol st b hb
      rw [CxProgram.value]
      cases hv : P.value st.frame c with
      | none =>
          rw [hv] at hc
          exact .condUndefined hc
      | some v =>
          rw [hv] at hc
          by_cases hzero : v = 0
          · simp only [Option.bind_some, if_pos hzero]
            exact .condElse hc hzero (hpol st a) hb
          · simp only [Option.bind_some, if_neg hzero]
            exact .condThen hc hzero (hpol st b) ha

theorem runs_values (hauto : ∀ x, P.isStatic x = false) {pol : CxPolicy F X O}
    (hpol : ∀ st e, pol.skipped st e) (st : CxStore X) {Γ : List X} :
    ∀ es : List (CxExpr F X O), AllOver Γ es →
      Runs P pol (.evals st es ((P.values st.frame es).map (·, st)))
  | [], _ => .nil st
  | e :: es, ⟨he, hes⟩ => by
      have he := runs_value hauto hpol st e he
      have hes := runs_values hauto hpol st es hes
      rw [CxProgram.values]
      cases hv : P.value st.frame e with
      | none =>
          rw [hv] at he
          exact .consUndefined es he
      | some v =>
          rw [hv] at he
          have hrun := Runs.cons he hes
          cases hvs : P.values st.frame es with
          | none =>
              rw [hvs] at hrun
              exact hrun
          | some vs =>
              rw [hvs] at hrun
              exact hrun
end

end Values

section Supported

/-- The variables that the statements of a list declare. -/
def declared : List (CxStmt F X O L) → List X
  | [] => []
  | .decl x :: rest => x :: declared rest
  | _ :: rest => declared rest

variable [DecidableEq L]

/-- A jump to a label of the same list, past no declaration. -/
def JumpsInScope (list : List (CxStmt F X O L)) (Γ : List X) (l : L) : Prop :=
  ∃ i, labelIndex list l = some i ∧ declared (list.take i) ⊆ Γ

/-- An arm of a lowered `if` or loop. -/
def ArmInScope (list : List (CxStmt F X O L)) (Γ : List X) : Option (CxStmt F X O L) → Prop
  | some (.goto l) => JumpsInScope list Γ l
  | _ => False

variable (P : CxProgram F X O L)

mutual
/-- The supported statements of a `list`, with the variables `Γ` declared before. -/
def CxProgram.StmtInScope (list : List (CxStmt F X O L)) (Γ : List X) : CxStmt F X O L → Prop
  | .label _ => True
  | .goto l => JumpsInScope list Γ l
  | .cond c thn els => c.Over Γ ∧ ArmInScope list Γ thn ∧ ArmInScope list Γ els
  | .decl x => ∃ e, P.declInitial x = some e ∧ e.Over Γ
  | .modify x e => x ∈ Γ ∧ e.Over Γ
  | .modifyResult _ => False
  | .step x _ => x ∈ Γ
  | .bind vars inner => vars = declared inner ∧ (∀ x ∈ vars, x ∉ Γ) ∧
      CxProgram.ListInScope inner Γ inner
  | .list inner => declared inner = [] ∧ CxProgram.ListInScope inner Γ inner
  | .ret e => ∀ e', e = some e' → e'.Over Γ
  | .debugBegin => True
  | .other _ => False

def CxProgram.ListInScope (list : List (CxStmt F X O L)) (Γ : List X) :
    List (CxStmt F X O L) → Prop
  | [] => True
  | s :: rest => CxProgram.StmtInScope list Γ s ∧
      CxProgram.ListInScope list (Γ ++ declared [s]) rest
end

theorem declared_append (body rest : List (CxStmt F X O L)) :
    declared (body ++ rest) = declared body ++ declared rest := by
  induction body with
  | nil => rfl
  | cons s body ih => cases s <;> simp [declared, ih]

variable {P}

private theorem inScope_getElem {list rest : List (CxStmt F X O L)} {Γ : List X} {i : Nat}
    {s : CxStmt F X O L} (h : P.ListInScope list Γ rest) (hi : rest[i]? = some s) :
    P.StmtInScope list (Γ ++ declared (rest.take i)) s := by
  induction rest generalizing Γ i with
  | nil => simp at hi
  | cons s' rest ih =>
      cases i with
      | zero =>
          obtain rfl : s' = s := by simpa using hi
          simpa [declared] using h.1
      | succ i =>
          have hrest := ih h.2 (by simpa using hi)
          have hsplit := declared_append [s'] (rest.take i)
          simp only [List.take_succ_cons]
          rw [List.append_assoc, ← hsplit] at hrest
          exact hrest

/-- The initializers of variables declared in this order. -/
def CxProgram.InitialsInScope (P : CxProgram F X O L) : List X → List X → Prop
  | _, [] => True
  | Γ, x :: xs => (∃ e, P.declInitial x = some e ∧ e.Over Γ) ∧
      CxProgram.InitialsInScope P (Γ ++ [x]) xs

private theorem initials_inScope {list rest : List (CxStmt F X O L)} {Γ : List X}
    (h : P.ListInScope list Γ rest) : P.InitialsInScope Γ (declared rest) := by
  induction rest generalizing Γ with
  | nil => trivial
  | cons s rest ih =>
      have hrest := ih h.2
      cases s with
      | decl x => exact ⟨h.1, hrest⟩
      | _ => simpa [declared] using hrest

end Supported

section Hindrance

/-- What is assumed of the folder: an expression over constants folds to its value when it has
one and no `SAVE_EXPR`, whose contents are not folded; a constant that it folds to is its value;
and the increment of a constant folds. -/
structure FoldComplete (P : CxProgram F X O L) (fo : CxFold F X O) : Prop where
  value : ∀ (e : CxExpr F X O) v (calls : CxCalls Option F), e.Over [] → e.saves = [] →
    P.value (fun _ => none) e = some v → cFullyFoldInternal P fo calls e = some (.const v)
  sound : ∀ (e : CxExpr F X O) v w (calls : CxCalls Option F), e.Over [] →
    P.value (fun _ => none) e = some v → cFullyFoldInternal P fo calls e = some (.const w) → w = v
  add : ∀ x v d w, P.addValue x v d = some w → fo.foldAdd x v d = some w

variable [DecidableEq X] [DecidableEq L]

/-- With the values of the frame the expression folds to a constant. -/
def CxProgram.FoldsIn (P : CxProgram F X O L) (fo : CxFold F X O) (fr : X → Option Int)
    (e : CxExpr F X O) (v : Int) : Prop :=
  ∀ calls : CxCalls Option F, cFullyFoldInternal P fo calls (e.substitute fr) = some (.const v)

/-- The initializers of a block, evaluated one after the other in the frame with which the block
is entered, fold to constants. -/
def CxProgram.Hoists (P : CxProgram F X O L) (fo : CxFold F X O) :
    (X → Option Int) → List X → Prop
  | _, [] => True
  | fr, x :: xs =>
      match P.declInitial x with
      | none => CxProgram.Hoists P fo fr xs
      | some e =>
          ∃ v, P.FoldsIn fo fr e v ∧ CxProgram.Hoists P fo (Function.update fr x (some v)) xs

/-- Runs that reach no debug marker, evaluate expressions with `SAVE_EXPR`s only where they fold,
and enter a block only when its initializers fold there. -/
def CxProgram.unhindered (P : CxProgram F X O L) (fo : CxFold F X O) : CxPolicy F X O where
  skipped _ _ := True
  whole st e := e.saves = [] ∨ ∃ v, P.FoldsIn fo st.frame e v
  entered st vars := P.Hoists fo st.frame vars
  marker := False

/-- The next move of the evaluator is that of the run, and agrees with it on the variables that
are in scope behind the statement. -/
def CxControl.Matches (list : List (CxStmt F X O L)) (Γ Γ' : List X) (st : CxStore X) :
    CxControl X → CxOutcome L → Prop
  | .goOn env, .finished => Agree Γ' env st.frame
  | .goTo i env, .jump l =>
      labelIndex list l = some i ∧ declared (list.take i) ⊆ Γ ∧ Agree Γ env st.frame
  | .stop (.returned v), .returned w => w = some v
  | .stop .failed, .returned none => True
  | _, _ => False

def CxResult.Matches (Γ : List X) (st : CxStore X) : CxResult X → CxOutcome L → Prop
  | .finished env, .finished => Agree Γ env st.frame
  | .returned v, .returned w => w = some v
  | .failed, .returned none => True
  | _, _ => False

/-- The evaluator keeps pace with the run of a statement that is not hindered, or the run is
hindered and the evaluator fails. -/
def StmtDecided (P : CxProgram F X O L) (fo : CxFold F X O) (list : List (CxStmt F X O L))
    (Γ : List X) (env : CxEnv X) (s : CxStmt F X O L) (st : CxStore X) (o : CxOutcome L)
    (st' : CxStore X) : Prop :=
  (Runs P (P.unhindered fo) (.stmt s none st o st') ∧
    ∃ c, SettlesTo atTop (budgetedStatement P fo list env s) c ∧
      c.Matches list Γ (Γ ++ declared [s]) st' o) ∨
  ((∀ o' st'', ¬ Runs P (P.unhindered fo) (.stmt s none st o' st'')) ∧
    SettlesTo atTop (budgetedStatement P fo list env s) (.stop .failed))

/-- The same of a list. -/
def ExecDecided (P : CxProgram F X O L) (fo : CxFold F X O) (Γ : List X) (env : CxEnv X)
    (body : List (CxStmt F X O L)) (pc : Nat) (entry : Option L) (st : CxStore X)
    (o : CxOutcome L) (st' : CxStore X) : Prop :=
  (Runs P (P.unhindered fo) (.exec body pc entry st o st') ∧
    ∃ r, SettlesTo atTop (budgetedExec P fo body pc env) r ∧ r.Matches Γ st' o) ∨
  ((∀ o' st'', ¬ Runs P (P.unhindered fo) (.exec body pc entry st o' st'')) ∧
    SettlesTo atTop (budgetedExec P fo body pc env) .failed)

/-- What is shown along a run: supported statements are decided. -/
def CxJudgement.Decided (P : CxProgram F X O L) (fo : CxFold F X O) : CxJudgement F X O L → Prop
  | .eval _ _ _ => True
  | .evals _ _ _ => True
  | .stmt s entry st o st' => entry = none → o ≠ .undefined → s.labels.Nodup →
      ∀ list Γ env, P.StmtInScope list Γ s → Agree Γ env st.frame →
      StmtDecided P fo list Γ env s st o st'
  | .exec body pc entry st o st' => (∀ l, entry = some l → body[pc]? = some (.label l)) →
      o ≠ .undefined → (listLabels body).Nodup →
      ∀ Γ env, P.ListInScope body Γ body → Agree (Γ ++ declared (body.take pc)) env st.frame →
      ExecDecided P fo Γ env body pc entry st o st'

variable {P : CxProgram F X O L} {fo : CxFold F X O}

private theorem eval_decided (hfo : FoldComplete P fo) {Γ : List X} {env : X → Option Int}
    {st : CxStore X} (hagree : Agree Γ env st.frame) {e : CxExpr F X O} (he : e.Over Γ) {v : Int}
    (hv : P.value st.frame e = some v) :
    ((P.unhindered fo).whole st e ∧
      ∀ calls, cFoldCxEval copied P fo calls env e = some (some v)) ∨
    (¬ (P.unhindered fo).whole st e ∧
      ∀ calls, cFoldCxEval copied P fo calls env e = some none) := by
  obtain ⟨hsubst, hclosed⟩ := subst_agree hagree e he
  have hvalue : P.value (fun _ => none) (e.substitute env) = some v :=
    (value_subst hagree e he).trans hv
  obtain ⟨r, hr⟩ : ∃ r, ∀ calls : CxCalls Option F,
      cFullyFoldInternal P fo calls (e.substitute env) = some r := fold_over _ hclosed
  have heval : ∀ calls, cFoldCxEval copied P fo calls env e = some r.constant := by
    intro calls
    rw [eval_copied, hr calls]
    rfl
  cases hconst : r.constant with
  | some w =>
      obtain rfl : r = .const w := by cases r <;> simp_all [CxExpr.constant]
      obtain rfl : w = v := hfo.sound _ v w (fun _ _ => none) hclosed hvalue (hr _)
      have hfolds : P.FoldsIn fo st.frame e w := fun calls => by rw [← hsubst, hr calls]
      exact .inl ⟨.inr ⟨w, hfolds⟩, fun calls => by rw [heval, hconst]⟩
  | none =>
      refine .inr ⟨?_, fun calls => by rw [heval, hconst]⟩
      rintro (hsaves | ⟨w, hw⟩)
      · have hfold := hfo.value _ v (fun _ _ => none) hclosed (by rw [saves_substitute, hsaves])
          hvalue
        rw [hr, Option.some.injEq] at hfold
        simp [hfold, CxExpr.constant] at hconst
      · have hfold := hw fun _ _ => none
        rw [← hsubst, hr, Option.some.injEq] at hfold
        simp [hfold, CxExpr.constant] at hconst

private theorem value_of_runs (hauto : ∀ x, P.isStatic x = false) {Γ : List X}
    {e : CxExpr F X O} (he : e.Over Γ) {st st' : CxStore X} {v : Int}
    (h : Runs P .any (.eval st e (some (v, st')))) : P.value st.frame e = some v ∧ st' = st := by
  have hsame := runs_unique (runs_value hauto (fun _ _ => trivial) st e he) _ h
  cases hv : P.value st.frame e with
  | none => simp [hv] at hsame
  | some w =>
      simp only [hv, Option.map_some, Option.some.injEq, Prod.mk.injEq] at hsame
      exact ⟨by rw [hsame.1], hsame.2⟩

private theorem runs_of_value (hauto : ∀ x, P.isStatic x = false) {Γ : List X}
    {e : CxExpr F X O} (he : e.Over Γ) {st : CxStore X} {v : Int}
    (hv : P.value st.frame e = some v) :
    Runs P (P.unhindered fo) (.eval st e (some (v, st))) := by
  have hrun : Runs P (P.unhindered fo) (.eval st e ((P.value st.frame e).map (·, st))) :=
    runs_value hauto (fun _ _ => trivial) st e he
  rw [hv] at hrun
  exact hrun

private theorem stmt_stuck (hauto : ∀ x, P.isStatic x = false) {s : CxStmt F X O L}
    {e : CxExpr F X O} (hs : P.evaluates s = some e) {Γ : List X} (he : e.Over Γ) {st : CxStore X}
    {v : Int} (hv : P.value st.frame e = some v) (hwhole : ¬ (P.unhindered fo).whole st e)
    (o : CxOutcome L) (st' : CxStore X) :
    ¬ Runs P (P.unhindered fo) (.stmt s none st o st') := by
  intro hrun
  cases hrun with
  | plain hs' => simp [hs] at hs'
  | exprUndefined hs' hrun =>
      obtain rfl := Option.some.inj (hs.symm.trans hs')
      simpa using runs_unique (runs_of_value hauto he hv) _ hrun
  | expr hs' hwhole' =>
      obtain rfl := Option.some.inj (hs.symm.trans hs')
      exact hwhole hwhole'
  | condNoArm hwhole' =>
      obtain rfl := Option.some.inj hs
      exact hwhole hwhole'
  | condArm hwhole' =>
      obtain rfl := Option.some.inj hs
      exact hwhole hwhole'
  | marker | bind | list => simp [CxProgram.evaluates] at hs

private theorem withValue_decided (hfo : FoldComplete P fo) (hauto : ∀ x, P.isStatic x = false)
    {s : CxStmt F X O L} {e : CxExpr F X O} (hs : P.evaluates s = some e)
    {list : List (CxStmt F X O L)} {Γ : List X} {env : CxEnv X} {st st' : CxStore X}
    {o : CxOutcome L} {v : Int} (hagree : Agree Γ env st.frame) (he : e.Over Γ)
    (hv : P.value st.frame e = some v) {go : Int → CxControl X}
    (hgo : ∀ p, budgetedStatement P fo list env s p =
      withValue copied P fo (cFoldConstexprCall copied P fo p.1) env e go)
    (hrun : (P.unhindered fo).whole st e → Runs P (P.unhindered fo) (.stmt s none st o st'))
    (hmatch : (go v).Matches list Γ (Γ ++ declared [s]) st' o) :
    StmtDecided P fo list Γ env s st o st' := by
  rcases eval_decided hfo hagree he hv with ⟨hwhole, heval⟩ | ⟨hwhole, heval⟩
  · refine .inl ⟨hrun hwhole, go v, Eventually.of_forall fun p => ?_, hmatch⟩
    rw [hgo, withValue, heval]
    rfl
  · refine .inr ⟨stmt_stuck hauto hs he hv hwhole, Eventually.of_forall fun p => ?_⟩
    rw [hgo, withValue, heval]
    rfl

private theorem agree_update {Γ : List X} {env fr : X → Option Int} (h : Agree Γ env fr) (x : X)
    (v : Int) : Agree (Γ ++ [x]) (Function.update env x (some v))
      (Function.update fr x (some v)) := by
  intro y hy
  by_cases hyx : y = x
  · subst hyx
    exact ⟨v, Function.update_self _ _ _, Function.update_self _ _ _⟩
  · rw [Function.update_of_ne hyx, Function.update_of_ne hyx]
    rcases List.mem_append.mp hy with hy | hy
    · exact h y hy
    · exact absurd (List.mem_singleton.mp hy) hyx

private theorem agree_subset {Γ Γ' : List X} {env fr : X → Option Int} (h : Agree Γ env fr)
    (hsub : Γ' ⊆ Γ) : Agree Γ' env fr := fun x hx => h x (hsub hx)

private theorem write_auto (hauto : ∀ x, P.isStatic x = false) (st : CxStore X) (x : X)
    (v : Int) : P.write st x v = { st with frame := Function.update st.frame x (some v) } := by
  simp [CxProgram.write, hauto x]

private theorem jump_matches {list : List (CxStmt F X O L)} {Γ Γ' : List X} {l : L}
    (hjump : JumpsInScope list Γ l) {env : CxEnv X} {st : CxStore X}
    (hagree : Agree Γ env st.frame) : (jumpTo list l env).Matches list Γ Γ' st (.jump l) := by
  obtain ⟨i, hi, hdeclared⟩ := hjump
  rw [jumpTo, hi]
  exact ⟨hi, hdeclared, hagree⟩

private theorem cond_decided (hfo : FoldComplete P fo) (hauto : ∀ x, P.isStatic x = false)
    {c : CxExpr F X O} {thn els : Option (CxStmt F X O L)} {st st' : CxStore X}
    {o : CxOutcome L} (h : Runs P .any (.stmt (.cond c thn els) none st o st'))
    (ho : o ≠ .undefined) {list : List (CxStmt F X O L)} {Γ : List X} {env : CxEnv X}
    (hscope : P.StmtInScope list Γ (.cond c thn els)) (hagree : Agree Γ env st.frame) :
    StmtDecided P fo list Γ env (.cond c thn els) st o st' := by
  obtain ⟨hc, hthn, hels⟩ := hscope
  have harms : ∀ v : Int, ∃ l, (if v = 0 then els else thn) = some (.goto l) ∧
      JumpsInScope list Γ l := by
    have harm : ∀ arm : Option (CxStmt F X O L), ArmInScope list Γ arm →
        ∃ l, arm = some (.goto l) ∧ JumpsInScope list Γ l := by
      intro arm harm
      unfold ArmInScope at harm
      split at harm
      · exact ⟨_, rfl, harm⟩
      · exact harm.elim
    intro v
    split
    · exact harm els hels
    · exact harm thn hthn
  cases h with
  | plain he _ => simp [CxProgram.evaluates] at he
  | exprUndefined => exact absurd rfl ho
  | expr _ _ _ hs => simp [CxProgram.complete] at hs
  | @condNoArm _ _ _ _ _ v _ _ harm =>
      obtain ⟨l, hl, -⟩ := harms v
      simp [hl] at harm
  | @condArm _ _ _ arm _ st₁ _ v _ _ hrun harm hgoto =>
      obtain ⟨hv, rfl⟩ := value_of_runs hauto hc hrun
      obtain ⟨l, hl, hjump⟩ := harms v
      obtain rfl : arm = .goto l := Option.some.inj (harm.symm.trans hl)
      cases hgoto with
      | plain _ hs =>
          obtain ⟨rfl, rfl⟩ := Prod.mk.inj (Option.some.inj hs)
          refine withValue_decided hfo hauto rfl hagree hc hv (fun p => rfl) ?_ ?_
          · exact fun hwhole => .condArm hwhole (runs_of_value hauto hc hv) hl (.plain rfl rfl)
          · simp only [hl]
            exact jump_matches hjump hagree
      | exprUndefined he => simp [CxProgram.evaluates] at he
      | expr he => simp [CxProgram.evaluates] at he

private theorem simple_decided (hfo : FoldComplete P fo) (hauto : ∀ x, P.isStatic x = false)
    (hint : ∀ x, P.stride x = 1) {s : CxStmt F X O L} (hbind : ∀ vars inner, s ≠ .bind vars inner)
    (hlist : ∀ inner, s ≠ .list inner) {st st' : CxStore X} {o : CxOutcome L}
    (h : Runs P .any (.stmt s none st o st')) (ho : o ≠ .undefined)
    {list : List (CxStmt F X O L)} {Γ : List X} {env : CxEnv X} (hscope : P.StmtInScope list Γ s)
    (hagree : Agree Γ env st.frame) : StmtDecided P fo list Γ env s st o st' := by
  cases s with
  | label l =>
      refine .inl ?_
      cases h with
      | plain _ hs =>
          obtain ⟨rfl, rfl⟩ := Prod.mk.inj (Option.some.inj hs)
          refine ⟨.plain rfl rfl, .goOn env, settlesTo_some _, ?_⟩
          simpa [CxControl.Matches, declared] using hagree
      | exprUndefined => exact absurd rfl ho
      | expr he => simp [CxProgram.evaluates] at he
  | goto l =>
      refine .inl ?_
      cases h with
      | plain _ hs =>
          obtain ⟨rfl, rfl⟩ := Prod.mk.inj (Option.some.inj hs)
          exact ⟨.plain rfl rfl, jumpTo list l env, settlesTo_some _,
            jump_matches hscope hagree⟩
      | exprUndefined => exact absurd rfl ho
      | expr he => simp [CxProgram.evaluates] at he
  | cond c thn els => exact cond_decided hfo hauto h ho hscope hagree
  | decl x =>
      obtain ⟨e, hx, he⟩ := hscope
      have heval : P.evaluates (.decl x : CxStmt F X O L) = some e := by
        simp [CxProgram.evaluates, hauto x, hx]
      cases h with
      | plain he' _ => simp [heval] at he'
      | exprUndefined => exact absurd rfl ho
      | @expr _ _ _ _ _ v _ he' _ hrun hs =>
          obtain rfl := Option.some.inj (heval.symm.trans he')
          obtain ⟨hv, rfl⟩ := value_of_runs hauto he hrun
          obtain ⟨rfl, rfl⟩ := Prod.mk.inj (Option.some.inj hs)
          have hgo : ∀ p, budgetedStatement P fo list env (.decl x) p =
              withValue copied P fo (cFoldConstexprCall copied P fo p.1) env e
                fun v => .goOn (Function.update env x (some v)) := by
            intro p
            simp only [budgetedStatement, cFoldCxStatement, hx]
          refine withValue_decided hfo hauto heval hagree he hv hgo ?_ ?_
          · exact fun hwhole => .expr heval hwhole (runs_of_value hauto he hv) rfl
          · rw [write_auto hauto]
            exact agree_update hagree x _
  | modify x e =>
      obtain ⟨hx, he⟩ := hscope
      obtain ⟨u, hu, -⟩ := hagree x hx
      cases h with
      | plain he' _ => simp [CxProgram.evaluates] at he'
      | exprUndefined => exact absurd rfl ho
      | @expr _ _ _ _ _ v _ he' _ hrun hs =>
          obtain rfl := Option.some.inj he'
          obtain ⟨hv, rfl⟩ := value_of_runs hauto he hrun
          obtain ⟨rfl, rfl⟩ := Prod.mk.inj (Option.some.inj hs)
          refine withValue_decided hfo hauto rfl hagree he hv (fun p => rfl) ?_ ?_
          · exact fun hwhole => .expr rfl hwhole (runs_of_value hauto he hv) rfl
          · rw [write_auto hauto]
            simp only [hu, Option.isSome_some, if_true]
            exact agree_subset (agree_update hagree x v) (by simp [declared])
  | modifyResult e => exact hscope.elim
  | step x inc =>
      refine .inl ?_
      obtain ⟨u, henv, hfr⟩ := hagree x hscope
      have hread : P.read st x = some u := by simp [CxProgram.read, hauto x, hfr]
      cases h with
      | plain _ hs =>
          simp only [CxProgram.plain, hread, hint x] at hs
          cases hadd : P.addValue x u (if inc = true then 1 else -1) with
          | none =>
              simp only [hadd, Option.some.injEq, Prod.mk.injEq] at hs
              exact absurd hs.1.symm ho
          | some w =>
              simp only [hadd, Option.some.injEq, Prod.mk.injEq] at hs
              obtain ⟨rfl, rfl⟩ := hs
              refine ⟨.plain rfl (by simp only [CxProgram.plain, hread, hint x, hadd]),
                .goOn (Function.update env x (some w)), Eventually.of_forall fun p => ?_, ?_⟩
              · simp only [budgetedStatement, cFoldCxStatement, henv, hfo.add x u _ w hadd,
                  Option.pure_def]
              · rw [write_auto hauto]
                exact agree_subset (agree_update hagree x w) (by simp [declared])
      | exprUndefined => exact absurd rfl ho
      | expr he => simp [CxProgram.evaluates] at he
  | bind vars inner => exact absurd rfl (hbind vars inner)
  | list inner => exact absurd rfl (hlist inner)
  | ret e =>
      cases h with
      | plain he hs =>
          obtain rfl : e = none := he
          obtain ⟨rfl, rfl⟩ := Prod.mk.inj (Option.some.inj hs)
          exact .inl ⟨.plain rfl rfl, .stop .failed, settlesTo_some _, trivial⟩
      | exprUndefined => exact absurd rfl ho
      | @expr _ _ _ _ e' v _ he' _ hrun hs =>
          obtain rfl : e = some e' := he'
          have he := hscope e' rfl
          obtain ⟨hv, rfl⟩ := value_of_runs hauto he hrun
          obtain ⟨rfl, rfl⟩ := Prod.mk.inj (Option.some.inj hs)
          exact withValue_decided hfo hauto rfl hagree he hv (fun p => rfl)
            (fun hwhole => .expr rfl hwhole (runs_of_value hauto he hv) rfl) rfl
  | debugBegin =>
      refine .inr ⟨?_, settlesTo_some _⟩
      rintro o' st'' hrun
      cases hrun with
      | plain _ hs => simp [CxProgram.plain] at hs
      | marker _ hmarker => exact hmarker
      | exprUndefined he => simp [CxProgram.evaluates] at he
      | expr he => simp [CxProgram.evaluates] at he
  | other effect => exact hscope.elim

private theorem declareAll_decided (fo : CxFold F X O) {Γ vars : List X}
    (h : P.InitialsInScope Γ vars)
    {env fr : X → Option Int} (hagree : Agree Γ env fr) :
    (P.Hoists fo fr vars ∧ ∃ env', (∀ calls, declareAll copied P fo calls vars env =
      some (some env')) ∧
      ∀ x, x ∉ vars → env' x = env x) ∨
    (¬ P.Hoists fo fr vars ∧ ∀ calls, declareAll copied P fo calls vars env = some none) := by
  induction vars generalizing Γ env fr with
  | nil => exact .inl ⟨trivial, env, fun calls => rfl, fun x _ => rfl⟩
  | cons x xs ih =>
      obtain ⟨⟨e, hx, he⟩, hxs⟩ := h
      obtain ⟨hsubst, hclosed⟩ := subst_agree hagree e he
      obtain ⟨r, hr⟩ : ∃ r, ∀ calls,
          cFullyFoldInternal P fo calls (CxExpr.substitute env e) = some r := fold_over _ hclosed
      have hhoists : P.Hoists fo fr (x :: xs) ↔ ∃ v, r = .const v ∧
          P.Hoists fo (Function.update fr x (some v)) xs := by
        simp only [CxProgram.Hoists, CxProgram.FoldsIn, hx, ← hsubst, hr, Option.some.injEq,
          forall_const]
      cases hconst : r.constant with
      | none =>
          refine .inr ⟨?_, fun calls => ?_⟩
          · rw [hhoists]
            rintro ⟨v, rfl, -⟩
            simp [CxExpr.constant] at hconst
          · simp [declareAll, hx, eval_copied, hr calls, hconst]
      | some v =>
          obtain rfl : r = .const v := by cases r <;> simp_all [CxExpr.constant]
          have hdeclare : ∀ calls, declareAll copied P fo calls (x :: xs) env =
              declareAll copied P fo calls xs (Function.update env x (some v)) := by
            intro calls
            simp [declareAll, hx, eval_copied, hr calls, CxExpr.constant]
          rcases ih hxs (agree_update hagree x v) with ⟨hrest, env', henv', hother⟩ | ⟨hrest, hnone⟩
          · refine .inl ⟨hhoists.mpr ⟨v, rfl, hrest⟩, env', fun calls => ?_, ?_⟩
            · rw [hdeclare, henv' calls]
            · intro y hy
              obtain ⟨hyx, hyxs⟩ := not_or.mp (mt List.mem_cons.mpr hy)
              rw [hother y hyxs]
              exact Function.update_of_ne hyx _ _
          · refine .inr ⟨?_, fun calls => by rw [hdeclare, hnone calls]⟩
            rw [hhoists]
            rintro ⟨w, hw, hhoist⟩
            obtain rfl := CxExpr.const.inj hw
            exact hrest hhoist

private theorem control_matches {list : List (CxStmt F X O L)} {Γ : List X} {st : CxStore X}
    {r : CxResult X} {o : CxOutcome L} (h : r.Matches Γ st o) :
    r.control.Matches list Γ Γ st o := by
  cases r with
  | finished env => cases o <;> exact h
  | returned v => cases o <;> exact h
  | failed =>
      cases o with
      | returned w => cases w <;> exact h
      | finished | jump | undefined => exact h

private theorem bind_decided {vars : List X} {inner : List (CxStmt F X O L)} {st st' : CxStore X}
    {o : CxOutcome L}
    (ih : (CxJudgement.exec inner 0 none (CxProgram.enterBlock st vars) o st' :
      CxJudgement F X O L).Decided P fo) :
    (CxJudgement.stmt (.bind vars inner) none st o st' : CxJudgement F X O L).Decided P fo := by
  intro _ ho hlabels list Γ env hscope hagree
  obtain ⟨rfl, hfresh, hinner⟩ := hscope
  have hentered : Agree Γ env (CxProgram.enterBlock st (declared inner)).frame := by
    intro x hx
    have hx' : x ∉ declared inner := fun hmem => hfresh x hmem hx
    simpa [CxProgram.enterBlock, hx'] using hagree x hx
  rcases declareAll_decided fo (initials_inScope hinner) hentered with
    ⟨hhoists, env', henv', hother⟩ | ⟨hhoists, hnone⟩
  · have hagree' : Agree (Γ ++ declared (inner.take 0)) env'
        (CxProgram.enterBlock st (declared inner)).frame := by
      intro x hx
      have hx : x ∈ Γ := by simpa [declared] using hx
      rw [hother x fun hmem => hfresh x hmem hx]
      exact hentered x hx
    have hblock : ∀ r, SettlesTo atTop (budgetedExec P fo inner 0 env') r →
        SettlesTo atTop (budgetedStatement P fo list env (.bind (declared inner) inner))
          r.control := by
      intro r hr
      filter_upwards [hr] with p hp
      simp only [budgetedExec] at hp
      simp [budgetedStatement, cFoldCxStatement, henv', hp]
    rcases ih (fun l hl => by simp at hl) ho hlabels Γ env' hinner hagree' with
      ⟨hunhindered, r, hr, hmatch⟩ | ⟨hstuck, hfail⟩
    · refine .inl ⟨.bind hhoists rfl hunhindered, r.control, hblock r hr, ?_⟩
      simpa [declared] using control_matches hmatch
    · refine .inr ⟨?_, hblock .failed hfail⟩
      intro o' st'' hrun'
      cases hrun' with
      | plain _ hs => simp [CxProgram.plain] at hs
      | exprUndefined he => simp [CxProgram.evaluates] at he
      | expr he => simp [CxProgram.evaluates] at he
      | bind _ hpc hexec =>
          obtain rfl := Option.some.inj hpc
          exact hstuck _ _ hexec
  · refine .inr ⟨?_, Eventually.of_forall fun p => ?_⟩
    · intro o' st'' hrun'
      cases hrun' with
      | plain _ hs => simp [CxProgram.plain] at hs
      | exprUndefined he => simp [CxProgram.evaluates] at he
      | expr he => simp [CxProgram.evaluates] at he
      | bind hopen _ _ => exact hhoists hopen
    · simp [budgetedStatement, cFoldCxStatement, hnone]

private theorem list_decided {inner : List (CxStmt F X O L)} {st st' : CxStore X}
    {o : CxOutcome L}
    (ih : (CxJudgement.exec inner 0 none st o st' : CxJudgement F X O L).Decided P fo) :
    (CxJudgement.stmt (.list inner) none st o st' : CxJudgement F X O L).Decided P fo := by
  intro _ ho hlabels list Γ env hscope hagree
  have hagree' : Agree (Γ ++ declared (inner.take 0)) env st.frame := by
    simpa [declared] using hagree
  have hblock : ∀ r, SettlesTo atTop (budgetedExec P fo inner 0 env) r →
      SettlesTo atTop (budgetedStatement P fo list env (.list inner)) r.control := by
    intro r hr
    filter_upwards [hr] with p hp
    simp only [budgetedExec] at hp
    simp [budgetedStatement, cFoldCxStatement, hp]
  rcases ih (fun l hl => by simp at hl) ho hlabels Γ env hscope.2 hagree' with
    ⟨hunhindered, r, hr, hmatch⟩ | ⟨hstuck, hfail⟩
  · refine .inl ⟨.list rfl hunhindered, r.control, hblock r hr, ?_⟩
    simpa [declared] using control_matches hmatch
  · refine .inr ⟨?_, hblock .failed hfail⟩
    intro o' st'' hrun'
    cases hrun' with
    | plain _ hs => simp [CxProgram.plain] at hs
    | exprUndefined he => simp [CxProgram.evaluates] at he
    | expr he => simp [CxProgram.evaluates] at he
    | list hpc hexec =>
        obtain rfl := Option.some.inj hpc
        exact hstuck _ _ hexec

private theorem exec_first {pol : CxPolicy F X O} {body : List (CxStmt F X O L)} {pc : Nat}
    {entry : Option L} {s : CxStmt F X O L} {st st' : CxStore X} {o : CxOutcome L}
    (hpc : body[pc]? = some s) (h : Runs P pol (.exec body pc entry st o st')) :
    ∃ o₁ st₁, Runs P pol (.stmt s entry st o₁ st₁) ∧
      (o₁ = .finished → Runs P pol (.exec body (pc + 1) none st₁ o st')) ∧
      ∀ l i, o₁ = .jump l → resumeAt body l = some i →
        Runs P pol (.exec body i (some l) st₁ o st') := by
  cases h with
  | done _ hnone => simp [hpc] at hnone
  | next hpc' hrun hrest =>
      obtain rfl := Option.some.inj (hpc.symm.trans hpc')
      exact ⟨_, _, hrun, fun _ => hrest, fun l i hl => by simp at hl⟩
  | stop hpc' hrun hstops =>
      obtain rfl := Option.some.inj (hpc.symm.trans hpc')
      refine ⟨_, _, hrun, ?_, ?_⟩
      · rintro rfl
        simp [CxOutcome.stops] at hstops
      · rintro l i rfl
        simp [CxOutcome.stops] at hstops
  | jumpIn hpc' hrun hl hrest =>
      obtain rfl := Option.some.inj (hpc.symm.trans hpc')
      refine ⟨_, _, hrun, fun hfin => by simp at hfin, ?_⟩
      intro l i hjump hi
      obtain rfl := CxOutcome.jump.inj hjump
      obtain rfl := Option.some.inj (hl.symm.trans hi)
      exact hrest
  | jumpOut hpc' hrun hl =>
      obtain rfl := Option.some.inj (hpc.symm.trans hpc')
      refine ⟨_, _, hrun, fun hfin => by simp at hfin, ?_⟩
      intro l i hjump hi
      obtain rfl := CxOutcome.jump.inj hjump
      simp [hl] at hi

private theorem declared_take_succ {body : List (CxStmt F X O L)} {pc : Nat}
    {s : CxStmt F X O L} (hpc : body[pc]? = some s) :
    declared (body.take (pc + 1)) = declared (body.take pc) ++ declared [s] := by
  rw [List.take_add_one, hpc, declared_append]
  rfl

private theorem stuck_decided {body : List (CxStmt F X O L)} {pc : Nat} {entry : Option L}
    {s : CxStmt F X O L} {st st' : CxStore X} {o : CxOutcome L} {Γ : List X} {env : CxEnv X}
    (hpc : body[pc]? = some s) (hfirst : ∀ l, entry = some l → s = .label l)
    (hstuck : ∀ o' st'', ¬ Runs P (P.unhindered fo) (.stmt s none st o' st''))
    (hfail : SettlesTo atTop (budgetedStatement P fo body env s) (.stop .failed)) :
    ExecDecided P fo Γ env body pc entry st o st' := by
  refine .inr ⟨?_, exec_settlesTo hpc hfail rfl⟩
  intro o' st'' hrun
  obtain ⟨o₁, st₁, hs, -⟩ := exec_first hpc hrun
  exact hstuck o₁ st₁ ((runs_first hfirst).mp hs)

private theorem rest_decided {body : List (CxStmt F X O L)} {pc i : Nat}
    {entry entry' : Option L} {st st₁ st₂ : CxStore X} {o : CxOutcome L} {Γ : List X}
    {env env' : CxEnv X}
    (hexec : ∀ r, SettlesTo atTop (budgetedExec P fo body i env') r →
      SettlesTo atTop (budgetedExec P fo body pc env) r)
    (hjoin : ∀ o' st', Runs P (P.unhindered fo) (.exec body i entry' st₁ o' st') ↔
      Runs P (P.unhindered fo) (.exec body pc entry st o' st'))
    (hrest : ExecDecided P fo Γ env' body i entry' st₁ o st₂) :
    ExecDecided P fo Γ env body pc entry st o st₂ := by
  rcases hrest with ⟨hrun, r, hr, hmatch⟩ | ⟨hstuck, hfail⟩
  · exact .inl ⟨(hjoin _ _).mp hrun, r, hexec r hr, hmatch⟩
  · exact .inr ⟨fun o' st' hrun => hstuck o' st' ((hjoin o' st').mpr hrun), hexec _ hfail⟩

private theorem matches_finished {list : List (CxStmt F X O L)} {Γ Γ' : List X} {st : CxStore X}
    {c : CxControl X} (h : c.Matches list Γ Γ' st .finished) :
    ∃ env, c = .goOn env ∧ Agree Γ' env st.frame := by
  cases c with
  | goOn env => exact ⟨env, rfl, h⟩
  | goTo i env => exact h.elim
  | stop r => cases r <;> exact h.elim

private theorem matches_jump {list : List (CxStmt F X O L)} {Γ Γ' : List X} {st : CxStore X}
    {c : CxControl X} {l : L} (h : c.Matches list Γ Γ' st (.jump l)) :
    ∃ i env, c = .goTo i env ∧ labelIndex list l = some i ∧ declared (list.take i) ⊆ Γ ∧
      Agree Γ env st.frame := by
  cases c with
  | goOn env => exact h.elim
  | goTo i env => exact ⟨i, env, rfl, h⟩
  | stop r => cases r <;> exact h.elim

private theorem first_decided (hfo : FoldComplete P fo) (hauto : ∀ x, P.isStatic x = false)
    (hint : ∀ x, P.stride x = 1) {body : List (CxStmt F X O L)} {pc : Nat} {entry : Option L}
    {s : CxStmt F X O L} {st st₁ : CxStore X} {o₁ : CxOutcome L} (hpc : body[pc]? = some s)
    (hfirst : ∀ l, entry = some l → s = .label l) (hrun : Runs P .any (.stmt s entry st o₁ st₁))
    (ih : (CxJudgement.stmt s entry st o₁ st₁ : CxJudgement F X O L).Decided P fo)
    (ho : o₁ ≠ .undefined) (hlabels : (listLabels body).Nodup) {Γ : List X} {env : CxEnv X}
    (hscope : P.ListInScope body Γ body)
    (hagree : Agree (Γ ++ declared (body.take pc)) env st.frame) :
    StmtDecided P fo body (Γ ++ declared (body.take pc)) env s st o₁ st₁ := by
  have hs := inScope_getElem hscope hpc
  cases entry with
  | none =>
      exact ih rfl ho (labels_nodup_of_mem hlabels (List.mem_of_getElem? hpc)) body _ env hs hagree
  | some l =>
      obtain rfl := hfirst l rfl
      exact simple_decided hfo hauto hint (by simp) (by simp) ((runs_first hfirst).mp hrun) ho hs
        hagree

private theorem exec_next {pol : CxPolicy F X O} {body : List (CxStmt F X O L)} {pc : Nat}
    {entry : Option L} {s : CxStmt F X O L} {st st₁ : CxStore X} (hpc : body[pc]? = some s)
    (hrun : Runs P pol (.stmt s entry st .finished st₁)) (o' : CxOutcome L) (st' : CxStore X) :
    Runs P pol (.exec body (pc + 1) none st₁ o' st') ↔
      Runs P pol (.exec body pc entry st o' st') := by
  refine ⟨.next hpc hrun, fun h => ?_⟩
  obtain ⟨o₁, st₁', hs, hnext, -⟩ := exec_first hpc h
  obtain ⟨rfl, rfl⟩ := runs_unique hrun _ _ hs
  exact hnext rfl

private theorem exec_jump {pol : CxPolicy F X O} {body : List (CxStmt F X O L)} {pc i : Nat}
    {entry : Option L} {s : CxStmt F X O L} {st st₁ : CxStore X} {l : L}
    (hpc : body[pc]? = some s) (hrun : Runs P pol (.stmt s entry st (.jump l) st₁))
    (hl : resumeAt body l = some i) (o' : CxOutcome L) (st' : CxStore X) :
    Runs P pol (.exec body i (some l) st₁ o' st') ↔
      Runs P pol (.exec body pc entry st o' st') := by
  refine ⟨.jumpIn hpc hrun hl, fun h => ?_⟩
  obtain ⟨o₁, st₁', hs, -, hjump⟩ := exec_first hpc h
  obtain ⟨rfl, rfl⟩ := runs_unique hrun _ _ hs
  exact hjump l i rfl hl

/-- On supported functions the evaluator keeps pace with every run up to a hindrance, where it
fails. -/
theorem run_decided (hfo : FoldComplete P fo) (hauto : ∀ x, P.isStatic x = false)
    (hint : ∀ x, P.stride x = 1) {J : CxJudgement F X O L} (h : Runs P .any J) :
    J.Decided P fo := by
  induction h with
  | const | var | opUndefined | op | lazyUndefined | lazySkip | lazyBoth | condUndefined
  | condThen | condElse | callUndefined | call | assignUndefined | assign | nil | consUndefined
  | cons => trivial
  | labelled l st => exact fun hentry => absurd hentry (Option.some_ne_none l)
  | intoThen | intoElse => exact fun hentry => absurd hentry (Option.some_ne_none _)
  | exprUndefined _ _ _ => exact fun _ ho => absurd rfl ho
  | @plain s st st' o he hs =>
      intro _ ho _ list Γ env hscope hagree
      refine simple_decided hfo hauto hint ?_ ?_ (.plain he hs) ho hscope hagree
      · rintro vars inner rfl
        simp [CxProgram.plain] at hs
      · rintro inner rfl
        simp [CxProgram.plain] at hs
  | marker st hmarker =>
      intro _ ho _ list Γ env hscope hagree
      exact simple_decided hfo hauto hint (by simp) (by simp) (.marker st hmarker) ho hscope hagree
  | @expr s st st₁ st₂ e v o he hwhole hrun hs =>
      intro _ ho _ list Γ env hscope hagree
      refine simple_decided hfo hauto hint ?_ ?_ (.expr he hwhole hrun hs) ho hscope hagree
      · rintro vars inner rfl
        simp [CxProgram.complete] at hs
      · rintro inner rfl
        simp [CxProgram.complete] at hs
  | condNoArm hwhole hrun harm =>
      intro _ ho _ list Γ env hscope hagree
      exact simple_decided hfo hauto hint (by simp) (by simp) (.condNoArm hwhole hrun harm) ho
        hscope hagree
  | condArm hwhole hrun harm hgoto =>
      intro _ ho _ list Γ env hscope hagree
      exact simple_decided hfo hauto hint (by simp) (by simp) (.condArm hwhole hrun harm hgoto) ho
        hscope hagree
  | @bind vars inner entry pc st st' o _ hpc _ ih =>
      intro hentry
      subst hentry
      obtain rfl : 0 = pc := Option.some.inj hpc
      exact bind_decided ih rfl
  | @list inner entry pc st st' o hpc _ ih =>
      intro hentry
      subst hentry
      obtain rfl : 0 = pc := Option.some.inj hpc
      exact list_decided ih rfl
  | @done body pc st hpc =>
      intro _ _ _ Γ env _ hagree
      refine .inl ⟨.done st hpc, .finished env, SettlesTo.of_spend ?_, ?_⟩
      · unfold budgetedExec
        simp only [exec_copied, hpc]
        exact settlesTo_some _
      · exact agree_subset hagree (List.subset_append_left _ _)
  | @next body pc entry s st st₁ st₂ o hpc hrun _ ihs ihb =>
      intro hentry ho hlabels Γ env hscope hagree
      have hfirst : ∀ l, entry = some l → s = .label l :=
        fun l hl => Option.some.inj (hpc.symm.trans (hentry l hl))
      rcases first_decided hfo hauto hint hpc hfirst hrun ihs (by simp) hlabels hscope hagree with
        ⟨hs, c, hc, hmatch⟩ | ⟨hstuck, hfail⟩
      · obtain ⟨env', rfl, hagree'⟩ := matches_finished hmatch
        rw [List.append_assoc, ← declared_take_succ hpc] at hagree'
        exact rest_decided (fun r hr => exec_settlesTo hpc hc hr)
          (exec_next hpc ((runs_first hfirst).mpr hs))
          (ihb (fun l hl => by simp at hl) ho hlabels Γ env' hscope hagree')
      · exact stuck_decided hpc hfirst hstuck hfail
  | @stop body pc entry s st st' o hpc hrun hstops ih =>
      intro hentry ho hlabels Γ env hscope hagree
      have hfirst : ∀ l, entry = some l → s = .label l :=
        fun l hl => Option.some.inj (hpc.symm.trans (hentry l hl))
      rcases first_decided hfo hauto hint hpc hfirst hrun ih ho hlabels hscope hagree with
        ⟨hs, c, hc, hmatch⟩ | ⟨hstuck, hfail⟩
      · cases o with
        | returned w =>
            cases c with
            | stop r =>
                refine .inl ⟨.stop hpc ((runs_first hfirst).mpr hs) rfl, r,
                  exec_settlesTo hpc hc rfl, ?_⟩
                cases r with
                | failed => cases w <;> exact hmatch
                | finished env' => exact hmatch.elim
                | returned v => exact hmatch
            | goOn | goTo => exact hmatch.elim
        | undefined => exact absurd rfl ho
        | finished | jump => simp [CxOutcome.stops] at hstops
      · exact stuck_decided hpc hfirst hstuck hfail
  | @jumpIn body pc i entry s st st₁ st₂ l o hpc hrun hl _ ihs ihb =>
      intro hentry ho hlabels Γ env hscope hagree
      have hfirst : ∀ l, entry = some l → s = .label l :=
        fun l hl => Option.some.inj (hpc.symm.trans (hentry l hl))
      rcases first_decided hfo hauto hint hpc hfirst hrun ihs (by simp) hlabels hscope hagree with
        ⟨hs, c, hc, hmatch⟩ | ⟨hstuck, hfail⟩
      · obtain ⟨i', env', rfl, hindex, hdeclared, hagree'⟩ := matches_jump hmatch
        obtain ⟨hlabel, hresume⟩ := labelIndex_resume hlabels hindex
        obtain rfl := Option.some.inj (hl.symm.trans hresume)
        refine rest_decided (fun r hr => exec_settlesTo hpc hc hr)
          (exec_jump hpc ((runs_first hfirst).mpr hs) hl) (ihb ?_ ho hlabels Γ env' hscope ?_)
        · rintro l' hl'
          exact Option.some.inj hl' ▸ hlabel
        · exact agree_subset hagree'
            (List.append_subset.mpr ⟨List.subset_append_left _ _, hdeclared⟩)
      · exact stuck_decided hpc hfirst hstuck hfail
  | @jumpOut body pc entry s st st' l hpc hrun hl ih =>
      intro hentry ho hlabels Γ env hscope hagree
      have hfirst : ∀ l, entry = some l → s = .label l :=
        fun l hl => Option.some.inj (hpc.symm.trans (hentry l hl))
      rcases first_decided hfo hauto hint hpc hfirst hrun ih ho hlabels hscope hagree with
        ⟨hs, c, hc, hmatch⟩ | ⟨hstuck, hfail⟩
      · obtain ⟨i', env', rfl, hindex, -⟩ := matches_jump hmatch
        rw [(labelIndex_resume hlabels hindex).2] at hl
        simp at hl
      · exact stuck_decided hpc hfirst hstuck hfail

/-- The body of a function over initialized automatic locals: the statements are supported, with
the parameters in scope. -/
def CxProgram.Supported (P : CxProgram F X O L) (fn : CxFunction F X O L) : Prop :=
  P.ListInScope fn.body fn.params fn.body

private theorem bindParams_agree {params : List X} {vs : List Int}
    (hlen : vs.length = params.length) :
    Agree params (CxProgram.bindParams params vs) (CxProgram.bindParams params vs) := by
  have hfold : ∀ (ps : List (X × Int)) (fr : X → Option Int) (x : X),
      x ∈ ps.map Prod.fst ∨ (∃ v, fr x = some v) →
      ∃ v, (ps.foldl (fun (fr : X → Option Int) p => Function.update fr p.1 (some p.2)) fr) x =
        some v := by
    intro ps
    induction ps with
    | nil => exact fun fr x hx => hx.elim (fun h => by simp at h) id
    | cons p ps ih =>
        intro fr x hx
        refine ih _ x ?_
        by_cases hp : x = p.1
        · exact .inr ⟨p.2, by rw [hp]; exact Function.update_self _ _ _⟩
        · rcases hx with hx | ⟨v, hv⟩
          · exact .inl ((List.mem_cons.mp hx).resolve_left hp)
          · exact .inr ⟨v, (Function.update_of_ne hp _ _).trans hv⟩
  intro x hx
  have hmem : x ∈ (params.zip vs).map Prod.fst := by
    rw [List.map_fst_zip (le_of_eq hlen.symm)]
    exact hx
  obtain ⟨v, hv⟩ := hfold (params.zip vs) (fun _ => none) x (.inl hmem)
  exact ⟨v, hv, hv⟩

private theorem copied_folds_iff (hfo : FoldComplete P fo) (hauto : ∀ x, P.isStatic x = false)
    (hint : ∀ x, P.stride x = 1) {f : F} {fn : CxFunction F X O L} (hfn : P.fns f = some fn)
    (hsupported : P.Supported fn) {statics statics' : X → Int} {vs : List Int} {v : Int}
    (hreturns : Returns P .any statics f vs v statics') :
    (∃ n, ∀ m, n ≤ m → cFoldConstexprCall copied P fo m f vs = some (some v)) ↔
      Returns P (P.unhindered fo) statics f vs v statics' := by
  obtain ⟨fn', fr, hfn', hlen, hrun⟩ := hreturns
  obtain rfl := Option.some.inj (hfn.symm.trans hfn')
  have hdecided := run_decided hfo hauto hint hrun (fun l hl => by simp at hl) (by simp)
    fn.labels_nodup fn.params (CxProgram.bindParams fn.params vs) hsupported
    (by simpa [declared] using bindParams_agree hlen)
  have hfound : ∀ r, SettlesTo atTop
      (budgetedExec P fo fn.body 0 (CxProgram.bindParams fn.params vs)) r →
      ∃ n, ∀ m, n ≤ m → cFoldConstexprCall copied P fo m f vs = some r.value :=
    fun r hr => eventually_atTop.mp (constexprCall_settlesTo hfn hlen hr)
  rcases hdecided with ⟨hunhindered, r, hr, hmatch⟩ | ⟨hstuck, hfail⟩
  · obtain rfl : r = .returned v := by
      cases r with
      | returned w => rw [Option.some.inj hmatch]
      | failed | finished => exact hmatch.elim
    exact ⟨fun _ => ⟨fn, fr, hfn, hlen, hunhindered⟩, fun _ => hfound _ hr⟩
  · constructor
    · rintro ⟨n, hn⟩
      obtain ⟨n', hn'⟩ := hfound _ hfail
      have hboth := (hn (max n n') (le_max_left _ _)).symm.trans (hn' _ (le_max_right _ _))
      simp [CxResult.value] at hboth
    · rintro ⟨fn', fr', hfn', -, hrun'⟩
      obtain rfl := Option.some.inj (hfn.symm.trans hfn')
      exact absurd hrun' (hstuck _ _)

end Hindrance

section Samples

variable {P : CxProgram F X O L}

private theorem constants_mapM (vs : List Int) :
    ((vs.map .const : List (CxExpr F X O))).mapM CxExpr.constant = some vs := by
  induction vs with
  | nil => rfl
  | cons v vs ih => simp [CxExpr.constant, ih]

mutual
theorem constantFold_value (calls : CxCalls Option F) :
    ∀ (e : CxExpr F X O), e.Over [] → e.saves = [] → ∀ v, P.value (fun _ => none) e = some v →
      cFullyFoldInternal P (constantFold P) calls e = some (.const v)
  | .const w, _, _, v, hv => by
      obtain rfl : w = v := by simpa [CxProgram.value] using hv
      simp only [cFullyFoldInternal, Option.pure_def]
  | .var x, hx, _, _, _ => absurd hx List.not_mem_nil
  | .op o args, hargs, hsaves, v, hv => by
      rw [CxProgram.value] at hv
      obtain ⟨vs, hvs, hop⟩ := Option.bind_eq_some_iff.mp hv
      have hfold := constantFold_values calls args hargs hsaves vs hvs
      simp only [cFullyFoldInternal, hfold, Option.bind_eq_bind, Option.bind_some,
        Option.pure_def, Option.some.injEq]
      simp only [constantFold, constants_mapM, Option.bind_some, hop]
  | .lazy k a b, ⟨ha, hb⟩, hsaves, v, hv => by
      rw [CxProgram.value] at hv
      obtain ⟨u, hu, hv⟩ := Option.bind_eq_some_iff.mp hv
      simp only [CxExpr.saves, List.append_eq_nil_iff, Option.toList_eq_nil_iff] at hsaves
      obtain ⟨hk, hasaves, hbsaves⟩ := hsaves
      have ha := constantFold_value calls a ha hasaves u hu
      split at hv
      · rename_i hdec
        obtain ⟨b', hb'⟩ : ∃ b', ∀ calls : CxCalls Option F,
            cFullyFoldInternal P (constantFold P) calls b = some b' := fold_over b hb
        obtain rfl := Option.some.inj hv
        simp only [cFullyFoldInternal, hk, Option.isSome_none, Bool.false_eq_true, if_false, ha,
          hb' calls, Option.bind_eq_bind, Option.bind_some, Option.pure_def, Option.some.injEq]
        simp only [constantFold, hdec, if_true]
      · rename_i hdec
        obtain ⟨w, hw, rfl⟩ := Option.map_eq_some_iff.mp hv
        have hb := constantFold_value calls b hb hbsaves w hw
        simp only [cFullyFoldInternal, hk, Option.isSome_none, Bool.false_eq_true, if_false, ha, hb,
          Option.bind_eq_bind, Option.bind_some, Option.pure_def, Option.some.injEq]
        simp only [constantFold, if_neg hdec, CxExpr.constant]
  | .cond c a b, ⟨hc, ha, hb⟩, hsaves, v, hv => by
      rw [CxProgram.value] at hv
      obtain ⟨u, hu, hv⟩ := Option.bind_eq_some_iff.mp hv
      simp only [CxExpr.saves, List.append_eq_nil_iff] at hsaves
      obtain ⟨hcsaves, hasaves, hbsaves⟩ := hsaves
      have hc := constantFold_value calls c hc hcsaves u hu
      split at hv
      · rename_i hzero
        obtain ⟨a', ha'⟩ : ∃ a', ∀ calls : CxCalls Option F,
            cFullyFoldInternal P (constantFold P) calls a = some a' := fold_over a ha
        have hb := constantFold_value calls b hb hbsaves v hv
        simp only [cFullyFoldInternal, hc, ha' calls, hb, Option.bind_eq_bind, Option.bind_some,
          Option.pure_def, Option.some.injEq]
        simp only [constantFold, if_pos hzero]
      · rename_i hzero
        obtain ⟨b', hb'⟩ : ∃ b', ∀ calls : CxCalls Option F,
            cFullyFoldInternal P (constantFold P) calls b = some b' := fold_over b hb
        have ha := constantFold_value calls a ha hasaves v hv
        simp only [cFullyFoldInternal, hc, ha, hb' calls, Option.bind_eq_bind, Option.bind_some,
          Option.pure_def, Option.some.injEq]
        simp only [constantFold, if_neg hzero]

theorem constantFold_values (calls : CxCalls Option F) :
    ∀ (es : List (CxExpr F X O)), AllOver [] es → savesAll es = [] →
      ∀ vs, P.values (fun _ => none) es = some vs →
      foldOperands P (constantFold P) calls es = some (vs.map .const)
  | [], _, _, vs, hvs => by
      obtain rfl : [] = vs := by simpa [CxProgram.values] using hvs
      simp only [foldOperands, List.map_nil, Option.pure_def]
  | e :: es, ⟨he, hes⟩, hsaves, vs, hvs => by
      rw [CxProgram.values] at hvs
      obtain ⟨v, hv, hvs⟩ := Option.bind_eq_some_iff.mp hvs
      obtain ⟨ws, hws, rfl⟩ := Option.map_eq_some_iff.mp hvs
      obtain ⟨hesave, hessave⟩ := List.append_eq_nil_iff.mp hsaves
      have he := constantFold_value calls e he hesave v hv
      have hes := constantFold_values calls es hes hessave ws hws
      simp [foldOperands, he, hes]
end

variable [DecidableEq X] [DecidableEq L]

private theorem fold_sound {fo : CxFold F X O} (hfo : FoldKeeps P fo)
    (hauto : ∀ x, P.isStatic x = false) (hint : ∀ x, P.stride x = 1) (e : CxExpr F X O) (v w : Int)
    (calls : CxCalls Option F) (he : e.Over []) (hv : P.value (fun _ => none) e = some v)
    (hw : cFullyFoldInternal P fo calls e = some (.const w)) : w = v := by
  obtain ⟨r, hr⟩ : ∃ r, ∀ calls : CxCalls Option F, cFullyFoldInternal P fo calls e = some r :=
    fold_over e he
  obtain rfl : r = .const w := Option.some.inj ((hr calls).symm.trans hw)
  let st : CxStore X := ⟨fun _ => none, fun _ => 0⟩
  have hrun : Runs P .any (.eval st e ((P.value st.frame e).map (·, st))) :=
    runs_value hauto (fun _ _ => trivial) st e he
  rw [show P.value st.frame e = some v from hv] at hrun
  have hnone : CallsSound P fun _ _ => none := fun _ _ _ h => by simp at h
  have hfold := fold_refines (safe_of_automatic hauto hint) hfo hnone e _ (hr _)
    (fun x _ => frozen_of_automatic hauto x) st (initial_of_automatic hauto _) _ (.const st w)
  rcases hfold with hfold | hfold
  · have hsame := runs_unique hrun _ hfold
    simp only [Option.map_some, Option.some.injEq, Prod.mk.injEq] at hsame
    exact hsame.1
  · have hsame := runs_unique hrun _ hfold
    simp at hsame

theorem constantFold_complete (hauto : ∀ x, P.isStatic x = false) (hint : ∀ x, P.stride x = 1) :
    FoldComplete P (constantFold P) where
  value e v calls he hsaves hv := constantFold_value calls e he hsaves v hv
  sound e v w calls he hv hw := fold_sound (constantFold_keeps P) hauto hint e v w calls he hv hw
  add _ _ _ _ h := h

private theorem loop_supported : orSevenProgram.Supported (loopFunction orSeven) := by
  have hinner : orSevenProgram.StmtInScope (loopFunction orSeven).body [0] (.bind [1] [.decl 1,
      .label 0, .cond (.var 0) (some (.goto 1)) (some (.goto 2)), .label 1,
      .modify 1 (.op .plus [.var 1, orSeven]), .step 0 false, .goto 0, .label 2,
      .ret (some (.var 1))]) := by
    refine ⟨rfl, by decide, ⟨.const 0, rfl, trivial⟩, trivial, ⟨?_, ?_, ?_⟩, trivial, ⟨?_, ?_⟩, ?_,
      ?_, trivial, ?_, trivial⟩
    · simp [CxExpr.Over]
    · exact ⟨3, rfl, by decide⟩
    · exact ⟨7, rfl, by decide⟩
    · simp [declared]
    · simp [orSeven, CxExpr.Over, AllOver, declared]
    · simp [CxProgram.StmtInScope]
    · exact ⟨1, rfl, by decide⟩
    · simp [CxProgram.StmtInScope, CxExpr.Over, declared]
  exact ⟨hinner, trivial⟩

private theorem loop_unhindered :
    Returns orSevenProgram (orSevenProgram.unhindered (constantFold orSevenProgram))
      (fun _ => 0) () [1] 1 (fun _ => 0) := by
  let P := orSevenProgram
  let pol := P.unhindered (constantFold P)
  have hopen : P.Hoists (constantFold P)
      (CxProgram.enterBlock ⟨CxProgram.bindParams [0] [1], fun _ => 0⟩ [1]).frame [1] :=
    ⟨0, fun _ => rfl, trivial⟩
  let start : CxStore Nat :=
    P.write (CxProgram.enterBlock ⟨CxProgram.bindParams [0] [1], fun _ => 0⟩ [1]) 1 0
  let final : CxStore Nat := P.write (P.write start 1 (0 + 1)) 0 (1 + -1)
  have hsum : Runs P pol (.eval start (.op .plus [.var 1, orSeven]) (some (0 + 1, start))) := by
    have hover : (CxExpr.op SampleOp.plus [.var 1, orSeven]).Over [0, 1] := by
      simp [orSeven, CxExpr.Over, AllOver]
    exact runs_of_value (fun _ => rfl) hover rfl
  refine ⟨loopFunction orSeven, final.frame, rfl, rfl, .stop rfl (.bind hopen rfl ?_) rfl⟩
  refine .next rfl (.expr rfl (.inl rfl) (.const _ 0) rfl) (.next rfl (.plain rfl rfl) ?_)
  refine .jumpIn rfl (.condArm (.inl rfl) (.var start 0) rfl (.plain rfl rfl)) rfl ?_
  refine .next rfl (.labelled 1 _) (.next rfl
    (.expr rfl (.inr ⟨1, fun _ => rfl⟩) hsum rfl) (.next rfl (.plain rfl rfl) ?_))
  refine .jumpIn rfl (.plain rfl rfl) rfl (.next rfl (.labelled 0 _) ?_)
  refine .jumpIn rfl (.condArm (.inl rfl) (.var final 0) rfl (.plain rfl rfl)) rfl ?_
  exact .next rfl (.labelled 2 _) (.stop rfl (.expr rfl (.inl rfl) (.var final 1) rfl) rfl)

private theorem loop_steady (n : Nat) : Steady []
    ((cFoldConstexprCall cFoldCxSubst orSevenProgram (constantFold orSevenProgram) n () [1]).on
      []).2 := by
  match n with
  | 0 | 1 | 2 | 3 | 4 | 5 | 6 | 7 | 8 | 9 | 10 | 11 | 12 | 13 => decide +kernel
  | n + 14 =>
      have hrun : ((cFoldConstexprCall cFoldCxSubst orSevenProgram (constantFold orSevenProgram)
          (n + 14) () [1]).on []).2.length = 1 := rfl
      obtain ⟨w, hw⟩ := List.length_eq_one_iff.mp hrun
      rw [hw]
      exact ⟨fun x _ => .inl rfl, trivial⟩

/-- `int k = 0; k = 5; int q = 100 / k; return q;`, with `k` the variable 0 and `q` the
variable 1. -/
def quotientFunction : CxFunction Unit Nat SampleOp Nat where
  params := []
  body := [.bind [0, 1] [.decl 0, .modify 0 (.const 5), .decl 1, .ret (some (.var 1))]]
  labels_nodup := List.nodup_nil

/-- The same without `q` and with a debug marker before `return 100 / k;`. -/
def markedFunction : CxFunction Unit Nat SampleOp Nat where
  params := []
  body := [.bind [0] [.decl 0, .modify 0 (.const 5), .debugBegin,
    .ret (some (.op .truncDiv [.const 100, .var 0]))]]
  labels_nodup := List.nodup_nil

def quotientProgram (fn : CxFunction Unit Nat SampleOp Nat) :
    CxProgram Unit Nat SampleOp Nat where
  fns _ := some fn
  declInitial x := if x = 0 then some (.const 0) else some (.op .truncDiv [.const 100, .var 0])
  isStatic _ := false
  stride _ := 1
  opValue := SampleOp.value
  addValue _ a b := some (a + b)
  params_auto _ _ _ _ _ := rfl
  static_const _ _ h := by simp at h

private theorem quotient_runs {P : CxProgram Unit Nat SampleOp Nat} {st : CxStore Nat}
    (hop : P.opValue = SampleOp.value) (hread : P.read st 0 = some 5) :
    Runs P .any (.eval st (.op .truncDiv [.const 100, .var 0]) (some (20, st))) := by
  have hvar : Runs P .any (.eval st (.var 0) ((P.read st 0).map (·, st))) := .var st 0
  rw [hread] at hvar
  have hrun : Runs P .any (.eval st (.op .truncDiv [.const 100, .var 0])
      ((P.opValue .truncDiv [100, 5]).map (·, st))) :=
    .op .truncDiv (.cons (.const st 100) (.cons hvar (.nil st)))
  rw [hop] at hrun
  exact hrun

private theorem quotient_returns :
    Returns (quotientProgram quotientFunction) .any (fun _ => 0) () [] 20 (fun _ => 0) := by
  let start : CxStore Nat := CxProgram.enterBlock ⟨CxProgram.bindParams [] [], fun _ => 0⟩ [0, 1]
  let final : CxStore Nat := (quotientProgram quotientFunction).write
    ((quotientProgram quotientFunction).write
      ((quotientProgram quotientFunction).write start 0 0) 0 5) 1 20
  refine ⟨quotientFunction, final.frame, rfl, rfl, .stop rfl (.bind trivial rfl ?_) rfl⟩
  refine .next rfl (.expr rfl trivial (.const _ 0) rfl) ?_
  refine .next rfl (.expr rfl trivial (.const _ 5) rfl) ?_
  refine .next rfl (.expr rfl trivial (quotient_runs rfl rfl) rfl) ?_
  exact .stop rfl (.expr rfl trivial (.var _ 1) rfl) rfl

private theorem marked_returns :
    Returns (quotientProgram markedFunction) .any (fun _ => 0) () [] 20 (fun _ => 0) := by
  let start : CxStore Nat := CxProgram.enterBlock ⟨CxProgram.bindParams [] [], fun _ => 0⟩ [0]
  let final : CxStore Nat := (quotientProgram markedFunction).write
    ((quotientProgram markedFunction).write start 0 0) 0 5
  refine ⟨markedFunction, final.frame, rfl, rfl, .stop rfl (.bind trivial rfl ?_) rfl⟩
  refine .next rfl (.expr rfl trivial (.const _ 0) rfl) ?_
  refine .next rfl (.expr rfl trivial (.const _ 5) rfl) (.next rfl (.marker _ trivial) ?_)
  exact .stop rfl (.expr rfl trivial (quotient_runs rfl rfl) rfl) rfl

private theorem quotient_supported :
    (quotientProgram quotientFunction).Supported quotientFunction := by
  refine ⟨⟨rfl, by decide, ⟨.const 0, rfl, trivial⟩, ⟨by simp [declared], trivial⟩,
    ⟨.op .truncDiv [.const 100, .var 0], rfl, ?_⟩, ?_, trivial⟩, trivial⟩
  · simp [CxExpr.Over, AllOver, declared, quotientFunction]
  · simp [CxProgram.StmtInScope, CxExpr.Over, declared, quotientFunction]

private theorem marked_supported :
    (quotientProgram markedFunction).Supported markedFunction := by
  refine ⟨⟨rfl, by decide, ⟨.const 0, rfl, trivial⟩, ⟨by simp [declared], trivial⟩, trivial, ?_,
    trivial⟩, trivial⟩
  simp [CxProgram.StmtInScope, CxExpr.Over, AllOver, declared, markedFunction]

end Samples

end CZet
