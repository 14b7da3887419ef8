/- source: src/gcc/gcc/c/c-fold.cc (c_fold_cx_eval, c_fold_cx_exec, c_fold_constexpr_call,
     c_fully_fold_internal)
   digest: When the compile-time evaluation of a call ends together with the call. -/

import CZet.Lib.Settling
import CZet.Constexpr.Soundness

set_option autoImplicit false
set_option relaxedAutoImplicit false
set_option linter.unusedSectionVars false

open Filter

namespace CZet

open Lib.Settling Lib.LoggedRuns

variable {F X O L : Type}

section Speculation

variable (P : CxProgram F X O L)

mutual
/-- `p` holds of every call of a constexpr function that the folder makes in an expression,
evaluated by C or not. -/
def CxProgram.EveryCall (p : F → List (CxExpr F X O) → Prop) : CxExpr F X O → Prop
  | .const _ => True
  | .var _ => True
  | .op _ args => EveryCallIn p args
  | .lazy k a b => (k.save = none → CxProgram.EveryCall p a) ∧ CxProgram.EveryCall p b
  | .cond c a b => CxProgram.EveryCall p c ∧ CxProgram.EveryCall p a ∧ CxProgram.EveryCall p b
  | .call f args => P.fns f = none ∨ p f args ∧ EveryCallIn p args
  | .assign _ _ => True
  | .assignTo _ _ => True

def CxProgram.EveryCallIn (p : F → List (CxExpr F X O) → Prop) : List (CxExpr F X O) → Prop
  | [] => True
  | e :: es => CxProgram.EveryCall p e ∧ CxProgram.EveryCallIn p es
end

/-- No call of a constexpr function. -/
def CxProgram.CallFree (e : CxExpr F X O) : Prop := P.EveryCall (fun _ _ => False) e

variable [DecidableEq X] [DecidableEq L]

/-- With the values that the arguments have in the store, the call is one of `S`. -/
def CxProgram.CallsOne (S : F → List Int → Prop) (st : CxStore X) (f : F)
    (args : List (CxExpr F X O)) : Prop :=
  ∃ vs st', Runs P .any (.evals st args (some (vs, st'))) ∧ S f vs

/-- The initializers of a block, evaluated one after the other in the store with which the block
is entered, make only calls of `S`. -/
def CxProgram.Opens (S : F → List Int → Prop) : CxStore X → List X → Prop
  | _, [] => True
  | st, x :: xs =>
      (∀ y ∈ x :: xs, ∀ e, P.declInitial y = some e → P.CallFree e) ∨
      match P.declInitial x with
      | none => CxProgram.Opens S st xs
      | some e => P.EveryCall (P.CallsOne S st) e ∧ ∃ v st',
          Runs P .any (.eval st e (some (v, st'))) ∧ CxProgram.Opens S (P.write st x v) xs

/-- Runs in which the calls that are not evaluated, or not yet, are calls of `S`, and in which no
expression both calls and assigns. -/
def CxProgram.speculates (S : F → List Int → Prop) : CxPolicy F X O where
  skipped st e := P.EveryCall (P.CallsOne S st) e
  whole _ e := P.CallFree e ∨ e.writes = []
  entered := P.Opens S
  marker := True

/-- Calls that come to an end, with the calls of skipped operands and early initializers, the
calls of those, and so on to the depth `k`. -/
def CxProgram.EndsWithin : Nat → F → List Int → Prop
  | 0, _, _ => False
  | k + 1, f, vs => ∃ fn statics o st, P.fns f = some fn ∧ vs.length = fn.params.length ∧
      Runs P (P.speculates (CxProgram.EndsWithin k))
        (.exec fn.body 0 none ⟨CxProgram.bindParams fn.params vs, statics⟩ o st) ∧ o ≠ .undefined

/-- The call comes to an end, and so do all calls in skipped operands and early initializers. -/
def CxProgram.Ends (f : F) (vs : List Int) : Prop := ∃ k, P.EndsWithin k f vs

end Speculation

variable [DecidableEq X] [DecidableEq L]

section Folding

variable {P : CxProgram F X O L} {fo : CxFold F X O} {ι : Type} {l : Filter ι}
  {calls : ι → CxCalls Option F}

private theorem op_settles (o : O) {args : List (CxExpr F X O)}
    (hargs : Settles l fun i => foldOperands P fo (calls i) args) :
    Settles l fun i => cFullyFoldInternal P fo (calls i) (.op o args) := by
  simp only [cFullyFoldInternal]
  exact hargs.bind fun args' _ => settles_some _

private theorem lazy_settles (k : LazyOp) {a b : CxExpr F X O}
    (ha : k.save = none → Settles l fun i => cFullyFoldInternal P fo (calls i) a)
    (hb : Settles l fun i => cFullyFoldInternal P fo (calls i) b) :
    Settles l fun i => cFullyFoldInternal P fo (calls i) (.lazy k a b) := by
  simp only [cFullyFoldInternal]
  refine Settles.bind ?_ fun a' _ => hb.bind fun b' _ => settles_some _
  cases hk : k.save with
  | none => simpa [hk] using ha hk
  | some save => exact settles_some a

private theorem cond_settles {c a b : CxExpr F X O}
    (hc : Settles l fun i => cFullyFoldInternal P fo (calls i) c)
    (ha : Settles l fun i => cFullyFoldInternal P fo (calls i) a)
    (hb : Settles l fun i => cFullyFoldInternal P fo (calls i) b) :
    Settles l fun i => cFullyFoldInternal P fo (calls i) (.cond c a b) := by
  simp only [cFullyFoldInternal]
  exact hc.bind fun c' _ => ha.bind fun a' _ => hb.bind fun b' _ => settles_some _

private theorem call_settles {f : F} {args : List (CxExpr F X O)}
    (hargs : Settles l fun i => foldArguments P fo (calls i) args)
    (hcall : ∀ vs, SettlesTo l (fun i => foldArguments P fo (calls i) args) (some vs) →
      Settles l fun i => calls i f vs) :
    Settles l fun i => cFullyFoldInternal P fo (calls i) (.call f args) := by
  simp only [cFullyFoldInternal]
  cases hfn : P.fns f with
  | none => exact settles_some _
  | some fn =>
      simp only
      by_cases hlen : args.length = fn.params.length
      · simp only [if_pos hlen]
        refine hargs.bind fun values hvalues => ?_
        cases values with
        | none => exact settles_some _
        | some vs =>
            refine (hcall vs hvalues).bind fun result _ => ?_
            cases result with
            | none => exact settles_some _
            | some v => exact settles_some _
      · simp only [if_neg hlen]
        exact settles_some _

private theorem operands_settle {e : CxExpr F X O} {es : List (CxExpr F X O)}
    (he : Settles l fun i => cFullyFoldInternal P fo (calls i) e)
    (hes : Settles l fun i => foldOperands P fo (calls i) es) :
    Settles l fun i => foldOperands P fo (calls i) (e :: es) := by
  simp only [foldOperands]
  exact he.bind fun e' _ => hes.bind fun es' _ => settles_some _

private theorem arguments_settle {e : CxExpr F X O} {es : List (CxExpr F X O)}
    (he : Settles l fun i => cFullyFoldInternal P fo (calls i) e)
    (hes : Settles l fun i => foldArguments P fo (calls i) es) :
    Settles l fun i => foldArguments P fo (calls i) (e :: es) := by
  simp only [foldArguments]
  refine he.bind fun e' _ => ?_
  cases hconst : e'.constant with
  | none => exact settles_some _
  | some v => exact hes.bind fun values _ => settles_some _

mutual
theorem fold_settles {env : CxEnv X} {p : F → List (CxExpr F X O) → Prop}
    (hp : ∀ f args vs, p f args →
      SettlesTo l (fun i => foldArguments P fo (calls i) (substituteAll env args)) (some vs) →
      Settles l fun i => calls i f vs) :
    ∀ e : CxExpr F X O, P.EveryCall p e →
      Settles l fun i => cFullyFoldInternal P fo (calls i) (CxExpr.substitute env e)
  | .const v, _ => by
      simp only [CxExpr.substitute, cFullyFoldInternal]
      exact settles_some _
  | .var x, _ => by
      simp only [CxExpr.substitute]
      cases env x with
      | none =>
          simp only [cFullyFoldInternal]
          exact settles_some _
      | some v =>
          simp only [cFullyFoldInternal]
          exact settles_some _
  | .op o args, h => by
      simp only [CxExpr.substitute]
      exact op_settles o (foldAll_settles hp args h).1
  | .lazy k a b, h => by
      simp only [CxExpr.substitute]
      exact lazy_settles k (fun hk => fold_settles hp a (h.1 hk)) (fold_settles hp b h.2)
  | .cond c a b, h => by
      simp only [CxExpr.substitute]
      exact cond_settles (fold_settles hp c h.1) (fold_settles hp a h.2.1) (fold_settles hp b h.2.2)
  | .call f args, h => by
      simp only [CxExpr.substitute]
      rcases h with hfn | ⟨hpf, hargs⟩
      · simp only [cFullyFoldInternal, hfn]
        exact settles_some _
      · exact call_settles (foldAll_settles hp args hargs).2 fun vs => hp f args vs hpf
  | .assign x e, _ => by
      simp only [CxExpr.substitute]
      cases env x with
      | none =>
          simp only [cFullyFoldInternal]
          exact settles_some _
      | some v =>
          simp only [cFullyFoldInternal]
          exact settles_some _
  | .assignTo v e, _ => by
      simp only [CxExpr.substitute, cFullyFoldInternal]
      exact settles_some _

theorem foldAll_settles {env : CxEnv X} {p : F → List (CxExpr F X O) → Prop}
    (hp : ∀ f args vs, p f args →
      SettlesTo l (fun i => foldArguments P fo (calls i) (substituteAll env args)) (some vs) →
      Settles l fun i => calls i f vs) :
    ∀ es : List (CxExpr F X O), P.EveryCallIn p es →
      (Settles l fun i => foldOperands P fo (calls i) (substituteAll env es)) ∧
        Settles l fun i => foldArguments P fo (calls i) (substituteAll env es)
  | [], _ => by
      simp only [substituteAll, foldOperands, foldArguments]
      exact ⟨settles_some _, settles_some _⟩
  | e :: es, h => by
      have he := fold_settles hp e h.1
      obtain ⟨hops, hargs⟩ := foldAll_settles hp es h.2
      simp only [substituteAll]
      exact ⟨operands_settle he hops, arguments_settle he hargs⟩
end

end Folding

section Runs

/-- `c_fold_cx_exec` on one statement, with budgets for calls and for statements. -/
abbrev budgetedStatement (P : CxProgram F X O L) (fo : CxFold F X O)
    (body : List (CxStmt F X O L)) (env : CxEnv X) (s : CxStmt F X O L) :
    ℕ × ℕ → Option (CxControl X) := fun p =>
  cFoldCxStatement copied P fo (cFoldConstexprCall copied P fo p.1)
    (fun inner => cFoldCxExec copied P fo (cFoldConstexprCall copied P fo p.1) p.2 inner 0) body env s

/-- `c_fold_cx_exec` on a list. -/
abbrev budgetedExec (P : CxProgram F X O L) (fo : CxFold F X O) (body : List (CxStmt F X O L))
    (pc : Nat) (env : CxEnv X) : ℕ × ℕ → Option (CxResult X) := fun p =>
  cFoldCxExec copied P fo (cFoldConstexprCall copied P fo p.1) p.2 body pc env

/-- What is shown along a run that speculates on calls of `S`: the evaluator comes to an end on
what has been run. -/
def CxJudgement.Settled (P : CxProgram F X O L) (fo : CxFold F X O) : CxJudgement F X O L → Prop
  | .eval st e out => out ≠ none → e.writes = [] → ∀ env, Tracks P env st →
      Settles atTop fun n =>
        cFullyFoldInternal P fo (cFoldConstexprCall copied P fo n) (CxExpr.substitute env e)
  | .evals st es out => out ≠ none → exprsWrites es = [] → ∀ env, Tracks P env st →
      (Settles atTop fun n =>
        foldOperands P fo (cFoldConstexprCall copied P fo n) (substituteAll env es)) ∧
      Settles atTop fun n =>
        foldArguments P fo (cFoldConstexprCall copied P fo n) (substituteAll env es)
  | .stmt s entry st o _ => entry = none → o ≠ .undefined → s.labels.Nodup → ∀ env body,
      Tracks P env st → Settles atTop (budgetedStatement P fo body env s)
  | .exec body pc entry st o _ => (∀ l, entry = some l → body[pc]? = some (.label l)) →
      o ≠ .undefined → (listLabels body).Nodup → ∀ env, Tracks P env st →
      Settles atTop (budgetedExec P fo body pc env)

variable {P : CxProgram F X O L} {fo : CxFold F X O}

private theorem arguments_agree (hfo : FoldKeeps P fo) (hauto : ∀ x, P.isStatic x = false)
    (hint : ∀ x, P.stride x = 1) {n : Nat} {env : CxEnv X} {args : List (CxExpr F X O)}
    {st st' : CxStore X} {vs ws : List Int} (htracks : Tracks P env st)
    (hrun : Runs P .any (.evals st args (some (vs, st'))))
    (h : foldArguments P fo (cFoldConstexprCall copied P fo n) (substituteAll env args) =
      some (some ws)) : ws = vs := by
  have hsafe := safe_of_automatic hauto hint
  have hfrozen := frozen_of_automatic hauto
  obtain ⟨-, hsubst⟩ := foldArguments_values hsafe hfo (calls_sound hsafe hfo n) _ ws h
    (fun x _ => hfrozen x) st (initial_of_automatic hauto _)
  have hargs : Runs P .any (.evals st args (some (ws, st))) ∨
      Runs P .any (.evals st args none) := by
    rcases hsubst with hsubst | hsubst
    · exact substAll_refines hsafe args (fun x _ => hfrozen x) st htracks _ hsubst
    · exact .inr ((substAll_refines hsafe args (fun x _ => hfrozen x) st htracks _ hsubst).elim
        id id)
  rcases hargs with hargs | hargs
  · have hsame := runs_unique hrun _ hargs
    simp only [Option.some.injEq, Prod.mk.injEq] at hsame
    exact hsame.1
  · have hsame := runs_unique hrun _ hargs
    simp at hsame

private theorem speculated_settles (hfo : FoldKeeps P fo) (hauto : ∀ x, P.isStatic x = false)
    (hint : ∀ x, P.stride x = 1) {S : F → List Int → Prop}
    (hS : ∀ f vs, S f vs → Settles atTop fun n => cFoldConstexprCall copied P fo n f vs)
    {env : CxEnv X} {st : CxStore X} (htracks : Tracks P env st) {e : CxExpr F X O}
    (he : P.EveryCall (P.CallsOne S st) e) :
    Settles atTop fun n =>
      cFullyFoldInternal P fo (cFoldConstexprCall copied P fo n) (CxExpr.substitute env e) := by
  refine fold_settles ?_ e he
  rintro f args ws ⟨vs, st', hrun, hcall⟩ hargs
  obtain ⟨n, hn⟩ := Eventually.exists hargs
  obtain rfl := arguments_agree hfo hauto hint htracks hrun hn
  exact hS f ws hcall

private theorem callFree_settles {env : CxEnv X} {e : CxExpr F X O} (he : P.CallFree e) :
    Settles atTop fun n =>
      cFullyFoldInternal P fo (cFoldConstexprCall copied P fo n) (CxExpr.substitute env e) :=
  fold_settles (fun _ _ _ h => h.elim) e he

private theorem declared_settles {x : X} {xs : List X} {env : CxEnv X} {e : CxExpr F X O}
    (hx : P.declInitial x = some e)
    (he : Settles atTop fun n =>
      cFullyFoldInternal P fo (cFoldConstexprCall copied P fo n) (CxExpr.substitute env e))
    (hxs : ∀ v, SettlesTo atTop (fun n => cFoldCxEval copied P fo
      (cFoldConstexprCall copied P fo n) env e)
      (some v) → Settles atTop fun n =>
        declareAll copied P fo (cFoldConstexprCall copied P fo n) xs
          (Function.update env x (some v))) :
    Settles atTop fun n => declareAll copied P fo (cFoldConstexprCall copied P fo n) (x :: xs)
      env := by
  simp only [declareAll, hx]
  refine Settles.bind (he.map CxExpr.constant) fun value hvalue => ?_
  cases value with
  | none => exact settles_some _
  | some v => exact hxs v hvalue

private theorem declareAll_callFree (vars : List X) (env : CxEnv X)
    (h : ∀ x ∈ vars, ∀ e, P.declInitial x = some e → P.CallFree e) :
    Settles atTop fun n => declareAll copied P fo (cFoldConstexprCall copied P fo n) vars env := by
  induction vars generalizing env with
  | nil =>
      simp only [declareAll]
      exact settles_some _
  | cons x xs ih =>
      have hxs := fun env => ih env fun y hy => h y (List.mem_cons_of_mem _ hy)
      cases hx : P.declInitial x with
      | none =>
          simp only [declareAll, hx]
          exact hxs env
      | some e =>
          exact declared_settles hx (callFree_settles (h x List.mem_cons_self e hx))
            fun v _ => hxs _

private theorem declareAll_settles (hfo : FoldKeeps P fo) (hauto : ∀ x, P.isStatic x = false)
    (hint : ∀ x, P.stride x = 1) {S : F → List Int → Prop}
    (hS : ∀ f vs, S f vs → Settles atTop fun n => cFoldConstexprCall copied P fo n f vs)
    (vars : List X) (env : CxEnv X) (st : CxStore X) (htracks : Tracks P env st)
    (h : P.Opens S st vars) :
    Settles atTop fun n => declareAll copied P fo (cFoldConstexprCall copied P fo n) vars env := by
  have hsafe := safe_of_automatic hauto hint
  induction vars generalizing env st with
  | nil =>
      simp only [declareAll]
      exact settles_some _
  | cons x xs ih =>
      rw [CxProgram.Opens] at h
      rcases h with hfree | h
      · exact declareAll_callFree _ env hfree
      · cases hx : P.declInitial x with
        | none =>
            simp only [hx] at h
            simp only [declareAll, hx]
            exact ih env st htracks h
        | some e =>
            simp only [hx] at h
            obtain ⟨he, v, st', hrun, hxs⟩ := h
            refine declared_settles hx (speculated_settles hfo hauto hint hS htracks he) ?_
            intro w hw
            obtain ⟨n, hn⟩ := Eventually.exists hw
            -- the constant found for the initializer is its value on entry
            have hwv : w = v := by
              rcases eval_sound hsafe hfo (calls_sound hsafe hfo n) hn
                (fun y _ => frozen_of_automatic hauto y) htracks (initial_of_automatic hauto _)
                with hw | hw
              · have hsame := runs_unique hrun _ hw
                simp only [Option.some.injEq, Prod.mk.injEq] at hsame
                exact hsame.1
              · have hsame := runs_unique hrun _ hw
                simp at hsame
            subst hwv
            exact ih _ _ (tracks_write htracks (hauto x) w) hxs

private theorem tracks_after (hsafe : P.Safe) {pol : CxPolicy F X O} {env : CxEnv X}
    {e : CxExpr F X O} {st st' : CxStore X} {v : Int}
    (hrun : Runs P pol (.eval st e (some (v, st')))) (hw : e.writes = [])
    (htracks : Tracks P env st) : Tracks P env st' := by
  have hkept := runs_keeps hsafe hrun _ _ rfl
  rw [hw] at hkept
  exact tracks_kept htracks hkept (fun x hx => absurd hx List.not_mem_nil)
    fun x hx => absurd hx List.not_mem_nil

private theorem whole_settles {S : F → List Int → Prop} {e : CxExpr F X O} {st : CxStore X}
    {r : Int × CxStore X} (hwhole : (P.speculates S).whole st e)
    (he : (CxJudgement.eval st e (some r) : CxJudgement F X O L).Settled P fo) {env : CxEnv X}
    (htracks : Tracks P env st) :
    Settles atTop fun n =>
      cFullyFoldInternal P fo (cFoldConstexprCall copied P fo n) (CxExpr.substitute env e) := by
  rcases hwhole with hfree | hw
  · exact callFree_settles hfree
  · exact he (Option.some_ne_none r) hw env htracks

private theorem withValue_settles {env : CxEnv X} {e : CxExpr F X O}
    (he : Settles atTop fun n =>
      cFullyFoldInternal P fo (cFoldConstexprCall copied P fo n) (CxExpr.substitute env e))
    (go : Int → CxControl X) :
    Settles atTop fun p : ℕ × ℕ => withValue copied P fo (cFoldConstexprCall copied P fo p.1) env
      e go := by
  exact ((he.map CxExpr.constant).comp tendsto_fst_atTop).map _

private theorem control_agrees (hfo : FoldKeeps P fo) (hauto : ∀ x, P.isStatic x = false)
    (hint : ∀ x, P.stride x = 1) {body : List (CxStmt F X O L)} {s : CxStmt F X O L}
    (hlabels : s.labels.Nodup) {env : CxEnv X} {c : CxControl X}
    (hc : SettlesTo atTop (budgetedStatement P fo body env s) c)
    {st : CxStore X} (htracks : Tracks P env st) : c.Sound P body s st := by
  have hsafe := safe_of_automatic hauto hint
  obtain ⟨⟨n, m⟩, hn⟩ := Eventually.exists hc
  refine statement_sound hsafe hfo (calls_sound hsafe hfo n) ?_ hlabels
    (fun x _ => frozen_of_automatic hauto x) (fun x _ => hint x) hn htracks
    (initial_of_automatic hauto _)
  intro inner env' r st' hr hinner htracks' hinit
  exact exec_sound hsafe hfo (calls_sound hsafe hfo n) m inner 0 env' r hr hinner none
    (fun l hl => by simp at hl) st' htracks' hinit

theorem exec_settlesTo {body : List (CxStmt F X O L)} {pc : Nat} {s : CxStmt F X O L}
    (hpc : body[pc]? = some s) {env : CxEnv X} {c : CxControl X} {r : CxResult X}
    (hc : SettlesTo atTop (budgetedStatement P fo body env s) c)
    (hrest : match c with
      | .goOn env' => SettlesTo atTop (budgetedExec P fo body (pc + 1) env') r
      | .goTo i env' => SettlesTo atTop (budgetedExec P fo body i env') r
      | .stop r' => r' = r) :
    SettlesTo atTop (budgetedExec P fo body pc env) r := by
  refine SettlesTo.of_spend ?_
  unfold budgetedExec
  simp only [exec_copied, hpc]
  cases c with
  | goOn env' =>
      filter_upwards [hc, hrest] with p hp hpr
      simp only [budgetedStatement] at hp
      rw [hp]
      exact hpr
  | goTo i env' =>
      filter_upwards [hc, hrest] with p hp hpr
      simp only [budgetedStatement] at hp
      rw [hp]
      exact hpr
  | stop r' =>
      obtain rfl : r' = r := hrest
      filter_upwards [hc] with p hp
      simp only [budgetedStatement] at hp
      rw [hp]

private theorem exec_settles {body : List (CxStmt F X O L)} {pc : Nat} {s : CxStmt F X O L}
    (hpc : body[pc]? = some s) {env : CxEnv X}
    (hs : Settles atTop (budgetedStatement P fo body env s))
    (hrest : ∀ c, SettlesTo atTop (budgetedStatement P fo body env s) c →
      match c with
      | .goOn env' => Settles atTop (budgetedExec P fo body (pc + 1) env')
      | .goTo i env' => Settles atTop (budgetedExec P fo body i env')
      | .stop _ => True) :
    Settles atTop (budgetedExec P fo body pc env) := by
  obtain ⟨c, hc⟩ := hs
  have hnext := hrest c hc
  cases c with
  | goOn env' =>
      obtain ⟨r, hr⟩ := hnext
      exact ⟨r, exec_settlesTo hpc hc hr⟩
  | goTo i env' =>
      obtain ⟨r, hr⟩ := hnext
      exact ⟨r, exec_settlesTo hpc hc hr⟩
  | stop r => exact ⟨r, exec_settlesTo hpc hc rfl⟩

/-- The result of `c_fold_constexpr_call`: only a returned value counts. -/
def CxResult.value : CxResult X → Option Int
  | .returned v => some v
  | _ => none

/-- The evaluation of a body that settles makes the call settle. -/
theorem constexprCall_settlesTo {f : F} {fn : CxFunction F X O L} (hfn : P.fns f = some fn)
    {vs : List Int} (hlen : vs.length = fn.params.length) {r : CxResult X}
    (hbody : SettlesTo atTop (budgetedExec P fo fn.body 0 (CxProgram.bindParams fn.params vs)) r) :
    SettlesTo atTop (fun n => cFoldConstexprCall copied P fo n f vs) r.value := by
  refine (hbody.map CxResult.value).of_diagonal fun n => ?_
  rw [call_copied]
  simp only [hfn, if_pos hlen, budgetedExec]
  cases cFoldCxExec copied P fo (cFoldConstexprCall copied P fo n) n fn.body 0
    (CxProgram.bindParams fn.params vs) with
  | none => rfl
  | some r => cases r <;> rfl

private theorem plain_settles (hauto : ∀ x, P.isStatic x = false) {s : CxStmt F X O L}
    {st st' : CxStore X} {o : CxOutcome L} (he : P.evaluates s = none)
    (hs : P.plain st s = some (o, st')) (env : CxEnv X) (body : List (CxStmt F X O L)) :
    Settles atTop (budgetedStatement P fo body env s) := by
  cases s with
  | decl x =>
      have hx : P.declInitial x = none := by simpa [CxProgram.evaluates, hauto x] using he
      unfold budgetedStatement
      simp only [cFoldCxStatement, hx]
      exact settles_some _
  | step x inc =>
      unfold budgetedStatement
      simp only [cFoldCxStatement]
      cases env x with
      | none => exact settles_some _
      | some v =>
          simp only
          cases fo.foldAdd x v (if inc = true then 1 else -1) with
          | none => exact settles_some _
          | some w => exact settles_some _
  | ret e =>
      cases e with
      | none =>
          unfold budgetedStatement
          simp only [cFoldCxStatement]
          exact settles_some _
      | some e => simp [CxProgram.evaluates] at he
  | label | goto | other =>
      unfold budgetedStatement
      simp only [cFoldCxStatement]
      exact settles_some _
  | cond | modify | modifyResult => simp [CxProgram.evaluates] at he
  | bind | list | debugBegin => simp [CxProgram.plain] at hs

private theorem expr_settles (hauto : ∀ x, P.isStatic x = false) {s : CxStmt F X O L}
    {st st' : CxStore X} {o : CxOutcome L} {e : CxExpr F X O} {v : Int}
    (he : P.evaluates s = some e) (hs : P.complete st v s = some (o, st')) {env : CxEnv X}
    (hfold : Settles atTop fun n =>
      cFullyFoldInternal P fo (cFoldConstexprCall copied P fo n) (CxExpr.substitute env e))
    (body : List (CxStmt F X O L)) :
    Settles atTop (budgetedStatement P fo body env s) := by
  cases s with
  | decl x =>
      have hx : P.declInitial x = some e := by simpa [CxProgram.evaluates, hauto x] using he
      unfold budgetedStatement
      simp only [cFoldCxStatement, hx]
      exact withValue_settles hfold _
  | modify | modifyResult =>
      obtain rfl := Option.some.inj he
      exact withValue_settles hfold _
  | ret e' =>
      obtain rfl : e' = some e := he
      exact withValue_settles hfold _
  | _ => simp [CxProgram.complete] at hs

theorem runs_first {pol : CxPolicy F X O} {s : CxStmt F X O L} {entry : Option L}
    {st st' : CxStore X} {o : CxOutcome L} (hentry : ∀ l, entry = some l → s = .label l) :
    Runs P pol (.stmt s entry st o st') ↔ Runs P pol (.stmt s none st o st') := by
  cases entry with
  | none => exact Iff.rfl
  | some l =>
      obtain rfl := hentry l rfl
      constructor
      · intro h
        cases h
        exact .plain rfl rfl
      · intro h
        cases h with
        | plain _ hs =>
            obtain ⟨rfl, rfl⟩ := Prod.mk.inj (Option.some.inj hs)
            exact .labelled l st
        | exprUndefined he => simp [CxProgram.evaluates] at he
        | expr he => simp [CxProgram.evaluates] at he

private theorem first_settles {s : CxStmt F X O L} {entry : Option L} {st st' : CxStore X}
    {o : CxOutcome L} (hentry : ∀ l, entry = some l → s = .label l)
    (hs : (CxJudgement.stmt s entry st o st' : CxJudgement F X O L).Settled P fo)
    (ho : o ≠ .undefined) (hlabels : s.labels.Nodup) {env : CxEnv X}
    (htracks : Tracks P env st) (body : List (CxStmt F X O L)) :
    Settles atTop (budgetedStatement P fo body env s) := by
  cases entry with
  | none => exact hs rfl ho hlabels env body htracks
  | some l =>
      obtain rfl := hentry l rfl
      unfold budgetedStatement
      simp only [cFoldCxStatement]
      exact settles_some _

private theorem continued_settles (hfo : FoldKeeps P fo) (hauto : ∀ x, P.isStatic x = false)
    (hint : ∀ x, P.stride x = 1) {pol : CxPolicy F X O} {body : List (CxStmt F X O L)} {pc : Nat}
    {entry : Option L} {s : CxStmt F X O L} {st st₁ : CxStore X} {o : CxOutcome L}
    (hpc : body[pc]? = some s) (hrun : Runs P pol (.stmt s entry st o st₁))
    (ih : (CxJudgement.stmt s entry st o st₁ : CxJudgement F X O L).Settled P fo)
    (ho : o ≠ .undefined) (hentry : ∀ l, entry = some l → body[pc]? = some (.label l))
    (hlabels : (listLabels body).Nodup) {env : CxEnv X} (htracks : Tracks P env st)
    (hfinished : o = .finished → ∀ env', Tracks P env' st₁ →
      Settles atTop (budgetedExec P fo body (pc + 1) env'))
    (hjump : ∀ l i, o = .jump l → body[i]? = some (.label l) → resumeAt body l = some i →
      ∀ env', Tracks P env' st₁ → Settles atTop (budgetedExec P fo body i env')) :
    Settles atTop (budgetedExec P fo body pc env) := by
  have hs : ∀ l, entry = some l → s = .label l :=
    fun l hl => Option.some.inj (hpc.symm.trans (hentry l hl))
  have hnodup := labels_nodup_of_mem hlabels (List.mem_of_getElem? hpc)
  refine exec_settles hpc (first_settles hs ih ho hnodup htracks body) ?_
  intro c hc
  have hsound := control_agrees hfo hauto hint hnodup hc htracks
  have hunique := runs_unique ((runs_first hs).mp hrun).any
  cases c with
  | goOn env' =>
      rcases hsound with ⟨st', hrun', -, htracks'⟩ | ⟨st', hrun'⟩
      · obtain ⟨ho', rfl⟩ := hunique _ _ hrun'
        exact hfinished ho'.symm env' htracks'
      · exact absurd (hunique _ _ hrun').1.symm ho
  | goTo i env' =>
      rcases hsound with ⟨l, st', hrun', -, hindex, htracks'⟩ | ⟨st', hrun'⟩
      · obtain ⟨ho', rfl⟩ := hunique _ _ hrun'
        obtain ⟨hlabel, hresume⟩ := labelIndex_resume hlabels hindex
        exact hjump l i ho'.symm hlabel hresume env' htracks'
      · exact absurd (hunique _ _ hrun').1.symm ho
  | stop r => trivial

/-- Along every run that ends without undefined behaviour and speculates only on calls on which
the evaluator ends, the evaluator ends. -/
theorem run_settles (hfo : FoldKeeps P fo) (hauto : ∀ x, P.isStatic x = false)
    (hint : ∀ x, P.stride x = 1) {S : F → List Int → Prop}
    (hS : ∀ f vs, S f vs → Settles atTop fun n => cFoldConstexprCall copied P fo n f vs)
    {J : CxJudgement F X O L} (h : Runs P (P.speculates S) J) : J.Settled P fo := by
  have hsafe := safe_of_automatic hauto hint
  induction h with
  | const st v =>
      intro _ _ env _
      simp only [CxExpr.substitute, cFullyFoldInternal]
      exact settles_some _
  | var st x =>
      intro _ _ env _
      exact callFree_settles trivial
  | op o _ ih =>
      intro _ hw env htracks
      simp only [CxExpr.substitute]
      exact op_settles o (ih (Option.some_ne_none _) hw env htracks).1
  | lazySkip k hrun _ hskip ih =>
      intro _ hw env htracks
      obtain ⟨hwa, -⟩ := List.append_eq_nil_iff.mp hw
      simp only [CxExpr.substitute]
      exact lazy_settles k (fun _ => ih (Option.some_ne_none _) hwa env htracks)
        (speculated_settles hfo hauto hint hS (tracks_after hsafe hrun hwa htracks) hskip)
  | lazyBoth k hrun _ _ iha ihb =>
      intro hout hw env htracks
      obtain ⟨hwa, hwb⟩ := List.append_eq_nil_iff.mp hw
      simp only [CxExpr.substitute]
      exact lazy_settles k (fun _ => iha (Option.some_ne_none _) hwa env htracks)
        (ihb (by simpa using hout) hwb env (tracks_after hsafe hrun hwa htracks))
  | condThen hrun _ hskip _ ihc iha =>
      intro hout hw env htracks
      obtain ⟨hwc, hw⟩ := List.append_eq_nil_iff.mp hw
      obtain ⟨hwa, -⟩ := List.append_eq_nil_iff.mp hw
      have htracks' := tracks_after hsafe hrun hwc htracks
      simp only [CxExpr.substitute]
      exact cond_settles (ihc (Option.some_ne_none _) hwc env htracks) (iha hout hwa env htracks')
        (speculated_settles hfo hauto hint hS htracks' hskip)
  | condElse hrun _ hskip _ ihc ihb =>
      intro hout hw env htracks
      obtain ⟨hwc, hw⟩ := List.append_eq_nil_iff.mp hw
      obtain ⟨-, hwb⟩ := List.append_eq_nil_iff.mp hw
      have htracks' := tracks_after hsafe hrun hwc htracks
      simp only [CxExpr.substitute]
      exact cond_settles (ihc (Option.some_ne_none _) hwc env htracks)
        (speculated_settles hfo hauto hint hS htracks' hskip) (ihb hout hwb env htracks')
  | @call st st₁ st₂ f es vs fn o hargs hfn hlen _ ihs ihb =>
      intro hout hw env htracks
      have hbody := ihb (fun l hl => by simp at hl) (by rintro rfl; exact hout rfl)
        fn.labels_nodup _ (tracks_params hfn vs st₁.statics)
      simp only [CxExpr.substitute]
      refine call_settles (ihs (Option.some_ne_none _) hw env htracks).2 ?_
      intro ws hws
      obtain ⟨n, hn⟩ := Eventually.exists hws
      obtain rfl := arguments_agree hfo hauto hint htracks hargs.any hn
      obtain ⟨r, hr⟩ := hbody
      exact ⟨r.value, constexprCall_settlesTo hfn hlen hr⟩
  | nil st =>
      intro _ _ env _
      simp only [substituteAll, foldOperands, foldArguments]
      exact ⟨settles_some _, settles_some _⟩
  | cons hrun _ ihe ihs =>
      intro hout hw env htracks
      obtain ⟨hwe, hws⟩ := List.append_eq_nil_iff.mp hw
      have he := ihe (Option.some_ne_none _) hwe env htracks
      obtain ⟨hops, hargs⟩ := ihs (by simpa using hout) hws env
        (tracks_after hsafe hrun hwe htracks)
      simp only [substituteAll]
      exact ⟨operands_settle he hops, arguments_settle he hargs⟩
  | assign x _ _ =>
      intro _ hw
      simp [CxExpr.writes] at hw
  | opUndefined | lazyUndefined | condUndefined | callUndefined | assignUndefined
  | consUndefined => exact fun hout => absurd rfl hout
  | labelled l st => exact fun hentry => absurd hentry (Option.some_ne_none l)
  | @plain s st st' o he hs =>
      intro _ _ _ env body _
      exact plain_settles hauto he hs env body
  | marker st _ =>
      intro _ _ _ env body _
      unfold budgetedStatement
      simp only [cFoldCxStatement]
      exact settles_some _
  | exprUndefined _ _ _ => exact fun _ ho => absurd rfl ho
  | @expr s st st₁ st₂ e v o he hwhole _ hs ih =>
      intro _ _ _ env body htracks
      exact expr_settles hauto he hs (whole_settles hwhole ih htracks) body
  | condNoArm hwhole _ _ ih =>
      intro _ _ _ env body htracks
      exact withValue_settles (whole_settles hwhole ih htracks) _
  | condArm hwhole _ _ _ ihc _ =>
      intro _ _ _ env body htracks
      exact withValue_settles (whole_settles hwhole ihc htracks) _
  | intoThen | intoElse => exact fun hentry => absurd hentry (Option.some_ne_none _)
  | @bind vars inner entry pc st st' o hopen hpc _ ih =>
      intro hentry ho hlabels env body htracks
      subst hentry
      obtain rfl : 0 = pc := Option.some.inj hpc
      have hentered := tracks_entered htracks vars
      unfold budgetedStatement
      simp only [cFoldCxStatement]
      refine Settles.bind ((declareAll_settles hfo hauto hint hS vars env _ hentered hopen).comp
        tendsto_fst_atTop) ?_
      intro declared hdeclared
      cases declared with
      | none => exact settles_some _
      | some env' =>
          obtain ⟨⟨n, m⟩, hn⟩ := Eventually.exists hdeclared
          have htracks' : Tracks P env' (CxProgram.enterBlock st vars) :=
            declareAll_tracks vars env env' hn hentered (initial_of_automatic hauto _)
              fun x hx => by simp [CxProgram.enterBlock, hx]
          exact (ih (fun l hl => by simp at hl) ho hlabels env' htracks').bind
            fun r _ => settles_some _
  | @list inner entry pc st st' o hpc _ ih =>
      intro hentry ho hlabels env body htracks
      subst hentry
      obtain rfl : 0 = pc := Option.some.inj hpc
      unfold budgetedStatement
      simp only [cFoldCxStatement]
      exact (ih (fun l hl => by simp at hl) ho hlabels env htracks).bind fun r _ => settles_some _
  | done st hpc =>
      intro _ _ _ env _
      refine Settles.of_spend ?_
      unfold budgetedExec
      simp only [exec_copied, hpc]
      exact settles_some _
  | next hpc hrun _ ihs ihb =>
      intro hentry ho hlabels env htracks
      refine continued_settles hfo hauto hint hpc hrun ihs (by simp) hentry hlabels htracks ?_ ?_
      · exact fun _ env' htracks' => ihb (fun l hl => by simp at hl) ho hlabels env' htracks'
      · exact fun l i hjump => by simp at hjump
  | stop hpc hrun hstops ih =>
      intro hentry ho hlabels env htracks
      refine continued_settles hfo hauto hint hpc hrun ih ho hentry hlabels htracks ?_ ?_
      · rintro rfl
        simp [CxOutcome.stops] at hstops
      · rintro l i rfl
        simp [CxOutcome.stops] at hstops
  | jumpIn hpc hrun hl _ ihs ihb =>
      intro hentry ho hlabels env htracks
      refine continued_settles hfo hauto hint hpc hrun ihs (by simp) hentry hlabels htracks ?_ ?_
      · exact fun hfinished => by simp at hfinished
      · intro l' i' hjump hlabel hresume env' htracks'
        obtain rfl := CxOutcome.jump.inj hjump
        obtain rfl := Option.some.inj (hl.symm.trans hresume)
        refine ihb ?_ ho hlabels env' htracks'
        rintro l'' hl''
        exact Option.some.inj hl'' ▸ hlabel
  | jumpOut hpc hrun hl ih =>
      intro hentry ho hlabels env htracks
      refine continued_settles hfo hauto hint hpc hrun ih (by simp) hentry hlabels htracks ?_ ?_
      · exact fun hfinished => by simp at hfinished
      · intro l' i' hjump _ hresume
        obtain rfl := CxOutcome.jump.inj hjump
        simp [hl] at hresume

private theorem endsWithin_settles (hfo : FoldKeeps P fo) (hauto : ∀ x, P.isStatic x = false)
    (hint : ∀ x, P.stride x = 1) (k : Nat) (f : F) (vs : List Int) (h : P.EndsWithin k f vs) :
    Settles atTop fun n => cFoldConstexprCall copied P fo n f vs := by
  induction k generalizing f vs with
  | zero => exact h.elim
  | succ k ih =>
      obtain ⟨fn, statics, o, st, hfn, hlen, hrun, ho⟩ := h
      obtain ⟨r, hr⟩ := run_settles hfo hauto hint ih hrun (fun l hl => by simp at hl) ho
        fn.labels_nodup _ (tracks_params hfn vs statics)
      exact ⟨r.value, constexprCall_settlesTo hfn hlen hr⟩

end Runs

section Samples

/-- A function of one parameter, the variable 0, that returns the value of an expression. -/
def returning (e : CxExpr Bool Nat SampleOp) : CxFunction Bool Nat SampleOp Nat where
  params := [0]
  body := [.ret (some e)]
  labels_nodup := List.nodup_nil

/-- Two functions of one parameter. -/
def pairProgram (e e' : CxExpr Bool Nat SampleOp) : CxProgram Bool Nat SampleOp Nat where
  fns f := some (returning (if f then e else e'))
  declInitial _ := none
  isStatic _ := false
  stride _ := 1
  opValue := SampleOp.value
  addValue _ a b := some (a + b)
  params_auto _ _ _ _ _ := rfl
  static_const _ _ h := by simp at h

/-- `n + (n ?: 0)`. -/
def twiceValue : CxExpr Bool Nat SampleOp :=
  .op .plus [.var 0, .lazy (.omitted 0) (.var 0) (.const 0)]

/-- `twice (n)` is `n + (n ?: 0)`, and `pick (n)` is `n ? twice (twice (n)) : 0`. -/
def pickProgram : CxProgram Bool Nat SampleOp Nat :=
  pairProgram (.cond (.var 0) (.call false [.call false [.var 0]]) (.const 0)) twiceValue

private theorem returning_runs {P : CxProgram Bool Nat SampleOp Nat}
    {pol : CxPolicy Bool Nat SampleOp} {e : CxExpr Bool Nat SampleOp} {st : CxStore Nat} {v : Int}
    (hwhole : pol.whole st e) (h : Runs P pol (.eval st e (some (v, st)))) :
    Runs P pol (.exec (returning e).body 0 none st (.returned (some v)) st) :=
  .stop rfl (.expr rfl hwhole h rfl) rfl

private theorem runs_read {P : CxProgram Bool Nat SampleOp Nat} {pol : CxPolicy Bool Nat SampleOp}
    {st : CxStore Nat} {x : Nat} {v : Int} (h : P.read st x = some v) :
    Runs P pol (.eval st (.var x) (some (v, st))) := by
  have hvar : Runs P pol (.eval st (.var x) ((P.read st x).map (·, st))) := .var st x
  rw [h] at hvar
  exact hvar

private theorem twice_runs (S : Bool → List Int → Prop) (statics : Nat → Int) :
    Runs pickProgram (pickProgram.speculates S)
      (.exec (returning twiceValue).body 0 none ⟨CxProgram.bindParams [0] [0], statics⟩
        (.returned (some 0)) ⟨CxProgram.bindParams [0] [0], statics⟩) := by
  have hread : Runs pickProgram (pickProgram.speculates S)
      (.eval ⟨CxProgram.bindParams [0] [0], statics⟩ (.var 0)
        (some (0, ⟨CxProgram.bindParams [0] [0], statics⟩))) := runs_read rfl
  refine returning_runs (.inr rfl) ?_
  exact .op SampleOp.plus (.cons hread
    (.cons (.lazyBoth (.omitted 0) hread rfl (.const _ 0)) (.nil _)))

private theorem twice_ends : pickProgram.EndsWithin 1 false [0] :=
  ⟨_, fun _ => 0, _, _, rfl, rfl, twice_runs _ _, by simp⟩

private theorem pick_ends : pickProgram.Ends true [0] := by
  have hcall : ∀ (args : List (CxExpr Bool Nat SampleOp)) (st : CxStore Nat),
      Runs pickProgram .any (.evals st args (some ([0], st))) →
      Runs pickProgram .any (.evals st [.call false args] (some ([0], st))) := by
    intro args st hargs
    have hfn : pickProgram.fns false = some (returning twiceValue) := rfl
    have hbody := (twice_runs (fun _ _ => False) st.statics).any
    have hrun : Runs pickProgram .any (.eval st (.call false args) (some (0, st))) :=
      .call hargs hfn rfl hbody
    exact .cons hrun (.nil st)
  have hskip : ∀ st, pickProgram.read st 0 = some 0 →
      pickProgram.EveryCall (pickProgram.CallsOne (pickProgram.EndsWithin 1) st)
        (.call false [.call false [.var 0]]) := by
    intro st hread
    have hvar : Runs pickProgram .any (.evals st [.var 0] (some ([0], st))) :=
      .cons (runs_read hread) (.nil st)
    exact .inr ⟨⟨[0], st, hcall _ st hvar, twice_ends⟩,
      .inr ⟨⟨[0], st, hvar, twice_ends⟩, trivial, trivial⟩, trivial⟩
  have hrun : Runs pickProgram (pickProgram.speculates (pickProgram.EndsWithin 1))
      (.eval ⟨CxProgram.bindParams [0] [0], fun _ => 0⟩
        (.cond (.var 0) (.call false [.call false [.var 0]]) (.const 0))
        (some (0, ⟨CxProgram.bindParams [0] [0], fun _ => 0⟩))) :=
    .condElse (runs_read rfl) rfl (hskip _ rfl) (.const _ 0)
  exact ⟨2, _, fun _ => 0, _, _, rfl, rfl, returning_runs (.inr rfl) hrun, by simp⟩

private theorem pick_steady (n : Nat) : Steady []
    ((cFoldConstexprCall cFoldCxSubst pickProgram (constantFold pickProgram) n true [0]).on
      []).2 := by
  match n with
  | 0 | 1 | 2 => decide +kernel
  | n + 3 =>
      have hrun : ((cFoldConstexprCall cFoldCxSubst pickProgram (constantFold pickProgram) (n + 3)
          true [0]).on []).2 = [⟨0, .var 0, CxProgram.bindParams [0] [0]⟩,
            ⟨0, .var 0, CxProgram.bindParams [0] [0]⟩] := rfl
      rw [hrun]
      decide +kernel

/-- `fact (n)` is `n <= 1 ? 1 : n * fact (n - 1)`. -/
def factValue : CxExpr Bool Nat SampleOp :=
  .cond (.op .le [.var 0, .const 1]) (.const 1)
    (.op .mult [.var 0, .call true [.op .minus [.var 0, .const 1]]])

/-- `all (n)` is `n && all (n - 1)`. -/
def allValue : CxExpr Bool Nat SampleOp :=
  .lazy .truthAndif (.var 0) (.call false [.op .minus [.var 0, .const 1]])

def guardProgram : CxProgram Bool Nat SampleOp Nat := pairProgram factValue allValue

/-- The evaluation gives up before any walk over a `SAVE_EXPR`. -/
def Endless {α : Type} (m : CxEvaluation Bool Nat SampleOp α) : Prop :=
  ∀ before, m.on before = (none, before)

private theorem Endless.bind {α β : Type} {m : CxEvaluation Bool Nat SampleOp α} (h : Endless m)
    (k : α → CxEvaluation Bool Nat SampleOp β) : Endless (m >>= k) := by
  intro before
  rw [on_bind, h before]

private theorem Endless.map {α β : Type} {m : CxEvaluation Bool Nat SampleOp α} (h : Endless m)
    (f : α → β) : Endless (f <$> m) := by
  rw [map_eq_pure_bind]
  exact h.bind _

section Guards

variable {P : CxProgram Bool Nat SampleOp Nat} {fo : CxFold Bool Nat SampleOp}
  {calls : CxCalls (CxEvaluation Bool Nat SampleOp) Bool}

private theorem guard_folds (f : Bool) (v : Int) (h : Endless (calls f [v - 1])) :
    Endless (cFullyFoldInternal guardProgram (constantFold guardProgram) calls
      (.call f [.op .minus [.const v, .const 1]])) := by
  have hargs : foldArguments guardProgram (constantFold guardProgram) calls
      [.op .minus [.const v, .const 1]] = pure (some [v - 1]) := rfl
  obtain ⟨e, hfns⟩ : ∃ e, guardProgram.fns f = some (returning e) := ⟨_, rfl⟩
  rw [cFullyFoldInternal, hfns]
  simp only [returning, List.length_singleton, if_true, hargs]
  exact h.bind _

private theorem returning_endless {f : Bool} {e : CxExpr Bool Nat SampleOp}
    (hfn : P.fns f = some (returning e)) {v : Int} {n : Nat}
    (he : Endless (cFoldCxEval cFoldCxSubst P fo (cFoldConstexprCall cFoldCxSubst P fo n)
      (CxProgram.bindParams [0] [v]) e)) :
    Endless (cFoldConstexprCall cFoldCxSubst P fo (n + 1) f [v]) := by
  rw [cFoldConstexprCall, hfn]
  cases n with
  | zero => exact fun before => rfl
  | succ n => exact ((he.map _).bind _).bind _

private theorem eval_endless {env : CxEnv Nat} {e : CxExpr Bool Nat SampleOp}
    (hwalks : e.walks env = [])
    (he : ∀ walks, Endless (cFullyFoldInternal P fo calls (e.substituteSaved walks env))) :
    Endless (cFoldCxEval cFoldCxSubst P fo calls env e) := by
  intro before
  have hsubst : (cFoldCxSubst env e).on before =
      (some (e.substituteSaved (before ++ e.walks env) env), before ++ e.walks env) := rfl
  rw [hwalks, List.append_nil] at hsubst
  rw [cFoldCxEval, on_bind, hsubst]
  exact (he before).map _ before

private theorem mult_endless {b : CxExpr Bool Nat SampleOp}
    (hb : Endless (cFullyFoldInternal P fo calls b)) (v : Int) :
    Endless (cFullyFoldInternal P fo calls (.op .mult [.const v, b])) := by
  simp only [cFullyFoldInternal, foldOperands, bind_assoc]
  exact hb.bind _

end Guards

private theorem guard_endless (n : Nat) (f : Bool) (v : Int) :
    Endless (cFoldConstexprCall cFoldCxSubst guardProgram (constantFold guardProgram) n f [v]) := by
  induction n generalizing v with
  | zero => exact fun before => rfl
  | succ n ih =>
      have hcall := guard_folds f v (ih (v - 1))
      cases f with
      | true =>
          have hfn : guardProgram.fns true = some (returning factValue) := rfl
          refine returning_endless hfn (eval_endless rfl fun walks => ?_)
          exact (mult_endless hcall v).bind _
      | false =>
          have hfn : guardProgram.fns false = some (returning allValue) := rfl
          exact returning_endless hfn (eval_endless rfl fun walks => hcall.bind _)

end Samples

end CZet
