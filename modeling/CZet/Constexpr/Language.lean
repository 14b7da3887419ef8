/- source: src/gcc/gcc/c/c-fold.cc (the trees read by c_fold_cx_exec, c_fold_cx_eval and
     c_fully_fold_internal)
   digest: The bodies of constexpr functions and what C makes them do at run time. -/

import Mathlib.Data.List.Basic
import Mathlib.Logic.Function.Basic

set_option autoImplicit false
set_option relaxedAutoImplicit false

namespace CZet

/-- `TRUTH_ANDIF_EXPR`, `TRUTH_ORIF_EXPR`, and the `COND_EXPR` of `a ?: b`, whose first operand
is the contents of a `SAVE_EXPR`; `save` tells which. -/
inductive LazyOp
  | truthAndif
  | truthOrif
  | omitted (save : Nat)
  deriving DecidableEq, Repr

/-- Whether the first operand alone gives the result. -/
def LazyOp.decided : LazyOp → Int → Bool
  | .truthAndif, v => decide (v = 0)
  | .truthOrif, v => decide (v ≠ 0)
  | .omitted _, v => decide (v ≠ 0)

def LazyOp.decidedValue : LazyOp → Int → Int
  | .truthAndif, _ => 0
  | .truthOrif, _ => 1
  | .omitted _, v => v

def truthValue (v : Int) : Int := if v = 0 then 0 else 1

/-- The result when the second operand is evaluated. -/
def LazyOp.secondValue : LazyOp → Int → Int
  | .truthAndif, w => truthValue w
  | .truthOrif, w => truthValue w
  | .omitted _, w => w

/-- The `SAVE_EXPR` that holds the first operand. -/
def LazyOp.save : LazyOp → Option Nat
  | .omitted save => some save
  | _ => none

/-- Integer expressions over functions `F`, variables `X` and strict operators `O`.  `assign` is
a `MODIFY_EXPR` inside an expression; in `assignTo` its variable has been replaced by a constant. -/
inductive CxExpr (F X O : Type)
  | const (v : Int)
  | var (x : X)
  | op (o : O) (args : List (CxExpr F X O))
  | lazy (k : LazyOp) (a b : CxExpr F X O)
  | cond (c a b : CxExpr F X O)
  | call (f : F) (args : List (CxExpr F X O))
  | assign (x : X) (e : CxExpr F X O)
  | assignTo (v : Int) (e : CxExpr F X O)

/-- The statements of a body, over labels `L`.  A body that is no `STATEMENT_LIST` is a list of
one statement; a missing arm of a `COND_EXPR` is `none`.  `other` stands for everything that
`c_fold_cx_exec` does not interpret. -/
inductive CxStmt (F X O L : Type)
  | label (l : L)
  | goto (l : L)
  | cond (c : CxExpr F X O) (thn els : Option (CxStmt F X O L))
  | decl (x : X)
  | modify (x : X) (e : CxExpr F X O)
  | modifyResult (e : CxExpr F X O)
  | step (x : X) (inc : Bool)
  | bind (vars : List X) (body : List (CxStmt F X O L))
  | list (body : List (CxStmt F X O L))
  | ret (e : Option (CxExpr F X O))
  | debugBegin
  | other (effect : (X → Option Int) → Option (X → Option Int))

section Labels

variable {F X O L : Type}

mutual
/-- The labels that a jump can find in a statement. -/
def CxStmt.labels : CxStmt F X O L → List L
  | .label l => [l]
  | .cond _ thn els => optionLabels thn ++ optionLabels els
  | .bind _ body => listLabels body
  | .list body => listLabels body
  | _ => []

def optionLabels : Option (CxStmt F X O L) → List L
  | none => []
  | some s => s.labels

def listLabels : List (CxStmt F X O L) → List L
  | [] => []
  | s :: rest => s.labels ++ listLabels rest
end

variable [DecidableEq L]

/-- The statement of a list that a jump to `l` goes to or into. -/
def resumeAt (body : List (CxStmt F X O L)) (l : L) : Option Nat :=
  body.findIdx? fun s => decide (l ∈ s.labels)

/-- Where a list is entered: at its beginning, or by a jump to a label in it. -/
def entryPoint (body : List (CxStmt F X O L)) : Option L → Option Nat
  | none => some 0
  | some l => resumeAt body l

end Labels

/-- A constexpr function whose body is available; its labels are distinct. -/
structure CxFunction (F X O L : Type) where
  params : List X
  body : List (CxStmt F X O L)
  labels_nodup : (listLabels body).Nodup

/-- The declarations of a program and the arithmetic of the target.  `stride x` is what `x++`
adds at run time: one, or the element size for a pointer.  An operation without a value has
undefined behaviour. -/
structure CxProgram (F X O L : Type) where
  fns : F → Option (CxFunction F X O L)
  declInitial : X → Option (CxExpr F X O)
  isStatic : X → Bool
  stride : X → Int
  opValue : O → List Int → Option Int
  addValue : X → Int → Int → Option Int
  /-- Parameters are automatic. -/
  params_auto : ∀ f fn, fns f = some fn → ∀ x ∈ fn.params, isStatic x = false
  /-- The initializer of a static variable is a constant. -/
  static_const : ∀ x e, isStatic x = true → declInitial x = some e → ∃ v, e = .const v

/-- The variables of a call, indeterminate ones without a value, and the static variables. -/
structure CxStore (X : Type) where
  frame : X → Option Int
  statics : X → Int

/-- How a statement ends; a function that ends without a value returns `none`. -/
inductive CxOutcome (L : Type)
  | finished
  | returned (v : Option Int)
  | jump (l : L)
  | undefined
  deriving DecidableEq, Repr

def CxOutcome.stops {L : Type} : CxOutcome L → Bool
  | .returned _ | .undefined => true
  | .finished | .jump _ => false

variable {F X O L : Type} [DecidableEq X] [DecidableEq L]

namespace CxProgram

variable (P : CxProgram F X O L)

def read (st : CxStore X) (x : X) : Option Int :=
  if P.isStatic x then some (st.statics x) else st.frame x

def write (st : CxStore X) (x : X) (v : Int) : CxStore X :=
  if P.isStatic x then { st with statics := Function.update st.statics x v }
  else { st with frame := Function.update st.frame x (some v) }

/-- A new call: the parameters have the values of the arguments. -/
def bindParams (params : List X) (vs : List Int) : X → Option Int :=
  (params.zip vs).foldl (fun fr p => Function.update fr p.1 (some p.2)) fun _ => none

/-- A new block: its variables are indeterminate. -/
def enterBlock (st : CxStore X) (vars : List X) : CxStore X :=
  { st with frame := fun x => if x ∈ vars then none else st.frame x }

/-- The expression that a statement evaluates. -/
def evaluates : CxStmt F X O L → Option (CxExpr F X O)
  | .cond c _ _ => some c
  | .decl x => if P.isStatic x then none else P.declInitial x
  | .modify _ e => some e
  | .modifyResult e => some e
  | .ret e => e
  | _ => none

/-- What a statement does with the value of its expression; the arms of a `COND_EXPR` are
executed apart. -/
def complete (st : CxStore X) (v : Int) : CxStmt F X O L → Option (CxOutcome L × CxStore X)
  | .decl x => some (.finished, P.write st x v)
  | .modify x _ => some (.finished, P.write st x v)
  | .modifyResult _ => some (.finished, st)
  | .ret _ => some (.returned (some v), st)
  | _ => none

/-- The statements that evaluate no expression and do not jump. -/
def plain (st : CxStore X) : CxStmt F X O L → Option (CxOutcome L × CxStore X)
  | .label _ => some (.finished, st)
  | .goto l => some (.jump l, st)
  | .decl x =>
      if P.isStatic x then some (.finished, st)
      else some (.finished, { st with frame := Function.update st.frame x none })
  | .step x inc =>
      match P.read st x with
      | none => some (.undefined, st)
      | some v =>
          match P.addValue x v (if inc then P.stride x else -P.stride x) with
          | none => some (.undefined, st)
          | some w => some (.finished, P.write st x w)
  | .ret none => some (.returned none, st)
  | .other effect =>
      match effect st.frame with
      | none => some (.undefined, st)
      | some fr => some (.finished, { st with frame := fr })
  | _ => none

/-- The value of a call whose body ended so: using the value of a call without one is undefined. -/
def callResult (caller callee : CxStore X) : CxOutcome L → Option (Int × CxStore X)
  | .returned (some v) => some (v, { caller with statics := callee.statics })
  | _ => none

end CxProgram

/-- Conditions on a run: on the operands that are not evaluated, on the expressions that
statements evaluate, on the blocks that are entered, and on debug markers. -/
structure CxPolicy (F X O : Type) where
  skipped : CxStore X → CxExpr F X O → Prop
  whole : CxStore X → CxExpr F X O → Prop
  entered : CxStore X → List X → Prop
  marker : Prop

/-- Every run. -/
def CxPolicy.any : CxPolicy F X O := ⟨fun _ _ => True, fun _ _ => True, fun _ _ => True, True⟩

/-- What is said of a run: the value of an expression with the store behind it, of a list of
arguments, and the end of a statement or of a list entered at an index; `none` is undefined
behaviour. -/
inductive CxJudgement (F X O L : Type)
  | eval (st : CxStore X) (e : CxExpr F X O) (out : Option (Int × CxStore X))
  | evals (st : CxStore X) (es : List (CxExpr F X O)) (out : Option (List Int × CxStore X))
  | stmt (s : CxStmt F X O L) (entry : Option L) (st : CxStore X) (o : CxOutcome L)
      (st' : CxStore X)
  | exec (body : List (CxStmt F X O L)) (pc : Nat) (entry : Option L) (st : CxStore X)
      (o : CxOutcome L) (st' : CxStore X)

/-- The run-time behaviour of constexpr functions. -/
inductive Runs (P : CxProgram F X O L) (pol : CxPolicy F X O) : CxJudgement F X O L → Prop
  | const (st : CxStore X) (v : Int) : Runs P pol (.eval st (.const v) (some (v, st)))
  | var (st : CxStore X) (x : X) : Runs P pol (.eval st (.var x) ((P.read st x).map (·, st)))
  | opUndefined {st : CxStore X} (o : O) {es : List (CxExpr F X O)} :
      Runs P pol (.evals st es none) → Runs P pol (.eval st (.op o es) none)
  | op {st st' : CxStore X} (o : O) {es : List (CxExpr F X O)} {vs : List Int} :
      Runs P pol (.evals st es (some (vs, st'))) →
      Runs P pol (.eval st (.op o es) ((P.opValue o vs).map (·, st')))
  | lazyUndefined {st : CxStore X} (k : LazyOp) {a b : CxExpr F X O} :
      Runs P pol (.eval st a none) → Runs P pol (.eval st (.lazy k a b) none)
  | lazySkip {st st' : CxStore X} (k : LazyOp) {a b : CxExpr F X O} {v : Int} :
      Runs P pol (.eval st a (some (v, st'))) → k.decided v = true → pol.skipped st' b →
      Runs P pol (.eval st (.lazy k a b) (some (k.decidedValue v, st')))
  | lazyBoth {st st' : CxStore X} (k : LazyOp) {a b : CxExpr F X O} {v : Int}
      {out : Option (Int × CxStore X)} :
      Runs P pol (.eval st a (some (v, st'))) → k.decided v = false →
      Runs P pol (.eval st' b out) →
      Runs P pol (.eval st (.lazy k a b) (out.map fun r => (k.secondValue r.1, r.2)))
  | condUndefined {st : CxStore X} {c a b : CxExpr F X O} :
      Runs P pol (.eval st c none) → Runs P pol (.eval st (.cond c a b) none)
  | condThen {st st' : CxStore X} {c a b : CxExpr F X O} {v : Int}
      {out : Option (Int × CxStore X)} :
      Runs P pol (.eval st c (some (v, st'))) → v ≠ 0 → pol.skipped st' b →
      Runs P pol (.eval st' a out) → Runs P pol (.eval st (.cond c a b) out)
  | condElse {st st' : CxStore X} {c a b : CxExpr F X O} {v : Int}
      {out : Option (Int × CxStore X)} :
      Runs P pol (.eval st c (some (v, st'))) → v = 0 → pol.skipped st' a →
      Runs P pol (.eval st' b out) → Runs P pol (.eval st (.cond c a b) out)
  | callUndefined {st : CxStore X} (f : F) {es : List (CxExpr F X O)} :
      Runs P pol (.evals st es none) → Runs P pol (.eval st (.call f es) none)
  | call {st st₁ st₂ : CxStore X} {f : F} {es : List (CxExpr F X O)} {vs : List Int}
      {fn : CxFunction F X O L} {o : CxOutcome L} :
      Runs P pol (.evals st es (some (vs, st₁))) → P.fns f = some fn →
      vs.length = fn.params.length →
      Runs P pol (.exec fn.body 0 none ⟨CxProgram.bindParams fn.params vs, st₁.statics⟩ o st₂) →
      Runs P pol (.eval st (.call f es) (CxProgram.callResult st₁ st₂ o))
  | assignUndefined {st : CxStore X} (x : X) {e : CxExpr F X O} :
      Runs P pol (.eval st e none) → Runs P pol (.eval st (.assign x e) none)
  | assign {st st' : CxStore X} (x : X) {e : CxExpr F X O} {v : Int} :
      Runs P pol (.eval st e (some (v, st'))) →
      Runs P pol (.eval st (.assign x e) (some (v, P.write st' x v)))
  | nil (st : CxStore X) : Runs P pol (.evals st [] (some ([], st)))
  | consUndefined {st : CxStore X} {e : CxExpr F X O} (es : List (CxExpr F X O)) :
      Runs P pol (.eval st e none) → Runs P pol (.evals st (e :: es) none)
  | cons {st st' : CxStore X} {e : CxExpr F X O} {es : List (CxExpr F X O)} {v : Int}
      {out : Option (List Int × CxStore X)} :
      Runs P pol (.eval st e (some (v, st'))) → Runs P pol (.evals st' es out) →
      Runs P pol (.evals st (e :: es) (out.map fun r => (v :: r.1, r.2)))
  | labelled (l : L) (st : CxStore X) : Runs P pol (.stmt (.label l) (some l) st .finished st)
  | plain {s : CxStmt F X O L} {st st' : CxStore X} {o : CxOutcome L} :
      P.evaluates s = none → P.plain st s = some (o, st') → Runs P pol (.stmt s none st o st')
  | marker (st : CxStore X) : pol.marker → Runs P pol (.stmt .debugBegin none st .finished st)
  | exprUndefined {s : CxStmt F X O L} {st : CxStore X} {e : CxExpr F X O} :
      P.evaluates s = some e → Runs P pol (.eval st e none) →
      Runs P pol (.stmt s none st .undefined st)
  | expr {s : CxStmt F X O L} {st st₁ st₂ : CxStore X} {e : CxExpr F X O} {v : Int}
      {o : CxOutcome L} :
      P.evaluates s = some e → pol.whole st e → Runs P pol (.eval st e (some (v, st₁))) →
      P.complete st₁ v s = some (o, st₂) → Runs P pol (.stmt s none st o st₂)
  | condNoArm {c : CxExpr F X O} {thn els : Option (CxStmt F X O L)} {st st' : CxStore X}
      {v : Int} :
      pol.whole st c → Runs P pol (.eval st c (some (v, st'))) →
      (if v = 0 then els else thn) = none →
      Runs P pol (.stmt (.cond c thn els) none st .finished st')
  | condArm {c : CxExpr F X O} {thn els : Option (CxStmt F X O L)} {arm : CxStmt F X O L}
      {st st₁ st₂ : CxStore X} {v : Int} {o : CxOutcome L} :
      pol.whole st c → Runs P pol (.eval st c (some (v, st₁))) →
      (if v = 0 then els else thn) = some arm → Runs P pol (.stmt arm none st₁ o st₂) →
      Runs P pol (.stmt (.cond c thn els) none st o st₂)
  | intoThen {c : CxExpr F X O} {thn : CxStmt F X O L} {els : Option (CxStmt F X O L)} {l : L}
      {st st' : CxStore X} {o : CxOutcome L} :
      l ∈ thn.labels → Runs P pol (.stmt thn (some l) st o st') →
      Runs P pol (.stmt (.cond c (some thn) els) (some l) st o st')
  | intoElse {c : CxExpr F X O} {thn : Option (CxStmt F X O L)} {els : CxStmt F X O L} {l : L}
      {st st' : CxStore X} {o : CxOutcome L} :
      l ∉ optionLabels thn → Runs P pol (.stmt els (some l) st o st') →
      Runs P pol (.stmt (.cond c thn (some els)) (some l) st o st')
  | bind {vars : List X} {body : List (CxStmt F X O L)} {entry : Option L} {pc : Nat}
      {st st' : CxStore X} {o : CxOutcome L} :
      pol.entered (CxProgram.enterBlock st vars) vars → entryPoint body entry = some pc →
      Runs P pol (.exec body pc entry (CxProgram.enterBlock st vars) o st') →
      Runs P pol (.stmt (.bind vars body) entry st o st')
  | list {body : List (CxStmt F X O L)} {entry : Option L} {pc : Nat} {st st' : CxStore X}
      {o : CxOutcome L} :
      entryPoint body entry = some pc → Runs P pol (.exec body pc entry st o st') →
      Runs P pol (.stmt (.list body) entry st o st')
  | done {body : List (CxStmt F X O L)} {pc : Nat} (st : CxStore X) :
      body[pc]? = none → Runs P pol (.exec body pc none st .finished st)
  | next {body : List (CxStmt F X O L)} {pc : Nat} {entry : Option L} {s : CxStmt F X O L}
      {st st₁ st₂ : CxStore X} {o : CxOutcome L} :
      body[pc]? = some s → Runs P pol (.stmt s entry st .finished st₁) →
      Runs P pol (.exec body (pc + 1) none st₁ o st₂) → Runs P pol (.exec body pc entry st o st₂)
  | stop {body : List (CxStmt F X O L)} {pc : Nat} {entry : Option L} {s : CxStmt F X O L}
      {st st' : CxStore X} {o : CxOutcome L} :
      body[pc]? = some s → Runs P pol (.stmt s entry st o st') → o.stops = true →
      Runs P pol (.exec body pc entry st o st')
  | jumpIn {body : List (CxStmt F X O L)} {pc i : Nat} {entry : Option L} {s : CxStmt F X O L}
      {st st₁ st₂ : CxStore X} {l : L} {o : CxOutcome L} :
      body[pc]? = some s → Runs P pol (.stmt s entry st (.jump l) st₁) →
      resumeAt body l = some i → Runs P pol (.exec body i (some l) st₁ o st₂) →
      Runs P pol (.exec body pc entry st o st₂)
  | jumpOut {body : List (CxStmt F X O L)} {pc : Nat} {entry : Option L} {s : CxStmt F X O L}
      {st st' : CxStore X} {l : L} :
      body[pc]? = some s → Runs P pol (.stmt s entry st (.jump l) st') →
      resumeAt body l = none → Runs P pol (.exec body pc entry st (.jump l) st')

/-- The call of `f` with the argument values `vs`, in a fresh frame, returns `v`. -/
def Returns (P : CxProgram F X O L) (pol : CxPolicy F X O) (statics : X → Int) (f : F)
    (vs : List Int) (v : Int) (statics' : X → Int) : Prop :=
  ∃ fn fr, P.fns f = some fn ∧ vs.length = fn.params.length ∧
    Runs P pol (.exec fn.body 0 none ⟨CxProgram.bindParams fn.params vs, statics⟩
      (.returned (some v)) ⟨fr, statics'⟩)

/-- The call of `f` runs into undefined behaviour. -/
def Undefined (P : CxProgram F X O L) (statics : X → Int) (f : F) (vs : List Int) : Prop :=
  ∃ fn o st, P.fns f = some fn ∧
    Runs P .any (.exec fn.body 0 none ⟨CxProgram.bindParams fn.params vs, statics⟩ o st) ∧
    o = .undefined

/-- The end of a run is the only one from where it starts. -/
def CxJudgement.Unique (P : CxProgram F X O L) (pol : CxPolicy F X O) :
    CxJudgement F X O L → Prop
  | .eval st e out => ∀ out', Runs P pol (.eval st e out') → out' = out
  | .evals st es out => ∀ out', Runs P pol (.evals st es out') → out' = out
  | .stmt s entry st o st' => ∀ o' st'', Runs P pol (.stmt s entry st o' st'') → o' = o ∧ st'' = st'
  | .exec body pc entry st o st' =>
      ∀ o' st'', Runs P pol (.exec body pc entry st o' st'') → o' = o ∧ st'' = st'

theorem runs_unique {P : CxProgram F X O L} {pol : CxPolicy F X O} {J : CxJudgement F X O L}
    (h : Runs P pol J) : J.Unique P pol := by
  induction h <;> simp only [CxJudgement.Unique] at *
  all_goals
    intros
    rename_i h'
    -- a second run ends by the same rule, or one of its premises contradicts the first
    cases h' <;> grind [CxProgram.evaluates, CxProgram.complete, CxProgram.plain,
      CxOutcome.stops, optionLabels]

theorem Runs.any {P : CxProgram F X O L} {pol : CxPolicy F X O} {J : CxJudgement F X O L}
    (h : Runs P pol J) : Runs P .any J := by
  induction h with
  | const st v => exact .const st v
  | var st x => exact .var st x
  | opUndefined o _ ih => exact .opUndefined o ih
  | op o _ ih => exact .op o ih
  | lazyUndefined k _ ih => exact .lazyUndefined k ih
  | lazySkip k _ hv _ ih => exact .lazySkip k ih hv trivial
  | lazyBoth k _ hv _ iha ihb => exact .lazyBoth k iha hv ihb
  | condUndefined _ ih => exact .condUndefined ih
  | condThen _ hv _ _ ihc iha => exact .condThen ihc hv trivial iha
  | condElse _ hv _ _ ihc ihb => exact .condElse ihc hv trivial ihb
  | callUndefined f _ ih => exact .callUndefined f ih
  | call _ hfn hlen _ ihs ihb => exact .call ihs hfn hlen ihb
  | assignUndefined x _ ih => exact .assignUndefined x ih
  | assign x _ ih => exact .assign x ih
  | nil st => exact .nil st
  | consUndefined es _ ih => exact .consUndefined es ih
  | cons _ _ ihe ihs => exact .cons ihe ihs
  | labelled l st => exact .labelled l st
  | plain he hs => exact .plain he hs
  | marker st _ => exact .marker st trivial
  | exprUndefined he _ ih => exact .exprUndefined he ih
  | expr he _ _ hs ih => exact .expr he trivial ih hs
  | condNoArm _ _ harm ih => exact .condNoArm trivial ih harm
  | condArm _ _ harm _ ihc iha => exact .condArm trivial ihc harm iha
  | intoThen hl _ ih => exact .intoThen hl ih
  | intoElse hl _ ih => exact .intoElse hl ih
  | bind _ hpc _ ih => exact .bind trivial hpc ih
  | list hpc _ ih => exact .list hpc ih
  | done st hpc => exact .done st hpc
  | next hpc _ _ ihs ihb => exact .next hpc ihs ihb
  | stop hpc _ ho ih => exact .stop hpc ih ho
  | jumpIn hpc _ hl _ ihs ihb => exact .jumpIn hpc ihs hl ihb
  | jumpOut hpc _ hl ih => exact .jumpOut hpc ih hl

end CZet
