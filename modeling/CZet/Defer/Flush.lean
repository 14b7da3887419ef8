/- source: src/gcc/gcc/c/c-parser.cc (c_parser_flush_defers, c_parser_take_defers,
     c_parser_statement_after_labels), tests/defer.czet (t_defer_semi)
   digest: Blocks that flush their deferred bodies, and the executions in which each body runs once
     where it is due. -/

import CZet.Defer.Lowering
import Mathlib.Data.List.Nodup

set_option autoImplicit false
set_option relaxedAutoImplicit false

namespace CZet.Defer

open CZet.Lib.Control

variable {S V : Type}

/-- A registered body: its place and its statements. -/
abbrev Body (S V : Type) := Nat × List (Stmt S V)

def Body.tree (b : Body S V) : Tree S V := .deferred b.1 (cParserCompoundStatement b.2)

/-- The bodies that a statement registers in the block around it, in the order of the text. -/
def Stmt.bodies : Stmt S V → List (Body S V)
  | .ite _ t e => t.bodies ++ e.bodies
  | .loop _ _ _ body => body.bodies
  | .defer place body => [(place, body)]
  | _ => []

/-- The bodies that wait in `parser->defers` behind a statement. -/
def Stmt.waiting : Stmt S V → List (Body S V) → List (Body S V)
  | .ite _ t e, w => e.waiting (t.waiting w)
  | .loop _ _ _ body, w => body.waiting w
  | .defer place body, w => w ++ [(place, body)]
  | .flush, _ => []
  | _, w => w

/-- The statement registers or flushes bodies of the block around it. -/
def Stmt.touches : Stmt S V → Bool
  | .ite _ t e => t.touches || e.touches
  | .loop _ _ _ body => body.touches
  | .defer .. | .flush => true
  | _ => false

/-- Registrations and flushes stand directly in the block or in unbraced branches. -/
def Stmt.straight : Stmt S V → Bool
  | .ite _ t e => t.straight && e.straight
  | .loop _ _ _ body => !body.touches
  | _ => true

mutual

def Stmt.places : Stmt S V → List Nat
  | .ite _ t e => t.places ++ e.places
  | .loop _ _ _ body => body.places
  | .block items => placesOf items
  | .defer place body => place :: placesOf body
  | _ => []

/-- The places of all registrations in a list of statements, at any depth. -/
def placesOf : List (Stmt S V) → List Nat
  | [] => []
  | s :: rest => s.places ++ placesOf rest

end

/-- A block that mixes registrations, flushes, conditionals, exits and other statements. -/
structure FlushBlock (S V : Type) where
  items : List (Stmt S V)
  straight : items.all Stmt.straight = true
  distinct : (placesOf items).Nodup

section Due

/-- The registered bodies that have not run. -/
def due (reg : List (Body S V)) (ran : List Nat) : List (Body S V) :=
  reg.filter fun b => !ran.contains b.1

/-- Run bodies in reverse order. -/
def runBodies (fuel : Nat) (bs : List (Body S V)) : Run (Env S) V :=
  execAll fuel (bs.reverse.map Body.tree)

/-- A statement of the block as it is due to run, behind the registrations `reg` and after the bodies
`ran`: a flush runs the bodies that are registered before it and have not run. -/
def dueStmt (fuel : Nat) : Stmt S V → List (Body S V) → List Nat → Env S →
    (Completion V × Env S) × List Nat
  | .flush, reg, ran, env =>
      (runBodies fuel (due reg ran) env, ran ++ (due reg ran).map Prod.fst)
  | .ite c t e, reg, ran, env =>
      if c env.store then dueStmt fuel t reg ran env
      else dueStmt fuel e (reg ++ t.bodies) ran env
  | s, _, ran, env => (execAll fuel (cParserStatement s []).1 env, ran)

def dueItems (fuel : Nat) : List (Stmt S V) → List (Body S V) → List Nat → Env S →
    (Completion V × Env S) × List Nat
  | [], _, ran, env => ((.normal, env), ran)
  | s :: rest, reg, ran, env =>
      match dueStmt fuel s reg ran env with
      | ((.normal, env'), ran') => dueItems fuel rest (reg ++ s.bodies) ran' env'
      | out => out

/-- The end of a block: the bodies registered in it that have not run are run, and the exit is
resumed. -/
def atExit (fuel : Nat) (reg : List (Body S V)) :
    (Completion V × Env S) × List Nat → Completion V × Env S
  | ((k, env), ran) => protect (leave fun _ => k) (runBodies fuel (due reg ran)) env

/-- The execution of a block in which every body runs once where it is due: at the first flush that is
executed behind its registration, or when the block is left. -/
def dueBlock (fuel : Nat) (items : List (Stmt S V)) (env : Env S) : Completion V × Env S :=
  atExit fuel (items.flatMap Stmt.bodies) (dueItems fuel items [] [] env)

end Due

section Reached

/-- No flush in the statement finds a body waiting. -/
def Stmt.Skippable : Stmt S V → List (Body S V) → Prop
  | .ite _ t e, w => t.Skippable w ∧ e.Skippable (t.waiting w)
  | .flush, w => w = []
  | _, _ => True

/-- When the statement is executed, so is every flush in it that finds a body waiting. -/
def Stmt.Reached : Stmt S V → List (Body S V) → Env S → Prop
  | .ite c t e, w, env =>
      if c env.store then t.Reached w env ∧ e.Skippable (t.waiting w)
      else t.Skippable w ∧ e.Reached (t.waiting w) env
  | _, _, _ => True

def SkippableAll : List (Stmt S V) → List (Body S V) → Prop
  | [], _ => True
  | s :: rest, w => s.Skippable w ∧ SkippableAll rest (s.waiting w)

/-- Every flush of the block that finds a body waiting is executed before the block is left. -/
def ReachedAll (fuel : Nat) : List (Stmt S V) → List (Body S V) → Env S → Prop
  | [], _, _ => True
  | s :: rest, w, env =>
      s.Reached w env ∧
        match execAll fuel (cParserStatement s (w.map Body.tree)).1 env with
        | (.normal, env') => ReachedAll fuel rest (s.waiting w) env'
        | _ => SkippableAll rest (s.waiting w)

end Reached

section Adds

private def Adds (P : Nat → Prop) (r : Run (Env S) V) : Prop :=
  ∀ env, ∃ x, (r env).2.trace = env.trace ++ x ∧ ∀ p, Event.ran p ∈ x → P p

variable {P : Nat → Prop}

private theorem adds_of_trace_eq {r : Run (Env S) V} (h : ∀ env, (r env).2.trace = env.trace) :
    Adds P r := fun env => ⟨[], by rw [h, List.append_nil], by simp⟩

private theorem adds_trans {env : Env S} {a b : List Event} {t u : List Event}
    (ht : t = env.trace ++ a) (hu : u = t ++ b) (ha : ∀ p, Event.ran p ∈ a → P p)
    (hb : ∀ p, Event.ran p ∈ b → P p) :
    ∃ x, u = env.trace ++ x ∧ ∀ p, Event.ran p ∈ x → P p := by
  refine ⟨a ++ b, by rw [hu, ht, List.append_assoc], ?_⟩
  intro p hp
  rcases List.mem_append.mp hp with hp | hp
  · exact ha p hp
  · exact hb p hp

private theorem adds_seq {r t : Run (Env S) V} (hr : Adds P r) (ht : Adds P t) :
    Adds P (seq r t) := by
  intro env
  obtain ⟨a, ha, hPa⟩ := hr env
  simp only [seq]
  split
  · rename_i env' hrun
    rw [hrun] at ha
    obtain ⟨b, hb, hPb⟩ := ht env'
    exact adds_trans ha hb hPa hPb
  · exact ⟨a, ha, hPa⟩

private theorem adds_branch {c : Env S → Bool} {r t : Run (Env S) V} (hr : Adds P r)
    (ht : Adds P t) : Adds P (branch c r t) := by
  intro env
  simp only [branch]
  split
  · exact hr env
  · exact ht env

private theorem adds_loop {c : Env S → Bool} {f : S → S} {r : Run (Env S) V} (hr : Adds P r)
    (fuel : Nat) (test : Bool) : Adds P (loop c (onStore f) r fuel test) := by
  induction fuel generalizing test with
  | zero => exact adds_of_trace_eq fun env => rfl
  | succ fuel ih =>
      intro env
      obtain ⟨a, ha, hPa⟩ := hr env
      simp only [loop]
      split
      · exact ⟨[], (List.append_nil _).symm, by simp⟩
      · split
        · rename_i env' hrun
          rw [hrun] at ha
          obtain ⟨b, hb, hPb⟩ := ih true (onStore f env')
          exact adds_trans ha hb hPa hPb
        · rename_i env' hrun
          rw [hrun] at ha
          obtain ⟨b, hb, hPb⟩ := ih true (onStore f env')
          exact adds_trans ha hb hPa hPb
        · rename_i env' hrun
          rw [hrun] at ha
          exact ⟨a, ha, hPa⟩
        · exact ⟨a, ha, hPa⟩

private theorem resume_state (k : Completion V) (out : Completion V × Env S) :
    (resume k out).2 = out.2 := by
  rcases out with ⟨j, env⟩
  cases j <;> rfl

private theorem adds_protect {r t : Run (Env S) V} (hr : Adds P r) (ht : Adds P t) :
    Adds P (protect r t) := by
  intro env
  obtain ⟨a, ha, hPa⟩ := hr env
  simp only [protect]
  split
  · rename_i env' hrun
    rw [hrun] at ha
    exact ⟨a, ha, hPa⟩
  · rename_i env' _ hrun
    rw [hrun] at ha
    obtain ⟨b, hb, hPb⟩ := ht env'
    rw [resume_state]
    exact adds_trans ha hb hPa hPb

private theorem adds_mono {Q : Nat → Prop} (h : ∀ p, P p → Q p) {r : Run (Env S) V}
    (hr : Adds P r) : Adds Q r := by
  intro env
  obtain ⟨x, hx, hP⟩ := hr env
  exact ⟨x, hx, fun p hp => h p (hP p hp)⟩

private theorem adds_emit_log (c : Char) : Adds P (emit (.log c) : Run (Env S) V) :=
  fun env => ⟨[.log c], rfl, by simp⟩

private theorem adds_emit_ran {place : Nat} (h : P place) :
    Adds P (emit (.ran place) : Run (Env S) V) := by
  intro env
  refine ⟨[.ran place], rfl, ?_⟩
  intro p hp
  have : p = place := by simpa using hp
  exact this ▸ h

private theorem adds_execAll {fuel : Nat} {ts : List (Tree S V)}
    (h : ∀ t ∈ ts, Adds P (exec fuel t)) : Adds P (execAll fuel ts) := by
  induction ts with
  | nil =>
      rw [execAll]
      exact adds_of_trace_eq fun env => rfl
  | cons t ts ih =>
      rw [execAll]
      exact adds_seq (h t List.mem_cons_self) (ih fun u hu => h u (List.mem_cons_of_mem _ hu))

mutual

private theorem adds_statement (fuel : Nat) (s : Stmt S V) (w : List (Tree S V))
    (hw : ∀ t ∈ w, Adds P (exec fuel t)) (hs : ∀ p ∈ s.places, P p) :
    (∀ t ∈ (cParserStatement s w).1, Adds P (exec fuel t)) ∧
      ∀ t ∈ (cParserStatement s w).2, Adds P (exec fuel t) := by
  cases s with
  | log c =>
      simp only [cParserStatement, List.forall_mem_singleton, exec]
      exact ⟨adds_emit_log c, hw⟩
  | act f =>
      simp only [cParserStatement, List.forall_mem_singleton, exec]
      exact ⟨adds_of_trace_eq fun env => rfl, hw⟩
  | ret v =>
      simp only [cParserStatement, List.forall_mem_singleton, exec]
      exact ⟨adds_of_trace_eq fun env => rfl, hw⟩
  | brk =>
      simp only [cParserStatement, List.forall_mem_singleton, exec]
      exact ⟨adds_of_trace_eq fun env => rfl, hw⟩
  | cont =>
      simp only [cParserStatement, List.forall_mem_singleton, exec]
      exact ⟨adds_of_trace_eq fun env => rfl, hw⟩
  | goto l =>
      simp only [cParserStatement, List.forall_mem_singleton, exec]
      exact ⟨adds_of_trace_eq fun env => rfl, hw⟩
  | empty => simpa [cParserStatement] using hw
  | ite c t e =>
      simp only [Stmt.places, List.forall_mem_append] at hs
      obtain ⟨ht, hw₁⟩ := adds_statement fuel t w hw hs.1
      obtain ⟨he, hw₂⟩ := adds_statement fuel e (cParserStatement t w).2 hw₁ hs.2
      simp only [cParserStatement, List.forall_mem_singleton, exec]
      exact ⟨adds_branch (adds_execAll ht) (adds_execAll he), hw₂⟩
  | loop test c next body =>
      simp only [Stmt.places] at hs
      obtain ⟨hb, hw₁⟩ := adds_statement fuel body w hw hs
      simp only [cParserStatement, List.forall_mem_singleton, exec]
      exact ⟨adds_loop (adds_execAll hb) fuel test, hw₁⟩
  | block items =>
      simp only [Stmt.places] at hs
      have hblock := adds_compound fuel items hs
      simp only [cParserStatement, List.forall_mem_singleton]
      exact ⟨hblock, hw⟩
  | defer place body =>
      simp only [Stmt.places, List.forall_mem_cons] at hs
      have hblock := adds_compound fuel body hs.2
      simp only [cParserStatement, List.forall_mem_append, List.forall_mem_singleton, exec]
      exact ⟨by simp, hw, adds_seq (adds_emit_ran hs.1) hblock⟩
  | flush =>
      simp only [cParserStatement, List.mem_reverse]
      exact ⟨hw, by simp⟩

private theorem adds_items (fuel : Nat) (items : List (Stmt S V)) (w : List (Tree S V))
    (hw : ∀ t ∈ w, Adds P (exec fuel t)) (hs : ∀ p ∈ placesOf items, P p) :
    (∀ t ∈ (cParserCompound items w).1, Adds P (exec fuel t)) ∧
      ∀ t ∈ (cParserCompound items w).2, Adds P (exec fuel t) := by
  cases items with
  | nil => simpa [cParserCompound] using hw
  | cons s rest =>
      simp only [placesOf, List.forall_mem_append] at hs
      obtain ⟨ht, hw₁⟩ := adds_statement fuel s w hw hs.1
      obtain ⟨hu, hw₂⟩ := adds_items fuel rest (cParserStatement s w).2 hw₁ hs.2
      simp only [cParserCompound, List.forall_mem_append]
      exact ⟨⟨ht, hu⟩, hw₂⟩

private theorem adds_compound (fuel : Nat) (items : List (Stmt S V))
    (hs : ∀ p ∈ placesOf items, P p) :
    Adds P (exec fuel (cCzetWrapCleanup (cParserCompound items []).1
      (cParserTakeDefers (cParserCompound items []).2))) := by
  obtain ⟨hbody, hown⟩ := adds_items fuel items [] (by simp) hs
  rw [exec_wrapCleanup]
  refine adds_protect (adds_execAll hbody) (adds_execAll ?_)
  intro t ht
  exact hown t (List.mem_reverse.mp ht)

end

private def bodyPlaces (b : Body S V) : List Nat := b.1 :: placesOf b.2

private theorem adds_body (fuel : Nat) (b : Body S V) (h : ∀ p ∈ bodyPlaces b, P p) :
    Adds P (exec fuel b.tree) := by
  rw [bodyPlaces, List.forall_mem_cons] at h
  rw [Body.tree, exec]
  exact adds_seq (adds_emit_ran h.1) (adds_compound fuel b.2 h.2)

end Adds

section Scan

/-- A statement that neither registers nor flushes, nor has a part that might. -/
private structure Plain (s : Stmt S V) : Prop where
  bodies : s.bodies = []
  waiting : ∀ w, s.waiting w = w
  touches : s.touches = false
  statement : ∀ w, cParserStatement s w = ((cParserStatement s []).1, w)
  skippable : ∀ w, s.Skippable w
  reached : ∀ w env, s.Reached w env
  due : ∀ fuel reg ran env,
    dueStmt fuel s reg ran env = (execAll fuel (cParserStatement s []).1 env, ran)

@[elab_as_elim]
private theorem stmt_induction {motive : Stmt S V → Prop}
    (ite : ∀ c t e, motive t → motive e → motive (.ite c t e))
    (loop : ∀ test c next body, motive body → motive (.loop test c next body))
    (defer : ∀ place body, motive (.defer place body))
    (flush : motive .flush) (plain : ∀ s, Plain s → motive s) (s : Stmt S V) : motive s := by
  induction s using Stmt.bodies.induct with
  | case1 c t e iht ihe => exact ite c t e iht ihe
  | case2 test c next body ih => exact loop test c next body ih
  | case3 place body => exact defer place body
  | case4 s h₁ h₂ h₃ =>
      cases s with
      | ite c t e => exact absurd rfl (h₁ c t e)
      | loop test c next body => exact absurd rfl (h₂ test c next body)
      | defer place body => exact absurd rfl (h₃ place body)
      | flush => exact flush
      | _ =>
          apply plain
          constructor <;> intros <;> first | rfl | trivial

private theorem bodies_of_not_touches {s : Stmt S V} (h : s.touches = false) : s.bodies = [] := by
  induction s using stmt_induction with
  | ite c t e iht ihe =>
      simp only [Stmt.touches, Bool.or_eq_false_iff] at h
      simp [Stmt.bodies, iht h.1, ihe h.2]
  | loop test c next body ih => exact ih h
  | defer place body => simp [Stmt.touches] at h
  | flush => rfl
  | plain s hs => exact hs.bodies

private theorem statement_of_not_touches {s : Stmt S V} (h : s.touches = false)
    (w : List (Tree S V)) : cParserStatement s w = ((cParserStatement s []).1, w) := by
  induction s using stmt_induction generalizing w with
  | ite c t e iht ihe =>
      simp only [Stmt.touches, Bool.or_eq_false_iff] at h
      rw [cParserStatement, iht h.1 w, cParserStatement, iht h.1 []]
      simp only
      rw [ihe h.2 w]
  | loop test c next body ih => rw [cParserStatement, ih h w, cParserStatement]
  | defer place body => simp [Stmt.touches] at h
  | flush => simp [Stmt.touches] at h
  | plain s hs => exact hs.statement w

private theorem waiting_of_not_touches {s : Stmt S V} (h : s.touches = false) (w : List (Body S V)) :
    s.waiting w = w := by
  induction s using stmt_induction generalizing w with
  | ite c t e iht ihe =>
      simp only [Stmt.touches, Bool.or_eq_false_iff] at h
      rw [Stmt.waiting, iht h.1, ihe h.2]
  | loop test c next body ih => exact ih h w
  | defer place body => simp [Stmt.touches] at h
  | flush => simp [Stmt.touches] at h
  | plain s hs => exact hs.waiting w

private theorem statement_defers (s : Stmt S V) (w : List (Body S V)) :
    (cParserStatement s (w.map Body.tree)).2 = (s.waiting w).map Body.tree := by
  induction s using stmt_induction generalizing w with
  | ite c t e iht ihe =>
      simp only [cParserStatement, Stmt.waiting]
      rw [iht, ihe]
  | loop test c next body ih =>
      simp only [cParserStatement, Stmt.waiting]
      rw [ih]
  | defer place body => simp [cParserStatement, Stmt.waiting, Body.tree, cParserCompoundStatement]
  | flush => simp [cParserStatement, Stmt.waiting]
  | plain s hs => rw [hs.statement, hs.waiting]

private theorem waiting_suffix {s : Stmt S V} (hs : s.straight = true) (w : List (Body S V)) :
    ∃ drained, w ++ s.bodies = drained ++ s.waiting w ∧ (drained = [] ↔ s.Skippable w) := by
  induction s using stmt_induction generalizing w with
  | ite c t e iht ihe =>
      simp only [Stmt.straight, Bool.and_eq_true] at hs
      obtain ⟨d₁, h₁, hd₁⟩ := iht hs.1 w
      obtain ⟨d₂, h₂, hd₂⟩ := ihe hs.2 (t.waiting w)
      refine ⟨d₁ ++ d₂, ?_, ?_⟩
      · rw [Stmt.bodies, Stmt.waiting, List.append_assoc, ← h₂, ← List.append_assoc, h₁,
          List.append_assoc]
      · rw [List.append_eq_nil_iff, hd₁, hd₂, Stmt.Skippable]
  | loop test c next body ih =>
      simp only [Stmt.straight, Bool.not_eq_true'] at hs
      refine ⟨[], ?_, by simp [Stmt.Skippable]⟩
      rw [Stmt.bodies, Stmt.waiting, bodies_of_not_touches hs, waiting_of_not_touches hs,
        List.append_nil, List.nil_append]
  | defer place body => exact ⟨[], by simp [Stmt.bodies, Stmt.waiting], by simp [Stmt.Skippable]⟩
  | flush => exact ⟨w, by simp [Stmt.bodies, Stmt.waiting], by simp [Stmt.Skippable]⟩
  | plain s hplain => exact ⟨[], by simp [hplain.bodies, hplain.waiting], by simp [hplain.skippable]⟩

private theorem mem_waiting {s : Stmt S V} {w : List (Body S V)} {b : Body S V}
    (hb : b ∈ s.waiting w) : b ∈ w ∨ b ∈ s.bodies := by
  induction s using stmt_induction generalizing w with
  | ite c t e iht ihe =>
      rw [Stmt.bodies, List.mem_append]
      rcases ihe hb with hb | hb
      · exact (iht hb).imp_right .inl
      · exact .inr (.inr hb)
  | loop test c next body ih => exact ih hb
  | defer place body => simpa [Stmt.waiting, Stmt.bodies] using hb
  | flush => simp [Stmt.waiting] at hb
  | plain s hs => exact .inl (by simpa [hs.waiting] using hb)

private theorem bodies_places_sublist (s : Stmt S V) :
    (s.bodies.flatMap bodyPlaces).Sublist s.places := by
  induction s using stmt_induction with
  | ite c t e iht ihe =>
      rw [Stmt.bodies, Stmt.places, List.flatMap_append]
      exact iht.append ihe
  | loop test c next body ih =>
      rw [Stmt.bodies, Stmt.places]
      exact ih
  | defer place body => simp [Stmt.bodies, Stmt.places, bodyPlaces]
  | flush => simp [Stmt.bodies]
  | plain s hs => simp [hs.bodies]

end Scan

section Pieces

/-- A statement that an execution of the block comes to, or one that it passes over. -/
private inductive Piece (S V : Type)
  | run (s : Stmt S V)
  | skip (s : Stmt S V)

private def Piece.stmt : Piece S V → Stmt S V
  | .run s | .skip s => s

private def bodiesOf (ps : List (Piece S V)) : List (Body S V) := ps.flatMap fun p => p.stmt.bodies

private def pieceTrees : List (Piece S V) → List (Body S V) → List (Tree S V)
  | [], _ => []
  | .run s :: ps, w => (cParserStatement s (w.map Body.tree)).1 ++ pieceTrees ps (s.waiting w)
  | .skip s :: ps, w => pieceTrees ps (s.waiting w)

private def lastWaiting : List (Piece S V) → List (Body S V) → List (Body S V)
  | [], w => w
  | p :: ps, w => lastWaiting ps (p.stmt.waiting w)

private def lowRest (fuel : Nat) (ps : List (Piece S V)) (w : List (Body S V)) : Run (Env S) V :=
  protect (execAll fuel (pieceTrees ps w)) (runBodies fuel (lastWaiting ps w))

private def duePieces (fuel : Nat) : List (Piece S V) → List (Body S V) → List Nat → Env S →
    (Completion V × Env S) × List Nat
  | [], _, ran, env => ((.normal, env), ran)
  | .run s :: ps, reg, ran, env =>
      match dueStmt fuel s reg ran env with
      | ((.normal, env'), ran') => duePieces fuel ps (reg ++ s.bodies) ran' env'
      | out => out
  | .skip s :: ps, reg, ran, env => duePieces fuel ps (reg ++ s.bodies) ran env

private def dueRest (fuel : Nat) (ps : List (Piece S V)) (reg : List (Body S V)) (ran : List Nat)
    (env : Env S) : Completion V × Env S :=
  atExit fuel (reg ++ bodiesOf ps) (duePieces fuel ps reg ran env)

private def SkippablePieces : List (Piece S V) → List (Body S V) → Prop
  | [], _ => True
  | p :: ps, w => p.stmt.Skippable w ∧ SkippablePieces ps (p.stmt.waiting w)

private def ReachedPieces (fuel : Nat) : List (Piece S V) → List (Body S V) → Env S → Prop
  | [], _, _ => True
  | .run s :: ps, w, env =>
      s.Reached w env ∧
        match execAll fuel (cParserStatement s (w.map Body.tree)).1 env with
        | (.normal, env') => ReachedPieces fuel ps (s.waiting w) env'
        | _ => SkippablePieces ps (s.waiting w)
  | .skip s :: ps, w, env => s.Skippable w ∧ ReachedPieces fuel ps (s.waiting w) env

private theorem lowRest_run (fuel : Nat) (s : Stmt S V) (ps : List (Piece S V))
    (w : List (Body S V)) (env : Env S) :
    lowRest fuel (.run s :: ps) w env =
      match execAll fuel (cParserStatement s (w.map Body.tree)).1 env with
      | (.normal, env') => lowRest fuel ps (s.waiting w) env'
      | (k, env') =>
          protect (leave fun _ => k) (runBodies fuel (lastWaiting ps (s.waiting w))) env' := by
  simp only [lowRest, pieceTrees, execAll_append, protect_seq, lastWaiting, Piece.stmt]
  rcases execAll fuel (cParserStatement s (w.map Body.tree)).1 env with ⟨k, env'⟩
  cases k <;> rfl

private theorem dueRest_run (fuel : Nat) (s : Stmt S V) (ps : List (Piece S V))
    (reg : List (Body S V)) (ran : List Nat) (env : Env S) :
    dueRest fuel (.run s :: ps) reg ran env =
      match dueStmt fuel s reg ran env with
      | ((.normal, env'), ran') => dueRest fuel ps (reg ++ s.bodies) ran' env'
      | ((k, env'), ran') =>
          atExit fuel (reg ++ s.bodies ++ bodiesOf ps) ((k, env'), ran') := by
  have hbodies : reg ++ bodiesOf (.run s :: ps) = reg ++ s.bodies ++ bodiesOf ps := by
    simp [bodiesOf, Piece.stmt]
  simp only [dueRest, duePieces, hbodies]
  rcases dueStmt fuel s reg ran env with ⟨⟨k, env'⟩, ran'⟩
  cases k <;> rfl

private theorem lowRest_normal {fuel : Nat} {s : Stmt S V} {w : List (Body S V)} {env env' : Env S}
    (h : execAll fuel (cParserStatement s (w.map Body.tree)).1 env = (.normal, env'))
    (ps : List (Piece S V)) :
    lowRest fuel (.run s :: ps) w env = lowRest fuel ps (s.waiting w) env' := by
  rw [lowRest_run, h]

private theorem lowRest_abrupt {fuel : Nat} {s : Stmt S V} {w : List (Body S V)} {env env' : Env S}
    {k : Completion V} (h : execAll fuel (cParserStatement s (w.map Body.tree)).1 env = (k, env'))
    (hk : k ≠ .normal) (ps : List (Piece S V)) :
    lowRest fuel (.run s :: ps) w env =
      protect (leave fun _ => k) (runBodies fuel (lastWaiting ps (s.waiting w))) env' := by
  rw [lowRest_run, h]
  cases k with
  | normal => exact absurd rfl hk
  | _ => rfl

private theorem dueRest_normal {fuel : Nat} {s : Stmt S V} {reg : List (Body S V)}
    {ran ran' : List Nat} {env env' : Env S}
    (h : dueStmt fuel s reg ran env = ((.normal, env'), ran')) (ps : List (Piece S V)) :
    dueRest fuel (.run s :: ps) reg ran env = dueRest fuel ps (reg ++ s.bodies) ran' env' := by
  rw [dueRest_run, h]

private theorem dueRest_abrupt {fuel : Nat} {s : Stmt S V} {reg : List (Body S V)}
    {ran ran' : List Nat} {env env' : Env S} {k : Completion V}
    (h : dueStmt fuel s reg ran env = ((k, env'), ran')) (hk : k ≠ .normal)
    (ps : List (Piece S V)) :
    dueRest fuel (.run s :: ps) reg ran env =
      atExit fuel (reg ++ s.bodies ++ bodiesOf ps) ((k, env'), ran') := by
  rw [dueRest_run, h]
  cases k with
  | normal => exact absurd rfl hk
  | _ => rfl

private theorem dueRest_skip (fuel : Nat) (s : Stmt S V) (ps : List (Piece S V))
    (reg : List (Body S V)) (ran : List Nat) (env : Env S) :
    dueRest fuel (.skip s :: ps) reg ran env = dueRest fuel ps (reg ++ s.bodies) ran env := by
  have hbodies : reg ++ bodiesOf (.skip s :: ps) = reg ++ s.bodies ++ bodiesOf ps := by
    simp [bodiesOf, Piece.stmt]
  simp only [dueRest, duePieces, hbodies]

private theorem lowRest_ite (fuel : Nat) (c : S → Bool) (t e : Stmt S V) (ps : List (Piece S V))
    (w : List (Body S V)) (env : Env S) :
    lowRest fuel (.run (.ite c t e) :: ps) w env =
      if c env.store then lowRest fuel (.run t :: .skip e :: ps) w env
      else lowRest fuel (.skip t :: .run e :: ps) w env := by
  have hskip : lowRest fuel (.skip t :: .run e :: ps) w env =
      lowRest fuel (.run e :: ps) (t.waiting w) env := rfl
  rw [hskip, lowRest_run, lowRest_run, lowRest_run]
  simp only [cParserStatement, execAll, seq_skip, exec, branch, Stmt.waiting, statement_defers]
  by_cases hc : c env.store = true
  · simp only [if_pos hc]
    rfl
  · simp only [if_neg hc]

private theorem dueRest_ite (fuel : Nat) (c : S → Bool) (t e : Stmt S V) (ps : List (Piece S V))
    (reg : List (Body S V)) (ran : List Nat) (env : Env S) :
    dueRest fuel (.run (.ite c t e) :: ps) reg ran env =
      if c env.store then dueRest fuel (.run t :: .skip e :: ps) reg ran env
      else dueRest fuel (.skip t :: .run e :: ps) reg ran env := by
  rw [dueRest_skip, dueRest_run, dueRest_run, dueRest_run]
  have hbodies : bodiesOf (.skip e :: ps) = e.bodies ++ bodiesOf ps := by
    simp [bodiesOf, Piece.stmt]
  simp only [dueStmt, Stmt.bodies, dueRest_skip, hbodies, List.append_assoc]
  by_cases hc : c env.store = true
  · simp only [if_pos hc]
  · simp only [if_neg hc]

private theorem reachedPieces_ite (fuel : Nat) (c : S → Bool) (t e : Stmt S V)
    (ps : List (Piece S V)) (w : List (Body S V)) (env : Env S) :
    ReachedPieces fuel (.run (.ite c t e) :: ps) w env ↔
      if c env.store then ReachedPieces fuel (.run t :: .skip e :: ps) w env
      else ReachedPieces fuel (.skip t :: .run e :: ps) w env := by
  simp only [ReachedPieces, SkippablePieces, Stmt.Reached, cParserStatement, execAll, seq_skip,
    exec, branch, Stmt.waiting, statement_defers, Piece.stmt]
  split
  · rcases execAll fuel (cParserStatement t (w.map Body.tree)).1 env with ⟨k, env'⟩
    cases k <;> simp only [and_assoc]
  · simp only [and_assoc]

private def pieceSize : Piece S V → Nat
  | .run s => stmtSize s
  | .skip _ => 1
where
  stmtSize : Stmt S V → Nat
    | .ite _ t e => 2 + stmtSize t + stmtSize e
    | _ => 1

@[elab_as_elim]
private theorem pieces_induction {motive : List (Piece S V) → Prop} (nil : motive [])
    (skip : ∀ s ps, motive ps → motive (.skip s :: ps))
    (ite : ∀ c t e ps, motive (.run t :: .skip e :: ps) → motive (.skip t :: .run e :: ps) →
      motive (.run (.ite c t e) :: ps))
    (run : ∀ s ps, (∀ c t e, s ≠ .ite c t e) → motive ps → motive (.run s :: ps))
    (ps : List (Piece S V)) : motive ps := by
  induction hn : (ps.map pieceSize).sum using Nat.strongRecOn generalizing ps with
  | ind n ih =>
      cases ps with
      | nil => exact nil
      | cons p ps =>
          simp only [List.map_cons, List.sum_cons] at hn
          cases p with
          | skip s =>
              refine skip s ps (ih _ ?_ ps rfl)
              simp only [pieceSize] at hn
              omega
          | run s =>
              by_cases hite : ∃ c t e, s = .ite c t e
              · obtain ⟨c, t, e, rfl⟩ := hite
                simp only [pieceSize, pieceSize.stmtSize] at hn
                refine ite c t e ps (ih _ ?_ _ rfl) (ih _ ?_ _ rfl)
                · simp only [List.map_cons, List.sum_cons, pieceSize]
                  omega
                · simp only [List.map_cons, List.sum_cons, pieceSize]
                  omega
              · refine run s ps (fun c t e h => hite ⟨c, t, e, h⟩) (ih _ ?_ ps rfl)
                have hpos : 0 < pieceSize.stmtSize s := by
                  cases s <;> simp only [pieceSize.stmtSize] <;> omega
                simp only [pieceSize] at hn
                omega

end Pieces

/-- The bodies are not left by a jump. -/
def CompleteNormally (fuel : Nat) (bs : List (Body S V)) : Prop :=
  ∀ b ∈ bs, ∀ env, (exec fuel b.tree env).1 = .normal ∨ (exec fuel b.tree env).1 = .cut

section Runs

variable {fuel : Nat}

private theorem runBodies_adds (fuel : Nat) (bs : List (Body S V)) :
    Adds (fun p => ∃ b ∈ bs, p ∈ bodyPlaces b) (runBodies fuel bs) := by
  apply adds_execAll
  intro t ht
  obtain ⟨b, hb, rfl⟩ := List.mem_map.mp ht
  exact adds_body fuel b fun p hp => ⟨b, List.mem_reverse.mp hb, hp⟩

private theorem runBodies_completes {bs : List (Body S V)} (hbs : CompleteNormally fuel bs)
    (env : Env S) : (runBodies fuel bs env).1 = .cut ∨
      ((runBodies fuel bs env).1 = .normal ∧ ∃ x, (runBodies fuel bs env).2.trace = env.trace ++ x ∧
        ∀ b ∈ bs, Event.ran b.1 ∈ x) := by
  have hlist : ∀ (l : List (Body S V)) (env : Env S), CompleteNormally fuel l →
      (execAll fuel (l.map Body.tree) env).1 = .cut ∨
        ((execAll fuel (l.map Body.tree) env).1 = .normal ∧
          ∃ x, (execAll fuel (l.map Body.tree) env).2.trace = env.trace ++ x ∧
            ∀ b ∈ l, Event.ran b.1 ∈ x) := by
    intro l
    induction l with
    | nil => exact fun env _ => .inr ⟨by simp [execAll, skip], [], by simp [execAll, skip]⟩
    | cons b l ih =>
        intro env hl
        have hran : ∃ x, (exec fuel b.tree env).2.trace = env.trace ++ .ran b.1 :: x := by
          obtain ⟨x, hx, -⟩ := adds_compound (P := fun _ => True) fuel b.2 (by simp)
            (env.emit (.ran b.1))
          refine ⟨x, ?_⟩
          simp only [Body.tree, exec, seq, emit, step]
          rw [cParserCompoundStatement, hx]
          simp [Env.emit]
        obtain ⟨x, hx⟩ := hran
        simp only [List.map_cons, execAll, seq]
        rcases hrun : exec fuel b.tree env with ⟨k, env'⟩
        rw [hrun] at hx
        have hk := hl b List.mem_cons_self env
        rw [hrun] at hk
        rcases hk with hk | hk
        · simp only at hk
          subst hk
          simp only
          rcases ih env' fun c hc => hl c (List.mem_cons_of_mem _ hc) with
            hcut | ⟨hnormal, y, hy, hmem⟩
          · exact .inl hcut
          · refine .inr ⟨hnormal, .ran b.1 :: x ++ y, ?_, ?_⟩
            · rw [hy, hx, List.append_assoc]
            · intro c hc
              rcases List.mem_cons.mp hc with rfl | hc
              · simp
              · exact List.mem_append_right _ (hmem c hc)
        · simp only at hk
          subst hk
          exact .inl rfl
  rcases hlist bs.reverse env fun b hb => hbs b (List.mem_reverse.mp hb) with hcut | ⟨hn, x, hx, hmem⟩
  · exact .inl hcut
  · exact .inr ⟨hn, x, hx, fun b hb => hmem b (List.mem_reverse.mpr hb)⟩

private theorem statement_adds_trace (fuel : Nat) (s : Stmt S V) (env : Env S) :
    ∃ x, (execAll fuel (cParserStatement s []).1 env).2.trace = env.trace ++ x := by
  have hs := (adds_statement (P := fun _ => True) fuel s [] (by simp) (by simp)).1
  obtain ⟨x, hx, -⟩ := adds_execAll hs env
  exact ⟨x, hx⟩

private theorem dueStmt_simple {s : Stmt S V} (hite : ∀ c t e, s ≠ .ite c t e) (hflush : s ≠ .flush)
    (reg : List (Body S V)) (ran : List Nat) (env : Env S) :
    dueStmt fuel s reg ran env = (execAll fuel (cParserStatement s []).1 env, ran) := by
  cases s with
  | ite c t e => exact absurd rfl (hite c t e)
  | flush => exact absurd rfl hflush
  | _ => rfl

private theorem atExit_runs {reg : List (Body S V)} {ran : List Nat} {k : Completion V} {env : Env S}
    (hbs : CompleteNormally fuel reg) {b : Body S V} (hb : b ∈ due reg ran)
    (hcut : (atExit fuel reg ((k, env), ran)).1 ≠ .cut) :
    ∃ x, (atExit fuel reg ((k, env), ran)).2.trace = env.trace ++ x ∧ Event.ran b.1 ∈ x := by
  have hdue : CompleteNormally fuel (due reg ran) := fun b hb => hbs b (List.mem_of_mem_filter hb)
  have hk : k ≠ .cut := by
    rintro rfl
    exact hcut rfl
  have hexit : atExit fuel reg ((k, env), ran) = resume k (runBodies fuel (due reg ran) env) :=
    protect_leave hk _ _
  rw [hexit] at hcut
  rw [hexit, resume_state]
  rcases runBodies_completes hdue env with hbad | ⟨-, x, hx, hmem⟩
  · rcases hrun : runBodies fuel (due reg ran) env with ⟨j, env'⟩
    rw [hrun] at hbad hcut
    simp only at hbad
    subst hbad
    exact absurd rfl hcut
  · exact ⟨x, hx, hmem b hb⟩

private theorem due_append (reg reg' : List (Body S V)) (ran : List Nat) :
    due (reg ++ reg') ran = due reg ran ++ due reg' ran := List.filter_append ..

private theorem atExit_extends (fuel : Nat) (reg : List (Body S V)) (ran : List Nat)
    (k : Completion V)
    (env : Env S) : ∃ y, (atExit fuel reg ((k, env), ran)).2.trace = env.trace ++ y := by
  by_cases hk : k = .cut
  · subst hk
    exact ⟨[], (List.append_nil _).symm⟩
  · obtain ⟨y, hy, -⟩ := runBodies_adds fuel (due reg ran) env
    refine ⟨y, ?_⟩
    rw [atExit, protect_leave hk, resume_state, hy]

private theorem dueRest_extends (fuel : Nat) (ps : List (Piece S V)) (reg : List (Body S V))
    (ran : List Nat)
    (env : Env S) : ∃ y, (dueRest fuel ps reg ran env).2.trace = env.trace ++ y := by
  induction ps using pieces_induction generalizing reg ran env with
  | nil => exact atExit_extends fuel _ ran .normal env
  | skip s ps ih =>
      rw [dueRest_skip]
      exact ih _ _ _
  | ite c t e ps iht ihe =>
      rw [dueRest_ite]
      split
      · exact iht _ _ _
      · exact ihe _ _ _
  | run s ps hite ih =>
      rcases hrun : dueStmt fuel s reg ran env with ⟨⟨k, env'⟩, ran'⟩
      have hstep : ∃ x, env'.trace = env.trace ++ x := by
        by_cases hflush : s = .flush
        · subst hflush
          obtain ⟨x, hx, -⟩ := runBodies_adds fuel (due reg ran) env
          simp only [dueStmt, Prod.mk.injEq] at hrun
          rw [hrun.1] at hx
          exact ⟨x, hx⟩
        · obtain ⟨x, hx⟩ := statement_adds_trace fuel s env
          rw [dueStmt_simple hite hflush, Prod.mk.injEq] at hrun
          rw [hrun.1] at hx
          exact ⟨x, hx⟩
      obtain ⟨x, hx⟩ := hstep
      by_cases hk : k = .normal
      · subst hk
        obtain ⟨y, hy⟩ := ih (reg ++ s.bodies) ran' env'
        exact ⟨x ++ y, by rw [dueRest_normal hrun, hy, hx, List.append_assoc]⟩
      · obtain ⟨y, hy⟩ := atExit_extends fuel (reg ++ s.bodies ++ bodiesOf ps) ran' k env'
        exact ⟨x ++ y, by rw [dueRest_abrupt hrun hk, hy, hx, List.append_assoc]⟩

private theorem dueRest_runs (ps : List (Piece S V)) {reg : List (Body S V)} {ran : List Nat}
    {env : Env S} (hbs : CompleteNormally fuel (reg ++ bodiesOf ps)) {b : Body S V}
    (hb : b ∈ due reg ran) (hcut : (dueRest fuel ps reg ran env).1 ≠ .cut) :
    ∃ x, (dueRest fuel ps reg ran env).2.trace = env.trace ++ x ∧ Event.ran b.1 ∈ x := by
  induction ps using pieces_induction generalizing reg ran env with
  | nil =>
      have hexit : dueRest fuel [] reg ran env = atExit fuel reg ((.normal, env), ran) := by
        simp [dueRest, duePieces, bodiesOf]
      rw [hexit] at hcut ⊢
      exact atExit_runs (fun c hc => hbs c (List.mem_append_left _ hc)) hb hcut
  | skip s ps ih =>
      rw [dueRest_skip] at hcut ⊢
      refine ih ?_ ?_ hcut
      · simpa [bodiesOf, Piece.stmt] using hbs
      · rw [due_append]
        exact List.mem_append_left _ hb
  | ite c t e ps iht ihe =>
      rw [dueRest_ite] at hcut ⊢
      split at hcut
      · rename_i hc
        rw [if_pos hc]
        exact iht (by simpa [bodiesOf, Piece.stmt, Stmt.bodies] using hbs) hb hcut
      · rename_i hc
        rw [if_neg hc]
        exact ihe (by simpa [bodiesOf, Piece.stmt, Stmt.bodies] using hbs) hb hcut
  | run s ps hite ih =>
      have hbs' : CompleteNormally fuel (reg ++ s.bodies ++ bodiesOf ps) := by
        simpa [bodiesOf, Piece.stmt] using hbs
      rcases hrun : dueStmt fuel s reg ran env with ⟨⟨k, env'⟩, ran'⟩
      by_cases hflush : s = .flush
      · -- the flush runs everything that is due
        subst hflush
        have hdue : CompleteNormally fuel (due reg ran) := fun c hc =>
          hbs c (List.mem_append_left _ (List.mem_of_mem_filter hc))
        have hbodies : runBodies fuel (due reg ran) env = (k, env') := by
          simp only [dueStmt, Prod.mk.injEq] at hrun
          exact hrun.1
        have hdone := runBodies_completes hdue env
        rw [hbodies] at hdone
        rcases hdone with hk | ⟨hk, x, hx, hmem⟩
        · obtain rfl : k = .cut := hk
          rw [dueRest_abrupt hrun (by simp)] at hcut
          exact absurd rfl hcut
        · obtain rfl : k = .normal := hk
          obtain ⟨y, hy⟩ := dueRest_extends fuel ps (reg ++ Stmt.flush.bodies) ran' env'
          refine ⟨x ++ y, ?_, List.mem_append_left _ (hmem b hb)⟩
          rw [dueRest_normal hrun, hy, hx, List.append_assoc]
      · obtain ⟨x, hx⟩ := statement_adds_trace fuel s env
        have hsimple := hrun
        rw [dueStmt_simple hite hflush, Prod.mk.injEq] at hsimple
        obtain ⟨hexec, rfl⟩ := hsimple
        rw [hexec] at hx
        have hb' : b ∈ due (reg ++ s.bodies) ran := by
          rw [due_append]
          exact List.mem_append_left _ hb
        by_cases hk : k = .normal
        · subst hk
          rw [dueRest_normal hrun] at hcut ⊢
          obtain ⟨y, hy, hmem⟩ := ih hbs' hb' hcut
          exact ⟨x ++ y, by rw [hy, hx, List.append_assoc], List.mem_append_right _ hmem⟩
        · rw [dueRest_abrupt hrun hk] at hcut ⊢
          have hb'' : b ∈ due (reg ++ s.bodies ++ bodiesOf ps) ran := by
            rw [due_append]
            exact List.mem_append_left _ hb'
          obtain ⟨y, hy, hmem⟩ := atExit_runs hbs' hb'' hcut
          exact ⟨x ++ y, by rw [hy, hx, List.append_assoc], List.mem_append_right _ hmem⟩

private theorem lowRest_adds {P : Nat → Prop} (ps : List (Piece S V)) (w : List (Body S V))
    (hw : ∀ b ∈ w, ∀ p ∈ bodyPlaces b, P p) (hps : ∀ q ∈ ps, ∀ p ∈ q.stmt.places, P p) :
    Adds P (lowRest fuel ps w) := by
  have hrest : (∀ t ∈ pieceTrees ps w, Adds P (exec fuel t)) ∧
      ∀ b ∈ lastWaiting ps w, ∀ p ∈ bodyPlaces b, P p := by
    induction ps generalizing w with
    | nil => exact ⟨by simp [pieceTrees], hw⟩
    | cons q ps ih =>
        have hq := hps q List.mem_cons_self
        have hw' : ∀ b ∈ q.stmt.waiting w, ∀ p ∈ bodyPlaces b, P p := by
          intro b hb p hp
          rcases mem_waiting hb with hb | hb
          · exact hw b hb p hp
          · exact hq p ((bodies_places_sublist q.stmt).subset (List.mem_flatMap.mpr ⟨b, hb, hp⟩))
        obtain ⟨htrees, hlast⟩ := ih (q.stmt.waiting w) hw' fun r hr => hps r
          (List.mem_cons_of_mem _ hr)
        refine ⟨?_, hlast⟩
        cases q with
        | skip s => exact htrees
        | run s =>
            have hwtrees : ∀ t ∈ w.map Body.tree, Adds P (exec fuel t) := by
              intro t ht
              obtain ⟨b, hb, rfl⟩ := List.mem_map.mp ht
              exact adds_body fuel b (hw b hb)
            intro t ht
            rcases List.mem_append.mp ht with ht | ht
            · exact (adds_statement fuel s _ hwtrees hq).1 t ht
            · exact htrees t ht
  refine adds_protect (adds_execAll hrest.1) (adds_mono ?_ (runBodies_adds fuel _))
  rintro p ⟨b, hb, hp⟩
  exact hrest.2 b hb p hp

private theorem lowRest_ne_of_lost {ps : List (Piece S V)} {w reg : List (Body S V)}
    {ran : List Nat} {env : Env S} (hbs : CompleteNormally fuel (reg ++ bodiesOf ps)) {b : Body S V}
    (hb : b ∈ due reg ran) (hw : ∀ c ∈ w, b.1 ∉ bodyPlaces c)
    (hps : ∀ q ∈ ps, b.1 ∉ q.stmt.places) (hcut : (lowRest fuel ps w env).1 ≠ .cut) :
    lowRest fuel ps w env ≠ dueRest fuel ps reg ran env := by
  intro heq
  obtain ⟨x, hx, hran⟩ := dueRest_runs ps hbs hb (heq ▸ hcut)
  have hadds : Adds (fun p => p ≠ b.1) (lowRest fuel ps w) :=
    lowRest_adds ps w (fun c hc p hp h => hw c hc (h ▸ hp)) fun q hq p hp h => hps q hq (h ▸ hp)
  obtain ⟨y, hy, hother⟩ := hadds env
  have hxy : x = y := by
    rw [heq, hx] at hy
    exact List.append_cancel_left hy
  exact hother b.1 (hxy ▸ hran) rfl

end Runs

section Agree

variable {fuel : Nat} {w reg : List (Body S V)} {ran : List Nat}

/-- The bodies that wait at this point of the text are those that are due, and their places and
those of the rest of the block are all different. -/
private structure Agree (w reg : List (Body S V)) (ran : List Nat) (ps : List (Piece S V)) :
    Prop where
  due_eq : due reg ran = w
  sep : (w.flatMap bodyPlaces ++ ps.flatMap fun q => q.stmt.places).Nodup
  fresh : ∀ p ∈ ran, ∀ q ∈ ps, p ∉ q.stmt.places

private theorem waiting_suffix_pieces {ps : List (Piece S V)}
    (hps : ∀ q ∈ ps, q.stmt.straight = true) (w : List (Body S V)) :
    ∃ drained, w ++ bodiesOf ps = drained ++ lastWaiting ps w ∧
      (drained = [] ↔ SkippablePieces ps w) := by
  induction ps generalizing w with
  | nil => exact ⟨[], by simp [bodiesOf, lastWaiting], by simp [SkippablePieces]⟩
  | cons q ps ih =>
      obtain ⟨d₁, h₁, hd₁⟩ := waiting_suffix (hps q List.mem_cons_self) w
      obtain ⟨d₂, h₂, hd₂⟩ := ih (fun r hr => hps r (List.mem_cons_of_mem _ hr)) (q.stmt.waiting w)
      have hbodies : bodiesOf (q :: ps) = q.stmt.bodies ++ bodiesOf ps := rfl
      refine ⟨d₁ ++ d₂, ?_, ?_⟩
      · rw [hbodies, lastWaiting, List.append_assoc, ← h₂, ← List.append_assoc, h₁,
          List.append_assoc]
      · rw [List.append_eq_nil_iff, hd₁, hd₂, SkippablePieces]

private theorem Agree.due_bodies {q : Piece S V} {ps : List (Piece S V)}
    (h : Agree w reg ran (q :: ps)) : due (reg ++ q.stmt.bodies) ran = w ++ q.stmt.bodies := by
  rw [due_append, h.due_eq]
  congr 1
  rw [due, List.filter_eq_self]
  intro b hb
  have hplace : b.1 ∈ q.stmt.places :=
    (bodies_places_sublist q.stmt).subset (List.mem_flatMap.mpr ⟨b, hb, List.mem_cons_self⟩)
  simp only [Bool.not_eq_true', List.contains_eq_mem, decide_eq_false_iff_not]
  intro hran
  exact h.fresh b.1 hran q List.mem_cons_self hplace

private theorem Agree.sep_bodies {q : Piece S V} {ps : List (Piece S V)}
    (h : Agree w reg ran (q :: ps)) :
    ((w ++ q.stmt.bodies).flatMap bodyPlaces ++ ps.flatMap fun q => q.stmt.places).Nodup := by
  refine h.sep.sublist ?_
  rw [List.flatMap_append, List.flatMap_cons, List.append_assoc]
  exact (List.Sublist.refl _).append ((bodies_places_sublist q.stmt).append (List.Sublist.refl _))

private theorem Agree.pass {q : Piece S V} {ps : List (Piece S V)} (h : Agree w reg ran (q :: ps))
    (hstraight : q.stmt.straight = true) (hskip : q.stmt.Skippable w) :
    Agree (q.stmt.waiting w) (reg ++ q.stmt.bodies) ran ps := by
  obtain ⟨drained, hsuffix, hdrained⟩ := waiting_suffix hstraight w
  rw [hdrained.mpr hskip, List.nil_append] at hsuffix
  refine ⟨h.due_bodies.trans hsuffix, hsuffix ▸ h.sep_bodies, ?_⟩
  exact fun p hp r hr => h.fresh p hp r (List.mem_cons_of_mem _ hr)

private theorem Agree.flush {q : Piece S V} {ps : List (Piece S V)} (h : Agree w reg ran (q :: ps)) :
    Agree [] reg (ran ++ w.map Prod.fst) ps where
  due_eq := by
    rw [due, List.filter_eq_nil_iff]
    intro b hb
    simp only [Bool.not_eq_true', List.contains_eq_mem, decide_eq_false_iff_not, not_not,
      List.mem_append]
    by_cases hran : b.1 ∈ ran
    · exact .inl hran
    · refine .inr (List.mem_map_of_mem ?_)
      rw [← h.due_eq, due, List.mem_filter]
      exact ⟨hb, by simpa using hran⟩
  sep := by
    refine h.sep.sublist ?_
    rw [List.flatMap_nil, List.nil_append, List.flatMap_cons]
    exact (List.sublist_append_right _ _).trans (List.sublist_append_right _ _)
  fresh := by
    intro p hp r hr hpr
    rcases List.mem_append.mp hp with hp | hp
    · exact h.fresh p hp r (List.mem_cons_of_mem _ hr) hpr
    · obtain ⟨b, hb, rfl⟩ := List.mem_map.mp hp
      refine List.disjoint_of_nodup_append h.sep
        (List.mem_flatMap.mpr ⟨b, hb, List.mem_cons_self⟩) ?_
      exact List.mem_flatMap.mpr ⟨r, List.mem_cons_of_mem _ hr, hpr⟩

private theorem drained_place {drained rest : List (Body S V)} {places : List Nat}
    (hsep : ((drained ++ rest).flatMap bodyPlaces ++ places).Nodup) {b : Body S V}
    (hb : b ∈ drained) : (∀ c ∈ rest, b.1 ∉ bodyPlaces c) ∧ b.1 ∉ places := by
  have hmem : b.1 ∈ drained.flatMap bodyPlaces := List.mem_flatMap.mpr ⟨b, hb, List.mem_cons_self⟩
  rw [List.flatMap_append, List.append_assoc] at hsep
  have hdisj := List.disjoint_of_nodup_append hsep hmem
  refine ⟨fun c hc hin => hdisj ?_, fun hin => hdisj (List.mem_append_right _ hin)⟩
  exact List.mem_append_left _ (List.mem_flatMap.mpr ⟨c, hc, hin⟩)

private theorem Agree.lost {q : Piece S V} {ps : List (Piece S V)} (h : Agree w reg ran (q :: ps))
    (hstraight : q.stmt.straight = true) (hskip : ¬ q.stmt.Skippable w) :
    ∃ b ∈ due (reg ++ q.stmt.bodies) ran, (∀ c ∈ q.stmt.waiting w, b.1 ∉ bodyPlaces c) ∧
      ∀ r ∈ ps, b.1 ∉ r.stmt.places := by
  obtain ⟨drained, hsuffix, hdrained⟩ := waiting_suffix hstraight w
  obtain ⟨b, hb⟩ := List.exists_mem_of_ne_nil drained fun hnil => hskip (hdrained.mp hnil)
  obtain ⟨hrest, hplaces⟩ := drained_place (hsuffix ▸ h.sep_bodies) hb
  refine ⟨b, ?_, hrest, ?_⟩
  · rw [h.due_bodies, hsuffix]
    exact List.mem_append_left _ hb
  · intro r hr hin
    exact hplaces (List.mem_flatMap.mpr ⟨r, hr, hin⟩)

private theorem bodiesOf_places_sublist (ps : List (Piece S V)) :
    ((bodiesOf ps).flatMap bodyPlaces).Sublist (ps.flatMap fun q => q.stmt.places) := by
  induction ps with
  | nil => simp [bodiesOf]
  | cons q ps ih =>
      have hbodies : bodiesOf (q :: ps) = q.stmt.bodies ++ bodiesOf ps := rfl
      rw [hbodies, List.flatMap_append, List.flatMap_cons]
      exact (bodies_places_sublist q.stmt).append ih

private theorem Agree.due_bodiesOf {ps : List (Piece S V)} (h : Agree w reg ran ps) :
    due (reg ++ bodiesOf ps) ran = w ++ bodiesOf ps := by
  rw [due_append, h.due_eq]
  congr 1
  rw [due, List.filter_eq_self]
  intro b hb
  obtain ⟨q, hq, hbq⟩ := List.mem_flatMap.mp hb
  have hplace : b.1 ∈ q.stmt.places :=
    (bodies_places_sublist q.stmt).subset (List.mem_flatMap.mpr ⟨b, hbq, List.mem_cons_self⟩)
  simp only [Bool.not_eq_true', List.contains_eq_mem, decide_eq_false_iff_not]
  exact fun hran => h.fresh b.1 hran q hq hplace

private theorem exit_eq_iff {ps : List (Piece S V)} (hps : ∀ q ∈ ps, q.stmt.straight = true)
    (hagree : Agree w reg ran ps) (hbs : CompleteNormally fuel (reg ++ bodiesOf ps))
    {k : Completion V} {env : Env S}
    (hcut : (protect (leave fun _ => k) (runBodies fuel (lastWaiting ps w)) env).1 ≠ .cut) :
    protect (leave fun _ => k) (runBodies fuel (lastWaiting ps w)) env =
        atExit fuel (reg ++ bodiesOf ps) ((k, env), ran) ↔ SkippablePieces ps w := by
  have hk : k ≠ .cut := by
    rintro rfl
    exact hcut rfl
  obtain ⟨drained, hsuffix, hdrained⟩ := waiting_suffix_pieces hps w
  have hsep : ((drained ++ lastWaiting ps w).flatMap bodyPlaces ++ []).Nodup := by
    rw [← hsuffix, List.append_nil]
    refine hagree.sep.sublist ?_
    rw [List.flatMap_append]
    exact (List.Sublist.refl _).append (bodiesOf_places_sublist ps)
  constructor
  · intro heq
    by_contra hskip
    obtain ⟨b, hb⟩ := List.exists_mem_of_ne_nil drained fun hnil => hskip (hdrained.mp hnil)
    have hdue : b ∈ due (reg ++ bodiesOf ps) ran := by
      rw [hagree.due_bodiesOf, hsuffix]
      exact List.mem_append_left _ hb
    obtain ⟨x, hx, hran⟩ := atExit_runs hbs hdue (heq ▸ hcut)
    obtain ⟨y, hy, hother⟩ := runBodies_adds fuel (lastWaiting ps w) env
    rw [← heq, protect_leave hk, resume_state, hy] at hx
    obtain ⟨c, hc, hin⟩ := hother b.1 (List.append_cancel_left hx ▸ hran)
    exact (drained_place hsep hb).1 c hc hin
  · intro hskip
    rw [hdrained.mpr hskip, List.nil_append] at hsuffix
    rw [atExit, hagree.due_bodiesOf, hsuffix]

private theorem simple_trees {s : Stmt S V} (hstraight : s.straight = true)
    (hite : ∀ c t e, s ≠ .ite c t e) (hflush : s ≠ .flush) (w : List (Tree S V)) :
    (cParserStatement s w).1 = (cParserStatement s []).1 := by
  cases s with
  | ite c t e => exact absurd rfl (hite c t e)
  | flush => exact absurd rfl hflush
  | loop test c next body =>
      simp only [Stmt.straight, Bool.not_eq_true'] at hstraight
      rw [cParserStatement, statement_of_not_touches hstraight, cParserStatement]
  | _ => rfl

private theorem simple_skippable {s : Stmt S V} (hite : ∀ c t e, s ≠ .ite c t e)
    (hflush : s ≠ .flush) (w : List (Body S V)) : s.Skippable w := by
  cases s with
  | ite c t e => exact absurd rfl (hite c t e)
  | flush => exact absurd rfl hflush
  | _ => trivial

private theorem simple_reached {s : Stmt S V} (hite : ∀ c t e, s ≠ .ite c t e)
    (w : List (Body S V)) (env : Env S) : s.Reached w env := by
  cases s with
  | ite c t e => exact absurd rfl (hite c t e)
  | _ => trivial

private theorem reachedPieces_normal {s : Stmt S V} (hite : ∀ c t e, s ≠ .ite c t e)
    (ps : List (Piece S V)) {env env' : Env S}
    (h : execAll fuel (cParserStatement s (w.map Body.tree)).1 env = (.normal, env')) :
    ReachedPieces fuel (.run s :: ps) w env ↔ ReachedPieces fuel ps (s.waiting w) env' := by
  simp only [ReachedPieces, simple_reached hite, true_and, h]

private theorem reachedPieces_abrupt {s : Stmt S V} (hite : ∀ c t e, s ≠ .ite c t e)
    (ps : List (Piece S V)) {env env' : Env S} {k : Completion V} (hk : k ≠ .normal)
    (h : execAll fuel (cParserStatement s (w.map Body.tree)).1 env = (k, env')) :
    ReachedPieces fuel (.run s :: ps) w env ↔ SkippablePieces ps (s.waiting w) := by
  simp only [ReachedPieces, simple_reached hite, true_and, h]
  cases k with
  | normal => exact absurd rfl hk
  | _ => rfl

/-- The rest of the block runs as it is due exactly when every flush that drains a body is executed.
The induction is along the execution; at the first drained flush that is passed over a body is lost
that is due and does not run any more. -/
private theorem lowRest_eq_iff {ps : List (Piece S V)} (hps : ∀ q ∈ ps, q.stmt.straight = true)
    (hagree : Agree w reg ran ps) (hbs : CompleteNormally fuel (reg ++ bodiesOf ps)) {env : Env S}
    (hcut : (lowRest fuel ps w env).1 ≠ .cut) :
    lowRest fuel ps w env = dueRest fuel ps reg ran env ↔ ReachedPieces fuel ps w env := by
  induction ps using pieces_induction generalizing w reg ran env with
  | nil =>
      have hdue : lowRest fuel [] w env = dueRest fuel [] reg ran env := by
        simp only [lowRest, pieceTrees, lastWaiting, dueRest, duePieces, atExit, bodiesOf,
          List.flatMap_nil, List.append_nil, hagree.due_eq, execAll]
        rfl
      simp [hdue, ReachedPieces]
  | skip s ps ih =>
      have hstraight := hps _ List.mem_cons_self
      have hbs' : CompleteNormally fuel (reg ++ s.bodies ++ bodiesOf ps) := by
        simpa [bodiesOf, Piece.stmt] using hbs
      have hlow : lowRest fuel (.skip s :: ps) w env = lowRest fuel ps (s.waiting w) env := rfl
      rw [hlow] at hcut
      rw [dueRest_skip, hlow]
      by_cases hskip : s.Skippable w
      · have hagree' : Agree (s.waiting w) (reg ++ s.bodies) ran ps := hagree.pass hstraight hskip
        rw [ih (fun q hq => hps q (List.mem_cons_of_mem _ hq)) hagree' hbs' hcut]
        simp [ReachedPieces, hskip]
      · obtain ⟨b, hb, hwait, hplaces⟩ := hagree.lost hstraight hskip
        have hne : lowRest fuel ps (s.waiting w) env ≠ dueRest fuel ps (reg ++ s.bodies) ran env :=
          lowRest_ne_of_lost hbs' hb hwait hplaces hcut
        simp [hne, ReachedPieces, hskip]
  | ite c t e ps iht ihe =>
      rw [lowRest_ite] at hcut ⊢
      rw [dueRest_ite, reachedPieces_ite]
      have hstraight := hps _ List.mem_cons_self
      simp only [Piece.stmt, Stmt.straight, Bool.and_eq_true] at hstraight
      have hrest : ∀ q ∈ ps, q.stmt.straight = true := fun q hq => hps q (List.mem_cons_of_mem _ hq)
      have hagree' : ∀ a b : Piece S V, a.stmt = t → b.stmt = e → Agree w reg ran (a :: b :: ps) := by
        rintro a b rfl rfl
        refine ⟨hagree.due_eq, by simpa [Piece.stmt, Stmt.places] using hagree.sep, ?_⟩
        intro p hp q hq
        have hfresh := hagree.fresh p hp
        simp only [List.forall_mem_cons, Piece.stmt, Stmt.places, List.mem_append, not_or] at hfresh
        rcases List.mem_cons.mp hq with rfl | hq
        · exact hfresh.1.1
        · rcases List.mem_cons.mp hq with rfl | hq
          · exact hfresh.1.2
          · exact hfresh.2 q hq
      by_cases hc : c env.store = true
      · simp only [if_pos hc] at hcut ⊢
        refine iht ?_ (hagree' _ _ rfl rfl) ?_ hcut
        · simpa [Piece.stmt] using ⟨hstraight.1, hstraight.2, hrest⟩
        · simpa [bodiesOf, Piece.stmt, Stmt.bodies] using hbs
      · simp only [if_neg hc] at hcut ⊢
        refine ihe ?_ (hagree' _ _ rfl rfl) ?_ hcut
        · simpa [Piece.stmt] using ⟨hstraight.1, hstraight.2, hrest⟩
        · simpa [bodiesOf, Piece.stmt, Stmt.bodies] using hbs
  | run s ps hite ih =>
      have hstraight : s.straight = true := hps _ List.mem_cons_self
      have hrest : ∀ q ∈ ps, q.stmt.straight = true := fun q hq => hps q (List.mem_cons_of_mem _ hq)
      have hbs' : CompleteNormally fuel (reg ++ s.bodies ++ bodiesOf ps) := by
        simpa [bodiesOf, Piece.stmt] using hbs
      rcases hrun : execAll fuel (cParserStatement s (w.map Body.tree)).1 env with ⟨k, env'⟩
      -- the statement runs as it is due, and the bodies that wait behind it are those due
      have hstep : ∃ ran', dueStmt fuel s reg ran env = ((k, env'), ran') ∧
          Agree (s.waiting w) (reg ++ s.bodies) ran' ps := by
        by_cases hflush : s = .flush
        · subst hflush
          have hbodies : runBodies fuel w env = (k, env') := by
            rw [← hrun, runBodies, cParserStatement, List.map_reverse]
          refine ⟨ran ++ w.map Prod.fst, by rw [dueStmt, hagree.due_eq, hbodies], ?_⟩
          simpa [Stmt.waiting, Stmt.bodies] using hagree.flush
        · refine ⟨ran, ?_, hagree.pass hstraight (simple_skippable hite hflush w)⟩
          rw [dueStmt_simple hite hflush, ← simple_trees hstraight hite hflush, hrun]
      obtain ⟨ran', hdue, hagree'⟩ := hstep
      by_cases hk : k = .normal
      · subst hk
        rw [lowRest_normal hrun] at hcut
        rw [lowRest_normal hrun, dueRest_normal hdue, reachedPieces_normal hite ps hrun]
        exact ih hrest hagree' hbs' hcut
      · rw [lowRest_abrupt hrun hk] at hcut
        rw [lowRest_abrupt hrun hk, dueRest_abrupt hdue hk, reachedPieces_abrupt hite ps hk hrun]
        exact exit_eq_iff hrest hagree' hbs' hcut

end Agree

section Block

private theorem pieceTrees_run (items : List (Stmt S V)) (w : List (Body S V)) :
    cParserCompound items (w.map Body.tree) =
      (pieceTrees (items.map .run) w, (lastWaiting (items.map .run) w).map Body.tree) := by
  induction items generalizing w with
  | nil => simp [cParserCompound, pieceTrees, lastWaiting]
  | cons s rest ih =>
      rw [cParserCompound]
      simp only [statement_defers, ih, List.map_cons, pieceTrees, lastWaiting, Piece.stmt]

private theorem duePieces_run (fuel : Nat) (items : List (Stmt S V)) (reg : List (Body S V))
    (ran : List Nat) (env : Env S) :
    duePieces fuel (items.map .run) reg ran env = dueItems fuel items reg ran env := by
  induction items generalizing reg ran env with
  | nil => rfl
  | cons s rest ih =>
      simp only [List.map_cons, duePieces, dueItems]
      rcases dueStmt fuel s reg ran env with ⟨⟨k, env'⟩, ran'⟩
      cases k with
      | normal => exact ih _ _ _
      | _ => rfl

private theorem skippablePieces_run (items : List (Stmt S V)) (w : List (Body S V)) :
    SkippablePieces (items.map .run) w ↔ SkippableAll items w := by
  induction items generalizing w with
  | nil => exact Iff.rfl
  | cons s rest ih => exact and_congr_right fun _ => ih _

private theorem reachedPieces_runs (fuel : Nat) (items : List (Stmt S V)) (w : List (Body S V))
    (env : Env S) : ReachedPieces fuel (items.map .run) w env ↔ ReachedAll fuel items w env := by
  induction items generalizing w env with
  | nil => exact Iff.rfl
  | cons s rest ih =>
      simp only [List.map_cons, ReachedPieces, ReachedAll]
      refine and_congr_right fun _ => ?_
      rcases execAll fuel (cParserStatement s (w.map Body.tree)).1 env with ⟨k, env'⟩
      cases k with
      | normal => exact ih _ _
      | _ => exact skippablePieces_run rest _

private theorem flatMap_places (items : List (Stmt S V)) :
    (items.map Piece.run).flatMap (fun q => q.stmt.places) = placesOf items := by
  induction items with
  | nil => rfl
  | cons s rest ih => rw [List.map_cons, List.flatMap_cons, ih, placesOf, Piece.stmt]

/-- In an execution of a block that leaves it, with bodies that complete normally, each body runs
once where it is due if and only if every flush that finds a body waiting is executed. -/
theorem flushBlock_runs_due_iff (fuel : Nat) (block : FlushBlock S V) (env : Env S)
    (hbodies : CompleteNormally fuel (block.items.flatMap Stmt.bodies))
    (hleft : (exec fuel (cParserCompoundStatement block.items) env).1 ≠ .cut) :
    exec fuel (cParserCompoundStatement block.items) env = dueBlock fuel block.items env ↔
      ReachedAll fuel block.items [] env := by
  have hlow : exec fuel (cParserCompoundStatement block.items) =
      lowRest fuel (block.items.map .run) [] := by
    have hparse := pieceTrees_run block.items ([] : List (Body S V))
    rw [List.map_nil] at hparse
    rw [cParserCompoundStatement, hparse]
    simp only [exec_wrapCleanup, lowRest, runBodies, cParserTakeDefers, List.map_reverse]
  have hall : bodiesOf (block.items.map .run) = block.items.flatMap Stmt.bodies := by
    rw [bodiesOf, List.flatMap_map]
    rfl
  have hdue : dueBlock fuel block.items env =
      dueRest fuel (block.items.map .run) [] [] env := by
    rw [dueBlock, dueRest, duePieces_run, hall, List.nil_append]
  have hagree : Agree ([] : List (Body S V)) [] [] (block.items.map .run) :=
    ⟨rfl, by rw [flatMap_places]; exact block.distinct, by simp⟩
  rw [hlow] at hleft
  rw [hlow, hdue, ← reachedPieces_runs]
  refine lowRest_eq_iff ?_ hagree (by rw [List.nil_append, hall]; exact hbodies) hleft
  intro q hq
  obtain ⟨s, hs, rfl⟩ := List.mem_map.mp hq
  exact List.all_eq_true.mp block.straight s hs

end Block

section Blocks

/-- `{ defer { A } if (c) defer; D; }`. -/
private def flushInBranch : FlushBlock Bool Unit where
  items := [.defer 1 [.log 'A'], .ite id .flush .empty, .log 'D']
  straight := by decide
  distinct := by decide

private theorem flushInBranch_bodies :
    CompleteNormally 1 (flushInBranch.items.flatMap Stmt.bodies) := by
  intro b hb env
  have hb' : b = (1, [.log 'A']) := by simpa [flushInBranch, Stmt.bodies] using hb
  subst hb'
  exact .inl rfl

/-- When the branch with the flush is taken the body runs there. -/
theorem taken_flush_runs_body :
    exec 1 (cParserCompoundStatement flushInBranch.items) ⟨[], true⟩ =
        (.normal, ⟨[.ran 1, .log 'A', .log 'D'], true⟩) ∧
      (exec 1 (cParserCompoundStatement flushInBranch.items) ⟨[], true⟩ =
          dueBlock 1 flushInBranch.items ⟨[], true⟩ ↔
        ReachedAll 1 flushInBranch.items [] ⟨[], true⟩) :=
  ⟨rfl, flushBlock_runs_due_iff 1 flushInBranch ⟨[], true⟩ flushInBranch_bodies
    (show Completion.normal ≠ _ by simp)⟩

/-- When the branch with the flush is not taken the body does not run at all. -/
theorem untaken_flush_loses_body :
    CompleteNormally 1 (flushInBranch.items.flatMap Stmt.bodies) ∧
      exec 1 (cParserCompoundStatement flushInBranch.items) ⟨[], false⟩ =
        (.normal, ⟨[.log 'D'], false⟩) ∧
      dueBlock 1 flushInBranch.items ⟨[], false⟩ =
        (.normal, ⟨[.log 'D', .ran 1, .log 'A'], false⟩) ∧
      exec 1 (cParserCompoundStatement flushInBranch.items) ⟨[], false⟩ ≠
        dueBlock 1 flushInBranch.items ⟨[], false⟩ := by
  have hrun : exec 1 (cParserCompoundStatement flushInBranch.items) ⟨[], false⟩ =
      (.normal, ⟨[.log 'D'], false⟩) := rfl
  have hdue : dueBlock 1 flushInBranch.items ⟨[], false⟩ =
      (.normal, ⟨[.log 'D', .ran 1, .log 'A'], false⟩) := rfl
  refine ⟨flushInBranch_bodies, hrun, hdue, ?_⟩
  rw [hrun, hdue]
  simp

end Blocks

end CZet.Defer
