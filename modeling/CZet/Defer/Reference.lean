/- source: src/gcc/gcc/c/c-parser.cc (c_parser_take_defers, c_czet_wrap_cleanup,
     c_parser_defer_statement, c_parser_compound_statement_nostart)
   digest: What deferred bodies mean when a block is left, and that the trees of programs without
     flushes run so. -/

import CZet.Defer.Lowering

set_option autoImplicit false
set_option relaxedAutoImplicit false

namespace CZet.Defer

open CZet.Lib.Control

variable {S V : Type}

mutual

/-- The reference run of a statement: a block that is left, in whatever way, runs the bodies
registered in it in reverse order, and then goes where it was going. -/
def refRun (fuel : Nat) : Stmt S V → Run (Env S) V
  | .log c => emit (.log c)
  | .act f => step (onStore f)
  | .ret v => leave fun env => .ret (v env.store)
  | .brk => leave fun _ => .brk
  | .cont => leave fun _ => .cont
  | .goto l => leave fun _ => .goto l
  | .empty => skip
  | .ite c t e => branch (fun env => c env.store) (refRun fuel t) (refRun fuel e)
  | .loop test c next body =>
      loop (fun env => c env.store) (onStore next) (refRun fuel body) fuel test
  | .block items => protect (refRunAll fuel items) (seqAll (registeredAll fuel items).reverse)
  | .defer .. => skip
  | .flush => skip

def refRunAll (fuel : Nat) : List (Stmt S V) → Run (Env S) V
  | [] => skip
  | s :: rest => seq (refRun fuel s) (refRunAll fuel rest)

/-- The bodies that a statement registers in the block around it, in the order of the text: those
of the statement itself, and of unbraced branches and loop bodies. -/
def registered (fuel : Nat) : Stmt S V → List (Run (Env S) V)
  | .ite _ t e => registered fuel t ++ registered fuel e
  | .loop _ _ _ body => registered fuel body
  | .defer place body =>
      [seq (emit (.ran place))
        (protect (refRunAll fuel body) (seqAll (registeredAll fuel body).reverse))]
  | _ => []

def registeredAll (fuel : Nat) : List (Stmt S V) → List (Run (Env S) V)
  | [] => []
  | s :: rest => registered fuel s ++ registeredAll fuel rest

end

/-- The reference run of a block. -/
def refBlock (fuel : Nat) (items : List (Stmt S V)) : Run (Env S) V :=
  protect (refRunAll fuel items) (seqAll (registeredAll fuel items).reverse)

mutual

/-- There is no `defer;` in the statement, at any depth. -/
def Stmt.FlushFree : Stmt S V → Prop
  | .ite _ t e => t.FlushFree ∧ e.FlushFree
  | .loop _ _ _ body => body.FlushFree
  | .block items => FlushFreeAll items
  | .defer _ body => FlushFreeAll body
  | .flush => False
  | _ => True

def FlushFreeAll : List (Stmt S V) → Prop
  | [] => True
  | s :: rest => s.FlushFree ∧ FlushFreeAll rest

end

/-- The trees `ts` and the bodies pushed on `parser->defers` are those of a reference run and of the
bodies registered. -/
private def Lowers (fuel : Nat) (out : List (Tree S V) × List (Tree S V))
    (defers : List (Tree S V)) (run : Run (Env S) V) (bodies : List (Run (Env S) V)) : Prop :=
  execAll fuel out.1 = run ∧ ∃ bs, out.2 = defers ++ bs ∧ bs.map (exec fuel) = bodies

private theorem lowers_plain (fuel : Nat) (ts defers : List (Tree S V)) :
    Lowers fuel (ts, defers) defers (execAll fuel ts) [] :=
  ⟨rfl, [], (List.append_nil _).symm, rfl⟩

private theorem exec_compound {fuel : Nat} {items : List (Stmt S V)}
    (h : Lowers fuel (cParserCompound items []) [] (refRunAll fuel items)
      (registeredAll fuel items)) :
    exec fuel (cCzetWrapCleanup (cParserCompound items []).1
        (cParserTakeDefers (cParserCompound items []).2)) = refBlock fuel items := by
  obtain ⟨hrun, bs, hdefers, hbodies⟩ := h
  rw [exec_wrapCleanup, hrun, hdefers, refBlock, cParserTakeDefers, List.nil_append, execAll_eq,
    List.map_reverse, hbodies]

mutual

private theorem lowers_statement (fuel : Nat) (s : Stmt S V) (hs : s.FlushFree)
    (defers : List (Tree S V)) :
    Lowers fuel (cParserStatement s defers) defers (refRun fuel s) (registered fuel s) := by
  cases s with
  | log c =>
      have := lowers_plain fuel [.log c] defers
      simpa only [execAll, exec, seq_skip, cParserStatement, refRun, registered] using this
  | act f =>
      have := lowers_plain fuel [.act f] defers
      simpa only [execAll, exec, seq_skip, cParserStatement, refRun, registered] using this
  | ret v =>
      have := lowers_plain fuel [.ret v] defers
      simpa only [execAll, exec, seq_skip, cParserStatement, refRun, registered] using this
  | brk =>
      have := lowers_plain fuel [.brk] defers
      simpa only [execAll, exec, seq_skip, cParserStatement, refRun, registered] using this
  | cont =>
      have := lowers_plain fuel [.cont] defers
      simpa only [execAll, exec, seq_skip, cParserStatement, refRun, registered] using this
  | goto l =>
      have := lowers_plain fuel [.goto l] defers
      simpa only [execAll, exec, seq_skip, cParserStatement, refRun, registered] using this
  | empty =>
      have := lowers_plain fuel [] defers
      simpa only [execAll, cParserStatement, refRun, registered] using this
  | ite c t e =>
      -- the bodies of the second branch are pushed behind those of the first
      obtain ⟨hrun, bs, hdefers, hbodies⟩ := lowers_statement fuel t hs.1 defers
      obtain ⟨hrun', bs', hdefers', hbodies'⟩ :=
        lowers_statement fuel e hs.2 (cParserStatement t defers).2
      refine ⟨?_, bs ++ bs', ?_, ?_⟩
      · simp only [cParserStatement, execAll, exec, seq_skip, hrun, hrun', refRun]
      · simp only [cParserStatement]
        rw [hdefers', hdefers, List.append_assoc]
      · rw [List.map_append, hbodies, hbodies', registered]
  | loop test c next body =>
      obtain ⟨hrun, bs, hdefers, hbodies⟩ := lowers_statement fuel body hs defers
      refine ⟨?_, bs, ?_, ?_⟩
      · simp only [cParserStatement, execAll, exec, seq_skip, hrun, refRun]
      · simp only [cParserStatement, hdefers]
      · rw [hbodies, registered]
  | block items =>
      have hblock := exec_compound (lowers_compound fuel items hs [])
      refine ⟨?_, [], ?_, ?_⟩
      · simp only [cParserStatement, execAll, seq_skip, hblock, refRun, refBlock]
      · simp only [cParserStatement, List.append_nil]
      · simp only [List.map_nil, registered]
  | defer place body =>
      have hblock := exec_compound (lowers_compound fuel body hs [])
      refine ⟨?_, [.deferred place (cParserCompoundStatement body)], ?_, ?_⟩
      · simp only [cParserStatement, execAll, refRun]
      · simp only [cParserStatement, cParserCompoundStatement]
      · simp only [List.map_cons, List.map_nil, exec, cParserCompoundStatement, hblock, registered,
          refBlock]
  | flush => exact hs.elim

private theorem lowers_compound (fuel : Nat) (items : List (Stmt S V)) (hitems : FlushFreeAll items)
    (defers : List (Tree S V)) :
    Lowers fuel (cParserCompound items defers) defers (refRunAll fuel items)
      (registeredAll fuel items) := by
  cases items with
  | nil =>
      have := lowers_plain fuel [] defers
      simpa only [execAll, cParserCompound, refRunAll, registeredAll] using this
  | cons s rest =>
      obtain ⟨hrun, bs, hdefers, hbodies⟩ := lowers_statement fuel s hitems.1 defers
      obtain ⟨hrun', bs', hdefers', hbodies'⟩ :=
        lowers_compound fuel rest hitems.2 (cParserStatement s defers).2
      refine ⟨?_, bs ++ bs', ?_, ?_⟩
      · simp only [cParserCompound, execAll_append, hrun, hrun', refRunAll]
      · simp only [cParserCompound]
        rw [hdefers', hdefers, List.append_assoc]
      · rw [List.map_append, hbodies, hbodies', registeredAll]

end

/-- The tree of a block without flushes runs as the reference does: the same trace, the same
variables and the same way of leaving the block, from every state and for every fuel. -/
theorem compound_runs_as_reference (fuel : Nat) (items : List (Stmt S V))
    (hitems : FlushFreeAll items) :
    exec fuel (cParserCompoundStatement items) = refBlock fuel items :=
  exec_compound (lowers_compound fuel items hitems [])

section Programs

/-- `{ defer { A } while (i < 3) { defer { C } w; if (i < 2) continue; t; } return i; }`, where the
loop counts `i`, and `A` sets it to 0. -/
private def counting : List (Stmt Nat Nat) :=
  [.defer 1 [.log 'A', .act fun _ => 0],
    .loop true (fun i => decide (i < 3)) (· + 1) (.block
      [.defer 2 [.log 'C'], .log 'w', .ite (fun i => decide (i < 2)) .cont .empty, .log 't']),
    .ret id]

/-- The value returned is the one before the deferred body of the function runs. -/
theorem counting_runs :
    exec 5 (cParserCompoundStatement counting) ⟨[], 0⟩ =
        (.ret 3, ⟨[.log 'w', .ran 2, .log 'C', .log 'w', .ran 2, .log 'C', .log 'w', .log 't',
          .ran 2, .log 'C', .ran 1, .log 'A'], 0⟩) ∧
      exec 5 (cParserCompoundStatement counting) = refBlock 5 counting := by
  refine ⟨rfl, compound_runs_as_reference 5 counting ?_⟩
  simp [counting, FlushFreeAll, Stmt.FlushFree]

end Programs

end CZet.Defer
