/- source: src/gcc/gcc/c/c-parser.cc (c_parser_flush_defers, c_parser_take_defers,
     c_czet_wrap_cleanup, c_parser_defer_statement, c_parser_compound_statement,
     c_parser_compound_statement_nostart, c_parser_statement_after_labels)
   digest: Statements with deferred bodies, the trees that the parser builds of them, and their
     runs. -/

import CZet.Lib.Control

set_option autoImplicit false
set_option relaxedAutoImplicit false

namespace CZet.Defer

open CZet.Lib.Control

/-- A statement as it is written. The branches of a conditional and the body of a loop are
statements, with or without braces; `loop` is `while` and `for`, or `do` when the first test is left
out; `goto` leaves the outermost block. A registration is known by its place in the source. -/
inductive Stmt (S V : Type)
  | log (c : Char)
  | act (f : S → S)
  | ret (value : S → V)
  | brk
  | cont
  | goto (label : String)
  | empty
  | ite (c : S → Bool) (t e : Stmt S V)
  | loop (test : Bool) (c : S → Bool) (next : S → S) (body : Stmt S V)
  | block (items : List (Stmt S V))
  | defer (place : Nat) (body : List (Stmt S V))
  | flush

/-- A statement tree; `deferred` is the tree of a deferred body. -/
inductive Tree (S V : Type)
  | log (c : Char)
  | act (f : S → S)
  | ret (value : S → V)
  | brk
  | cont
  | goto (label : String)
  | cond (c : S → Bool) (t e : List (Tree S V))
  | loop (test : Bool) (c : S → Bool) (next : S → S) (body : List (Tree S V))
  | bind (body : List (Tree S V))
  | tryFinally (body cleanup : List (Tree S V))
  | deferred (place : Nat) (body : Tree S V)

variable {S V : Type}

/-- `c_parser_take_defers`; the empty list is `NULL`. -/
def cParserTakeDefers (defers : List (Tree S V)) : List (Tree S V) := defers.reverse

/-- The end of `c_parser_compound_statement`, with `c_czet_wrap_cleanup`. -/
def cCzetWrapCleanup (body cleanup : List (Tree S V)) : Tree S V :=
  match cleanup with
  | [] => .bind body
  | _ => .bind [.tryFinally body cleanup]

mutual

/-- The statements added for a statement, and `parser->defers` behind it. -/
def cParserStatement : Stmt S V → List (Tree S V) → List (Tree S V) × List (Tree S V)
  | .log c, defers => ([.log c], defers)
  | .act f, defers => ([.act f], defers)
  | .ret v, defers => ([.ret v], defers)
  | .brk, defers => ([.brk], defers)
  | .cont, defers => ([.cont], defers)
  | .goto l, defers => ([.goto l], defers)
  | .empty, defers => ([], defers)
  | .ite c t e, defers =>
      let (ts, defers₁) := cParserStatement t defers
      let (es, defers₂) := cParserStatement e defers₁
      ([.cond c ts es], defers₂)
  | .loop test c next body, defers =>
      let (bs, defers₁) := cParserStatement body defers
      ([.loop test c next bs], defers₁)
  | .block items, defers =>
      let (ts, own) := cParserCompound items []
      ([cCzetWrapCleanup ts (cParserTakeDefers own)], defers)
  | .defer place body, defers =>
      let (ts, own) := cParserCompound body []
      ([], defers ++ [.deferred place (cCzetWrapCleanup ts (cParserTakeDefers own))])
  | .flush, defers => (defers.reverse, [])

/-- `c_parser_compound_statement_nostart`. -/
def cParserCompound : List (Stmt S V) → List (Tree S V) → List (Tree S V) × List (Tree S V)
  | [], defers => ([], defers)
  | s :: rest, defers =>
      let (ts, defers₁) := cParserStatement s defers
      let (us, defers₂) := cParserCompound rest defers₁
      (ts ++ us, defers₂)

end

/-- `c_parser_compound_statement`. -/
def cParserCompoundStatement (items : List (Stmt S V)) : Tree S V :=
  let (ts, own) := cParserCompound items []
  cCzetWrapCleanup ts (cParserTakeDefers own)

inductive Event
  | log (c : Char)
  | ran (place : Nat)
  deriving DecidableEq

/-- The trace so far and the variables of the program. -/
structure Env (S : Type) where
  trace : List Event
  store : S

def Env.emit (env : Env S) (e : Event) : Env S := { env with trace := env.trace ++ [e] }

def emit (e : Event) : Run (Env S) V := step fun env => env.emit e

def onStore (f : S → S) (env : Env S) : Env S := { env with store := f env.store }

mutual

def exec (fuel : Nat) : Tree S V → Run (Env S) V
  | .log c => emit (.log c)
  | .act f => step (onStore f)
  | .ret v => leave fun env => .ret (v env.store)
  | .brk => leave fun _ => .brk
  | .cont => leave fun _ => .cont
  | .goto l => leave fun _ => .goto l
  | .cond c t e => branch (fun env => c env.store) (execAll fuel t) (execAll fuel e)
  | .loop test c next body =>
      loop (fun env => c env.store) (onStore next) (execAll fuel body) fuel test
  | .bind body => execAll fuel body
  | .tryFinally body cleanup => protect (execAll fuel body) (execAll fuel cleanup)
  | .deferred place body => seq (emit (.ran place)) (exec fuel body)

def execAll (fuel : Nat) : List (Tree S V) → Run (Env S) V
  | [] => skip
  | t :: ts => seq (exec fuel t) (execAll fuel ts)

end

theorem execAll_eq (fuel : Nat) (ts : List (Tree S V)) :
    execAll fuel ts = seqAll (ts.map (exec fuel)) := by
  induction ts with
  | nil => simp only [execAll, List.map_nil, seqAll]
  | cons t ts ih => simp only [execAll, List.map_cons, seqAll, ih]

theorem execAll_append (fuel : Nat) (ts us : List (Tree S V)) :
    execAll fuel (ts ++ us) = seq (execAll fuel ts) (execAll fuel us) := by
  rw [execAll_eq, execAll_eq, execAll_eq, List.map_append, seqAll_append]

/-- Whether or not there is a cleanup, the block runs as if there were one. -/
theorem exec_wrapCleanup (fuel : Nat) (body cleanup : List (Tree S V)) :
    exec fuel (cCzetWrapCleanup body cleanup) =
      protect (execAll fuel body) (execAll fuel cleanup) := by
  cases cleanup with
  | nil => simp only [cCzetWrapCleanup, exec, execAll, protect_skip]
  | cons c cs => simp only [cCzetWrapCleanup, exec, execAll, seq_skip]

end CZet.Defer
