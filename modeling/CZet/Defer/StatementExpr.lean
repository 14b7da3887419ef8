/- source: src/gcc/gcc/c/c-parser.cc (c_parser_postfix_expression, c_parser_take_defers,
     c_czet_wrap_cleanup), src/gcc/gcc/c/c-typeck.cc (c_finish_stmt_expr, c_end_compound_stmt)
   digest: Statement expressions with deferred bodies, the trees built of them, and when those have
     the type and the value of the last expression. -/

import Mathlib.Data.List.Forall2

set_option autoImplicit false
set_option relaxedAutoImplicit false

namespace CZet.Defer.StatementExpr

inductive ValueType
  | void
  | object (uid : Nat)
  deriving DecidableEq, Repr

mutual

/-- An expression; `prim` is any other operator, call, constant or variable, by its location. -/
inductive Expr
  | prim (loc : Nat) (type : ValueType) (args : List Expr)
  | stmtExpr (items : List Item) (last : Expr)

/-- The statements and declarations in front of the last expression, and in blocks and deferred
bodies; the branches of a conditional have braces. -/
inductive Item
  | expr (e : Expr)
  | decl (loc : Nat) (inits : List Expr)
  | block (items : List Item)
  | ite (c : Expr) (t e : List Item)
  | defer (body : List Item)
  | flush

end

mutual

/-- `target` is a `TARGET_EXPR` whose body stores its value with `setTmp`. -/
inductive ExprTree
  | prim (loc : Nat) (type : ValueType) (args : List ExprTree)
  | bindExpr (body : List StmtTree)
  | target (type : ValueType) (body : List StmtTree)

inductive StmtTree
  | expr (e : ExprTree)
  | setTmp (e : ExprTree)
  | declExpr (loc : Nat) (inits : List ExprTree)
  | bind (body : List StmtTree)
  | tryFinally (body cleanup : List StmtTree)
  | cond (c : ExprTree) (t e : List StmtTree)

end

def ExprTree.type : ExprTree → ValueType
  | .prim _ type _ => type
  | .bindExpr _ => .void
  | .target type _ => type

/-- The type that C gives an expression. -/
def Expr.type : Expr → ValueType
  | .prim _ type _ => type
  | .stmtExpr _ last => last.type

def Item.isDecl : Item → Bool
  | .decl .. => true
  | _ => false

section Lowering

mutual

/-- The expression at the end of a statement, looking through protected bodies. -/
def located : StmtTree → Option ExprTree
  | .expr e => some e
  | .tryFinally body _ => locatedAll body
  | _ => none

def locatedAll : List StmtTree → Option ExprTree
  | [] => none
  | t :: ts => if ts.isEmpty then located t else locatedAll ts

end

mutual

/-- Store the value of the expression at the end in the temporary. -/
def storeLast : StmtTree → StmtTree
  | .expr e => .setTmp e
  | .tryFinally body cleanup => .tryFinally (storeLastAll body) cleanup
  | t => t

def storeLastAll : List StmtTree → List StmtTree
  | [] => []
  | t :: ts => if ts.isEmpty then [storeLast t] else t :: storeLastAll ts

end

/-- `c_finish_stmt_expr`; `vars` says whether the block has declarations. -/
def cFinishStmtExpr (vars : Bool) (body : List StmtTree) : ExprTree :=
  match body, vars with
  | [.expr e], false => e
  | body, _ =>
      match locatedAll body with
      | none => .bindExpr body
      | some e => if e.type = .void then .bindExpr body else .target e.type (storeLastAll body)

def cParserTakeDefers (defers : List StmtTree) : List StmtTree := defers.reverse

/-- The end of `c_parser_compound_statement`: a `BIND_EXPR`, of type void. -/
def cCzetWrapCleanup (body cleanup : List StmtTree) : StmtTree :=
  match cleanup with
  | [] => .bind body
  | _ => .bind [.tryFinally body cleanup]

mutual

/-- The tree of an expression; the cleanup of a statement expression is added behind its last
statement. -/
def lowerExpr : Expr → ExprTree
  | .prim loc type args => .prim loc type (lowerArgs args)
  | .stmtExpr items last =>
      let r := lowerItems items []
      cFinishStmtExpr (items.any Item.isDecl)
        (r.1 ++ .expr (lowerExpr last) :: cParserTakeDefers r.2)

def lowerArgs : List Expr → List ExprTree
  | [] => []
  | e :: es => lowerExpr e :: lowerArgs es

/-- The statements added for an item, and `parser->defers` behind it. -/
def lowerItem : Item → List StmtTree → List StmtTree × List StmtTree
  | .expr e, defers => ([.expr (lowerExpr e)], defers)
  | .decl loc inits, defers => ([.declExpr loc (lowerArgs inits)], defers)
  | .block items, defers =>
      let r := lowerItems items []
      ([cCzetWrapCleanup r.1 (cParserTakeDefers r.2)], defers)
  | .ite c t e, defers =>
      let rt := lowerItems t []
      let re := lowerItems e []
      ([.cond (lowerExpr c) [cCzetWrapCleanup rt.1 (cParserTakeDefers rt.2)]
        [cCzetWrapCleanup re.1 (cParserTakeDefers re.2)]], defers)
  | .defer body, defers =>
      let r := lowerItems body []
      ([], defers ++ [cCzetWrapCleanup r.1 (cParserTakeDefers r.2)])
  | .flush, defers => (cParserTakeDefers defers, [])

def lowerItems : List Item → List StmtTree → List StmtTree × List StmtTree
  | [], defers => ([], defers)
  | i :: is, defers =>
      let r := lowerItem i defers
      let rs := lowerItems is r.2
      (r.1 ++ rs.1, rs.2)

end

end Lowering

/-- What expressions and declarations do. -/
structure Machine (V S : Type) where
  noValue : V
  prim : Nat → List V → S → V × S
  truth : V → Bool
  declare : Nat → List V → S → S

section Evaluation

variable {V S : Type} (M : Machine V S)

/-- A primitive expression of type void has no value. -/
def Machine.compute (loc : Nat) (type : ValueType) (vs : List V) (s : S) : V × S :=
  let r := M.prim loc vs s
  (if type = .void then M.noValue else r.1, r.2)

mutual

def evalTree : ExprTree → S → V × S
  | .prim loc type args, s =>
      let r := evalTrees args s
      M.compute loc type r.1 r.2
  | .bindExpr body, s => (M.noValue, (runTrees body (none, s)).2)
  | .target _ body, s =>
      let r := runTrees body (none, s)
      (r.1.getD M.noValue, r.2)

def evalTrees : List ExprTree → S → List V × S
  | [], s => ([], s)
  | t :: ts, s =>
      let r := evalTree t s
      let rs := evalTrees ts r.2
      (r.1 :: rs.1, rs.2)

/-- The run of a statement that reaches its end, with the temporary of the statement expression
around it. -/
def runTree : StmtTree → Option V × S → Option V × S
  | .expr e, (tmp, s) => (tmp, (evalTree e s).2)
  | .setTmp e, (_, s) =>
      let r := evalTree e s
      (some r.1, r.2)
  | .declExpr loc inits, (tmp, s) =>
      let r := evalTrees inits s
      (tmp, M.declare loc r.1 r.2)
  | .bind body, st => runTrees body st
  | .tryFinally body cleanup, st => runTrees cleanup (runTrees body st)
  | .cond c t e, (tmp, s) =>
      let r := evalTree c s
      if M.truth r.1 then runTrees t (tmp, r.2) else runTrees e (tmp, r.2)

def runTrees : List StmtTree → Option V × S → Option V × S
  | [], st => st
  | t :: ts, st => runTrees ts (runTree t st)

end

/-- Run the bodies in the order of the list. -/
def runBodies (bodies : List (S → S)) (s : S) : S :=
  bodies.foldl (fun s body => body s) s

mutual

/-- The reference: the last expression is evaluated, then the bodies still registered run in
reverse order. -/
def refExpr : Expr → S → V × S
  | .prim loc type args, s =>
      let r := refArgs args s
      M.compute loc type r.1 r.2
  | .stmtExpr items last, s =>
      let r := refItems items [] s
      let v := refExpr last r.2
      (v.1, runBodies r.1.reverse v.2)

def refArgs : List Expr → S → List V × S
  | [], s => ([], s)
  | e :: es, s =>
      let r := refExpr e s
      let rs := refArgs es r.2
      (r.1 :: rs.1, rs.2)

/-- The bodies registered in the block behind an item, and the state. -/
def refItem : Item → List (S → S) → S → List (S → S) × S
  | .expr e, bodies, s => (bodies, (refExpr e s).2)
  | .decl loc inits, bodies, s =>
      let r := refArgs inits s
      (bodies, M.declare loc r.1 r.2)
  | .block items, bodies, s =>
      let r := refItems items [] s
      (bodies, runBodies r.1.reverse r.2)
  | .ite c t e, bodies, s =>
      let v := refExpr c s
      if M.truth v.1 then
        let r := refItems t [] v.2
        (bodies, runBodies r.1.reverse r.2)
      else
        let r := refItems e [] v.2
        (bodies, runBodies r.1.reverse r.2)
  | .defer body, bodies, s =>
      (bodies ++ [fun s =>
        let r := refItems body [] s
        runBodies r.1.reverse r.2], s)
  | .flush, bodies, s => ([], runBodies bodies.reverse s)

def refItems : List Item → List (S → S) → S → List (S → S) × S
  | [], bodies, s => (bodies, s)
  | i :: is, bodies, s =>
      let r := refItem i bodies s
      refItems is r.1 r.2

end

end Evaluation

section Yielding

mutual

/-- The statement expressions in an expression, itself included, also in deferred bodies. -/
def Expr.stmtExprs : Expr → List Expr
  | .prim _ _ args => argStmtExprs args
  | .stmtExpr items last => .stmtExpr items last :: (itemsStmtExprs items ++ last.stmtExprs)

def argStmtExprs : List Expr → List Expr
  | [] => []
  | e :: es => e.stmtExprs ++ argStmtExprs es

def Item.stmtExprs : Item → List Expr
  | .expr e => e.stmtExprs
  | .decl _ inits => argStmtExprs inits
  | .block items => itemsStmtExprs items
  | .ite c t e => c.stmtExprs ++ itemsStmtExprs t ++ itemsStmtExprs e
  | .defer body => itemsStmtExprs body
  | .flush => []

def itemsStmtExprs : List Item → List Expr
  | [] => []
  | i :: is => i.stmtExprs ++ itemsStmtExprs is

end

/-- The tree has the type and the value of the last expression, evaluated in front of the deferred
bodies, which run once each in reverse order. -/
structure YieldsLast (e : Expr) : Prop where
  type : (lowerExpr e).type = e.type
  value : ∀ (V S : Type) (M : Machine V S) (s : S), evalTree M (lowerExpr e) s = refExpr M e s

/-- How many bodies are registered behind the items, starting from `n`. -/
def pendingDefers : List Item → Nat → Nat
  | [], n => n
  | .defer _ :: is, n => pendingDefers is (n + 1)
  | .flush :: is, _ => pendingDefers is 0
  | _ :: is, n => pendingDefers is n

/-- No body is registered at the closing brace, or the last expression has no value. -/
def NothingPending : Expr → Prop
  | .prim .. => True
  | .stmtExpr items last => pendingDefers items 0 = 0 ∨ last.type = .void

end Yielding

section Behaviour

variable {V S : Type} {M : Machine V S}

private theorem runTrees_append (ts us : List StmtTree) (st : Option V × S) :
    runTrees M (ts ++ us) st = runTrees M us (runTrees M ts st) := by
  induction ts generalizing st with
  | nil => rfl
  | cons t ts ih => exact ih (runTree M t st)

private theorem runTree_wrapCleanup (body cleanup : List StmtTree) (st : Option V × S) :
    runTree M (cCzetWrapCleanup body cleanup) st = runTrees M cleanup (runTrees M body st) := by
  cases cleanup with
  | nil => rfl
  | cons c cs =>
      simp only [cCzetWrapCleanup, runTree]
      rfl

private def Registered (M : Machine V S) (defers : List StmtTree) (bodies : List (S → S)) : Prop :=
  List.Forall₂ (fun t body => ∀ tmp s, runTree M t (tmp, s) = (tmp, body s)) defers bodies

private theorem registered_run {defers : List StmtTree} {bodies : List (S → S)}
    (h : Registered M defers bodies) (tmp : Option V) (s : S) :
    runTrees M defers (tmp, s) = (tmp, runBodies bodies s) := by
  induction h generalizing s with
  | nil => rfl
  | cons hhead _ ih =>
      rw [runTrees, hhead]
      exact ih _

private theorem registered_take {defers : List StmtTree} {bodies : List (S → S)}
    (h : Registered M defers bodies) : Registered M (cParserTakeDefers defers) bodies.reverse :=
  List.forall₂_reverse_iff.mpr h

private theorem registered_push {defers : List StmtTree} {bodies : List (S → S)} {t : StmtTree}
    {body : S → S} (h : Registered M defers bodies)
    (ht : ∀ tmp s, runTree M t (tmp, s) = (tmp, body s)) :
    Registered M (defers ++ [t]) (bodies ++ [body]) :=
  List.rel_append h (List.Forall₂.cons ht List.Forall₂.nil)

/-- What the statements `out.1` and the bodies `out.2` have to do for an item or a list of them. -/
private def Follows (M : Machine V S) (out : List StmtTree × List StmtTree)
    (run : S → List (S → S) × S) : Prop :=
  ∀ s, (∀ tmp, runTrees M out.1 (tmp, s) = (tmp, (run s).2)) ∧ Registered M out.2 (run s).1

private theorem block_run {items : List Item}
    (h : Follows M (lowerItems items []) (refItems M items [])) (tmp : Option V) (s : S) :
    runTree M (cCzetWrapCleanup (lowerItems items []).1 (cParserTakeDefers (lowerItems items []).2))
        (tmp, s) =
      (tmp, runBodies (refItems M items [] s).1.reverse (refItems M items [] s).2) := by
  obtain ⟨hrun, hreg⟩ := h s
  rw [runTree_wrapCleanup, hrun, registered_run (registered_take hreg)]

private theorem lowerItems_pending (items : List Item) (defers : List StmtTree) :
    (lowerItems items defers).2.length = pendingDefers items defers.length := by
  induction items generalizing defers with
  | nil => rfl
  | cons i is ih =>
      rw [lowerItems]
      dsimp only
      rw [ih]
      cases i <;> simp [lowerItem, pendingDefers]

private theorem locatedAll_concat (ts : List StmtTree) (t : StmtTree) :
    locatedAll (ts ++ [t]) = located t := by
  induction ts with
  | nil => simp [locatedAll]
  | cons u us ih => simp [locatedAll, ih]

private theorem storeLastAll_concat (ts : List StmtTree) (t : StmtTree) :
    storeLastAll (ts ++ [t]) = ts ++ [storeLast t] := by
  induction ts with
  | nil => simp [storeLastAll]
  | cons u us ih => simp [storeLastAll, ih]

private theorem wrapCleanup_bind (body cleanup : List StmtTree) :
    ∃ ts, cCzetWrapCleanup body cleanup = .bind ts := by
  cases cleanup with
  | nil => exact ⟨body, rfl⟩
  | cons c cs => exact ⟨[.tryFinally body (c :: cs)], rfl⟩

private theorem lowerItems_binds (items : List Item) (defers : List StmtTree)
    (h : ∀ t ∈ defers, ∃ body, t = .bind body) :
    ∀ t ∈ (lowerItems items defers).2, ∃ body, t = .bind body := by
  induction items generalizing defers with
  | nil => exact h
  | cons i is ih =>
      rw [lowerItems]
      apply ih
      cases i with
      | defer body =>
          intro t ht
          rcases List.mem_append.mp ht with ht | ht
          · exact h t ht
          · rw [List.mem_singleton.mp ht]
            exact wrapCleanup_bind _ _
      | flush =>
          intro t ht
          cases ht
      | expr | decl | block | ite => exact h

private theorem finish_expr (vars : Bool) (ts : List StmtTree) (e : ExprTree) :
    cFinishStmtExpr vars (ts ++ [.expr e]) =
      if ts = [] ∧ vars = false then e
      else if e.type = .void then .bindExpr (ts ++ [.expr e])
      else .target e.type (ts ++ [.setTmp e]) := by
  by_cases hsole : ts = [] ∧ vars = false
  · obtain ⟨rfl, rfl⟩ := hsole
    rfl
  · rw [if_neg hsole]
    unfold cFinishStmtExpr
    split
    next hbody =>
      cases ts with
      | nil => simp at hsole
      | cons t ts => simp at hbody
    next =>
      rw [locatedAll_concat, storeLastAll_concat]
      rfl

private theorem finish_bind (vars : Bool) (ts : List StmtTree) (e : ExprTree) {t : StmtTree}
    (ht : ∃ body, t = .bind body) (rest : List StmtTree) :
    cFinishStmtExpr vars (ts ++ .expr e :: (rest ++ [t])) =
      .bindExpr (ts ++ .expr e :: (rest ++ [t])) := by
  obtain ⟨body, rfl⟩ := ht
  unfold cFinishStmtExpr
  split
  next hbody =>
    have hlength := congrArg List.length hbody
    simp only [List.length_append, List.length_cons, List.length_nil] at hlength
    omega
  next =>
    have hassoc : ts ++ .expr e :: (rest ++ [.bind body]) =
        (ts ++ .expr e :: rest) ++ [.bind body] := by simp
    rw [hassoc, locatedAll_concat]
    rfl

private theorem stmtExpr_pending {items : List Item} (last : Expr)
    (h : pendingDefers items 0 ≠ 0) :
    lowerExpr (.stmtExpr items last) = .bindExpr ((lowerItems items []).1 ++
      .expr (lowerExpr last) :: cParserTakeDefers (lowerItems items []).2) := by
  have hlength := lowerItems_pending items []
  have hbinds := lowerItems_binds items [] (by simp)
  rw [lowerExpr]
  cases hdefers : (lowerItems items []).2 with
  | nil =>
      rw [hdefers] at hlength
      exact absurd hlength.symm h
  | cons t ts =>
      rw [hdefers] at hbinds
      rw [cParserTakeDefers, List.reverse_cons]
      exact finish_bind _ _ _ (hbinds t List.mem_cons_self) _

private theorem refExpr_void : ∀ (e : Expr) (s : S), e.type = .void →
    (refExpr M e s).1 = M.noValue
  | .prim loc type args, s, h => by
      have htype : type = .void := h
      rw [refExpr]
      dsimp only [Machine.compute]
      rw [if_pos htype]
  | .stmtExpr items last, s, h => by
      rw [refExpr]
      exact refExpr_void last _ h

private theorem body_run {items : List Item} {last : Expr}
    (hitems : Follows M (lowerItems items []) (refItems M items []))
    (hlast : ∀ s, evalTree M (lowerExpr last) s = refExpr M last s) (s : S) :
    runTrees M ((lowerItems items []).1 ++
        .expr (lowerExpr last) :: cParserTakeDefers (lowerItems items []).2) (none, s) =
      (none, (refExpr M (.stmtExpr items last) s).2) := by
  obtain ⟨hrun, hreg⟩ := hitems s
  rw [runTrees_append, hrun, runTrees, runTree, hlast, registered_run (registered_take hreg),
    refExpr]

private theorem stmtExpr_follows {items : List Item} {last : Expr}
    (hitems : Follows M (lowerItems items []) (refItems M items []))
    (htype : (lowerExpr last).type = last.type)
    (hlast : ∀ s, evalTree M (lowerExpr last) s = refExpr M last s)
    (h : pendingDefers items 0 = 0 ∨ last.type = .void) :
    (lowerExpr (.stmtExpr items last)).type = last.type ∧
      ∀ s, evalTree M (lowerExpr (.stmtExpr items last)) s = refExpr M (.stmtExpr items last) s := by
  by_cases hpending : pendingDefers items 0 = 0
  · have hnone : (lowerItems items []).2 = [] :=
      List.length_eq_zero_iff.mp ((lowerItems_pending items []).trans hpending)
    have hbodies : ∀ s, (refItems M items [] s).1 = [] := by
      intro s
      have hreg := (hitems s).2
      rw [hnone] at hreg
      exact List.forall₂_nil_left_iff.mp hreg
    have hrun := body_run hitems hlast
    rw [hnone, cParserTakeDefers, List.reverse_nil] at hrun
    rw [lowerExpr, hnone, cParserTakeDefers, List.reverse_nil, finish_expr]
    by_cases hsole : (lowerItems items []).1 = [] ∧ items.any Item.isDecl = false
    · rw [if_pos hsole]
      refine ⟨htype, ?_⟩
      intro s
      -- nothing runs in front of the last expression
      have hstate : (refItems M items [] s).2 = s := by
        have hempty := (hitems s).1 none
        rw [hsole.1, runTrees] at hempty
        exact (Prod.ext_iff.mp hempty).2.symm
      rw [hlast, refExpr, hstate, hbodies]
      rfl
    · rw [if_neg hsole]
      by_cases hvoid : (lowerExpr last).type = .void
      · rw [if_pos hvoid]
        refine ⟨hvoid.symm.trans htype, ?_⟩
        intro s
        have hvalue := refExpr_void (M := M) (.stmtExpr items last) s (htype.symm.trans hvoid)
        rw [evalTree, hrun, ← hvalue]
      · rw [if_neg hvoid]
        refine ⟨htype, ?_⟩
        intro s
        rw [evalTree, runTrees_append, (hitems s).1, runTrees, runTree, hlast, runTrees, refExpr,
          hbodies]
        rfl
  · have hvoid := h.resolve_left hpending
    rw [stmtExpr_pending last hpending]
    refine ⟨hvoid.symm, ?_⟩
    intro s
    have hvalue := refExpr_void (M := M) (.stmtExpr items last) s hvoid
    rw [evalTree, body_run hitems hlast, ← hvalue]

mutual

private theorem lowerExpr_follows : ∀ e : Expr, (∀ x ∈ e.stmtExprs, NothingPending x) →
    (lowerExpr e).type = e.type ∧ ∀ s, evalTree M (lowerExpr e) s = refExpr M e s
  | .prim loc type args, h => by
      refine ⟨rfl, ?_⟩
      intro s
      rw [lowerExpr, evalTree, refExpr, lowerArgs_follows args h s]
  | .stmtExpr items last, h => by
      obtain ⟨htype, hlast⟩ := lowerExpr_follows last fun x hx =>
        h x (List.mem_cons_of_mem _ (List.mem_append_right _ hx))
      have hitems := lowerItems_follows items (fun x hx =>
        h x (List.mem_cons_of_mem _ (List.mem_append_left _ hx))) [] [] List.Forall₂.nil
      exact stmtExpr_follows hitems htype hlast (h _ List.mem_cons_self)

private theorem lowerArgs_follows : ∀ es : List Expr,
    (∀ x ∈ argStmtExprs es, NothingPending x) →
    ∀ s, evalTrees M (lowerArgs es) s = refArgs M es s
  | [], _, s => rfl
  | e :: es, h, s => by
      obtain ⟨-, hhead⟩ := lowerExpr_follows e fun x hx => h x (List.mem_append_left _ hx)
      have hrest := lowerArgs_follows es fun x hx => h x (List.mem_append_right _ hx)
      rw [lowerArgs, evalTrees, refArgs, hhead, hrest]

private theorem lowerItem_follows : ∀ i : Item, (∀ x ∈ i.stmtExprs, NothingPending x) →
    ∀ (defers : List StmtTree) (bodies : List (S → S)), Registered M defers bodies →
      Follows M (lowerItem i defers) (refItem M i bodies)
  | .expr e, h, defers, bodies, hreg, s => by
      obtain ⟨-, he⟩ := lowerExpr_follows e h
      refine ⟨?_, hreg⟩
      intro tmp
      rw [lowerItem, refItem, runTrees, runTree, runTrees, he]
  | .decl loc inits, h, defers, bodies, hreg, s => by
      have hinits := lowerArgs_follows inits h
      refine ⟨?_, hreg⟩
      intro tmp
      rw [lowerItem, refItem, runTrees, runTree, runTrees, hinits]
  | .block items, h, defers, bodies, hreg, s => by
      have hitems := lowerItems_follows items h [] [] List.Forall₂.nil
      refine ⟨?_, hreg⟩
      intro tmp
      rw [lowerItem, refItem, runTrees, runTrees]
      exact block_run hitems tmp s
  | .ite c t e, h, defers, bodies, hreg, s => by
      obtain ⟨-, hc⟩ := lowerExpr_follows c fun x hx =>
        h x (List.mem_append_left _ (List.mem_append_left _ hx))
      have ht := lowerItems_follows t (fun x hx =>
        h x (List.mem_append_left _ (List.mem_append_right _ hx))) [] [] List.Forall₂.nil
      have he := lowerItems_follows e (fun x hx =>
        h x (List.mem_append_right _ hx)) [] [] List.Forall₂.nil
      rw [lowerItem, refItem]
      constructor
      · intro tmp
        rw [runTrees, runTree, runTrees, hc]
        dsimp only
        split
        · rw [runTrees, runTrees]
          exact block_run ht tmp _
        · rw [runTrees, runTrees]
          exact block_run he tmp _
      · split <;> exact hreg
  | .defer body, h, defers, bodies, hreg, s => by
      have hbody := lowerItems_follows body h [] [] List.Forall₂.nil
      refine ⟨fun tmp => rfl, ?_⟩
      rw [lowerItem, refItem]
      exact registered_push hreg (block_run hbody)
  | .flush, _, defers, bodies, hreg, s => by
      refine ⟨?_, List.Forall₂.nil⟩
      intro tmp
      rw [lowerItem, refItem]
      exact registered_run (registered_take hreg) tmp s

private theorem lowerItems_follows : ∀ items : List Item,
    (∀ x ∈ itemsStmtExprs items, NothingPending x) →
    ∀ (defers : List StmtTree) (bodies : List (S → S)), Registered M defers bodies →
      Follows M (lowerItems items defers) (refItems M items bodies)
  | [], _, defers, bodies, hreg, s => ⟨fun tmp => rfl, hreg⟩
  | i :: is, h, defers, bodies, hreg, s => by
      obtain ⟨hrun, hreg'⟩ := lowerItem_follows i (fun x hx => h x (List.mem_append_left _ hx))
        defers bodies hreg s
      obtain ⟨hrest, hreg''⟩ := lowerItems_follows is (fun x hx => h x (List.mem_append_right _ hx))
        _ _ hreg' (refItem M i bodies s).2
      rw [lowerItems, refItems]
      refine ⟨?_, hreg''⟩
      intro tmp
      rw [runTrees_append, hrun, hrest]

end

end Behaviour

section Nesting

mutual

private theorem stmtExprs_trans : ∀ (e : Expr) {x y : Expr}, x ∈ e.stmtExprs → y ∈ x.stmtExprs →
    y ∈ e.stmtExprs
  | .prim _ _ args, _, _, hx, hy => argStmtExprs_trans args hx hy
  | .stmtExpr items last, x, y, hx, hy => by
      rcases List.mem_cons.mp hx with rfl | hx
      · exact hy
      · apply List.mem_cons_of_mem
        rcases List.mem_append.mp hx with hx | hx
        · exact List.mem_append_left _ (itemsStmtExprs_trans items hx hy)
        · exact List.mem_append_right _ (stmtExprs_trans last hx hy)

private theorem argStmtExprs_trans : ∀ (es : List Expr) {x y : Expr}, x ∈ argStmtExprs es →
    y ∈ x.stmtExprs → y ∈ argStmtExprs es
  | [], _, _, hx, _ => by cases hx
  | e :: es, x, y, hx, hy => by
      rcases List.mem_append.mp hx with hx | hx
      · exact List.mem_append_left _ (stmtExprs_trans e hx hy)
      · exact List.mem_append_right _ (argStmtExprs_trans es hx hy)

private theorem itemStmtExprs_trans : ∀ (i : Item) {x y : Expr}, x ∈ i.stmtExprs →
    y ∈ x.stmtExprs → y ∈ i.stmtExprs
  | .expr e, _, _, hx, hy => stmtExprs_trans e hx hy
  | .decl _ inits, _, _, hx, hy => argStmtExprs_trans inits hx hy
  | .block items, _, _, hx, hy => itemsStmtExprs_trans items hx hy
  | .ite c t e, x, y, hx, hy => by
      rcases List.mem_append.mp hx with hx | hx
      · apply List.mem_append_left
        rcases List.mem_append.mp hx with hx | hx
        · exact List.mem_append_left _ (stmtExprs_trans c hx hy)
        · exact List.mem_append_right _ (itemsStmtExprs_trans t hx hy)
      · exact List.mem_append_right _ (itemsStmtExprs_trans e hx hy)
  | .defer body, _, _, hx, hy => itemsStmtExprs_trans body hx hy
  | .flush, _, _, hx, _ => by cases hx

private theorem itemsStmtExprs_trans : ∀ (is : List Item) {x y : Expr}, x ∈ itemsStmtExprs is →
    y ∈ x.stmtExprs → y ∈ itemsStmtExprs is
  | [], _, _, hx, _ => by cases hx
  | i :: is, x, y, hx, hy => by
      rcases List.mem_append.mp hx with hx | hx
      · exact List.mem_append_left _ (itemStmtExprs_trans i hx hy)
      · exact List.mem_append_right _ (itemsStmtExprs_trans is hx hy)

end

end Nesting

/-- Every statement expression in an expression has the type and the value of its last expression,
with the deferred bodies run behind it in reverse order, exactly when none of them has both a body
registered at its closing brace and a last expression with a value. -/
theorem stmtExprs_yield_last_iff (e : Expr) :
    (∀ x ∈ e.stmtExprs, YieldsLast x) ↔ ∀ x ∈ e.stmtExprs, NothingPending x := by
  constructor
  · intro h x hx
    cases x with
    | prim => trivial
    | stmtExpr items last =>
        by_cases hpending : pendingDefers items 0 = 0
        · exact Or.inl hpending
        · have htype := (h _ hx).type
          rw [stmtExpr_pending last hpending] at htype
          exact Or.inr htype.symm
  · intro h x hx
    have hnested : ∀ y ∈ x.stmtExprs, NothingPending y :=
      fun y hy => h y (stmtExprs_trans e hx hy)
    constructor
    · exact (lowerExpr_follows (M := (⟨(), fun _ _ s => ((), s), fun _ => true, fun _ _ s => s⟩ :
        Machine Unit Unit)) x hnested).1
    · intro V S M s
      exact (lowerExpr_follows x hnested).2 s

/-- `({ defer { f (); } 42; })`. -/
def deferredAnswer : Expr :=
  .stmtExpr [.defer [.expr (.prim 1 .void [])]] (.prim 0 (.object 0) [])

/-- The value 42 is lost: the tree has type void. -/
theorem deferred_answer_lost :
    (lowerExpr deferredAnswer).type = .void ∧ deferredAnswer.type = .object 0 ∧
      ¬ YieldsLast deferredAnswer := by
  refine ⟨rfl, rfl, ?_⟩
  intro h
  exact absurd h.type (by decide)

end CZet.Defer.StatementExpr
