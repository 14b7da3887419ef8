/- source: src/gcc/gcc/c/c-parser.cc (c_parser, c_lex_one_token, c_parser_peek_token,
     c_parser_peek_nth_token_raw, c_parser_consume_token, c_czet_serve_inject,
     c_czet_push_inject)
   digest: The look-ahead queues of the parser and the stream of tokens they stand for. -/

import Mathlib.Data.Stream.Init
import CZet.Token

set_option autoImplicit false
set_option relaxedAutoImplicit false

namespace CZet

/-- What a reserved word does to a `CPP_NAME` in the C dialect. -/
inductive ReservedWord
  | compatWarn
  | addrSpace (rid : Rid)
  | keyword (rid : Rid)
  deriving DecidableEq, Repr

/-- The tables read by the postprocessing of names: the reserved words and the
identifiers that `lookup_name` resolves to a `TYPE_DECL`. -/
structure LexEnv where
  reserved : String → Option ReservedWord
  isTypeDecl : String → Bool

/-- The context-sensitive switch of `c_lex_one_token` in the C dialect. -/
def cLexPostprocess (env : LexEnv) (t : CToken) : CToken :=
  match t.type with
  | .name =>
      match env.reserved t.identifierPointer with
      | some (.addrSpace r) => { t with idKind := .idAddrspace, keyword := r }
      | some (.keyword r) => { t with type := .keyword, keyword := r }
      | _ =>
          if env.isTypeDecl t.identifierPointer then { t with idKind := .idTypename }
          else { t with idKind := .idId }
  | .pragma =>
      match t.value with
      | .pragmaCode k => { t with pragmaKind := k, value := .null }
      | _ => t
  | _ => t

/-- What `c_lex_with_flags` still returns: the remaining tokens, then end of file
for ever. -/
structure Lexer where
  rest : List CToken
  eof : CToken
  eof_type : eof.type = .eof

/-- No reserved words and no typedef names: every name is an ordinary identifier. -/
def plainEnv : LexEnv := ⟨fun _ => none, fun _ => false⟩

def plainLexer (rest : List CToken) : Lexer := ⟨rest, { type := .eof }, rfl⟩

/-- `raw_tokens` with its `raw_tokens_used` counter. -/
structure RawQueue where
  toks : List CToken
  used : Nat
  used_le : used ≤ toks.length

def RawQueue.empty : RawQueue := ⟨[], 0, Nat.le_refl 0⟩

def RawQueue.push (q : RawQueue) (t : CToken) : RawQueue :=
  ⟨q.toks ++ [t], q.used, by
    have := q.used_le
    simp only [List.length_append, List.length_singleton]
    omega⟩

/-- Count one more raw token as fully lexed; the vector is freed with its last one. -/
def RawQueue.advance (q : RawQueue) (h : q.used < q.toks.length) : RawQueue :=
  if q.used + 1 = q.toks.length then RawQueue.empty else ⟨q.toks, q.used + 1, h⟩

def RawQueue.rest (q : RawQueue) : List CToken := q.toks.drop q.used

theorem RawQueue.rest_push (q : RawQueue) (t : CToken) : (q.push t).rest = q.rest ++ [t] :=
  List.drop_append_of_le_length q.used_le

theorem RawQueue.rest_advance (q : RawQueue) (h : q.used < q.toks.length) :
    q.rest = q.toks[q.used] :: (q.advance h).rest := by
  have hcons : q.rest = q.toks[q.used] :: q.toks.drop (q.used + 1) := List.drop_eq_getElem_cons h
  unfold RawQueue.advance
  split
  · rename_i hlast
    rw [hcons, hlast, List.drop_length]
    rfl
  · exact hcons

/-- The part of `struct c_parser` that holds tokens, with the two flags its
assertions read.  `tokens` is `tokens[0 .. tokens_avail)`; `inBuf` says that
`tokens` still points at `tokens_buf`.  The top of `czetInjectStack` is its head. -/
structure CParser where
  tokens : List CToken
  inBuf : Bool
  raw : RawQueue
  error : Bool
  inPragma : Bool
  czetProbing : Bool
  czetProbeCommitted : Bool
  czetProbe : List CToken
  czetInject : Option (List CToken)
  czetInjectPos : Nat
  czetInjectStack : List (List CToken)
  lexer : Lexer

/-- A parser at the start of a file, with nothing looked ahead. -/
def CParser.start (lexer : Lexer) : CParser where
  tokens := []
  inBuf := true
  raw := RawQueue.empty
  error := false
  inPragma := false
  czetProbing := false
  czetProbeCommitted := false
  czetProbe := []
  czetInject := none
  czetInjectPos := 0
  czetInjectStack := []
  lexer := lexer

def cCzetHasInject (p : CParser) : Bool :=
  (match p.czetInject with
    | some v => decide (p.czetInjectPos < v.length)
    | none => false) || !p.czetInjectStack.isEmpty

/-- The loop of `c_czet_serve_inject`: serve from the current list, or free it and
make the top of the stack current. -/
def serveInjectLoop : Option (List CToken) → Nat → List (List CToken) →
    Option CToken × Option (List CToken) × Nat × List (List CToken)
  | inj, pos, [] =>
      match inj.bind (·[pos]?) with
      | some t => (some t, inj, pos + 1, [])
      | none => (none, none, if inj.isSome then 0 else pos, [])
  | inj, pos, v :: rest =>
      match inj.bind (·[pos]?) with
      | some t => (some t, inj, pos + 1, v :: rest)
      | none => serveInjectLoop (some v) 0 rest

def cCzetServeInject (p : CParser) : Option CToken × CParser :=
  let r := serveInjectLoop p.czetInject p.czetInjectPos p.czetInjectStack
  (r.1, { p with czetInject := r.2.1, czetInjectPos := r.2.2.1, czetInjectStack := r.2.2.2 })

def cCzetPushInject (p : CParser) (toks : List CToken) : CParser :=
  let stack := match p.czetInject with
    | some v =>
        if p.czetInjectPos < v.length then v.drop p.czetInjectPos :: p.czetInjectStack
        else p.czetInjectStack
    | none => p.czetInjectStack
  { p with czetInject := some toks, czetInjectPos := 0, czetInjectStack := stack }

def cLexWithFlags (p : CParser) : CToken × CParser :=
  match p.lexer.rest with
  | [] => (p.lexer.eof, p)
  | t :: ts => (t, { p with lexer := { p.lexer with rest := ts } })

/-- The part of `c_lex_one_token` below the injection test. -/
def cLexFromLexer (env : LexEnv) (p : CParser) (raw : Bool) : CToken × CParser :=
  if raw then cLexWithFlags p
  else if h : p.raw.used < p.raw.toks.length then
    (cLexPostprocess env p.raw.toks[p.raw.used], { p with raw := p.raw.advance h })
  else
    let r := cLexWithFlags p
    (cLexPostprocess env r.1, r.2)

def cLexOneToken (env : LexEnv) (p : CParser) (raw : Bool := false) : CToken × CParser :=
  if cCzetHasInject p then
    match cCzetServeInject p with
    | (some t, p') => (t, p')
    | (none, p') => cLexFromLexer env p' raw
  else cLexFromLexer env p raw

/-- Outside `tokens_buf` the look-ahead is an array that cannot be filled further. -/
def cParserPeekToken (env : LexEnv) (p : CParser) : Option (CToken × CParser) :=
  match p.tokens with
  | t :: _ => some (t, p)
  | [] =>
      if p.inBuf then
        let r := cLexOneToken env p
        some (r.1, { r.2 with tokens := [r.1] })
      else none

/-- `tokens_buf` has four slots, so a look-ahead beyond them has no defined result. -/
def cParserPeekNthToken (env : LexEnv) (p : CParser) (n : Nat) : Option (CToken × CParser) :=
  if n = 0 then none
  else match p.tokens[n - 1]? with
    | some t => some (t, p)
    | none =>
        if p.tokens.length = n - 1 ∧ p.inBuf ∧ n ≤ 4 then
          let r := cLexOneToken env p
          some (r.1, { r.2 with tokens := p.tokens ++ [r.1] })
        else none

def cParserPeek2ndToken (env : LexEnv) (p : CParser) : Option (CToken × CParser) :=
  match p.tokens with
  | _ :: t :: _ => some (t, p)
  | [t] => if t.type = .eof ∨ t.type = .pragmaEol then none else cParserPeekNthToken env p 2
  | [] => none

def cParserPeekNthTokenRaw (env : LexEnv) (p : CParser) (n : Nat) : Option (CToken × CParser) :=
  if n = 0 then none
  else match p.tokens[n - 1]? with
    | some t => some (t, p)
    | none =>
        -- raw_avail = tokens_avail + raw_len - raw_tokens_used
        if p.tokens.length + p.raw.toks.length - p.raw.used < n - 1 then none
        else match p.raw.toks[p.raw.used + (n - 1 - p.tokens.length)]? with
          | some t => some (t, p)
          | none =>
              let r := cLexOneToken env p true
              some (r.1, { r.2 with raw := r.2.raw.push r.1 })

/-- The assertions of `c_parser_consume_token` on its first token. -/
def consumable (p : CParser) (t : CToken) : Bool :=
  decide (t.type ≠ .eof) && (!p.inPragma || decide (t.type ≠ .pragmaEol)) &&
    (p.inPragma || p.error || decide (t.type ≠ .pragma))

def cParserConsumeToken (p : CParser) : Option CParser :=
  match p.tokens with
  | [] => none
  | t :: ts =>
      if consumable p t then
        some { p with
          tokens := ts
          czetProbe := if p.czetProbing && !p.czetProbeCommitted then p.czetProbe ++ [t]
            else p.czetProbe }
      else none

/-- The injected tokens that are still to be served. -/
def CParser.pendingInject (p : CParser) : List CToken :=
  (p.czetInject.getD []).drop p.czetInjectPos ++ p.czetInjectStack.flatten

/-- What non-raw lexing will produce in front of the end of file. -/
def CParser.sourceList (env : LexEnv) (p : CParser) : List CToken :=
  p.pendingInject ++ (p.raw.rest ++ p.lexer.rest).map (cLexPostprocess env)

/-- What non-raw lexing will produce, in order. -/
def CParser.source (env : LexEnv) (p : CParser) : Stream' CToken :=
  p.sourceList env ++ₛ Stream'.const p.lexer.eof

/-- The pending stream of the parser: the look-ahead, the injected tokens from the
innermost expansion outwards, then the lexer. -/
def CParser.pending (env : LexEnv) (p : CParser) : Stream' CToken :=
  p.tokens ++ₛ p.source env

/-- The pending tokens in front of the end of file. -/
def CParser.pendingList (env : LexEnv) (p : CParser) : List CToken :=
  p.tokens ++ p.sourceList env

/-- The fields that lexing leaves alone. -/
structure CParser.SameControl (p q : CParser) : Prop where
  tokens : q.tokens = p.tokens
  inBuf : q.inBuf = p.inBuf
  error : q.error = p.error
  inPragma : q.inPragma = p.inPragma
  probing : q.czetProbing = p.czetProbing
  committed : q.czetProbeCommitted = p.czetProbeCommitted
  probe : q.czetProbe = p.czetProbe
  eof : q.lexer.eof = p.lexer.eof

private theorem serveInjectLoop_spec (inj : Option (List CToken)) (pos : Nat)
    (stack : List (List CToken)) :
    let r := serveInjectLoop inj pos stack
    let left := (r.2.1.getD []).drop r.2.2.1 ++ r.2.2.2.flatten
    match r.1 with
    | some t => (inj.getD []).drop pos ++ stack.flatten = t :: left
    | none => (inj.getD []).drop pos ++ stack.flatten = [] ∧ left = [] := by
  induction stack generalizing inj pos with
  | nil =>
      cases inj with
      | none => simp [serveInjectLoop]
      | some v =>
          by_cases h : pos < v.length
          · simp [serveInjectLoop, h]
          · simp [serveInjectLoop, h, Nat.le_of_not_lt h]
  | cons w rest ih =>
      cases inj with
      | none => simpa [serveInjectLoop] using ih (some w) 0
      | some v =>
          by_cases h : pos < v.length
          · have hd : v.drop pos = v[pos] :: v.drop (pos + 1) := List.drop_eq_getElem_cons h
            simp only [serveInjectLoop, Option.bind_some, List.getElem?_eq_getElem h,
              Option.getD_some, List.flatten_cons]
            rw [hd, List.cons_append]
          · have hd : v.drop pos = [] := List.drop_eq_nil_of_le (by omega)
            simpa [serveInjectLoop, h, hd] using ih (some w) 0

private theorem cCzetServeInject_spec (p : CParser) :
    (match (cCzetServeInject p).1 with
      | some t => p.pendingInject = t :: (cCzetServeInject p).2.pendingInject
      | none => p.pendingInject = [] ∧ (cCzetServeInject p).2.pendingInject = []) :=
  serveInjectLoop_spec p.czetInject p.czetInjectPos p.czetInjectStack

private theorem cCzetServeInject_control (p : CParser) :
    p.SameControl (cCzetServeInject p).2 ∧
      (cCzetServeInject p).2.raw = p.raw ∧ (cCzetServeInject p).2.lexer = p.lexer :=
  ⟨⟨rfl, rfl, rfl, rfl, rfl, rfl, rfl, rfl⟩, rfl, rfl⟩

theorem pendingInject_eq_nil_of_not_hasInject {p : CParser} (h : cCzetHasInject p = false) :
    p.pendingInject = [] := by
  simp only [cCzetHasInject, Bool.or_eq_false_iff, Bool.not_eq_false',
    List.isEmpty_iff] at h
  simp only [CParser.pendingInject, h.2, List.flatten_nil, List.append_nil]
  cases hi : p.czetInject with
  | none => simp
  | some v => simpa [hi] using h.1

@[simp] theorem pendingInject_push (p : CParser) (toks : List CToken) :
    (cCzetPushInject p toks).pendingInject = toks ++ p.pendingInject := by
  cases hi : p.czetInject with
  | none => simp [CParser.pendingInject, cCzetPushInject, hi]
  | some v =>
      by_cases h : p.czetInjectPos < v.length
      · simp [CParser.pendingInject, cCzetPushInject, hi, h]
      · simp [CParser.pendingInject, cCzetPushInject, hi, h, Nat.le_of_not_lt h]

@[simp] theorem source_push (env : LexEnv) (p : CParser) (toks : List CToken) :
    (cCzetPushInject p toks).source env = toks ++ₛ p.source env := by
  simp only [CParser.source, CParser.sourceList, pendingInject_push, List.append_assoc,
    Stream'.append_append_stream]
  rfl

theorem cLexPostprocess_eof {env : LexEnv} {t : CToken} (h : t.type = .eof) :
    cLexPostprocess env t = t := by
  simp [cLexPostprocess, h]

private theorem cLexWithFlags_rest (p : CParser) :
    (p.lexer.rest = [] ∧ cLexWithFlags p = (p.lexer.eof, p)) ∨
      ∃ t ts, p.lexer.rest = t :: ts ∧
        cLexWithFlags p = (t, { p with lexer := { p.lexer with rest := ts } }) := by
  unfold cLexWithFlags
  cases h : p.lexer.rest with
  | nil => exact .inl ⟨rfl, rfl⟩
  | cons t ts => exact .inr ⟨t, ts, rfl, rfl⟩

/-- Lexing takes the first token of the source, or the end of file when there is none. -/
def TakesFirst (env : LexEnv) (p : CParser) (t : CToken) (q : CParser) : Prop :=
  p.sourceList env = t :: q.sourceList env ∨
    (p.sourceList env = [] ∧ t = p.lexer.eof ∧ q.sourceList env = [])

private theorem cLexFromLexer_takesFirst (env : LexEnv) (p : CParser)
    (hinj : p.pendingInject = []) :
    TakesFirst env p (cLexFromLexer env p false).1 (cLexFromLexer env p false).2 ∧
      p.SameControl (cLexFromLexer env p false).2 := by
  by_cases hraw : p.raw.used < p.raw.toks.length
  · have hlex : cLexFromLexer env p false =
        (cLexPostprocess env p.raw.toks[p.raw.used], { p with raw := p.raw.advance hraw }) := by
      simp [cLexFromLexer, hraw]
    have hinj' : CParser.pendingInject { p with raw := p.raw.advance hraw } = [] := hinj
    rw [hlex]
    refine ⟨.inl ?_, ⟨rfl, rfl, rfl, rfl, rfl, rfl, rfl, rfl⟩⟩
    simp only [CParser.sourceList, hinj, hinj', p.raw.rest_advance hraw, List.cons_append,
      List.map_cons, List.nil_append]
  · have hrest : p.raw.rest = [] := List.drop_eq_nil_of_le (Nat.le_of_not_lt hraw)
    have hlex : cLexFromLexer env p false =
        (cLexPostprocess env (cLexWithFlags p).1, (cLexWithFlags p).2) := by
      simp [cLexFromLexer, hraw]
    rw [hlex]
    rcases cLexWithFlags_rest p with ⟨hnil, hone⟩ | ⟨t, ts, hcons, hone⟩
    · rw [hone]
      have hsource : p.sourceList env = [] := by
        simp only [CParser.sourceList, hinj, hrest, hnil, List.append_nil, List.map_nil]
      refine ⟨.inr ⟨hsource, ?_, hsource⟩, ⟨rfl, rfl, rfl, rfl, rfl, rfl, rfl, rfl⟩⟩
      exact cLexPostprocess_eof p.lexer.eof_type
    · rw [hone]
      refine ⟨.inl ?_, ⟨rfl, rfl, rfl, rfl, rfl, rfl, rfl, rfl⟩⟩
      have hinj' : CParser.pendingInject { p with lexer := { p.lexer with rest := ts } } = [] :=
        hinj
      simp only [CParser.sourceList, hinj, hinj', hrest, hcons, List.nil_append, List.map_cons]

theorem CParser.SameControl.trans {p q r : CParser} (h : p.SameControl q) (g : q.SameControl r) :
    p.SameControl r where
  tokens := g.tokens.trans h.tokens
  inBuf := g.inBuf.trans h.inBuf
  error := g.error.trans h.error
  inPragma := g.inPragma.trans h.inPragma
  probing := g.probing.trans h.probing
  committed := g.committed.trans h.committed
  probe := g.probe.trans h.probe
  eof := g.eof.trans h.eof

/-- Non-raw lexing takes the first token of the source and nothing else. -/
theorem cLexOneToken_takesFirst (env : LexEnv) (p : CParser) :
    TakesFirst env p (cLexOneToken env p).1 (cLexOneToken env p).2 ∧
      p.SameControl (cLexOneToken env p).2 := by
  by_cases hinj : cCzetHasInject p = true
  · have hspec := cCzetServeInject_spec p
    obtain ⟨hctl, hraw, hlexer⟩ := cCzetServeInject_control p
    rcases hserve : cCzetServeInject p with ⟨served, q⟩
    rw [hserve] at hspec hctl hraw hlexer
    cases served with
    | some t =>
        have hlex : cLexOneToken env p = (t, q) := by simp [cLexOneToken, hinj, hserve]
        simp only at hspec hraw hlexer
        rw [hlex]
        refine ⟨.inl ?_, hctl⟩
        simp only [CParser.sourceList, hspec, hraw, hlexer, List.cons_append]
    | none =>
        have hlex : cLexOneToken env p = cLexFromLexer env q false := by
          simp [cLexOneToken, hinj, hserve]
        simp only at hspec hraw hlexer
        have hsame : p.sourceList env = q.sourceList env := by
          simp only [CParser.sourceList, hspec, hraw, hlexer]
        obtain ⟨hsrc, hctl'⟩ := cLexFromLexer_takesFirst env q hspec.2
        rw [hlex]
        refine ⟨?_, hctl.trans hctl'⟩
        rw [TakesFirst, hsame, ← hlexer]
        exact hsrc
  · have hinj' : cCzetHasInject p = false := by simpa using hinj
    have hlex : cLexOneToken env p = cLexFromLexer env p false := by
      simp [cLexOneToken, hinj']
    rw [hlex]
    exact cLexFromLexer_takesFirst env p (pendingInject_eq_nil_of_not_hasInject hinj')

theorem cLexOneToken_source (env : LexEnv) (p : CParser) :
    p.source env = Stream'.cons (cLexOneToken env p).1 ((cLexOneToken env p).2.source env) := by
  obtain ⟨hfirst, hctl⟩ := cLexOneToken_takesFirst env p
  rcases hfirst with hcons | ⟨hnil, heof, hnil'⟩
  · simp only [CParser.source, hcons, hctl.eof, Stream'.cons_append_stream]
  · simp only [CParser.source, hnil, hnil', hctl.eof, heof, Stream'.nil_append_stream]
    exact Stream'.const_eq _

private theorem cLexOneToken_raw_eq (env : LexEnv) (p : CParser) (hinj : p.pendingInject = []) :
    ∃ q : CParser, cLexOneToken env p true = cLexWithFlags q ∧ q.pendingInject = [] ∧
      p.SameControl q ∧ q.raw = p.raw ∧ q.lexer = p.lexer := by
  by_cases h : cCzetHasInject p = true
  · have hspec := cCzetServeInject_spec p
    obtain ⟨hctl, hraw, hlexer⟩ := cCzetServeInject_control p
    rcases hserve : cCzetServeInject p with ⟨served, q⟩
    rw [hserve] at hspec hctl hraw hlexer
    cases served with
    | some t =>
        rw [hinj] at hspec
        exact absurd hspec (by simp)
    | none =>
        refine ⟨q, ?_, hspec.2, hctl, hraw, hlexer⟩
        simp [cLexOneToken, h, hserve, cLexFromLexer]
  · refine ⟨p, ?_, hinj, ⟨rfl, rfl, rfl, rfl, rfl, rfl, rfl, rfl⟩, rfl, rfl⟩
    simp [cLexOneToken, h, cLexFromLexer]

theorem cLexOneToken_raw_source (env : LexEnv) (p : CParser) (hinj : p.pendingInject = []) :
    CParser.source env { (cLexOneToken env p true).2 with
        raw := (cLexOneToken env p true).2.raw.push (cLexOneToken env p true).1 } =
      p.source env ∧ p.SameControl (cLexOneToken env p true).2 ∧
      (cLexOneToken env p true).2.raw = p.raw ∧
      (cLexOneToken env p true).2.pendingInject = [] := by
  obtain ⟨q, hlex, hq, hctl, hraw, hlexer⟩ := cLexOneToken_raw_eq env p hinj
  rw [hlex]
  have hsrc : p.source env = q.source env := by
    simp only [CParser.source, CParser.sourceList, hinj, hq, hraw, hlexer]
  rw [hsrc]
  rcases cLexWithFlags_rest q with ⟨hnil, hone⟩ | ⟨t, ts, hcons, hone⟩
  · rw [hone]
    refine ⟨?_, hctl, hraw, hq⟩
    have hinj' : CParser.pendingInject { q with raw := q.raw.push q.lexer.eof } = [] := hq
    simp only [CParser.source, CParser.sourceList, hinj', hq, RawQueue.rest_push, hnil,
      List.append_nil, List.nil_append, List.map_append, List.map_cons, List.map_nil,
      Stream'.append_append_stream, Stream'.nil_append_stream, Stream'.cons_append_stream,
      cLexPostprocess_eof q.lexer.eof_type]
    rw [← Stream'.const_eq]
  · rw [hone]
    refine ⟨?_, hctl.trans ⟨rfl, rfl, rfl, rfl, rfl, rfl, rfl, rfl⟩, hraw, hq⟩
    have hinj' : CParser.pendingInject { q with
        lexer := { q.lexer with rest := ts }, raw := q.raw.push t } = [] := hq
    simp only [CParser.source, CParser.sourceList, hinj', hq, RawQueue.rest_push, hcons,
      List.append_assoc, List.singleton_append]

theorem pending_append_lexed (env : LexEnv) (p : CParser) :
    CParser.pending env { (cLexOneToken env p).2 with
      tokens := p.tokens ++ [(cLexOneToken env p).1] } = p.pending env := by
  have hsrc := cLexOneToken_source env p
  have hsame : CParser.source env { (cLexOneToken env p).2 with
      tokens := p.tokens ++ [(cLexOneToken env p).1] } = (cLexOneToken env p).2.source env := rfl
  simp only [CParser.pending, hsame, Stream'.append_append_stream, Stream'.cons_append_stream,
    Stream'.nil_append_stream]
  rw [← hsrc]

/-- What `c_parser_peek_token` can do: return the first buffered token, or fill the
empty buffer with one token. -/
theorem cParserPeekToken_cases {env : LexEnv} {p q : CParser} {t : CToken}
    (h : cParserPeekToken env p = some (t, q)) :
    (∃ ts, p.tokens = t :: ts ∧ q = p) ∨
      (p.tokens = [] ∧ p.inBuf = true ∧ t = (cLexOneToken env p).1 ∧
        q = { (cLexOneToken env p).2 with tokens := [t] }) := by
  unfold cParserPeekToken at h
  split at h
  · rename_i t' ts hts
    simp only [Option.some.injEq, Prod.mk.injEq] at h
    obtain ⟨rfl, rfl⟩ := h
    exact .inl ⟨ts, hts, rfl⟩
  · rename_i hnil
    split at h
    · rename_i hbuf
      simp only [Option.some.injEq, Prod.mk.injEq] at h
      obtain ⟨rfl, rfl⟩ := h
      exact .inr ⟨hnil, hbuf, rfl, rfl⟩
    · simp at h

theorem cParserPeekToken_pending {env : LexEnv} {p q : CParser} {t : CToken}
    (h : cParserPeekToken env p = some (t, q)) : q.pending env = p.pending env := by
  obtain ⟨ts, -, rfl⟩ | ⟨hnil, -, rfl, rfl⟩ := cParserPeekToken_cases h
  · rfl
  · simpa only [hnil, List.nil_append] using pending_append_lexed env p

theorem cParserPeekNthToken_pending {env : LexEnv} {p q : CParser} {n : Nat} {t : CToken}
    (h : cParserPeekNthToken env p n = some (t, q)) : q.pending env = p.pending env := by
  unfold cParserPeekNthToken at h
  split at h
  · simp at h
  · split at h
    · simp only [Option.some.injEq, Prod.mk.injEq] at h
      rw [← h.2]
    · split at h
      · simp only [Option.some.injEq, Prod.mk.injEq] at h
        obtain ⟨-, rfl⟩ := h
        exact pending_append_lexed env p
      · simp at h

theorem cParserPeek2ndToken_pending {env : LexEnv} {p q : CParser} {t : CToken}
    (h : cParserPeek2ndToken env p = some (t, q)) : q.pending env = p.pending env := by
  unfold cParserPeek2ndToken at h
  split at h
  · simp only [Option.some.injEq, Prod.mk.injEq] at h
    rw [← h.2]
  · split at h
    · simp at h
    · exact cParserPeekNthToken_pending h
  · simp at h

/-- A raw look-ahead that has to lex is one beyond both the buffer and the raw queue. -/
def CParser.rawMustLex (p : CParser) (n : Nat) : Prop :=
  p.tokens.length + (p.raw.toks.length - p.raw.used) < n

theorem cParserPeekNthTokenRaw_pending {env : LexEnv} {p q : CParser} {n : Nat} {t : CToken}
    (h : cParserPeekNthTokenRaw env p n = some (t, q))
    (hinj : p.rawMustLex n → p.pendingInject = []) : q.pending env = p.pending env := by
  unfold cParserPeekNthTokenRaw at h
  split at h
  · simp at h
  · rename_i hpos
    split at h
    · simp only [Option.some.injEq, Prod.mk.injEq] at h
      rw [← h.2]
    · rename_i hnone
      split at h
      · simp at h
      · split at h
        · simp only [Option.some.injEq, Prod.mk.injEq] at h
          rw [← h.2]
        · rename_i hraw
          simp only [Option.some.injEq, Prod.mk.injEq] at h
          obtain ⟨-, rfl⟩ := h
          have hmust : p.rawMustLex n := by
            have hlen := List.getElem?_eq_none_iff.mp hnone
            have hrlen := List.getElem?_eq_none_iff.mp hraw
            have := p.raw.used_le
            unfold CParser.rawMustLex
            omega
          obtain ⟨hsrc, hctl, -, -⟩ := cLexOneToken_raw_source env p (hinj hmust)
          simp only [CParser.pending, hsrc]
          rw [hctl.tokens]

theorem cParserConsumeToken_cases {p q : CParser} (h : cParserConsumeToken p = some q) :
    ∃ t ts, p.tokens = t :: ts ∧ consumable p t = true ∧
      q = { p with
        tokens := ts
        czetProbe := if p.czetProbing && !p.czetProbeCommitted then p.czetProbe ++ [t]
          else p.czetProbe } := by
  unfold cParserConsumeToken at h
  split at h
  · simp at h
  · rename_i t ts hts
    split at h
    · rename_i hok
      simp only [Option.some.injEq] at h
      exact ⟨t, ts, hts, hok, h.symm⟩
    · simp at h

/-- The fields that looking ahead and consuming leave alone. -/
structure CParser.SameMode (p q : CParser) : Prop where
  inBuf : q.inBuf = p.inBuf
  error : q.error = p.error
  inPragma : q.inPragma = p.inPragma
  eof : q.lexer.eof = p.lexer.eof

theorem CParser.SameMode.refl (p : CParser) : p.SameMode p := ⟨rfl, rfl, rfl, rfl⟩

theorem CParser.SameMode.trans {p q r : CParser} (h : p.SameMode q) (g : q.SameMode r) :
    p.SameMode r where
  inBuf := g.inBuf.trans h.inBuf
  error := g.error.trans h.error
  inPragma := g.inPragma.trans h.inPragma
  eof := g.eof.trans h.eof

theorem CParser.SameMode.consumable {p q : CParser} (h : p.SameMode q) (t : CToken) :
    CZet.consumable q t = CZet.consumable p t := by
  simp only [CZet.consumable, h.error, h.inPragma]

theorem pending_eq_pendingList (env : LexEnv) (p : CParser) :
    p.pending env = p.pendingList env ++ₛ Stream'.const p.lexer.eof := by
  simp only [CParser.pending, CParser.source, CParser.pendingList, Stream'.append_append_stream]

theorem cParserPeekToken_inBuf (env : LexEnv) {p : CParser} (hbuf : p.inBuf = true) :
    ∃ t q, cParserPeekToken env p = some (t, q) ∧ q.tokens = t :: p.tokens.tail ∧
      p.SameMode q ∧
      (q.pendingList env = p.pendingList env ∨
        (p.pendingList env = [] ∧ t = p.lexer.eof ∧ q.pendingList env = [t])) := by
  cases htok : p.tokens with
  | cons t ts =>
      refine ⟨t, p, ?_, htok, CParser.SameMode.refl p, .inl rfl⟩
      simp only [cParserPeekToken, htok]
  | nil =>
      obtain ⟨hfirst, hctl⟩ := cLexOneToken_takesFirst env p
      refine ⟨(cLexOneToken env p).1,
        { (cLexOneToken env p).2 with tokens := [(cLexOneToken env p).1] }, ?_, rfl,
        ⟨hctl.inBuf, hctl.error, hctl.inPragma, hctl.eof⟩, ?_⟩
      · simp only [cParserPeekToken, htok, hbuf, if_true]
      · simp only [CParser.pendingList, htok, List.nil_append, List.cons_append]
        rcases hfirst with hcons | ⟨hnil, heof, hnil'⟩
        · exact .inl hcons.symm
        · exact .inr ⟨hnil, heof, congrArg (List.cons _) hnil'⟩

theorem cParserConsumeToken_inBuf (env : LexEnv) {p : CParser} {t : CToken} {ts : List CToken}
    (htok : p.tokens = t :: ts) (hok : consumable p t = true) :
    ∃ q, cParserConsumeToken p = some q ∧ q.tokens = ts ∧ p.SameMode q ∧
      p.pendingList env = t :: q.pendingList env := by
  refine ⟨{ p with
      tokens := ts
      czetProbe := if p.czetProbing && !p.czetProbeCommitted then p.czetProbe ++ [t]
        else p.czetProbe }, ?_, rfl, ⟨rfl, rfl, rfl, rfl⟩, ?_⟩
  · simp only [cParserConsumeToken, htok, hok, if_true]
  · simp only [CParser.pendingList, htok, List.cons_append]
    rfl

theorem cParserConsumeToken_pending (env : LexEnv) {p q : CParser}
    (h : cParserConsumeToken p = some q) :
    ∃ t ts, p.tokens = t :: ts ∧ p.pending env = Stream'.cons t (q.pending env) := by
  obtain ⟨t, ts, hts, -, rfl⟩ := cParserConsumeToken_cases h
  refine ⟨t, ts, hts, ?_⟩
  simp only [CParser.pending, hts, Stream'.cons_append_stream]
  rfl

end CZet
