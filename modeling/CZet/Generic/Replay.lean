/- source: src/gcc/gcc/c/c-parser.cc (czet_replay, c_parser_translation_unit, the body stash of
     c_parser_declaration_or_fndef, c_parser_consume_token, c_parser_consume_pragma)
   digest: The recorded tokens of a generic definition and their replay: what is parsed again, and
     what it leaves in the stream. -/

import CZet.Lib.Interaction
import CZet.Macro.Conservation

set_option autoImplicit false
set_option relaxedAutoImplicit false

namespace CZet.Replay

open CZet.Lib.Interaction

/-- The calls through which `c_parser_declaration_or_fndef` sees and changes the token state. -/
inductive ParserCall
  | peekToken
  | peek2ndToken
  | peekNthToken (n : Nat)
  | peekNthTokenRaw (n : Nat)
  | consumeToken
  | consumePragma
  | leavePragma
  | setError (error : Bool)
  | tryInvoke

inductive Answer
  | token (t : CToken)
  | done
  | invoked (success : Bool)

structure ParseState where
  parser : CParser
  gen : Nat

/-- What a raw look-ahead shows of a token: nothing that the postprocessing of
`c_lex_one_token` changes. -/
def rawView (t : CToken) : CToken :=
  { t with
    type := if t.type = .keyword then .name else t.type
    idKind := .idNone
    keyword := 0
    pragmaKind := 0
    value := if t.type = .pragma then .null else t.value }

/-- `c_parser_consume_pragma` does not record the token it consumes. -/
def cParserConsumePragma (p : CParser) : Option CParser :=
  match p.tokens with
  | [] => none
  | t :: ts =>
      if p.inPragma = false ∧ t.type = .pragma then some { p with tokens := ts, inPragma := true }
      else none

def parserCall (env : LexEnv) (macros : CzetMacroMap) :
    Machine ParserCall Answer ParseState CToken :=
  fun call s =>
    match call with
    | .peekToken => (cParserPeekToken env s.parser).map fun r =>
        (.token r.1, [], ⟨r.2, s.gen⟩)
    | .peek2ndToken => (cParserPeek2ndToken env s.parser).map fun r =>
        (.token r.1, [], ⟨r.2, s.gen⟩)
    | .peekNthToken n => (cParserPeekNthToken env s.parser n).map fun r =>
        (.token r.1, [], ⟨r.2, s.gen⟩)
    | .peekNthTokenRaw n => (cParserPeekNthTokenRaw env s.parser n).map fun r =>
        (.token (rawView r.1), [], ⟨r.2, s.gen⟩)
    | .consumeToken => (cParserConsumeToken s.parser).map fun q =>
        (.done, s.parser.tokens.take 1, ⟨q, s.gen⟩)
    | .consumePragma => (cParserConsumePragma s.parser).map fun q =>
        (.done, s.parser.tokens.take 1, ⟨q, s.gen⟩)
    | .leavePragma => some (.done, [], ⟨{ s.parser with inPragma := false }, s.gen⟩)
    | .setError error => some (.done, [], ⟨{ s.parser with error := error }, s.gen⟩)
    | .tryInvoke => (cCzetTryInvoke env macros s.gen s.parser).map fun out =>
        (.invoked out.invoked, [], ⟨out.parser, out.gen⟩)

/-- The sentinels behind a recorded body. -/
def eofSentinel : CToken := { type := .eof, idKind := .idId }

/-- The tokens stashed for a generic definition whose parse ended in `p`. -/
def stashedBody (p : CParser) : List CToken := p.czetProbe ++ List.replicate 8 eofSentinel

/-- `czet_replay`, with the parse as the program `next`; the tokens that the parse consumes, and
the parser and generation counter when it returns. -/
def czetReplay (env : LexEnv) (macros : CzetMacroMap) (next : Program ParserCall Answer)
    (fuel : Nat) (p : CParser) (gen : Nat) (tokens : Option (List CToken)) :
    Option (List CToken × CParser × Nat) :=
  match tokens with
  | none => some ([], p, gen)
  | some toks =>
      match play (parserCall env macros) next fuel []
          ⟨{ p with tokens := toks, inBuf := false, czetProbing := false }, gen⟩ with
      | none => none
      | some (out, s) => some (out, { s.parser with tokens := p.tokens, inBuf := p.inBuf }, s.gen)

/-- The look-ahead a call makes, counted in tokens. -/
def ParserCall.reach : ParserCall → Nat
  | .peekToken => 1
  | .peek2ndToken => 2
  | .peekNthToken n | .peekNthTokenRaw n => n
  | _ => 0

/-- What a look-ahead shows of a token; `none` for the other calls. -/
def ParserCall.view : ParserCall → Option (CToken → CToken)
  | .peekToken | .peek2ndToken | .peekNthToken _ => some id
  | .peekNthTokenRaw _ => some rawView
  | _ => none

/-- The calls of a definition that a replay can repeat: `left` is what the parse still consumes.
No macro name is met, no pragma is entered, and no raw look-ahead crosses an injection. -/
def Repeatable (env : LexEnv) (names : List String) (call : ParserCall) (s : ParseState)
    (left : List CToken) : Prop :=
  call.reach ≤ left.length ∧
    match call with
    | .peekNthTokenRaw n => n ≤ s.parser.tokens.length ∨ s.parser.pendingInject = []
    | .consumePragma => False
    | .tryInvoke => ¬ Candidate names (s.parser.pending env).head
    | _ => True

/-- The fields of the recorder and the flags that the assertions read. -/
structure SameRecord (p q : CParser) : Prop where
  probing : q.czetProbing = p.czetProbing
  committed : q.czetProbeCommitted = p.czetProbeCommitted
  probe : q.czetProbe = p.czetProbe
  error : q.error = p.error
  inPragma : q.inPragma = p.inPragma

theorem SameRecord.refl (p : CParser) : SameRecord p p := ⟨rfl, rfl, rfl, rfl, rfl⟩

theorem sameRecord_of_control {p q : CParser} (h : p.SameControl q) : SameRecord p q :=
  ⟨h.probing, h.committed, h.probe, h.error, h.inPragma⟩

/-- A look-ahead shows the `n`-th pending token and changes neither the stream nor the record. -/
structure Shows (env : LexEnv) (p : CParser) (n : Nat) (t : CToken) (q : CParser) : Prop where
  answer : t = (p.pending env).get (n - 1)
  pending : q.pending env = p.pending env
  record : SameRecord p q

private theorem get_pending_buffered {env : LexEnv} {p : CParser} {n : Nat} {t : CToken}
    (h : p.tokens[n]? = some t) : t = (p.pending env).get n := by
  obtain ⟨hlt, rfl⟩ := List.getElem?_eq_some_iff.mp h
  exact (Stream'.get_append_left n p.tokens _ hlt).symm

private theorem shows_lexed (env : LexEnv) (p : CParser) {n : Nat} (hn : p.tokens.length = n - 1) :
    Shows env p n (cLexOneToken env p).1
      { (cLexOneToken env p).2 with tokens := p.tokens ++ [(cLexOneToken env p).1] } where
  answer := by
    rw [← hn, CParser.pending, Stream'.get_append_length, cLexOneToken_source env p]
    rfl
  pending := pending_append_lexed env p
  record := by
    obtain ⟨hprobing, hcommitted, hprobe, herror, hpragma⟩ :=
      sameRecord_of_control (cLexOneToken_takesFirst env p).2
    exact ⟨hprobing, hcommitted, hprobe, herror, hpragma⟩

private theorem shows_peekToken {env : LexEnv} {p q : CParser} {t : CToken}
    (h : cParserPeekToken env p = some (t, q)) : Shows env p 1 t q := by
  obtain ⟨ts, hts, rfl⟩ | ⟨hnil, -, rfl, rfl⟩ := cParserPeekToken_cases h
  · exact ⟨get_pending_buffered (by rw [hts]; rfl), rfl, SameRecord.refl q⟩
  · simpa only [hnil, List.nil_append] using shows_lexed env p (n := 1) (by rw [hnil]; rfl)

private theorem shows_peekNthToken {env : LexEnv} {p q : CParser} {n : Nat} {t : CToken}
    (h : cParserPeekNthToken env p n = some (t, q)) : Shows env p n t q := by
  unfold cParserPeekNthToken at h
  split at h
  · simp at h
  · split at h
    · rename_i hbuffered
      simp only [Option.some.injEq, Prod.mk.injEq] at h
      obtain ⟨rfl, rfl⟩ := h
      exact ⟨get_pending_buffered hbuffered, rfl, SameRecord.refl p⟩
    · split at h
      · rename_i hlen
        simp only [Option.some.injEq, Prod.mk.injEq] at h
        obtain ⟨rfl, rfl⟩ := h
        exact shows_lexed env p hlen.1
      · simp at h

private theorem shows_peek2ndToken {env : LexEnv} {p q : CParser} {t : CToken}
    (h : cParserPeek2ndToken env p = some (t, q)) : Shows env p 2 t q := by
  unfold cParserPeek2ndToken at h
  split at h
  · rename_i htokens
    simp only [Option.some.injEq, Prod.mk.injEq] at h
    obtain ⟨rfl, rfl⟩ := h
    exact ⟨get_pending_buffered (by rw [htokens]; rfl), rfl, SameRecord.refl p⟩
  · split at h
    · simp at h
    · exact shows_peekNthToken h
  · simp at h

private theorem rawView_postprocess (env : LexEnv) (t : CToken) :
    rawView (cLexPostprocess env t) = rawView t := by
  unfold cLexPostprocess
  split
  · rename_i hname
    split
    · simp [rawView]
    · simp [rawView, hname]
    · split <;> simp [rawView]
  · rename_i hpragma
    split
    · simp [rawView, hpragma]
    · rfl
  · rfl

private theorem get_source_raw {env : LexEnv} {p : CParser} {k : Nat} {t : CToken}
    (hinj : p.pendingInject = []) (h : p.raw.rest[k]? = some t) :
    (p.source env).get k = cLexPostprocess env t := by
  obtain ⟨hlt, rfl⟩ := List.getElem?_eq_some_iff.mp h
  have hlt' : k < ((p.raw.rest ++ p.lexer.rest).map (cLexPostprocess env)).length := by
    simp only [List.length_map, List.length_append]
    omega
  simp only [CParser.source, CParser.sourceList, hinj, List.nil_append]
  rw [Stream'.get_append_left k _ _ hlt', List.getElem_map, List.getElem_append_left hlt]

private theorem get_pending_source {env : LexEnv} {p : CParser} {n : Nat}
    (h : p.tokens.length ≤ n) :
    (p.pending env).get n = (p.source env).get (n - p.tokens.length) := by
  obtain ⟨k, rfl⟩ := Nat.exists_eq_add_of_le h
  rw [CParser.pending, Stream'.get_append_right, Nat.add_sub_cancel_left]

private theorem shows_raw {env : LexEnv} {p q : CParser} {n : Nat} {t : CToken}
    (h : cParserPeekNthTokenRaw env p n = some (t, q))
    (hguard : n ≤ p.tokens.length ∨ p.pendingInject = []) :
    rawView t = rawView ((p.pending env).get (n - 1)) ∧ q.pending env = p.pending env ∧
      SameRecord p q := by
  have hpending : q.pending env = p.pending env := by
    refine cParserPeekNthTokenRaw_pending h fun hmust => hguard.resolve_left ?_
    unfold CParser.rawMustLex at hmust
    omega
  unfold cParserPeekNthTokenRaw at h
  split at h
  · simp at h
  · rename_i hpos
    split at h
    · rename_i hbuffered
      simp only [Option.some.injEq, Prod.mk.injEq] at h
      obtain ⟨rfl, rfl⟩ := h
      exact ⟨by rw [← get_pending_buffered hbuffered], rfl, SameRecord.refl p⟩
    · rename_i hbeyond
      have hlen : p.tokens.length ≤ n - 1 := List.getElem?_eq_none_iff.mp hbeyond
      have hinj : p.pendingInject = [] := hguard.resolve_left (by omega)
      rw [get_pending_source hlen]
      split at h
      · simp at h
      · rename_i havail
        have hrest : ∀ k, p.raw.rest[k]? = p.raw.toks[p.raw.used + k]? := fun k =>
          List.getElem?_drop
        split at h
        · rename_i hraw
          simp only [Option.some.injEq, Prod.mk.injEq] at h
          obtain ⟨rfl, rfl⟩ := h
          rw [get_source_raw hinj ((hrest _).trans hraw), rawView_postprocess]
          exact ⟨rfl, rfl, SameRecord.refl p⟩
        · rename_i hend
          simp only [Option.some.injEq, Prod.mk.injEq] at h
          obtain ⟨rfl, rfl⟩ := h
          obtain ⟨hsource, hctl, hraw, hinj'⟩ := cLexOneToken_raw_source env p hinj
          obtain ⟨hprobing, hcommitted, hprobe, herror, hpragma⟩ := sameRecord_of_control hctl
          refine ⟨?_, hpending, ⟨hprobing, hcommitted, hprobe, herror, hpragma⟩⟩
          -- the token just lexed is the last of the raw queue
          have hk : p.raw.rest.length = n - 1 - p.tokens.length := by
            have hover := List.getElem?_eq_none_iff.mp hend
            have := p.raw.used_le
            simp only [RawQueue.rest, List.length_drop]
            omega
          have hlast : ((cLexOneToken env p true).2.raw.push
              (cLexOneToken env p true).1).rest[n - 1 - p.tokens.length]? =
              some (cLexOneToken env p true).1 := by
            rw [RawQueue.rest_push, hraw, ← hk]
            simp
          have hget : (CParser.source env { (cLexOneToken env p true).2 with
              raw := (cLexOneToken env p true).2.raw.push (cLexOneToken env p true).1 }).get
                (n - 1 - p.tokens.length) = cLexPostprocess env (cLexOneToken env p true).1 :=
            get_source_raw hinj' hlast
          rw [← hsource, hget, rawView_postprocess]

/-- A definition as a parse sees it: the tokens still to be consumed and the two flags. -/
structure Tape where
  left : List CToken
  error : Bool
  inPragma : Bool

/-- Look ahead on a tape. -/
def tapeLook (n : Nat) (view : CToken → CToken) (s : Tape) :
    Option (Answer × List CToken × Tape) :=
  if n = 0 then none else (s.left[n - 1]?).map fun t => (.token (view t), [], s)

/-- The calls of a parse on a tape; it offers no macro name to `c_czet_try_invoke`. -/
def tapeCall (names : List String) : Machine ParserCall Answer Tape CToken :=
  fun call s =>
    match call with
    | .peekToken => tapeLook 1 id s
    | .peek2ndToken => tapeLook 2 id s
    | .peekNthToken n => tapeLook n id s
    | .peekNthTokenRaw n => tapeLook n rawView s
    | .consumeToken =>
        match s.left with
        | [] => none
        | t :: ts =>
            if t.type ≠ .eof ∧ (s.inPragma = false ∨ t.type ≠ .pragmaEol) ∧
                (s.inPragma = true ∨ s.error = true ∨ t.type ≠ .pragma) then
              some (.done, [t], { s with left := ts })
            else none
    | .consumePragma => none
    | .leavePragma => some (.done, [], { s with inPragma := false })
    | .setError error => some (.done, [], { s with error := error })
    | .tryInvoke =>
        if ∀ t ∈ s.left.head?, ¬ Candidate names t then some (.invoked false, [], s) else none

private theorem consumable_iff (p : CParser) (t : CToken) :
    consumable p t = true ↔ t.type ≠ .eof ∧ (p.inPragma = false ∨ t.type ≠ .pragmaEol) ∧
      (p.inPragma = true ∨ p.error = true ∨ t.type ≠ .pragma) := by
  simp only [consumable, Bool.and_eq_true, Bool.or_eq_true, decide_eq_true_eq,
    Bool.not_eq_true']
  tauto

/-- The parse of a definition reads its stream as the tape of what it is going to consume. -/
private structure Reads (env : LexEnv) (left : List CToken) (s : ParseState) (tape : Tape) :
    Prop where
  tape_left : tape.left = left
  error : tape.error = s.parser.error
  inPragma : tape.inPragma = s.parser.inPragma
  pending : ∃ rest, s.parser.pending env = left ++ₛ rest

private theorem Reads.of_shows {env : LexEnv} {left : List CToken} {s : ParseState} {tape : Tape}
    {q : CParser} {gen : Nat} (h : Reads env left s tape)
    (hpending : q.pending env = s.parser.pending env) (hrecord : SameRecord s.parser q) :
    Reads env left ⟨q, gen⟩ tape where
  tape_left := h.tape_left
  error := h.error.trans hrecord.error.symm
  inPragma := h.inPragma.trans hrecord.inPragma.symm
  pending := by
    obtain ⟨rest, hrest⟩ := h.pending
    exact ⟨rest, hpending.trans hrest⟩

private theorem Reads.get {env : LexEnv} {left : List CToken} {s : ParseState} {tape : Tape}
    (h : Reads env left s tape) {n : Nat} (hn : n < left.length) :
    tape.left[n]? = some ((s.parser.pending env).get n) := by
  obtain ⟨rest, hrest⟩ := h.pending
  rw [h.tape_left, hrest, Stream'.get_append_left n left rest hn, List.getElem?_eq_getElem hn]

private theorem tapeCall_look {names : List String} {call : ParserCall} {view : CToken → CToken}
    (hview : call.view = some view) (tape : Tape) :
    tapeCall names call tape = tapeLook call.reach view tape := by
  cases call <;> simp only [ParserCall.view, Option.some.injEq, reduceCtorEq] at hview <;>
    subst hview <;> rfl

private theorem parserCall_look {env : LexEnv} {macros : CzetMacroMap} {names : List String}
    {call : ParserCall} {view : CToken → CToken} {s s' : ParseState} {ans : Answer}
    {out left : List CToken} (hview : call.view = some view)
    (hguard : Repeatable env names call s left)
    (h : parserCall env macros call s = some (ans, out, s')) :
    out = [] ∧ 0 < call.reach ∧
      ans = .token (view ((s.parser.pending env).get (call.reach - 1))) ∧
      s'.parser.pending env = s.parser.pending env ∧ SameRecord s.parser s'.parser := by
  cases call with
  | peekToken =>
      obtain rfl := Option.some.inj hview
      obtain ⟨⟨t, q⟩, hpeek, heq⟩ := Option.map_eq_some_iff.mp h
      simp only [Prod.mk.injEq] at heq
      obtain ⟨rfl, rfl, rfl⟩ := heq
      obtain ⟨hans, hpending, hrecord⟩ := shows_peekToken hpeek
      exact ⟨rfl, Nat.one_pos, congrArg Answer.token hans, hpending, hrecord⟩
  | peek2ndToken =>
      obtain rfl := Option.some.inj hview
      obtain ⟨⟨t, q⟩, hpeek, heq⟩ := Option.map_eq_some_iff.mp h
      simp only [Prod.mk.injEq] at heq
      obtain ⟨rfl, rfl, rfl⟩ := heq
      obtain ⟨hans, hpending, hrecord⟩ := shows_peek2ndToken hpeek
      exact ⟨rfl, Nat.two_pos, congrArg Answer.token hans, hpending, hrecord⟩
  | peekNthToken n =>
      obtain rfl := Option.some.inj hview
      obtain ⟨⟨t, q⟩, hpeek, heq⟩ := Option.map_eq_some_iff.mp h
      simp only [Prod.mk.injEq] at heq
      obtain ⟨rfl, rfl, rfl⟩ := heq
      obtain ⟨hans, hpending, hrecord⟩ := shows_peekNthToken hpeek
      refine ⟨rfl, ?_, congrArg Answer.token hans, hpending, hrecord⟩
      refine Nat.pos_of_ne_zero fun hzero => ?_
      simp only [ParserCall.reach] at hzero
      simp [cParserPeekNthToken, hzero] at hpeek
  | peekNthTokenRaw n =>
      obtain rfl := Option.some.inj hview
      obtain ⟨⟨t, q⟩, hpeek, heq⟩ := Option.map_eq_some_iff.mp h
      simp only [Prod.mk.injEq] at heq
      obtain ⟨rfl, rfl, rfl⟩ := heq
      obtain ⟨hans, hpending, hrecord⟩ := shows_raw hpeek hguard.2
      refine ⟨rfl, ?_, congrArg Answer.token hans, hpending, hrecord⟩
      refine Nat.pos_of_ne_zero fun hzero => ?_
      simp only [ParserCall.reach] at hzero
      simp [cParserPeekNthTokenRaw, hzero] at hpeek
  | consumeToken => simp [ParserCall.view] at hview
  | consumePragma => simp [ParserCall.view] at hview
  | leavePragma => simp [ParserCall.view] at hview
  | setError error => simp [ParserCall.view] at hview
  | tryInvoke => simp [ParserCall.view] at hview

private theorem parserCall_consume {env : LexEnv} {macros : CzetMacroMap} {s s' : ParseState}
    {ans : Answer} {out : List CToken}
    (h : parserCall env macros .consumeToken s = some (ans, out, s')) :
    ∃ t, out = [t] ∧ ans = .done ∧ consumable s.parser t = true ∧
      s.parser.pending env = Stream'.cons t (s'.parser.pending env) ∧
      s'.parser.error = s.parser.error ∧ s'.parser.inPragma = s.parser.inPragma ∧
      s'.parser.czetProbing = s.parser.czetProbing ∧
      s'.parser.czetProbeCommitted = s.parser.czetProbeCommitted ∧
      s'.parser.czetProbe = if s.parser.czetProbing && !s.parser.czetProbeCommitted
        then s.parser.czetProbe ++ [t] else s.parser.czetProbe := by
  obtain ⟨q, hconsume, heq⟩ := Option.map_eq_some_iff.mp h
  simp only [Prod.mk.injEq] at heq
  obtain ⟨rfl, rfl, rfl⟩ := heq
  obtain ⟨t, ts, htokens, hpending⟩ := cParserConsumeToken_pending env hconsume
  obtain ⟨t', ts', htokens', hok, rfl⟩ := cParserConsumeToken_cases hconsume
  obtain ⟨rfl, rfl⟩ := List.cons.inj (htokens.symm.trans htokens')
  refine ⟨t, ?_, rfl, hok, hpending, rfl, rfl, rfl, rfl, rfl⟩
  rw [htokens, List.take_succ_cons, List.take_zero]

private theorem parserCall_tryInvoke {env : LexEnv} {macros : CzetMacroMap} {names : List String}
    {s s' : ParseState} {ans : Answer} {out : List CToken}
    (hsub : macros.map Prod.fst ⊆ names)
    (hcand : ¬ Candidate names (s.parser.pending env).head)
    (h : parserCall env macros .tryInvoke s = some (ans, out, s')) :
    out = [] ∧ ans = .invoked false ∧ s'.parser.pending env = s.parser.pending env ∧
      SameRecord s.parser s'.parser := by
  obtain ⟨o, htry, heq⟩ := Option.map_eq_some_iff.mp h
  simp only [Prod.mk.injEq] at heq
  obtain ⟨rfl, rfl, rfl⟩ := heq
  have hnone : invocable macros (s.parser.pending env).head = none := by
    refine Option.not_isSome_iff_eq_none.mp fun hsome => hcand ?_
    obtain ⟨htype, hkind, hdollar, hmem⟩ := (invocable_isSome_iff _ _).mp hsome
    exact ⟨htype, hkind, hdollar, hsub hmem⟩
  obtain ⟨hinvoked, hpending, t, hpeek⟩ := tryInvoke_notCandidate env macros s.gen hnone htry
  exact ⟨rfl, congrArg Answer.invoked hinvoked, hpending, (shows_peekToken hpeek).record⟩

private structure Records (env : LexEnv) (s : ParseState) (out : List CToken) (s' : ParseState) :
    Prop where
  probing : s'.parser.czetProbing = s.parser.czetProbing
  committed : s'.parser.czetProbeCommitted = s.parser.czetProbeCommitted
  probe : s'.parser.czetProbe = if s.parser.czetProbing && !s.parser.czetProbeCommitted
    then s.parser.czetProbe ++ out else s.parser.czetProbe
  pending : s.parser.pending env = out ++ₛ s'.parser.pending env

private theorem Records.of_record {env : LexEnv} {s s' : ParseState}
    (hpending : s'.parser.pending env = s.parser.pending env)
    (hrecord : SameRecord s.parser s'.parser) : Records env s [] s' where
  probing := hrecord.probing
  committed := hrecord.committed
  probe := by rw [hrecord.probe, List.append_nil, ite_self]
  pending := hpending.symm

private theorem Records.append {env : LexEnv} {s s' s'' : ParseState} {out outs : List CToken}
    (h : Records env s out s') (g : Records env s' outs s'') :
    Records env s (out ++ outs) s'' where
  probing := g.probing.trans h.probing
  committed := g.committed.trans h.committed
  probe := by
    rw [g.probe, h.probing, h.committed, h.probe]
    split
    · rw [List.append_assoc]
    · rfl
  pending := by rw [h.pending, g.pending, Stream'.append_append_stream]

private theorem parserCall_records {env : LexEnv} {macros : CzetMacroMap} {names : List String}
    (hsub : macros.map Prod.fst ⊆ names) (call : ParserCall) (s : ParseState) (ans : Answer)
    (out : List CToken) (s' : ParseState) (outs : List CToken)
    (hguard : Repeatable env names call s (out ++ outs))
    (h : parserCall env macros call s = some (ans, out, s')) : Records env s out s' := by
  have hlook : ∀ view, call.view = some view → Records env s out s' := by
    intro view hview
    obtain ⟨rfl, -, -, hpending, hrecord⟩ := parserCall_look hview hguard h
    exact Records.of_record hpending hrecord
  cases call with
  | peekToken => exact hlook _ rfl
  | peek2ndToken => exact hlook _ rfl
  | peekNthToken n => exact hlook _ rfl
  | peekNthTokenRaw n => exact hlook _ rfl
  | consumeToken =>
      obtain ⟨t, rfl, -, -, hpending, -, -, hprobing, hcommitted, hprobe⟩ := parserCall_consume h
      exact ⟨hprobing, hcommitted, hprobe, hpending⟩
  | consumePragma => exact absurd hguard.2 id
  | leavePragma =>
      simp only [parserCall, Option.some.injEq, Prod.mk.injEq] at h
      obtain ⟨-, rfl, rfl⟩ := h
      exact ⟨rfl, rfl, by rw [List.append_nil, ite_self], rfl⟩
  | setError error =>
      simp only [parserCall, Option.some.injEq, Prod.mk.injEq] at h
      obtain ⟨-, rfl, rfl⟩ := h
      exact ⟨rfl, rfl, by rw [List.append_nil, ite_self], rfl⟩
  | tryInvoke =>
      obtain ⟨rfl, -, hpending, hrecord⟩ := parserCall_tryInvoke hsub hguard.2 h
      exact Records.of_record hpending hrecord

private theorem parserCall_reads {env : LexEnv} {macros : CzetMacroMap} {names : List String}
    (hsub : macros.map Prod.fst ⊆ names) (call : ParserCall) (s : ParseState) (tape : Tape)
    (ans : Answer) (out rest : List CToken) (s' : ParseState)
    (hreads : Reads env (out ++ rest) s tape) (hguard : Repeatable env names call s (out ++ rest))
    (h : parserCall env macros call s = some (ans, out, s')) :
    ∃ tape', tapeCall names call tape = some (ans, out, tape') ∧ Reads env rest s' tape' := by
  have hlook : ∀ view, call.view = some view →
      ∃ tape', tapeCall names call tape = some (ans, out, tape') ∧ Reads env rest s' tape' := by
    intro view hview
    obtain ⟨rfl, hpos, rfl, hpending, hrecord⟩ := parserCall_look hview hguard h
    refine ⟨tape, ?_, hreads.of_shows hpending hrecord⟩
    have hreach : call.reach - 1 < ([] ++ rest : List CToken).length := by
      have := hguard.1
      omega
    rw [tapeCall_look hview, tapeLook, if_neg (Nat.ne_of_gt hpos), hreads.get hreach,
      Option.map_some]
  cases call with
  | peekToken => exact hlook _ rfl
  | peek2ndToken => exact hlook _ rfl
  | peekNthToken n => exact hlook _ rfl
  | peekNthTokenRaw n => exact hlook _ rfl
  | consumeToken =>
      obtain ⟨t, rfl, rfl, hok, hpending, herror, hpragma, -, -, -⟩ := parserCall_consume h
      obtain ⟨hleft, herr, hprag, more, hmore⟩ := hreads
      refine ⟨{ tape with left := rest }, ?_, rfl, herr.trans herror.symm,
        hprag.trans hpragma.symm, more, ?_⟩
      · have hflags := (consumable_iff s.parser t).mp hok
        rw [← herr, ← hprag] at hflags
        simp only [tapeCall, hleft, List.singleton_append, if_pos hflags]
      · rw [List.singleton_append, Stream'.cons_append_stream, hpending] at hmore
        exact (Stream'.cons_injective2 hmore).2
  | consumePragma => exact absurd hguard.2 id
  | leavePragma =>
      simp only [parserCall, Option.some.injEq, Prod.mk.injEq] at h
      obtain ⟨rfl, rfl, rfl⟩ := h
      exact ⟨{ tape with inPragma := false }, rfl, hreads.tape_left, hreads.error, rfl,
        hreads.pending⟩
  | setError error =>
      simp only [parserCall, Option.some.injEq, Prod.mk.injEq] at h
      obtain ⟨rfl, rfl, rfl⟩ := h
      exact ⟨{ tape with error := error }, rfl, hreads.tape_left, rfl, hreads.inPragma,
        hreads.pending⟩
  | tryInvoke =>
      obtain ⟨rfl, rfl, hpending, hrecord⟩ := parserCall_tryInvoke hsub hguard.2 h
      refine ⟨tape, ?_, hreads.of_shows hpending hrecord⟩
      have hhead : ∀ t ∈ tape.left.head?, ¬ Candidate names t := by
        intro t ht hcand
        obtain ⟨more, hmore⟩ := hreads.pending
        rw [hreads.tape_left] at ht
        rcases hlist : ([] ++ rest : List CToken) with _ | ⟨u, us⟩
        · simp [hlist] at ht
        · rw [hlist, List.head?_cons, Option.mem_def, Option.some.injEq] at ht
          subst ht
          refine hguard.2 ?_
          rw [hmore, hlist, Stream'.cons_append_stream, Stream'.head_cons]
          exact hcand
      simp only [tapeCall, if_pos hhead]

/-- A parser that replays a tape: the array holds the tape and the sentinels, and whatever lexing
depends on is that of `q`. -/
private structure Replays (q : CParser) (gen : Nat) (tape : Tape) (r : ParseState) : Prop where
  tokens : r.parser.tokens = tape.left ++ List.replicate 8 eofSentinel
  error : r.parser.error = tape.error
  inPragma : r.parser.inPragma = tape.inPragma
  inject : r.parser.pendingInject = q.pendingInject
  raw : r.parser.raw = q.raw
  lexer : r.parser.lexer = q.lexer
  gen : r.gen = gen

private theorem Replays.getElem? {q : CParser} {gen : Nat} {tape : Tape} {r : ParseState}
    (h : Replays q gen tape r) {n : Nat} {t : CToken} (hn : tape.left[n]? = some t) :
    r.parser.tokens[n]? = some t := by
  obtain ⟨hlt, -⟩ := List.getElem?_eq_some_iff.mp hn
  rw [h.tokens, List.getElem?_append_left hlt, hn]

private theorem Replays.look {env : LexEnv} {macros : CzetMacroMap} {q : CParser} {gen : Nat}
    {tape : Tape} {r : ParseState} (h : Replays q gen tape r) {call : ParserCall}
    {view : CToken → CToken} (hview : call.view = some view) (hpos : call.reach ≠ 0) {t : CToken}
    (hget : tape.left[call.reach - 1]? = some t) :
    parserCall env macros call r = some (.token (view t), [], r) := by
  have htok := h.getElem? hget
  cases call with
  | peekToken =>
      obtain rfl := Option.some.inj hview
      rcases hlist : r.parser.tokens with _ | ⟨u, us⟩
      · simp [hlist, ParserCall.reach] at htok
      · obtain rfl : u = t := by simpa [hlist, ParserCall.reach] using htok
        simp only [parserCall, cParserPeekToken, hlist, Option.map_some, id]
  | peek2ndToken =>
      obtain rfl := Option.some.inj hview
      rcases hlist : r.parser.tokens with _ | ⟨u, _ | ⟨v, us⟩⟩
      · simp [hlist, ParserCall.reach] at htok
      · simp [hlist, ParserCall.reach] at htok
      · obtain rfl : v = t := by simpa [hlist, ParserCall.reach] using htok
        simp only [parserCall, cParserPeek2ndToken, hlist, Option.map_some, id]
  | peekNthToken n =>
      obtain rfl := Option.some.inj hview
      simp only [ParserCall.reach] at htok hpos
      simp only [parserCall, cParserPeekNthToken, hpos, if_false, htok, Option.map_some, id]
  | peekNthTokenRaw n =>
      obtain rfl := Option.some.inj hview
      simp only [ParserCall.reach] at htok hpos
      simp only [parserCall, cParserPeekNthTokenRaw, hpos, if_false, htok, Option.map_some]
  | consumeToken => simp [ParserCall.view] at hview
  | consumePragma => simp [ParserCall.view] at hview
  | leavePragma => simp [ParserCall.view] at hview
  | setError error => simp [ParserCall.view] at hview
  | tryInvoke => simp [ParserCall.view] at hview

private theorem tapeLook_cases {n : Nat} {view : CToken → CToken} {tape tape' : Tape}
    {ans : Answer} {out : List CToken} (h : tapeLook n view tape = some (ans, out, tape')) :
    n ≠ 0 ∧ ∃ t, tape.left[n - 1]? = some t ∧ ans = .token (view t) ∧ out = [] ∧
      tape' = tape := by
  unfold tapeLook at h
  split at h
  · simp at h
  · rename_i hpos
    obtain ⟨t, ht, heq⟩ := Option.map_eq_some_iff.mp h
    simp only [Prod.mk.injEq] at heq
    exact ⟨hpos, t, ht, heq.1.symm, heq.2.1.symm, heq.2.2.symm⟩

private theorem tapeCall_replays (env : LexEnv) (macros : CzetMacroMap) {q : CParser} {gen : Nat}
    (call : ParserCall) (tape : Tape) (r : ParseState) (ans : Answer) (out : List CToken)
    (tape' : Tape) (hrep : Replays q gen tape r)
    (h : tapeCall (macros.map Prod.fst) call tape = some (ans, out, tape')) :
    ∃ r', parserCall env macros call r = some (ans, out, r') ∧ Replays q gen tape' r' := by
  have hlook : ∀ view, call.view = some view →
      ∃ r', parserCall env macros call r = some (ans, out, r') ∧ Replays q gen tape' r' := by
    intro view hview
    rw [tapeCall_look hview] at h
    obtain ⟨hpos, t, ht, rfl, rfl, rfl⟩ := tapeLook_cases h
    exact ⟨r, hrep.look hview hpos ht, hrep⟩
  cases call with
  | peekToken => exact hlook _ rfl
  | peek2ndToken => exact hlook _ rfl
  | peekNthToken n => exact hlook _ rfl
  | peekNthTokenRaw n => exact hlook _ rfl
  | consumeToken =>
      simp only [tapeCall] at h
      split at h
      · simp at h
      · rename_i t ts hleft
        split at h
        · rename_i hflags
          simp only [Option.some.injEq, Prod.mk.injEq] at h
          obtain ⟨rfl, rfl, rfl⟩ := h
          have htokens : r.parser.tokens = t :: (ts ++ List.replicate 8 eofSentinel) := by
            rw [hrep.tokens, hleft, List.cons_append]
          have hok : consumable r.parser t = true := by
            rw [consumable_iff, hrep.error, hrep.inPragma]
            exact hflags
          refine ⟨⟨{ r.parser with
            tokens := ts ++ List.replicate 8 eofSentinel
            czetProbe := if r.parser.czetProbing && !r.parser.czetProbeCommitted
              then r.parser.czetProbe ++ [t] else r.parser.czetProbe }, r.gen⟩, ?_, ?_⟩
          · simp only [parserCall, cParserConsumeToken, htokens, hok, if_true, Option.map_some,
              List.take_succ_cons, List.take_zero]
          · exact ⟨rfl, hrep.error, hrep.inPragma, hrep.inject, hrep.raw, hrep.lexer, hrep.gen⟩
        · simp at h
  | consumePragma => simp [tapeCall] at h
  | leavePragma =>
      simp only [tapeCall, Option.some.injEq, Prod.mk.injEq] at h
      obtain ⟨rfl, rfl, rfl⟩ := h
      exact ⟨_, rfl, hrep.tokens, hrep.error, rfl, hrep.inject, hrep.raw, hrep.lexer, hrep.gen⟩
  | setError error =>
      simp only [tapeCall, Option.some.injEq, Prod.mk.injEq] at h
      obtain ⟨rfl, rfl, rfl⟩ := h
      exact ⟨_, rfl, hrep.tokens, rfl, hrep.inPragma, hrep.inject, hrep.raw, hrep.lexer, hrep.gen⟩
  | tryInvoke =>
      simp only [tapeCall] at h
      split at h
      · rename_i hhead
        simp only [Option.some.injEq, Prod.mk.injEq] at h
        obtain ⟨rfl, rfl, rfl⟩ := h
        obtain ⟨u, us, htokens, hcand⟩ : ∃ u us, r.parser.tokens = u :: us ∧
            ¬ Candidate (macros.map Prod.fst) u := by
          rw [hrep.tokens]
          rcases hleft : tape.left with _ | ⟨u, us⟩
          · exact ⟨eofSentinel, _, rfl, fun hc => absurd hc.1 (by decide)⟩
          · exact ⟨u, _, rfl, hhead u (by rw [hleft]; rfl)⟩
        have hnone : invocable macros u = none :=
          Option.not_isSome_iff_eq_none.mp fun hsome =>
            hcand ((invocable_isSome_iff macros u).mp hsome)
        refine ⟨r, ?_, hrep⟩
        simp only [parserCall, cCzetTryInvoke, cParserPeekToken, htokens, hnone, Option.map_some]
      · simp at h

private theorem pending_congr (env : LexEnv) {p q : CParser} (htokens : q.tokens = p.tokens)
    (hinject : q.pendingInject = p.pendingInject) (hraw : q.raw = p.raw)
    (hlexer : q.lexer = p.lexer) : q.pending env = p.pending env := by
  simp only [CParser.pending, CParser.source, CParser.sourceList, htokens, hinject, hraw, hlexer]

/-- In every definition whose calls are all repeatable, each replay of the recorded tokens, in
whatever state the parser then is, parses the same tokens and leaves the stream as it was. -/
theorem replay_transparent (env env' : LexEnv) (macros macros' : CzetMacroMap)
    (next : Program ParserCall Answer) (fuel : Nat) (p p' : CParser) (gen gen' : Nat)
    (body : List CToken) (hsub : macros.map Prod.fst ⊆ macros'.map Prod.fst)
    (hprobing : p.czetProbing = true) (hopen : p.czetProbeCommitted = false)
    (hstart : p.czetProbe = [])
    (hguard : GuardedPlay (parserCall env macros) (Repeatable env (macros'.map Prod.fst)) next
      fuel [] ⟨p, gen⟩)
    (hdef : play (parserCall env macros) next fuel [] ⟨p, gen⟩ = some (body, ⟨p', gen'⟩))
    (q : CParser) (qgen : Nat) (herror : q.error = p.error) (hpragma : q.inPragma = p.inPragma) :
    ∃ q', czetReplay env' macros' next fuel q qgen (some (stashedBody p')) =
        some (body, q', qgen) ∧ q'.pending env' = q.pending env' := by
  have hrecords : Records env ⟨p, gen⟩ body ⟨p', gen'⟩ :=
    play_accumulates (fun s => Records.of_record rfl (SameRecord.refl s.parser))
      (fun _ _ _ _ _ h g => h.append g) (parserCall_records hsub) fuel [] _ _ body hguard hdef
  have hstash : stashedBody p' = body ++ List.replicate 8 eofSentinel := by
    have hprobe := hrecords.probe
    simp only [hprobing, hopen, hstart, Bool.not_false, Bool.and_self, if_true,
      List.nil_append] at hprobe
    rw [stashedBody, hprobe]
  -- the definition is the play of its tape, and the replay is a play of the same tape
  obtain ⟨tape', htape, -⟩ := play_transport (parserCall_reads hsub) fuel [] ⟨p, gen⟩ ⟨p', gen'⟩
    ⟨body, p.error, p.inPragma⟩ body hguard hdef ⟨rfl, rfl, rfl, _, hrecords.pending⟩
  obtain ⟨r, hreplay, hrep⟩ := play_transport (R := fun _ => Replays q qgen)
    (fun call tape r ans out _ tape' hrep _ hcall =>
      tapeCall_replays env' macros' call tape r ans out tape' hrep hcall) fuel [] _ tape'
    ⟨{ q with tokens := stashedBody p', inBuf := false, czetProbing := false }, qgen⟩ body
    (guardedPlay_trivial _ _ _ _ _) htape ⟨hstash, herror, hpragma, rfl, rfl, rfl, rfl⟩
  refine ⟨{ r.parser with tokens := q.tokens, inBuf := q.inBuf }, ?_, ?_⟩
  · simp only [czetReplay, hreplay, hrep.gen]
  · exact pending_congr env' rfl hrep.inject hrep.raw hrep.lexer

section GenericBodies

private def script (calls : List ParserCall) : Program ParserCall Answer :=
  fun hist => calls[hist.length]?

private def probingParser (toks : List CToken) : CParser :=
  { CParser.start (plainLexer toks) with czetProbing := true }

private def statementCalls : List ParserCall :=
  [.tryInvoke, .peekToken, .consumeToken, .peekToken, .consumeToken, .peekToken, .consumeToken]

/-- A body without a macro name is replayed in front of `y` with nothing left behind. -/
theorem plain_body_replayed :
    ∃ q', czetReplay plainEnv [("M", statementMacro)] (script statementCalls) 8
        (CParser.start (plainLexer [nameToken "y"])) 3
        (some [⟨.name, .idId, 0, 0, 0, .identifier "x", 0⟩, punctToken .semicolon,
          punctToken .closeBrace, eofSentinel, eofSentinel, eofSentinel, eofSentinel, eofSentinel,
          eofSentinel, eofSentinel, eofSentinel]) =
        some ([⟨.name, .idId, 0, 0, 0, .identifier "x", 0⟩, punctToken .semicolon,
          punctToken .closeBrace], q', 3) ∧
      q'.pending plainEnv = (CParser.start (plainLexer [nameToken "y"])).pending plainEnv := by
  refine replay_transparent plainEnv plainEnv [("M", statementMacro)] [("M", statementMacro)]
    (script statementCalls) 8
    (probingParser [nameToken "x", punctToken .semicolon, punctToken .closeBrace]) _ 0 _ _
    (List.Subset.refl _) rfl rfl rfl ?_ rfl _ _ rfl rfl
  refine guardedPlay_call rfl rfl rfl ⟨by decide, by decide⟩ ?_
  refine guardedPlay_call rfl rfl rfl ⟨by decide, trivial⟩ ?_
  refine guardedPlay_call rfl rfl rfl ⟨by decide, trivial⟩ ?_
  refine guardedPlay_call rfl rfl rfl ⟨by decide, trivial⟩ ?_
  refine guardedPlay_call rfl rfl rfl ⟨by decide, trivial⟩ ?_
  refine guardedPlay_call rfl rfl rfl ⟨by decide, trivial⟩ ?_
  refine guardedPlay_call rfl rfl rfl ⟨by decide, trivial⟩ ?_
  exact guardedPlay_return rfl

private def macroBody : List CToken :=
  [nameToken "M", punctToken .less, nameToken "x", punctToken .greater, punctToken .closeBrace]

private def parseAndReplay : Option (List CToken × List CToken × CParser) :=
  match play (parserCall plainEnv [("M", statementMacro)]) (script statementCalls) 8 []
      ⟨probingParser macroBody, 0⟩ with
  | none => none
  | some (body, s) =>
      (czetReplay plainEnv [("M", statementMacro)] (script statementCalls) 8
        (CParser.start (plainLexer [nameToken "y"])) s.gen (some (stashedBody s.parser))).map
        fun r => (body, r.1, r.2.1)

/-- The body `M < x > }` is parsed as `x ; }` both times, but its replay in front of `y` leaves
the expansion `x ;` in the stream. -/
theorem replay_leaks_expansion :
    ∃ body p' gen' q' qgen,
      play (parserCall plainEnv [("M", statementMacro)]) (script statementCalls) 8 []
          ⟨probingParser macroBody, 0⟩ = some (body, ⟨p', gen'⟩) ∧
        czetReplay plainEnv [("M", statementMacro)] (script statementCalls) 8
          (CParser.start (plainLexer [nameToken "y"])) gen' (some (stashedBody p')) =
            some (body, q', qgen) ∧
        q'.pending plainEnv ≠ (CParser.start (plainLexer [nameToken "y"])).pending plainEnv := by
  have hrun : parseAndReplay.map (fun r => (decide (r.1 = r.2.1),
      (r.2.2.pendingList plainEnv).map CToken.identifierPointer)) =
      some (true, ["x", "", "y"]) := by decide +kernel
  obtain ⟨⟨body, body', q'⟩, hboth, heq⟩ := Option.map_eq_some_iff.mp hrun
  obtain ⟨hsame, hleft⟩ := Prod.mk.inj heq
  obtain rfl : body = body' := of_decide_eq_true hsame
  unfold parseAndReplay at hboth
  split at hboth
  · simp at hboth
  · rename_i body₁ s hdef
    obtain ⟨⟨body₂, q₂, qgen⟩, hreplay, hparts⟩ := Option.map_eq_some_iff.mp hboth
    simp only [Prod.mk.injEq] at hparts
    obtain ⟨rfl, rfl, rfl⟩ := hparts
    refine ⟨_, s.parser, s.gen, q₂, qgen, hdef, hreplay, ?_⟩
    intro h
    have hhead := congrArg (fun s => (Stream'.head s).identifierPointer) h
    rw [pending_eq_pendingList plainEnv q₂] at hhead
    cases hpend : q₂.pendingList plainEnv with
    | nil => simp [hpend] at hleft
    | cons t l =>
        rw [hpend, List.map_cons] at hleft
        rw [hpend, Stream'.cons_append_stream, Stream'.head_cons] at hhead
        rw [(List.cons.inj hleft).1] at hhead
        exact absurd hhead (by decide)

end GenericBodies

end CZet.Replay
