/- source: src/gcc/gcc/c/c-parser.cc (c_parser_peek_token .. c_parser_consume_token,
     c_czet_push_inject, c_parser_next_tokens_start_declaration)
   digest: Interleaved look-ahead, injection and consumption deliver one sequential stream
     as long as no raw look-ahead reaches into an injected list. -/

import CZet.Lib.OpRun
import CZet.Parser.Lookahead

set_option autoImplicit false
set_option relaxedAutoImplicit false

namespace CZet.Delivery

open CZet.Lib.OpRun

/-- The calls whose interleavings are considered. -/
inductive StreamOp
  | peekToken
  | peek2ndToken
  | peekNthToken (n : Nat)
  | peekNthTokenRaw (n : Nat)
  | consumeToken
  | pushInject (toks : List CToken)

/-- One call: the tokens it consumes and the parser after it.  `none` is a failed
assertion; a list is injected only while the look-ahead buffer is empty. -/
def streamStep (env : LexEnv) (op : StreamOp) (p : CParser) : Option (List CToken × CParser) :=
  match op with
  | .peekToken => (cParserPeekToken env p).map fun r => ([], r.2)
  | .peek2ndToken => (cParserPeek2ndToken env p).map fun r => ([], r.2)
  | .peekNthToken n => (cParserPeekNthToken env p n).map fun r => ([], r.2)
  | .peekNthTokenRaw n => (cParserPeekNthTokenRaw env p n).map fun r => ([], r.2)
  | .consumeToken => (cParserConsumeToken p).map fun q => (p.tokens.take 1, q)
  | .pushInject toks => if p.tokens = [] then some ([], cCzetPushInject p toks) else none

/-- The sequential meaning of a call on the one stream it works on. -/
def sequentialStep (op : StreamOp) (s : Stream' CToken) : List CToken × Stream' CToken :=
  match op with
  | .consumeToken => ([s.head], s.tail)
  | .pushInject toks => ([], toks ++ₛ s)
  | _ => ([], s)

/-- A raw look-ahead that has to lex finds no injected token pending. -/
def RawBelowInjection (op : StreamOp) (p : CParser) : Prop :=
  match op with
  | .peekNthTokenRaw n => p.rawMustLex n → p.pendingInject = []
  | _ => True

private theorem streamStep_refines (env : LexEnv) (op : StreamOp) (p : CParser)
    (out : List CToken) (q : CParser) (hguard : RawBelowInjection op p)
    (h : streamStep env op p = some (out, q)) :
    sequentialStep op (p.pending env) = (out, q.pending env) := by
  cases op with
  | peekToken =>
      obtain ⟨⟨t, q'⟩, hpeek, heq⟩ := Option.map_eq_some_iff.mp h
      obtain ⟨rfl, rfl⟩ := Prod.mk.inj heq
      simp only [sequentialStep, cParserPeekToken_pending hpeek]
  | peek2ndToken =>
      obtain ⟨⟨t, q'⟩, hpeek, heq⟩ := Option.map_eq_some_iff.mp h
      obtain ⟨rfl, rfl⟩ := Prod.mk.inj heq
      simp only [sequentialStep, cParserPeek2ndToken_pending hpeek]
  | peekNthToken n =>
      obtain ⟨⟨t, q'⟩, hpeek, heq⟩ := Option.map_eq_some_iff.mp h
      obtain ⟨rfl, rfl⟩ := Prod.mk.inj heq
      simp only [sequentialStep, cParserPeekNthToken_pending hpeek]
  | peekNthTokenRaw n =>
      obtain ⟨⟨t, q'⟩, hpeek, heq⟩ := Option.map_eq_some_iff.mp h
      obtain ⟨rfl, rfl⟩ := Prod.mk.inj heq
      simp only [sequentialStep, cParserPeekNthTokenRaw_pending hpeek hguard]
  | consumeToken =>
      obtain ⟨q', hconsume, heq⟩ := Option.map_eq_some_iff.mp h
      obtain ⟨rfl, rfl⟩ := Prod.mk.inj heq
      obtain ⟨t, ts, hts, hpend⟩ := cParserConsumeToken_pending env hconsume
      simp only [sequentialStep, hpend, hts, Stream'.head_cons, Stream'.tail_cons,
        List.take_succ_cons, List.take_zero]
  | pushInject toks =>
      simp only [streamStep] at h
      split at h
      · rename_i hnil
        obtain ⟨rfl, rfl⟩ := Prod.mk.inj (Option.some.inj h)
        have htok : (cCzetPushInject p toks).tokens = [] := hnil
        simp only [sequentialStep, CParser.pending, source_push, htok, hnil,
          Stream'.nil_append_stream]
      · simp at h

/-- In every run whose raw look-aheads never lex over a pending injection, the
consumed tokens and the stream left over are the sequential ones. -/
theorem guarded_delivery_sequential (env : LexEnv) (ops : List StreamOp) (p q : CParser)
    (out : List CToken) (hguard : GuardedRun (streamStep env) RawBelowInjection ops p)
    (hrun : runOps (streamStep env) ops p = some (out, q)) :
    specOps sequentialStep ops (p.pending env) = (out, q.pending env) :=
  runOps_refines (streamStep_refines env) ops p q out hguard hrun

/-- A token peeked raw from the lexer is delivered behind the list injected after it. -/
theorem guarded_delivery_after_raw_peek :
    (specOps sequentialStep
      [.peekNthTokenRaw 1, .pushInject [{ type := .plus }], .peekToken, .consumeToken,
        .peekToken, .consumeToken]
      ((CParser.start (plainLexer [{ type := .minus }])).pending plainEnv)).1 =
      [{ type := .plus }, { type := .minus }] := by
  have hguard : GuardedRun (streamStep plainEnv) RawBelowInjection
      [.peekNthTokenRaw 1, .pushInject [{ type := .plus }], .peekToken, .consumeToken,
        .peekToken, .consumeToken] (CParser.start (plainLexer [{ type := .minus }])) :=
    guardedRun_cons (fun _ => rfl) rfl <| guardedRun_cons trivial rfl <|
      guardedRun_cons trivial rfl <| guardedRun_cons trivial rfl <|
      guardedRun_cons trivial rfl <| guardedRun_cons trivial rfl trivial
  exact congrArg Prod.fst (guarded_delivery_sequential plainEnv _ _ _
    [{ type := .plus }, { type := .minus }] hguard rfl)

section StaticAssertLookahead

private def assertExpansion : List CToken :=
  [{ type := .keyword, keyword := 1, value := .identifier "_Static_assert" },
    { type := .openParen }, { type := .number, value := .constant "1" },
    { type := .closeParen }, { type := .semicolon },
    { type := .name, idKind := .idId, value := .identifier "x" }]

/-- The expansion `_Static_assert (1); x` is injected, and
`c_parser_next_tokens_start_declaration` looks ahead raw from the third token to the
semicolon before the parser consumes three tokens. -/
private def assertOps : List StreamOp :=
  [.pushInject assertExpansion, .peekToken, .peekNthToken 2, .peekNthTokenRaw 3,
    .peekNthTokenRaw 4, .peekNthTokenRaw 5, .consumeToken, .peekToken, .consumeToken,
    .peekToken, .consumeToken]

/-- The third consumed token is `x`: the raw-peeked `1` has been overtaken by it. -/
theorem raw_peeked_token_overtaken :
    ∃ out q, runOps (streamStep plainEnv) assertOps (CParser.start (plainLexer [])) =
        some (out, q) ∧
      (specOps sequentialStep assertOps
        ((CParser.start (plainLexer [])).pending plainEnv)).1 ≠ out := by
  refine ⟨_, _, rfl, ?_⟩
  intro h
  have hthird := congrArg (fun l => (l[2]?).map CToken.type) h
  exact absurd hthird (by decide)

end StaticAssertLookahead

end CZet.Delivery
