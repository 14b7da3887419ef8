/- source: src/gcc/gcc/c/c-parser.cc (c_czet_try_invoke, c_czet_push_inject)
   digest: When a macro invocation conserves the token stream: tokens put back or expanded land
     behind whatever the scanner has already peeked. -/

import CZet.Macro.Invocation

set_option autoImplicit false
set_option relaxedAutoImplicit false

namespace CZet

/-- The number of tokens up to the one that closes the invocation, behind its `<`. -/
def closeAngle : Nat → Nat → List CToken → Option Nat
  | _, _, [] => none
  | ang, par, t :: ts =>
      if t.type = .eof then none
      else if (angleStep ang par t.type).1 = 0 then some 1
      else (closeAngle (angleStep ang par t.type).1 (angleStep ang par t.type).2 ts).map (· + 1)

/-- The reading of a stream as a macro invocation: `NAME` with no `<` behind it, or `NAME<...>`;
the argument list that the arms are matched against, and the tokens behind the invocation. -/
inductive Invocation : Stream' CToken → List CToken → Stream' CToken → Prop
  | bare (name : CToken) (rest : Stream' CToken) (hless : rest.head.type ≠ .less) :
      Invocation (Stream'.cons name rest) [name] rest
  | angle (name less : CToken) (body : List CToken) (close : CToken) (rest : Stream' CToken)
      (hless : less.type = .less)
      (hclose : closeAngle 1 0 (body ++ [close]) = some (body.length + 1)) :
      Invocation ((name :: less :: (body ++ [close])) ++ₛ rest) (name :: body) rest

/-- A call that fails leaves the stream as it was; a call that succeeds replaces the invocation
by the expansion of the first arm that matches. -/
def ConservedBy (env : LexEnv) (macros : CzetMacroMap) (gen : Nat) (p : CParser)
    (out : InvokeOutcome) : Prop :=
  if out.invoked then
    ∃ mac args rest exp, invocable macros (p.pending env).head = some mac ∧
      Invocation (p.pending env) args rest ∧
      expandArms mac.params args gen mac.arms = some (some (exp, out.gen, out.errors)) ∧
      out.parser.pending env = exp ++ₛ rest
  else out.parser.pending env = p.pending env

def Conserves (env : LexEnv) (macros : CzetMacroMap) (gen : Nat) (p : CParser) : Prop :=
  ∀ out, cCzetTryInvoke env macros gen p = some out → ConservedBy env macros gen p out

/-- How the scan of `NAME<...>` ends: behind the closing token, at the end of file, or at a
pragma that the parser refuses to consume. -/
inductive ScanEnd
  | closed (n : Nat)
  | unclosed
  | stuck
  deriving DecidableEq, Repr

def ScanEnd.behind : ScanEnd → ScanEnd
  | .closed n => .closed (n + 1)
  | e => e

/-- The scan that is made over the pending tokens behind `<` when `fill` of them are in
`tokens_buf`: all but the last of these are counted by the type of the token behind them. -/
def bufferScan (ok : CToken → Bool) : Nat → Nat → Nat → List CToken → ScanEnd
  | _, _, _, [] => .unclosed
  | fill, ang, par, t :: ts =>
      if t.type = .eof then .unclosed
      else if ok t then
        let seen := if 2 ≤ fill then (ts.head?.getD t).type else t.type
        if (angleStep ang par seen).1 = 0 then .closed 1
        else (bufferScan ok (fill - 1) (angleStep ang par seen).1 (angleStep ang par seen).2
          ts).behind
      else .stuck

/-- The type that the scanner reads through its stale pointer. -/
private theorem seen_eq (env : LexEnv) {p q : CParser} {t : CToken} {l : List CToken}
    (hpend : p.pendingList env = t :: l) (hq : q.tokens = p.tokens.tail) :
    (q.tokens.head?.getD t).type =
      if 2 ≤ p.tokens.length then (l.head?.getD t).type else t.type := by
  rw [hq]
  rcases htok : p.tokens with _ | ⟨a, _ | ⟨b, rest⟩⟩
  · simp
  · simp
  · simp only [CParser.pendingList, htok, List.cons_append, List.cons.injEq] at hpend
    obtain ⟨-, rfl⟩ := hpend
    simp

private theorem peek_pending_cons (env : LexEnv) {p : CParser} {t : CToken} {l : List CToken}
    (hbuf : p.inBuf = true) (hpend : p.pendingList env = t :: l) :
    ∃ q, cParserPeekToken env p = some (t, q) ∧ q.tokens = t :: p.tokens.tail ∧
      p.SameMode q ∧ q.pendingList env = t :: l := by
  obtain ⟨t', q, hpeek, htok, hmode, hsame | ⟨hnil, -, -⟩⟩ := cParserPeekToken_inBuf env hbuf
  · rw [hpend] at hsame
    have hhead := hsame
    rw [CParser.pendingList, htok, List.cons_append] at hhead
    obtain ⟨rfl, -⟩ := List.cons.inj hhead
    exact ⟨q, hpeek, htok, hmode, hsame⟩
  · rw [hpend] at hnil
    exact absurd hnil (by simp)

private theorem peek_pending_nil (env : LexEnv) {p : CParser} (hbuf : p.inBuf = true)
    (hpend : p.pendingList env = []) :
    ∃ q, cParserPeekToken env p = some (p.lexer.eof, q) ∧ q.tokens = [p.lexer.eof] ∧
      p.SameMode q ∧ q.pendingList env = [p.lexer.eof] := by
  have hnotok : p.tokens = [] := (List.append_eq_nil_iff.mp hpend).1
  obtain ⟨t, q, hpeek, htok, hmode, hsame | ⟨-, rfl, hone⟩⟩ := cParserPeekToken_inBuf env hbuf
  · rw [hpend, CParser.pendingList, htok] at hsame
    exact absurd hsame (by simp)
  · rw [hnotok] at htok
    exact ⟨q, hpeek, htok, hmode, hone⟩

/-- What the loop over `NAME<...>` does inside `tokens_buf`. -/
theorem scanAngle_spec (env : LexEnv) (l : List CToken) (fuel : Nat) (p : CParser)
    (inv : List CToken) (ang par : Nat) (hbuf : p.inBuf = true)
    (hpend : p.pendingList env = l) (hfuel : l.length < fuel) (hang : ang ≠ 0) :
    match bufferScan (consumable p) p.tokens.length ang par l with
    | .closed n => n ≤ l.length ∧ 0 < n ∧ ∃ q,
        scanAngle env fuel p inv ang par = some (true, q, inv ++ l.take n) ∧
          q.tokens = p.tokens.drop n ∧ q.pendingList env = l.drop n ∧ p.SameMode q
    | .unclosed => ∃ q pre e ts, scanAngle env fuel p inv ang par = some (false, q, inv ++ pre) ∧
        q.tokens = e :: ts ∧ e.type = .eof
    | .stuck => scanAngle env fuel p inv ang par = none := by
  induction l generalizing fuel p inv ang par with
  | nil =>
      obtain ⟨f, rfl⟩ := Nat.exists_eq_succ_of_ne_zero (Nat.ne_of_gt hfuel)
      obtain ⟨q, hpeek, htok, hmode, hone⟩ := peek_pending_nil env hbuf hpend
      have heof := p.lexer.eof_type
      refine ⟨q, [], p.lexer.eof, [], ?_, htok, heof⟩
      simp only [scanAngle, hang, if_false, hpeek, heof, if_true, List.append_nil]
  | cons t l ih =>
      obtain ⟨f, rfl⟩ := Nat.exists_eq_succ_of_ne_zero (Nat.ne_of_gt (Nat.zero_lt_of_lt hfuel))
      obtain ⟨p₁, hpeek, htok₁, hmode₁, hpend₁⟩ := peek_pending_cons env hbuf hpend
      by_cases heof : t.type = .eof
      · simp only [bufferScan, heof, if_true]
        refine ⟨p₁, [], t, p.tokens.tail, ?_, htok₁, heof⟩
        simp only [scanAngle, hang, if_false, hpeek, heof, if_true, List.append_nil]
      by_cases hok : consumable p t = true
      · have hok₁ : consumable p₁ t = true := (hmode₁.consumable t).trans hok
        obtain ⟨p₂, hconsume, htok₂, hmode₂, hpend₂⟩ :=
          cParserConsumeToken_inBuf env htok₁ hok₁
        rw [hpend₁] at hpend₂
        obtain ⟨-, hpend₂⟩ := List.cons.inj hpend₂
        have hmode := hmode₁.trans hmode₂
        have hbuf₂ : p₂.inBuf = true := hmode.inBuf.trans hbuf
        have hlen : p₂.tokens.length = p.tokens.length - 1 := by
          rw [htok₂, List.length_tail]
        have hstep : ∀ a b, angleStep ang par
              (if 2 ≤ p.tokens.length then (l.head?.getD t).type else t.type) = (a, b) →
            scanAngle env (f + 1) p inv ang par = scanAngle env f p₂ (inv ++ [t]) a b := by
          intro a b hab
          simp only [scanAngle, hang, if_false, hpeek, heof, hconsume, hbuf₂, if_true,
            seen_eq env hpend htok₂, hab]
        simp only [bufferScan, heof, hok, if_false, if_true]
        rcases hab : angleStep ang par
          (if 2 ≤ p.tokens.length then (l.head?.getD t).type else t.type) with ⟨a, b⟩
        specialize hstep a b hab
        by_cases ha : a = 0
        · subst ha
          simp only [if_true]
          refine ⟨by simp, by simp, p₂, ?_, ?_, ?_, hmode⟩
          · obtain ⟨g, rfl⟩ : ∃ g, f = g + 1 :=
              ⟨f - 1, by simp only [List.length_cons] at hfuel; omega⟩
            rw [hstep]
            simp [scanAngle]
          · rw [htok₂, List.drop_one]
          · rw [← hpend₂, List.drop_one, List.tail_cons]
        · simp only [ha, if_false]
          have hrest := ih f p₂ (inv ++ [t]) a b hbuf₂ hpend₂.symm
            (by simp only [List.length_cons] at hfuel; omega) ha
          have hcons : consumable p₂ = consumable p := funext hmode.consumable
          rw [hlen, hcons] at hrest
          rw [hstep]
          revert hrest
          cases bufferScan (consumable p) (p.tokens.length - 1) a b l with
          | closed n =>
              rintro ⟨hn, hpos, q, hscan, htok, hpend', hmode'⟩
              refine ⟨by simpa using hn, by omega, q, ?_, ?_, ?_, hmode.trans hmode'⟩
              · rw [hscan]
                simp
              · rw [htok, htok₂, ← List.drop_one, List.drop_drop, Nat.add_comm]
              · rw [hpend', List.drop_succ_cons]
          | unclosed =>
              rintro ⟨q, pre, e, ts, hscan, htok, he⟩
              refine ⟨q, t :: pre, e, ts, ?_, htok, he⟩
              rw [hscan]
              simp
          | stuck => exact id
      · have hok₁ : consumable p₁ t = false := by
          rw [hmode₁.consumable t]
          simpa using hok
        simp only [bufferScan, heof, hok, if_false, Bool.false_eq_true]
        have hconsume : cParserConsumeToken p₁ = none := by
          simp [cParserConsumeToken, htok₁, hok₁]
        simp only [scanAngle, hang, if_false, hpeek, heof, hconsume]

theorem closeAngle_take {ang par n : Nat} {l : List CToken} (h : closeAngle ang par l = some n) :
    n ≤ l.length ∧ 0 < n ∧ closeAngle ang par (l.take n) = some n := by
  induction l generalizing ang par n with
  | nil => simp [closeAngle] at h
  | cons t ts ih =>
      simp only [closeAngle] at h
      split at h
      · simp at h
      · rename_i heof
        split at h
        · rename_i hzero
          obtain rfl := Option.some.inj h
          refine ⟨by simp, by omega, ?_⟩
          simp only [List.take_succ_cons, closeAngle, heof, hzero, if_false, if_true]
        · rename_i hzero
          obtain ⟨m, hm, rfl⟩ := Option.map_eq_some_iff.mp h
          obtain ⟨hle, -, htake⟩ := ih hm
          refine ⟨by simpa using hle, by omega, ?_⟩
          simp only [List.take_succ_cons, closeAngle, heof, hzero, if_false, htake,
            Option.map_some]

theorem closeAngle_of_append {ang par : Nat} {l rest : List CToken}
    (h : closeAngle ang par l = some l.length) :
    closeAngle ang par (l ++ rest) = some l.length := by
  induction l generalizing ang par with
  | nil => simp [closeAngle] at h
  | cons t ts ih =>
      simp only [closeAngle] at h
      split at h
      · simp at h
      · rename_i heof
        split at h
        · rename_i hzero
          simp only [List.cons_append, closeAngle, heof, hzero, if_false, if_true, h]
        · rename_i hzero
          obtain ⟨m, hm, hlen⟩ := Option.map_eq_some_iff.mp h
          obtain rfl : m = ts.length := by simpa using hlen
          simp only [List.cons_append, closeAngle, heof, hzero, if_false, ih hm,
            Option.map_some, List.length_cons]

/-- A token at which a macro of the given names may be invoked. -/
def Candidate (names : List String) (t : CToken) : Prop :=
  t.type = .name ∧ t.idKind ≠ .idTypename ∧ t.startsDollar = false ∧ t.identifierPointer ∈ names

instance (names : List String) (t : CToken) : Decidable (Candidate names t) :=
  inferInstanceAs (Decidable (_ ∧ _ ∧ _ ∧ _))

private theorem lookup_isSome_iff (macros : CzetMacroMap) (name : String) :
    (cCzetMacroLookup macros name).isSome = true ↔ name ∈ macros.map Prod.fst := by
  induction macros with
  | nil => simp [cCzetMacroLookup]
  | cons m ms ih =>
      obtain ⟨key, mac⟩ := m
      unfold cCzetMacroLookup at ih ⊢
      rw [List.lookup_cons]
      by_cases hkey : name == key
      · simp only [hkey, Option.isSome_some, List.map_cons, true_iff]
        exact List.mem_cons.mpr (.inl (beq_iff_eq.mp hkey))
      · have hne : name ≠ key := fun h => hkey (beq_iff_eq.mpr h)
        simp [hkey, ih, hne]

theorem invocable_isSome_iff (macros : CzetMacroMap) (t : CToken) :
    (invocable macros t).isSome = true ↔ Candidate (macros.map Prod.fst) t := by
  unfold invocable Candidate
  rw [← lookup_isSome_iff]
  split
  · rename_i h
    simp only [Option.isSome_none, Bool.false_eq_true, false_iff]
    rintro ⟨htype, hkind, -⟩
    exact h.elim (fun g => g htype) hkind
  · rename_i h
    obtain ⟨htype, hkind⟩ := not_or.mp h
    split
    · rename_i hdollar
      simp [hdollar]
    · rename_i hdollar
      simp only [Bool.not_eq_true] at hdollar
      simp [not_not.mp htype, hkind, hdollar]

theorem invocable_name {macros : CzetMacroMap} {t : CToken} {mac : CMacroDef}
    (h : invocable macros t = some mac) : t.type = .name :=
  ((invocable_isSome_iff macros t).mp (Option.isSome_of_eq_some h)).1

theorem scanFuel_eq (env : LexEnv) (p : CParser) :
    scanFuel p = (p.pendingList env).length + 1 := by
  simp only [scanFuel, CParser.pendingList, CParser.sourceList, List.length_append,
    List.length_map]
  omega

private theorem pending_head {env : LexEnv} {p : CParser} {t : CToken} {l : List CToken}
    (hpend : p.pendingList env = t :: l) : (p.pending env).head = t := by
  rw [pending_eq_pendingList, hpend, Stream'.cons_append_stream, Stream'.head_cons]

theorem tryInvoke_notCandidate (env : LexEnv) (macros : CzetMacroMap) (gen : Nat)
    {p : CParser} (hnone : invocable macros (p.pending env).head = none) {out : InvokeOutcome}
    (h : cCzetTryInvoke env macros gen p = some out) :
    out.invoked = false ∧ out.parser.pending env = p.pending env ∧
      ∃ t, cParserPeekToken env p = some (t, out.parser) := by
  unfold cCzetTryInvoke at h
  split at h
  · simp at h
  · rename_i t q hpeek
    have hpend := cParserPeekToken_pending hpeek
    have hhead : (p.pending env).head = t := by
      obtain ⟨ts, hts⟩ : ∃ ts, q.tokens = t :: ts := by
        obtain ⟨ts, hts, rfl⟩ | ⟨-, -, -, rfl⟩ := cParserPeekToken_cases hpeek
        · exact ⟨ts, hts⟩
        · exact ⟨[], rfl⟩
      rw [← hpend, CParser.pending, hts, Stream'.cons_append_stream, Stream'.head_cons]
    rw [hhead] at hnone
    simp only [hnone, Option.some.injEq] at h
    subst h
    exact ⟨rfl, hpend, t, hpeek⟩

private theorem consume_name (env : LexEnv) {p : CParser} {t : CToken} {l : List CToken}
    (hbuf : p.inBuf = true) (hpend : p.pendingList env = t :: l)
    (hok : consumable p t = true) :
    ∃ p₁ p₂, cParserPeekToken env p = some (t, p₁) ∧ cParserConsumeToken p₁ = some p₂ ∧
      p₂.tokens = p.tokens.tail ∧ p₂.pendingList env = l ∧ p.SameMode p₂ := by
  obtain ⟨p₁, hpeek, htok₁, hmode₁, hpend₁⟩ := peek_pending_cons env hbuf hpend
  obtain ⟨p₂, hconsume, htok₂, hmode₂, hpend₂⟩ :=
    cParserConsumeToken_inBuf env htok₁ ((hmode₁.consumable t).trans hok)
  rw [hpend₁] at hpend₂
  exact ⟨p₁, p₂, hpeek, hconsume, htok₂, (List.cons.inj hpend₂).2.symm, hmode₁.trans hmode₂⟩

private theorem consumable_of_type {p : CParser} {t : CToken} {ty : CppTtype} (h : t.type = ty)
    (hne : ty ≠ .eof ∧ ty ≠ .pragmaEol ∧ ty ≠ .pragma) : consumable p t = true := by
  simp [consumable, h, hne.1, hne.2.1, hne.2.2]

private theorem tryInvoke_bare (env : LexEnv) {macros : CzetMacroMap} (gen : Nat) {p : CParser}
    {mac : CMacroDef} {t : CToken} {l : List CToken} (hbuf : p.inBuf = true)
    (hpend : p.pendingList env = t :: l) (hmac : invocable macros t = some mac)
    (hless : ∀ u ∈ l.head?, u.type ≠ .less) :
    ∃ q ts, cCzetTryInvoke env macros gen p = settleInvocation mac gen true q [t] ∧
      q.tokens = l.head?.getD p.lexer.eof :: ts := by
  obtain ⟨p₁, p₂, hpeek, hconsume, htok₂, hpend₂, hmode⟩ := consume_name env hbuf hpend
    (consumable_of_type (invocable_name hmac) (by decide))
  have hbuf₂ : p₂.inBuf = true := hmode.inBuf.trans hbuf
  cases l with
  | nil =>
      obtain ⟨q, hpeek₂, htok, -, -⟩ := peek_pending_nil env hbuf₂ hpend₂
      refine ⟨q, [], ?_, by rw [htok, hmode.eof, List.head?_nil, Option.getD_none]⟩
      have hne : p₂.lexer.eof.type ≠ .less := by
        rw [p₂.lexer.eof_type]
        decide
      simp only [cCzetTryInvoke, hpeek, hmac, hconsume, hpeek₂, hne, if_false]
  | cons u l =>
      obtain ⟨q, hpeek₂, htok, -, -⟩ := peek_pending_cons env hbuf₂ hpend₂
      refine ⟨q, _, ?_, htok⟩
      have hne : u.type ≠ .less := hless u (by simp)
      simp only [cCzetTryInvoke, hpeek, hmac, hconsume, hpeek₂, hne, if_false]

private theorem tryInvoke_angle (env : LexEnv) {macros : CzetMacroMap} (gen : Nat) {p : CParser}
    {mac : CMacroDef} {t less : CToken} {body : List CToken} (hbuf : p.inBuf = true)
    (hpend : p.pendingList env = t :: less :: body) (hmac : invocable macros t = some mac)
    (hless : less.type = .less) :
    ∃ q, cCzetTryInvoke env macros gen p =
        (match scanAngle env (body.length + 1) q [t, less] 1 0 with
          | none => none
          | some (angleOk, q', inv) => settleInvocation mac gen angleOk q' inv) ∧
      q.tokens = p.tokens.drop 2 ∧ q.pendingList env = body ∧ p.SameMode q := by
  obtain ⟨p₁, p₂, hpeek, hconsume, htok₂, hpend₂, hmode⟩ := consume_name env hbuf hpend
    (consumable_of_type (invocable_name hmac) (by decide))
  have hbuf₂ : p₂.inBuf = true := hmode.inBuf.trans hbuf
  obtain ⟨p₃, p₄, hpeek₂, hconsume₂, htok₄, hpend₄, hmode'⟩ := consume_name env hbuf₂ hpend₂
    (consumable_of_type hless (by decide))
  refine ⟨p₄, ?_, ?_, hpend₄, hmode.trans hmode'⟩
  · have hfuel : scanFuel p₄ = body.length + 1 := by rw [scanFuel_eq env, hpend₄]
    cases hscan : scanAngle env (body.length + 1) p₄ [t, less] 1 0 <;>
      simp only [cCzetTryInvoke, hpeek, hmac, hconsume, hpeek₂, hless, if_true, hconsume₂, hfuel,
        hscan]
  · rw [htok₄, htok₂, ← List.drop_one, ← List.drop_one, List.drop_drop]

/-- The condition on the state before the call: the first pending token is no candidate; or a
`<` follows it and the scanner runs into a pragma, or it stops at the token that closes the
invocation and has then emptied the look-ahead buffer. -/
def InvocationSafe (env : LexEnv) (names : List String) (p : CParser) : Prop :=
  ∀ name rest, p.pendingList env = name :: rest → Candidate names name →
    ∃ less body, rest = less :: body ∧ less.type = .less ∧
      (bufferScan (consumable p) (p.tokens.length - 2) 1 0 body = .stuck ∨
        ∃ n, bufferScan (consumable p) (p.tokens.length - 2) 1 0 body = .closed n ∧
          closeAngle 1 0 body = some n ∧ p.tokens.length ≤ n + 2)

private theorem pending_push_empty (env : LexEnv) {q : CParser} (toks : List CToken)
    (htok : q.tokens = []) :
    (cCzetPushInject q toks).pending env = toks ++ₛ q.pending env := by
  have htok' : (cCzetPushInject q toks).tokens = [] := htok
  simp only [CParser.pending, source_push, htok, htok', Stream'.nil_append_stream]

private theorem settle_conserves (env : LexEnv) {macros : CzetMacroMap} {gen n : Nat}
    {p q : CParser} {mac : CMacroDef} {t less : CToken} {body : List CToken}
    (hpend : p.pendingList env = t :: less :: body) (hmac : invocable macros t = some mac)
    (hless : less.type = .less) (hclose : closeAngle 1 0 body = some n)
    (htok : q.tokens = []) (hq : q.pendingList env = body.drop n)
    (heof : q.lexer.eof = p.lexer.eof) {out : InvokeOutcome}
    (h : settleInvocation mac gen true q (t :: less :: body.take n) = some out) :
    ConservedBy env macros gen p out := by
  obtain ⟨hle, hpos, htake⟩ := closeAngle_take hclose
  have hstream : p.pending env = (t :: less :: body.take n) ++ₛ q.pending env := by
    rw [pending_eq_pendingList, pending_eq_pendingList, hpend, hq, heof,
      ← Stream'.append_append_stream, List.cons_append, List.cons_append, List.take_append_drop]
  have hlen : (body.take n).length = n := by simp [hle]
  have hne : body.take n ≠ [] := by
    intro hnil
    simp [hnil] at hlen
    omega
  have hsplit := List.dropLast_append_getLast hne
  have hbody : (body.take n).dropLast.length + 1 = n := by
    rw [List.length_dropLast, hlen]
    omega
  have hargs : List.take 1 (t :: less :: body.take n) ++
      (List.drop 2 (t :: less :: body.take n)).dropLast = t :: (body.take n).dropLast := by
    simp only [List.take_succ_cons, List.take_zero, List.drop_succ_cons, List.drop_zero,
      List.singleton_append]
  simp only [settleInvocation, if_true, hargs] at h
  split at h
  · simp at h
  · rename_i exp gen' errors hexp
    obtain rfl := Option.some.inj h
    simp only [ConservedBy, if_true]
    refine ⟨mac, t :: (body.take n).dropLast, q.pending env, exp, ?_, ?_, hexp,
      pending_push_empty env exp htok⟩
    · rw [pending_head hpend, hmac]
    · rw [hstream, ← hsplit]
      have hinv := Invocation.angle t less (body.take n).dropLast ((body.take n).getLast hne)
        (q.pending env) hless (by rw [hsplit, htake, hbody])
      simpa only [List.dropLast_concat] using hinv
  · obtain rfl := Option.some.inj h
    simp only [ConservedBy, Bool.false_eq_true, if_false]
    rw [pending_push_empty env _ htok, hstream]

/-- Under the condition the call conserves the stream, whatever the macros of these names are. -/
theorem conserves_of_safe (env : LexEnv) (macros : CzetMacroMap) (gen : Nat) {p : CParser}
    (hbuf : p.inBuf = true) (hsafe : InvocationSafe env (macros.map Prod.fst) p) :
    Conserves env macros gen p := by
  intro out hout
  cases hmac : invocable macros (p.pending env).head with
  | none =>
      obtain ⟨hinv, hsame, -⟩ := tryInvoke_notCandidate env macros gen hmac hout
      simp only [ConservedBy, hinv, Bool.false_eq_true, if_false]
      exact hsame
  | some mac =>
      cases hpend : p.pendingList env with
      | nil =>
          rw [pending_eq_pendingList, hpend, Stream'.nil_append_stream] at hmac
          have htype := invocable_name hmac
          rw [show (Stream'.const p.lexer.eof).head = p.lexer.eof from rfl,
            p.lexer.eof_type] at htype
          exact absurd htype (by decide)
      | cons t l =>
          rw [pending_head hpend] at hmac
          have hcand := (invocable_isSome_iff macros t).mp (Option.isSome_of_eq_some hmac)
          obtain ⟨less, body, rfl, hless, hscan⟩ := hsafe t l hpend hcand
          obtain ⟨q, htry, htok, hq, hmode⟩ := tryInvoke_angle env gen hbuf hpend hmac hless
          have hspec := scanAngle_spec env body (body.length + 1) q [t, less] 1 0
            (hmode.inBuf.trans hbuf) hq (Nat.lt_succ_self _) (by decide)
          have hcons : consumable q = consumable p := funext hmode.consumable
          rw [htok, hcons, List.length_drop] at hspec
          rw [htry] at hout
          rcases hscan with hstuck | ⟨n, hclosed, hclose, hfill⟩
          · rw [hstuck] at hspec
            simp [hspec] at hout
          · rw [hclosed] at hspec
            obtain ⟨-, -, q', hscan', htok', hq', hmode'⟩ := hspec
            simp only [hscan', List.cons_append, List.nil_append] at hout
            refine settle_conserves env hpend hmac hless hclose ?_ hq'
              (hmode.trans hmode').eof hout
            rw [htok', List.drop_drop]
            exact List.drop_eq_nil_of_le (by omega)

section ExactMacro

/-- A pattern node for exactly one token; a `$name` can only stand there as a parameter. -/
private def exactNode (t : CToken) : CzetRepNode :=
  if cCzetIsParamRef t then .cap 0 else .tok t

private def exactMacro (args : List CToken) (out : CToken) (name : String) : CMacroDef where
  name := name
  params := [{ name := "$p", kind := .ident }]
  arms := [{ pattern := args, expansion := [out],
             patternTree := some (args.map exactNode), expansionTree := some [.tok out] }]

private theorem exactNode_step (params : List CMacroParam) (input : List CToken) (t : CToken)
    (rest : Nat → Captures → MtResult) (ii : Nat) (caps : Captures)
    (hparams : params = [{ name := "$p", kind := .ident }]) :
    (∃ caps', mtNode 7 params input (exactNode t) rest ii caps = .fail caps' ∧
        input[ii]? ≠ some t) ∨
      ∃ caps', mtNode 7 params input (exactNode t) rest ii caps = rest (ii + 1) caps' := by
  subst hparams
  unfold exactNode
  split
  · rename_i href
    have hname : t.type = .name := by
      simp only [cCzetIsParamRef, Bool.and_eq_true, decide_eq_true_eq] at href
      exact href.1
    cases hi : input[ii]? with
    | none => exact .inl ⟨caps, by simp [mtNode, isFixedKind, matchFixed, hi], by simp⟩
    | some u =>
        by_cases hu : u.type = .name
        · refine .inr ⟨setSpan caps 0 ii (ii + 1), ?_⟩
          simp [mtNode, isFixedKind, matchFixed, hi, hu]
        · refine .inl ⟨caps, by simp [mtNode, isFixedKind, matchFixed, hi, hu], ?_⟩
          rintro heq
          obtain rfl := Option.some.inj heq
          exact hu hname
  · cases hi : input[ii]? with
    | none => exact .inl ⟨caps, by simp [mtNode, hi], by simp⟩
    | some u =>
        by_cases hu : cCzetTokEq t u = true
        · exact .inr ⟨caps, by simp [mtNode, hi, hu]⟩
        · refine .inl ⟨caps, by simp [mtNode, hi, hu], ?_⟩
          rintro heq
          obtain rfl := Option.some.inj heq
          exact hu (cCzetTokEq_refl u)

private theorem exactNodes_spec (params : List CMacroParam) (input : List CToken)
    (hparams : params = [{ name := "$p", kind := .ident }]) (l : List CToken) (ii : Nat)
    (caps : Captures) :
    ((∃ caps', mtNodes 7 params input (l.map exactNode) ii caps = .fail caps') ∧
        input.drop ii ≠ l) ∨
      ∃ caps', mtNodes 7 params input (l.map exactNode) ii caps = .ok (ii + l.length) caps' := by
  induction l generalizing ii caps with
  | nil => exact .inr ⟨caps, by simp [mtNodes]⟩
  | cons t l ih =>
      simp only [List.map_cons, mtNodes]
      rcases exactNode_step params input t (mtNodes 7 params input (l.map exactNode)) ii caps
        hparams with ⟨caps', hfail, hne⟩ | ⟨caps', hrest⟩
      · refine .inl ⟨⟨caps', hfail⟩, ?_⟩
        intro hdrop
        apply hne
        rw [← List.head?_drop, hdrop, List.head?_cons]
      · rw [hrest]
        rcases ih (ii + 1) caps' with ⟨hfail, hne⟩ | ⟨caps'', hok⟩
        · refine .inl ⟨hfail, ?_⟩
          intro hdrop
          apply hne
          rw [← List.tail_drop, hdrop, List.tail_cons]
        · refine .inr ⟨caps'', ?_⟩
          rw [hok, List.length_cons]
          congr 1
          omega

private theorem exactMacro_expand (args : List CToken) (out : CToken) (name : String) (gen : Nat)
    (hout : out.type ≠ .name) (args' : List CToken) :
    (expandArms (exactMacro args out name).params args' gen (exactMacro args out name).arms =
        some none ∧ args' ≠ args) ∨
      (expandArms (exactMacro args out name).params args' gen (exactMacro args out name).arms =
        some (some ([out], gen, [])) ∧ args'.length = args.length) := by
  have hexpand : ∀ caps, expandArm [{ name := "$p", kind := .ident }]
      { pattern := args, expansion := [out], patternTree := some (args.map exactNode),
        expansionTree := some [.tok out] } args' caps gen = ([out], gen, []) := by
    intro caps
    simp [expandArm, cCzetBuildExpansionTree, cCzetExpandSeq, expandNode, ExpandState.emit,
      cCzetHygienize, collectBinders, hout]
  rcases exactNodes_spec [{ name := "$p", kind := .ident }] args' rfl args 0 noCaptures with
    ⟨⟨caps, hfail⟩, hne⟩ | ⟨caps, hok⟩
  · refine .inl ⟨?_, by simpa using hne⟩
    simp only [exactMacro, expandArms, armMatch, cCzetMatcherTree, growingMatcherTree, hfail]
  · rw [Nat.zero_add] at hok
    by_cases hlen : args.length = args'.length
    · refine .inr ⟨?_, hlen.symm⟩
      simp only [exactMacro, expandArms, armMatch, cCzetMatcherTree, growingMatcherTree, hok,
        hlen, if_true, hexpand]
    · refine .inl ⟨?_, fun h => hlen (by rw [h])⟩
      simp only [exactMacro, expandArms, armMatch, cCzetMatcherTree, growingMatcherTree, hok,
        hlen, if_false]

private def exactTable (names : List String) (args : List CToken) (out : CToken) : CzetMacroMap :=
  names.map fun name => (name, exactMacro args out name)

private theorem exactTable_names (names : List String) (args : List CToken) (out : CToken) :
    (exactTable names args out).map Prod.fst = names := by
  simp [exactTable, Function.comp_def]

private theorem exactTable_lookup (names : List String) (args : List CToken) (out : CToken)
    {t : CToken} (h : Candidate names t) :
    invocable (exactTable names args out) t = some (exactMacro args out t.identifierPointer) := by
  obtain ⟨htype, hkind, hdollar, hmem⟩ := h
  simp only [invocable, htype, hkind, ne_eq, not_true_eq_false, or_self, if_false, hdollar,
    Bool.false_eq_true]
  induction names with
  | nil => simp at hmem
  | cons n ns ih =>
      simp only [exactTable, cCzetMacroLookup, List.map_cons, List.lookup_cons] at ih ⊢
      by_cases hn : t.identifierPointer == n
      · simp only [hn]
        rw [beq_iff_eq.mp hn]
      · simp only [hn]
        refine ih ?_
        rcases List.mem_cons.mp hmem with heq | hin
        · exact absurd (beq_iff_eq.mpr heq) hn
        · exact hin

private def otherToken (e : CToken) : CToken :=
  if e.type = .semicolon then punctToken .comma else punctToken .semicolon

private theorem otherToken_spec (e : CToken) :
    (otherToken e).type ≠ .name ∧ otherToken e ≠ e := by
  unfold otherToken
  split
  · rename_i h
    refine ⟨by decide, fun heq => ?_⟩
    rw [← heq] at h
    exact absurd h (by decide)
  · rename_i h
    exact ⟨by decide, fun heq => h (by rw [← heq]; rfl)⟩

private abbrev argsOf (inv : List CToken) : List CToken := inv.take 1 ++ (inv.drop 2).dropLast

private theorem settle_exact (gen : Nat) (q : CParser) (inv : List CToken)
    (out : CToken) (name : String) (hout : out.type ≠ .name) :
    settleInvocation (exactMacro (argsOf inv) out name) gen true q inv =
      some ⟨true, cCzetPushInject q [out], gen, []⟩ := by
  rcases exactMacro_expand (argsOf inv) out name gen hout (argsOf inv) with
    ⟨-, hne⟩ | ⟨hexp, -⟩
  · exact absurd rfl hne
  · simp only [settleInvocation, if_true, hexp]

private theorem conserves_exact {env : LexEnv} {names : List String} {gen : Nat} {p q : CParser}
    {t out : CToken} {l inv : List CToken} (hpend : p.pendingList env = t :: l)
    (hcand : Candidate names t) (hout : out.type ≠ .name)
    (htry : cCzetTryInvoke env (exactTable names (argsOf inv) out) gen p =
      settleInvocation (exactMacro (argsOf inv) out t.identifierPointer) gen true q inv)
    (h : Conserves env (exactTable names (argsOf inv) out) gen p) :
    ∃ args rest, Invocation (p.pending env) args rest ∧ args.length = (argsOf inv).length ∧
      (cCzetPushInject q [out]).pending env = Stream'.cons out rest := by
  rw [settle_exact gen q inv out _ hout] at htry
  obtain ⟨mac, args, rest, exp, hmac, hinv, hexp, hstream⟩ := h _ htry
  rw [pending_head hpend, exactTable_lookup names _ _ hcand] at hmac
  obtain rfl := Option.some.inj hmac
  rcases exactMacro_expand (argsOf inv) out t.identifierPointer gen hout args with
    ⟨hnone, -⟩ | ⟨hsome, hlen⟩
  · rw [hnone] at hexp
    simp at hexp
  · rw [hsome] at hexp
    simp only [Option.some.injEq, Prod.mk.injEq] at hexp
    obtain ⟨rfl, -⟩ := hexp
    exact ⟨args, rest, hinv, hlen, hstream⟩

private theorem leftover_not_conserved {env : LexEnv} {names : List String} {gen : Nat}
    {p q : CParser} {t e : CToken} {l ts inv : List CToken} (hpend : p.pendingList env = t :: l)
    (hcand : Candidate names t) (htok : q.tokens = e :: ts)
    (htry : cCzetTryInvoke env (exactTable names (argsOf inv) (otherToken e)) gen p =
      settleInvocation (exactMacro (argsOf inv) (otherToken e) t.identifierPointer) gen true q
        inv) :
    ¬ Conserves env (exactTable names (argsOf inv) (otherToken e)) gen p := by
  intro h
  obtain ⟨args, rest, -, -, hstream⟩ :=
    conserves_exact hpend hcand (otherToken_spec e).1 htry h
  have htok' : (cCzetPushInject q [otherToken e]).tokens = e :: ts := htok
  rw [CParser.pending, htok', Stream'.cons_append_stream] at hstream
  have hhead := congrArg Stream'.head hstream
  rw [Stream'.head_cons, Stream'.head_cons] at hhead
  exact (otherToken_spec e).2 hhead.symm

private theorem append_stream_prefix {l l' : List CToken} {s s' : Stream' CToken}
    (h : l ++ₛ s = l' ++ₛ s') (hlen : l.length ≤ l'.length) : ∃ r, l' = l ++ r := by
  induction l generalizing l' with
  | nil => exact ⟨l', rfl⟩
  | cons a l ih =>
      cases l' with
      | nil => simp at hlen
      | cons b l' =>
          rw [Stream'.cons_append_stream, Stream'.cons_append_stream] at h
          obtain ⟨rfl, htail⟩ := Stream'.cons_injective2 h
          obtain ⟨r, rfl⟩ := ih htail (by simpa using hlen)
          exact ⟨r, rfl⟩

private theorem invocation_closes {t less : CToken} {body args : List CToken}
    {s s' rest : Stream' CToken} (hs : s = (t :: less :: body) ++ₛ s')
    (hless : less.type = .less) (h : Invocation s args rest) (hlen : args.length ≤ body.length) :
    closeAngle 1 0 body = some args.length := by
  rw [Stream'.cons_append_stream, Stream'.cons_append_stream] at hs
  cases h with
  | bare name rest hbare =>
      obtain ⟨-, rfl⟩ := Stream'.cons_injective2 hs
      rw [Stream'.head_cons] at hbare
      exact absurd hless hbare
  | angle name less' body' close rest hless' hclose =>
      rw [Stream'.cons_append_stream, Stream'.cons_append_stream] at hs
      obtain ⟨-, hs⟩ := Stream'.cons_injective2 hs
      obtain ⟨-, hs⟩ := Stream'.cons_injective2 hs
      obtain ⟨r, rfl⟩ := append_stream_prefix hs (by simpa using hlen)
      have hfull : closeAngle 1 0 (body' ++ [close]) = some (body' ++ [close]).length := by
        simpa using hclose
      rw [closeAngle_of_append hfull]
      simp

/-- Where the condition fails, some macros of these names lose the order of the stream. -/
theorem safe_of_conserves (env : LexEnv) (names : List String) (gen : Nat) {p : CParser}
    (hbuf : p.inBuf = true)
    (h : ∀ macros : CzetMacroMap, macros.map Prod.fst = names → Conserves env macros gen p) :
    InvocationSafe env names p := by
  intro t l hpend hcand
  have htable := fun args out => h _ (exactTable_names names args out)
  have hmac := fun args out => exactTable_lookup names args out hcand
  by_cases hbare : ∀ u ∈ l.head?, u.type ≠ .less
  · obtain ⟨q, ts, htry, htok⟩ := tryInvoke_bare env gen hbuf hpend
      (hmac (argsOf [t]) (otherToken (l.head?.getD p.lexer.eof))) hbare
    exact absurd (htable _ _) (leftover_not_conserved hpend hcand htok htry)
  obtain ⟨less, body, rfl, hless⟩ : ∃ less body, l = less :: body ∧ less.type = .less := by
    cases l with
    | nil => simp at hbare
    | cons less body => exact ⟨less, body, rfl, by simpa using hbare⟩
  refine ⟨less, body, rfl, hless, ?_⟩
  have hangle := fun args out => tryInvoke_angle env gen hbuf hpend (hmac args out) hless
  have hscan : ∀ q : CParser, q.tokens = p.tokens.drop 2 → q.pendingList env = body →
      p.SameMode q → _ := fun q htok hq hmode =>
    scanAngle_spec env body (body.length + 1) q [t, less] 1 0 (hmode.inBuf.trans hbuf) hq
      (Nat.lt_succ_self _) (by decide)
  cases hend : bufferScan (consumable p) (p.tokens.length - 2) 1 0 body with
  | stuck => exact .inl rfl
  | unclosed =>
      obtain ⟨q, htry, htok, hq, hmode⟩ := hangle [] (punctToken .semicolon)
      have hspec := hscan q htok hq hmode
      rw [htok, List.length_drop, funext hmode.consumable, hend] at hspec
      obtain ⟨q', pre, e, ts, hresult, htok', heof⟩ := hspec
      simp only [hresult, settleInvocation, Bool.false_eq_true, if_false] at htry
      have hsame := htable [] (punctToken .semicolon) _ htry
      simp only [ConservedBy, Bool.false_eq_true, if_false] at hsame
      have hhead := congrArg Stream'.head hsame
      have htok'' : (cCzetPushInject q' ([t, less] ++ pre)).tokens = e :: ts := htok'
      rw [pending_head hpend, CParser.pending, htok'', Stream'.cons_append_stream,
        Stream'.head_cons] at hhead
      rw [hhead, hcand.1] at heof
      exact absurd heof (by decide)
  | closed n =>
      refine .inr ⟨n, rfl, ?_⟩
      -- the parser after the scan does not depend on the macros
      have hafter : ∀ out, ∃ q,
          cCzetTryInvoke env (exactTable names (argsOf (t :: less :: body.take n)) out) gen p =
            settleInvocation (exactMacro (argsOf (t :: less :: body.take n)) out
              t.identifierPointer) gen true q (t :: less :: body.take n) ∧
          q.tokens = p.tokens.drop (n + 2) ∧ n ≤ body.length ∧ 0 < n := by
        intro out
        obtain ⟨q, htry, htok, hq, hmode⟩ := hangle (argsOf (t :: less :: body.take n)) out
        have hspec := hscan q htok hq hmode
        rw [htok, List.length_drop, funext hmode.consumable, hend] at hspec
        obtain ⟨hn, hpos, q', hresult, htok', -⟩ := hspec
        refine ⟨q', ?_, ?_, hn, hpos⟩
        · simpa only [hresult, List.cons_append, List.nil_append] using htry
        · rw [htok', List.drop_drop, Nat.add_comm]
      have hfill : p.tokens.length ≤ n + 2 := by
        by_contra hlong
        obtain ⟨e, ts, hdrop⟩ := List.exists_cons_of_length_pos
          (l := p.tokens.drop (n + 2)) (by rw [List.length_drop]; omega)
        obtain ⟨q, htry, htok, -, -⟩ := hafter (otherToken e)
        rw [hdrop] at htok
        exact leftover_not_conserved hpend hcand htok htry (htable _ _)
      obtain ⟨q, htry, -, hn, hpos⟩ := hafter (punctToken .semicolon)
      obtain ⟨args, rest, hinv, hlen, -⟩ :=
        conserves_exact hpend hcand (by decide) htry (htable _ _)
      have hargs : (argsOf (t :: less :: body.take n)).length = n := by
        simp only [argsOf, List.take_succ_cons, List.take_zero, List.drop_succ_cons,
          List.drop_zero, List.singleton_append, List.length_cons, List.length_dropLast,
          List.length_take, Nat.min_eq_left hn]
        omega
      rw [hargs] at hlen
      have hclose := invocation_closes (by rw [pending_eq_pendingList, hpend]) hless hinv
        (by omega)
      exact ⟨by rw [hclose, hlen], hfill⟩

end ExactMacro

/-- Conservation for every table of macros with the given names is exactly the condition on the
look-ahead buffer and the stream. -/
theorem tryInvoke_conserves_iff (env : LexEnv) (names : List String) (gen : Nat) (p : CParser)
    (hbuf : p.inBuf = true) :
    (∀ macros : CzetMacroMap, macros.map Prod.fst = names → Conserves env macros gen p) ↔
      InvocationSafe env names p := by
  constructor
  · exact safe_of_conserves env names gen hbuf
  · rintro hsafe macros rfl
    exact conserves_of_safe env macros gen hbuf hsafe

section Invocations

/-- `_Macro M< $a: ident > { ( M $a ) { $a ; } };`. -/
def statementMacro : CMacroDef where
  name := "M"
  params := [{ name := "$a", kind := .ident }]
  arms := [{ pattern := [nameToken "M", nameToken "$a"]
             expansion := [nameToken "$a", punctToken .semicolon]
             patternTree := some [.tok (nameToken "M"), .cap 0]
             expansionTree := some [.cap 0, .tok (punctToken .semicolon)] }]

/-- `M < x > y` with nothing looked ahead becomes `x ; y`. -/
theorem bracketed_invocation_conserves :
    ∃ out, cCzetTryInvoke plainEnv [("M", statementMacro)] 0
        (CParser.start (plainLexer [nameToken "M", punctToken .less, nameToken "x",
          punctToken .greater, nameToken "y"])) = some out ∧ out.invoked = true ∧
      ConservedBy plainEnv [("M", statementMacro)] 0
        (CParser.start (plainLexer [nameToken "M", punctToken .less, nameToken "x",
          punctToken .greater, nameToken "y"])) out := by
  have hsafe : InvocationSafe plainEnv ["M"]
      (CParser.start (plainLexer [nameToken "M", punctToken .less, nameToken "x",
        punctToken .greater, nameToken "y"])) := by
    intro name rest hpend _
    obtain ⟨-, rfl⟩ := List.cons.inj hpend
    exact ⟨_, _, rfl, rfl, .inr ⟨2, by decide, by decide, by decide⟩⟩
  have hrun : (cCzetTryInvoke plainEnv [("M", statementMacro)] 0
      (CParser.start (plainLexer [nameToken "M", punctToken .less, nameToken "x",
        punctToken .greater, nameToken "y"]))).map (·.invoked) = some true := by
    decide +kernel
  obtain ⟨out, hout, hinvoked⟩ := Option.map_eq_some_iff.mp hrun
  refine ⟨out, hout, hinvoked, ?_⟩
  exact (tryInvoke_conserves_iff plainEnv ["M"] 0 _ rfl).mpr hsafe _ rfl out hout

/-- `M ; y` is no invocation that matches, but it is given back as `; M y`. -/
theorem bare_name_moved_back :
    ¬ Conserves plainEnv [("M", statementMacro)] 0
      (CParser.start (plainLexer [nameToken "M", punctToken .semicolon, nameToken "y"])) := by
  intro h
  have hsame := h _ rfl
  have hhead := congrArg (fun s => (Stream'.head s).type) hsame
  exact absurd hhead (by decide)

end Invocations

end CZet
