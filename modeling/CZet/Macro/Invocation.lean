/- source: src/gcc/gcc/c/c-parser.cc (c_czet_try_invoke)
   digest: Macro invocation: the scan of NAME<...>, the first matching arm, and the injection of
     its expansion or of the tokens taken back. -/

import CZet.Macro.Expansion
import CZet.Parser.Lookahead

set_option autoImplicit false
set_option relaxedAutoImplicit false

namespace CZet

/-- The counters `ang` and `par` of the invocation scanner after a token of type `type`. -/
def angleStep (ang par : Nat) (type : CppTtype) : Nat × Nat :=
  match type with
  | .less => (if par = 0 then ang + 1 else ang, par)
  | .greater => (if par = 0 then ang - 1 else ang, par)
  | .lshift => (if par = 0 then ang + 2 else ang, par)
  | .rshift => (if par = 0 then ang - 2 else ang, par)
  | .openParen | .openSquare | .openBrace => (ang, par + 1)
  | .closeParen | .closeSquare | .closeBrace => (ang, par - 1)
  | _ => (ang, par)

/-- More steps than the scanner can take: every step consumes a token in front of the end. -/
def scanFuel (p : CParser) : Nat :=
  p.tokens.length + p.pendingInject.length + p.raw.rest.length + p.lexer.rest.length + 1

/-- The loop over the tokens behind `<`; the flag is `angle_ok`.  The scanner keeps the pointer
`t` to the front of the look-ahead over the call that consumes it, so inside `tokens_buf` it
reads the type of the token that has moved there, if there is one. -/
def scanAngle (env : LexEnv) : Nat → CParser → List CToken → Nat → Nat →
    Option (Bool × CParser × List CToken)
  | 0, _, _, _, _ => none
  | fuel + 1, p, inv, ang, par =>
      if ang = 0 then some (true, p, inv)
      else match cParserPeekToken env p with
        | none => none
        | some (t, p₁) =>
            if t.type = .eof then some (false, p₁, inv)
            else match cParserConsumeToken p₁ with
              | none => none
              | some p₂ =>
                  let seen := if p₂.inBuf then (p₂.tokens.head?.getD t).type else t.type
                  scanAngle env fuel p₂ (inv ++ [t]) (angleStep ang par seen).1
                    (angleStep ang par seen).2

/-- The verdict of the matcher that the arm was parsed for. -/
def armMatch (params : List CMacroParam) (arm : CMacroArm) (args : List CToken) : MatchVerdict :=
  match arm.patternTree with
  | some tree => cCzetMatcherTree params tree args
  | none => cCzetMatcher params arm.pattern args

/-- The hygienized expansion of a matched arm, the generation counter, and the errors. -/
def expandArm (params : List CMacroParam) (arm : CMacroArm) (args : List CToken) (caps : Captures)
    (gen : Nat) : List CToken × Nat × List String :=
  match arm.expansionTree with
  | some tree =>
      let r := cCzetBuildExpansionTree params tree caps args
      ((cCzetHygienize gen r.1).1, (cCzetHygienize gen r.1).2, r.2)
  | none =>
      let out := cCzetBuildExpansion params arm.expansion caps args
      ((cCzetHygienize gen out).1, (cCzetHygienize gen out).2, [])

/-- The arms in turn: the expansion of the first one that matches. -/
def expandArms (params : List CMacroParam) (args : List CToken) (gen : Nat) :
    List CMacroArm → Option (Option (List CToken × Nat × List String))
  | [] => some none
  | arm :: arms =>
      match armMatch params arm args with
      | none => none
      | some none => expandArms params args gen arms
      | some (some caps) => some (some (expandArm params arm args caps gen))

/-- The macro that a token may invoke. -/
def invocable (macros : CzetMacroMap) (t : CToken) : Option CMacroDef :=
  if t.type ≠ .name ∨ t.idKind = .idTypename then none
  else if t.startsDollar then none
  else cCzetMacroLookup macros t.identifierPointer

structure InvokeOutcome where
  invoked : Bool
  parser : CParser
  gen : Nat
  errors : List String

/-- What happens once the candidate invocation `inv` has been consumed. -/
def settleInvocation (mac : CMacroDef) (gen : Nat) (angleOk : Bool) (p : CParser)
    (inv : List CToken) : Option InvokeOutcome :=
  if angleOk then
    match expandArms mac.params (inv.take 1 ++ (inv.drop 2).dropLast) gen mac.arms with
    | none => none
    | some (some (exp, gen', errors)) => some ⟨true, cCzetPushInject p exp, gen', errors⟩
    | some none => some ⟨false, cCzetPushInject p inv, gen, []⟩
  else some ⟨false, cCzetPushInject p inv, gen, []⟩

/-- `c_czet_try_invoke`; `none` where an assertion of the parser fails. -/
def cCzetTryInvoke (env : LexEnv) (macros : CzetMacroMap) (gen : Nat) (p : CParser) :
    Option InvokeOutcome :=
  match cParserPeekToken env p with
  | none => none
  | some (tok0, p₁) =>
      match invocable macros tok0 with
      | none => some ⟨false, p₁, gen, []⟩
      | some mac =>
          match cParserConsumeToken p₁ with
          | none => none
          | some p₂ =>
              match cParserPeekToken env p₂ with
              | none => none
              | some (t, p₃) =>
                  if t.type = .less then
                    match cParserConsumeToken p₃ with
                    | none => none
                    | some p₄ =>
                        match scanAngle env (scanFuel p₄) p₄ [tok0, t] 1 0 with
                        | none => none
                        | some (angleOk, p₅, inv) => settleInvocation mac gen angleOk p₅ inv
                  else settleInvocation mac gen true p₃ [tok0]

end CZet
