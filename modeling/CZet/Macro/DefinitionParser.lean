/- source: src/gcc/gcc/c/c-parser.cc (c_czet_macro_kind_from_name, c_parser_require,
     c_parser_skip_until_found, c_czet_take_balanced, c_parser_czet_macro_definition,
     c_czet_macro_register)
   digest: The parser of `_Macro` definitions and the grammar of the token lists that it accepts. -/

import CZet.Lib.Recognizers
import CZet.Macro.PatternTree

set_option autoImplicit false
set_option relaxedAutoImplicit false

namespace CZet

open CZet.Lib.Recognizers

section Parser

/-- A parser that gives up leaves its message and the tokens behind which it stops. -/
abbrev DefinitionParser (α : Type) := TokenParser CToken (String × List CToken) α

def giveUp (msg : String) (ts : List CToken) : String × List CToken := (msg, ts)

/-- `c_parser_skip_until_found` behind the token that is not the one looked for. -/
def skipUntilFound (type : CppTtype) : Nat → List CToken → List CToken
  | _, [] => []
  | depth, t :: ts =>
      if t.type = type ∧ depth = 0 then ts
      else if t.type = .eof then t :: ts
      else if t.type = .openBrace ∨ t.type = .openParen ∨ t.type = .openSquare then
        skipUntilFound type (depth + 1) ts
      else if t.type = .closeBrace ∨ t.type = .closeParen ∨ t.type = .closeSquare then
        if depth = 0 then t :: ts else skipUntilFound type (depth - 1) ts
      else skipUntilFound type depth ts

/-- An error after which the parser skips to the next semicolon. -/
def giveUpSkipping (msg : String) (ts : List CToken) : String × List CToken :=
  (msg, skipUntilFound .semicolon 0 ts)

def cParserRequire (type : CppTtype) (msg : String) : DefinitionParser Unit :=
  token (fun t => if t.type = type then some () else none) (giveUp msg)

def cCzetMacroKindFromName (s : String) : Option CzetMacroKind :=
  match s with
  | "ident" => some .ident
  | "expr" => some .expr
  | "type" => some .type
  | "stmt" => some .stmt
  | "block" => some .block
  | "tokens" => some .tokens
  | "number" => some .number
  | "string" => some .string
  | "literal" => some .literal
  | _ => none

/-- A fragment kind behind the colon. -/
def fragmentKind : DefinitionParser CzetMacroKind :=
  token (fun t => if t.type = .name then cCzetMacroKindFromName t.identifierPointer else none)
    (giveUp ("expected a fragment kind ('expr', 'type', 'stmt', 'block', 'tokens', 'ident')"))

/-- A `$name`. -/
def dollarName (err : List CToken → String × List CToken) : DefinitionParser String :=
  token (fun t => if cCzetIsParamRef t then some t.identifierPointer else none) err

/-- `: kind` behind the name of a parameter. -/
def colonKind : DefinitionParser CzetMacroKind := do
  cParserRequire .colon "expected ':' after macro parameter name"
  fragmentKind

def operatorMessage : String :=
  "expected a repetition operator ('*', '+' or '?') after the repeated parameter"

/-- The separator, where there is one: any token that is no operator. -/
def repetitionSeparator : DefinitionParser CToken :=
  token (fun m => if (repModOf m).isSome ∨ m.type = .greater ∨ m.type = .eof then none else some m)
    (giveUp operatorMessage)

def repetitionOperator : DefinitionParser RepMod :=
  token repModOf (giveUpSkipping operatorMessage)

def nextIsOperator (ts : List CToken) : Bool := ts.head?.any fun m => (repModOf m).isSome

/-- `sep? op`. -/
def separatorAndOperator : DefinitionParser (Option CToken × RepMod) :=
  branch nextIsOperator
    (do
      let op ← repetitionOperator
      pure (none, op))
    (do
      let sep ← repetitionSeparator
      let op ← repetitionOperator
      pure (some sep, op))

/-- `$( $name : kind ) sep? op`, from the lone `$` on. -/
def repeatedParam : DefinitionParser CMacroParam := do
  let _ ← token some (giveUp "")
  let _ ← token some (giveUp "")
  let name ← dollarName
    (giveUpSkipping "expected a repeated macro parameter like '$( $a: expr )'")
  let kind ← colonKind
  cParserRequire .closeParen "expected ')' to close the repeated parameter"
  let (sep, mod) ← separatorAndOperator
  pure { name, kind, isRepeat := true, repeatMod := some mod, repeatSep := sep }

/-- `$name : kind`. -/
def plainParam : DefinitionParser CMacroParam := do
  let name ← dollarName (giveUpSkipping "expected macro parameter like '$a: expr'")
  let kind ← colonKind
  pure { name, kind }

/-- A lone `$` and an opening parenthesis. -/
def nextIsGroup (ts : List CToken) : Bool :=
  match ts with
  | t :: o :: _ => cCzetIsRepStart t && decide (o.type = .openParen)
  | _ => false

def macroParam : DefinitionParser CMacroParam := branch nextIsGroup repeatedParam plainParam

/-- The parameter list up to its `>`, behind the parameters `params`. -/
def macroParams : Nat → List CMacroParam → DefinitionParser (List CMacroParam)
  | _, _, [] => .error ("expected macro parameter like '$a: expr'", [])
  | 0, _, ts => .error ("out of fuel", ts)
  | fuel + 1, params, t :: ts =>
      if t.type = .greater then .ok (params, ts)
      else do
        let (par, rest) ← macroParam (t :: ts)
        match rest with
        | [] => .error ("expected ',' or '>' in macro parameter list", [])
        | c :: rest' =>
            if c.type = .comma then macroParams fuel (params ++ [par]) rest'
            else if c.type = .greater then .ok (params ++ [par], rest')
            else .error ("expected ',' or '>' in macro parameter list", c :: rest')

/-- The tokens up to the one that closes the delimiter that `depth` levels are open of. -/
def balancedLoop (opening closing : CppTtype) : Nat → DefinitionParser (List CToken)
  | _, [] => .error ("unclosed delimiter in _Macro definition", [])
  | depth, t :: ts =>
      if t.type = .eof then .error ("unclosed delimiter in _Macro definition", t :: ts)
      else
        let depth' := if t.type = opening then depth + 1
          else if t.type = closing then depth - 1 else depth
        if depth' = 0 then .ok ([], ts)
        else do
          let (toks, rest) ← balancedLoop opening closing depth' ts
          .ok (t :: toks, rest)

def cCzetTakeBalanced (opening closing : CppTtype) : DefinitionParser (List CToken) := do
  -- the format of the message ignores its argument
  cParserRequire opening "expected '<'"
  balancedLoop opening closing 1

/-- One arm, with the parameters as they are in front of it and behind it. -/
def macroArm (params : List CMacroParam) : DefinitionParser (CMacroArm × List CMacroParam) := do
  let pattern ← cCzetTakeBalanced .openParen .closeParen
  let (patternTree, params) ← parsedTree params pattern true
  let expansion ← cCzetTakeBalanced .openBrace .closeBrace
  let (expansionTree, params) ← parsedTree params expansion false
  pure (⟨pattern, expansion, some patternTree, some expansionTree⟩, params)
where
  parsedTree (params : List CMacroParam) (tokens : List CToken) (isPattern : Bool) :
      DefinitionParser (List CzetRepNode × List CMacroParam) := fun ts =>
    match cCzetParseTree params tokens isPattern with
    | .ok r => .ok (r, ts)
    | .error msg => .error (msg, ts)

/-- The arms up to the closing brace. -/
def macroArms : Nat → List CMacroParam → DefinitionParser (List CMacroArm × List CMacroParam)
  | _, _, [] => .error ("unexpected end of file in _Macro definition", [])
  | 0, _, ts => .error ("out of fuel", ts)
  | fuel + 1, params, t :: ts =>
      if t.type = .closeBrace then .ok (([], params), ts)
      else if t.type = .eof then .error ("unexpected end of file in _Macro definition", t :: ts)
      else do
        let ((arm, params), rest) ← macroArm params (t :: ts)
        let ((arms, params), rest') ← macroArms fuel params rest
        .ok ((arm :: arms, params), rest')

/-- The name behind `_Macro`, which no macro has yet. -/
def macroName (macros : CzetMacroMap) : DefinitionParser String := do
  let name ← token
    (fun t => if t.type = .name ∧ t.idKind ≠ .idTypename then some t.identifierPointer else none)
    (giveUpSkipping "expected macro name after '_Macro'")
  if (cCzetMacroLookup macros name).isSome then
    refuse (giveUpSkipping ("redefinition of macro '" ++ name ++ "'"))
  else pure name

/-- The definition that starts with the token `_Macro`. -/
def macroDefinition (macros : CzetMacroMap) : DefinitionParser CMacroDef := do
  let _ ← token some (giveUp "")
  let name ← macroName macros
  cParserRequire .less "expected '<' after macro name"
  let params ← fun ts => macroParams ts.length [] ts
  cParserRequire .openBrace "expected '\x7b' to begin _Macro arms"
  let (arms, params) ← fun ts => macroArms ts.length params ts
  cParserRequire .semicolon "expected ';' after _Macro definition"
  pure ⟨name, params, arms⟩

def cCzetMacroRegister (macros : CzetMacroMap) (d : CMacroDef) : CzetMacroMap :=
  (d.name, d) :: macros

/-- The registry, the tokens that are left and the error message, if there is one. -/
def cParserCzetMacroDefinition (macros : CzetMacroMap) (ts : List CToken) :
    CzetMacroMap × List CToken × Option String :=
  match macroDefinition macros ts with
  | .ok (d, rest) => (cCzetMacroRegister macros d, rest, none)
  | .error (msg, rest) => (macros, rest, some msg)

end Parser

section Grammar

/-- `: kind`. -/
inductive KindText : CzetMacroKind → List CToken → Prop
  | intro {c k : CToken} {kind : CzetMacroKind} (hc : c.type = .colon) (hk : k.type = .name)
      (hkind : cCzetMacroKindFromName k.identifierPointer = some kind) : KindText kind [c, k]

/-- `op`, or `sep op`. -/
inductive SeparatorText : Option CToken × RepMod → List CToken → Prop
  | bare {op : CToken} {mod : RepMod} (hop : repModOf op = some mod) : SeparatorText (none, mod) [op]
  | separated {sep op : CToken} {mod : RepMod} (hsep : repModOf sep = none)
      (hgreater : sep.type ≠ .greater) (heof : sep.type ≠ .eof) (hop : repModOf op = some mod) :
      SeparatorText (some sep, mod) [sep, op]

/-- `$name : kind`, or `$( $name : kind ) sep op`. -/
inductive ParamText : CMacroParam → List CToken → Prop
  | plain {n : CToken} {kind : CzetMacroKind} {w : List CToken} (hn : cCzetIsParamRef n = true)
      (hw : KindText kind w) : ParamText { name := n.identifierPointer, kind } (n :: w)
  | repeated {d o n c : CToken} {kind : CzetMacroKind} {sep : Option CToken} {mod : RepMod}
      {w v : List CToken} (hd : cCzetIsRepStart d = true) (ho : o.type = .openParen)
      (hn : cCzetIsParamRef n = true) (hw : KindText kind w) (hc : c.type = .closeParen)
      (hv : SeparatorText (sep, mod) v) :
      ParamText { name := n.identifierPointer, kind, isRepeat := true, repeatMod := some mod,
                  repeatSep := sep } (d :: o :: n :: (w ++ c :: v))

/-- The parameters with commas between them, and the `>` behind them; a comma may stand in front of
the `>`. -/
inductive ParamsText : List CMacroParam → List CToken → Prop
  | done {g : CToken} (hg : g.type = .greater) : ParamsText [] [g]
  | last {par : CMacroParam} {w : List CToken} {g : CToken} (hpar : ParamText par w)
      (hg : g.type = .greater) : ParamsText [par] (w ++ [g])
  | more {par : CMacroParam} {params : List CMacroParam} {w v : List CToken} {c : CToken}
      (hpar : ParamText par w) (hc : c.type = .comma) (h : ParamsText params v) :
      ParamsText (par :: params) (w ++ c :: v)

def countType (type : CppTtype) (ts : List CToken) : Nat :=
  ts.countP fun t => decide (t.type = type)

/-- Tokens in which `depth` more delimiters are closed than opened, the last of them at the end at
the earliest. -/
structure Balanced (opening closing : CppTtype) (depth : Nat) (ts : List CToken) : Prop where
  noEof : ∀ t ∈ ts, t.type ≠ .eof
  prefixes : ∀ k, countType closing (ts.take k) ≤ countType opening (ts.take k) + depth
  total : countType closing ts = countType opening ts + depth

/-- `content` between two delimiters; delimiters of other kinds do not count. -/
inductive DelimitedText (opening closing : CppTtype) : List CToken → List CToken → Prop
  | intro {o c : CToken} {content : List CToken} (ho : o.type = opening) (hc : c.type = closing)
      (h : Balanced opening closing 0 content) :
      DelimitedText opening closing content (o :: content ++ [c])

/-- `( pattern ) { expansion }`, the trees of which are parsed with the parameters in front. -/
inductive ArmText (params : List CMacroParam) : CMacroArm × List CMacroParam → List CToken → Prop
  | intro {pattern expansion u v : List CToken} {patternTree expansionTree : List CzetRepNode}
      {params₁ params₂ : List CMacroParam} (hu : DelimitedText .openParen .closeParen pattern u)
      (hpattern : cCzetParseTree params pattern true = .ok (patternTree, params₁))
      (hv : DelimitedText .openBrace .closeBrace expansion v)
      (hexpansion : cCzetParseTree params₁ expansion false = .ok (expansionTree, params₂)) :
      ArmText params (⟨pattern, expansion, some patternTree, some expansionTree⟩, params₂) (u ++ v)

/-- The arms, and the closing brace behind them. -/
inductive ArmsText : List CMacroParam → List CMacroArm × List CMacroParam → List CToken → Prop
  | done {params : List CMacroParam} {b : CToken} (hb : b.type = .closeBrace) :
      ArmsText params ([], params) [b]
  | more {params params₁ params₂ : List CMacroParam} {arm : CMacroArm} {arms : List CMacroArm}
      {u v : List CToken} (h : ArmText params (arm, params₁) u)
      (hs : ArmsText params₁ (arms, params₂) v) : ArmsText params (arm :: arms, params₂) (u ++ v)

/-- `_Macro NAME < parameters > { arms } ;` with a name that is not registered. -/
inductive DefinitionText (macros : CzetMacroMap) : CMacroDef → List CToken → Prop
  | intro {kw n l b s : CToken} {params params' : List CMacroParam} {arms : List CMacroArm}
      {u v : List CToken} (hn : n.type = .name) (hid : n.idKind ≠ .idTypename)
      (hfresh : cCzetMacroLookup macros n.identifierPointer = none) (hl : l.type = .less)
      (hu : ParamsText params u) (hb : b.type = .openBrace) (hv : ArmsText params (arms, params') v)
      (hs : s.type = .semicolon) :
      DefinitionText macros ⟨n.identifierPointer, params', arms⟩ (kw :: n :: l ::
        (u ++ b :: (v ++ [s])))

end Grammar

section Words

theorem recognises_require (type : CppTtype) (msg : String) :
    Recognises (cParserRequire type msg) (fun _ w => ∃ t, w = [t] ∧ t.type = type) := by
  refine (recognises_token _ _).congr fun a w => ?_
  constructor
  · rintro ⟨t, rfl, ht⟩
    refine ⟨t, rfl, ?_⟩
    by_contra hne
    rw [if_neg hne] at ht
    cases ht
  · rintro ⟨t, rfl, ht⟩
    exact ⟨t, rfl, if_pos ht⟩

theorem recognises_dollarName (err : List CToken → String × List CToken) :
    Recognises (dollarName err)
      (fun name w => ∃ n, w = [n] ∧ cCzetIsParamRef n = true ∧ n.identifierPointer = name) := by
  refine (recognises_token _ _).congr fun name w => ?_
  constructor
  · rintro ⟨n, rfl, hn⟩
    split at hn
    · exact ⟨n, rfl, ‹_›, Option.some.inj hn⟩
    · cases hn
  · rintro ⟨n, rfl, hn, rfl⟩
    exact ⟨n, rfl, if_pos hn⟩

theorem recognises_colonKind : Recognises colonKind KindText := by
  refine ((recognises_require _ _).bind fun _ => recognises_token _ _).congr fun kind w => ?_
  constructor
  · rintro ⟨_, u, v, ⟨c, rfl, hc⟩, ⟨k, rfl, hk⟩, rfl⟩
    split at hk
    · exact KindText.intro hc ‹_› hk
    · cases hk
  · rintro ⟨hc, hk, hkind⟩
    refine ⟨(), [_], [_], ⟨_, rfl, hc⟩, ⟨_, rfl, ?_⟩, rfl⟩
    rw [if_pos hk, hkind]

theorem recognises_separatorAndOperator : Recognises separatorAndOperator SeparatorText := by
  have hop : Recognises repetitionOperator (fun mod w => ∃ op, w = [op] ∧ repModOf op = some mod) :=
    recognises_token _ _
  have hsep : Recognises repetitionSeparator
      (fun sep w => w = [sep] ∧ repModOf sep = none ∧ sep.type ≠ .greater ∧ sep.type ≠ .eof) := by
    refine (recognises_token _ _).congr fun sep w => ?_
    constructor
    · rintro ⟨m, rfl, hm⟩
      split at hm
      · cases hm
      · rename_i hfine
        obtain rfl := Option.some.inj hm
        simp only [not_or, Option.not_isSome_iff_eq_none] at hfine
        exact ⟨rfl, hfine⟩
    · rintro ⟨rfl, hnone, hfine⟩
      refine ⟨sep, rfl, if_neg ?_⟩
      simpa only [not_or, Option.not_isSome_iff_eq_none] using ⟨hnone, hfine⟩
  have hbare := hop.bind fun mod => recognises_pure ((none : Option CToken), mod)
  have hseparated := hsep.bind fun sep => hop.bind fun mod => recognises_pure (some sep, mod)
  refine (hbare.branch hseparated ?_ ?_).congr ?_
  · rintro a w rest ⟨mod, u, v, ⟨op, rfl, -⟩, -, rfl⟩
    rfl
  · rintro a w rest ⟨sep, u, v, ⟨rfl, -⟩, -, rfl⟩
    rfl
  · rintro ⟨sep, mod⟩ w
    constructor
    · intro h
      split at h
      · obtain ⟨mod', u, v, ⟨op, rfl, hmod⟩, ⟨heq, rfl⟩, rfl⟩ := h
        cases heq
        exact SeparatorText.bare hmod
      · obtain ⟨m, u, v, ⟨rfl, hnone, hgreater, heof⟩,
          ⟨mod', u', v', ⟨op, rfl, hmod⟩, ⟨heq, rfl⟩, rfl⟩, rfl⟩ := h
        cases heq
        exact SeparatorText.separated hnone hgreater heof hmod
    · intro h
      cases h with
      | @bare op _ hmod =>
          rw [if_pos (by simp [nextIsOperator, hmod])]
          exact ⟨mod, [op], [], ⟨op, rfl, hmod⟩, ⟨rfl, rfl⟩, rfl⟩
      | @separated m op _ hnone hgreater heof hmod =>
          rw [if_neg (by simp [nextIsOperator, hnone])]
          exact ⟨m, [m], [op], ⟨rfl, hnone, hgreater, heof⟩,
            ⟨mod, [op], [], ⟨op, rfl, hmod⟩, ⟨rfl, rfl⟩, rfl⟩, rfl⟩

private theorem recognises_any (err : List CToken → String × List CToken) :
    Recognises (token some err) (fun t w => w = [t]) := by
  refine (recognises_token _ _).congr fun t w => ?_
  constructor
  · rintro ⟨u, rfl, hu⟩
    rw [Option.some.inj hu]
  · rintro rfl
    exact ⟨t, rfl, rfl⟩

private theorem recognises_plainParam : Recognises plainParam (fun par w =>
    ∃ n kind v, w = n :: v ∧ cCzetIsParamRef n = true ∧ KindText kind v ∧
      par = { name := n.identifierPointer, kind }) := by
  have hparts := (recognises_dollarName
      (giveUpSkipping "expected macro parameter like '$a: expr'")).bind fun name =>
    recognises_colonKind.bind fun kind => recognises_pure ({ name, kind } : CMacroParam)
  refine hparts.congr fun par w => ?_
  constructor
  · rintro ⟨_, _, _, ⟨n, rfl, hn, rfl⟩, ⟨kind, v, _, hv, ⟨rfl, rfl⟩, rfl⟩, rfl⟩
    exact ⟨n, kind, v, by rw [List.append_nil]; rfl, hn, hv, rfl⟩
  · rintro ⟨n, kind, v, rfl, hn, hv, rfl⟩
    exact ⟨_, [n], v, ⟨n, rfl, hn, rfl⟩, ⟨kind, v, [], hv, ⟨rfl, rfl⟩, (List.append_nil v).symm⟩, rfl⟩

private theorem recognises_repeatedParam : Recognises repeatedParam (fun par w =>
    ∃ d o n c kind u sep mod v, w = d :: o :: n :: (u ++ c :: v) ∧ cCzetIsParamRef n = true ∧
      KindText kind u ∧ c.type = .closeParen ∧ SeparatorText (sep, mod) v ∧
      par = { name := n.identifierPointer, kind, isRepeat := true, repeatMod := some mod,
              repeatSep := sep }) := by
  have hparts := (recognises_any (giveUp "")).bind fun _ => (recognises_any (giveUp "")).bind fun _ =>
    (recognises_dollarName
      (giveUpSkipping "expected a repeated macro parameter like '$( $a: expr )'")).bind fun name =>
    recognises_colonKind.bind fun kind =>
    (recognises_require .closeParen "expected ')' to close the repeated parameter").bind fun _ =>
    recognises_separatorAndOperator.bind fun so =>
    recognises_pure ({ name, kind, isRepeat := true, repeatMod := some so.2,
                       repeatSep := so.1 } : CMacroParam)
  refine hparts.congr fun par w => ?_
  constructor
  · rintro ⟨d, _, _, rfl, ⟨o, _, _, rfl, ⟨_, _, _, ⟨n, rfl, hn, rfl⟩, ⟨kind, u, _, hu, ⟨_, _, _,
      ⟨c, rfl, hc⟩, ⟨⟨sep, mod⟩, v, _, hv, ⟨rfl, rfl⟩, rfl⟩, rfl⟩, rfl⟩, rfl⟩, rfl⟩, rfl⟩
    exact ⟨d, o, n, c, kind, u, sep, mod, v, by simp, hn, hu, hc, hv, rfl⟩
  · rintro ⟨d, o, n, c, kind, u, sep, mod, v, rfl, hn, hu, hc, hv, rfl⟩
    exact ⟨d, [d], _, rfl, ⟨o, [o], _, rfl, ⟨_, [n], _, ⟨n, rfl, hn, rfl⟩,
      ⟨kind, u, _, hu, ⟨(), [c], _,
      ⟨c, rfl, hc⟩, ⟨(sep, mod), v, [], hv, ⟨rfl, rfl⟩, rfl⟩, rfl⟩, rfl⟩, rfl⟩, rfl⟩, by simp⟩

theorem recognises_macroParam : Recognises macroParam ParamText := by
  refine (recognises_repeatedParam.branch recognises_plainParam ?_ ?_).congr ?_
  · rintro par w rest ⟨d, o, n, c, kind, u, sep, mod, v, rfl, -⟩
    rfl
  · rintro par w rest ⟨n, kind, v, rfl, -, ⟨-, -, -⟩, -⟩
    rfl
  · intro par w
    constructor
    · intro h
      split at h
      · rename_i hgroup
        obtain ⟨d, o, n, c, kind, u, sep, mod, v, rfl, hn, hu, hc, hv, rfl⟩ := h
        rw [nextIsGroup, Bool.and_eq_true, decide_eq_true_eq] at hgroup
        exact ParamText.repeated hgroup.1 hgroup.2 hn hu hc hv
      · obtain ⟨n, kind, v, rfl, hn, hv, rfl⟩ := h
        exact ParamText.plain hn hv
    · intro h
      cases h with
      | @plain n kind v hn hv =>
          rw [if_neg]
          · exact ⟨n, kind, v, rfl, hn, hv, rfl⟩
          · obtain ⟨hc, -, -⟩ := hv
            simp [nextIsGroup, hc]
      | @repeated d o n c kind sep mod u v hd ho hn hu hc hv =>
          rw [if_pos (by rw [nextIsGroup, hd, ho]; rfl)]
          exact ⟨d, o, n, c, kind, u, sep, mod, v, rfl, hn, hu, hc, hv, rfl⟩

private theorem ParamText.cons {par : CMacroParam} {w : List CToken} (h : ParamText par w) :
    ∃ t v, w = t :: v ∧ t.type = .name := by
  cases h with
  | @plain n _ v hn _ =>
      rw [cCzetIsParamRef, Bool.and_eq_true, decide_eq_true_eq] at hn
      exact ⟨n, v, rfl, hn.1⟩
  | @repeated d _ _ _ _ _ _ _ _ hd _ _ _ _ _ =>
      rw [cCzetIsRepStart, Bool.and_eq_true, decide_eq_true_eq] at hd
      exact ⟨d, _, rfl, hd.1⟩

private theorem ParamsText.ne_nil {params : List CMacroParam} {w : List CToken}
    (h : ParamsText params w) : w ≠ [] := by
  intro hnil
  cases h with
  | done _ => cases hnil
  | last _ _ => exact absurd (List.append_eq_nil_iff.mp hnil).2 (List.cons_ne_nil _ _)
  | more _ _ _ => exact absurd (List.append_eq_nil_iff.mp hnil).2 (List.cons_ne_nil _ _)

private theorem macroParams_turn {fuel : Nat} {params out : List CMacroParam} {t : CToken}
    {ts rest : List CToken} (ht : t.type ≠ .greater) :
    macroParams (fuel + 1) params (t :: ts) = .ok (out, rest) ↔
      ∃ par c rest', macroParam (t :: ts) = .ok (par, c :: rest') ∧
        (c.type = .comma ∧ macroParams fuel (params ++ [par]) rest' = .ok (out, rest) ∨
          c.type = .greater ∧ out = params ++ [par] ∧ rest = rest') := by
  rw [macroParams, if_neg ht]
  cases hpar : macroParam (t :: ts) with
  | error e =>
      constructor
      · intro h
        cases h
      · rintro ⟨par, c, rest', h, -⟩
        cases h
  | ok r =>
      obtain ⟨par, behind⟩ := r
      show (match behind with
        | [] => _
        | c :: rest' => _) = _ ↔ _
      cases behind with
      | nil =>
          constructor
          · intro h
            cases h
          · rintro ⟨par', c, rest', h, -⟩
            cases h
      | cons c rest' =>
          simp only
          by_cases hcomma : c.type = .comma
          · rw [if_pos hcomma]
            constructor
            · intro h
              exact ⟨par, c, rest', rfl, Or.inl ⟨hcomma, h⟩⟩
            · rintro ⟨_, _, _, ⟨⟩, ⟨-, h⟩ | ⟨hgreater, -⟩⟩
              · exact h
              · rw [hcomma] at hgreater
                cases hgreater
          · rw [if_neg hcomma]
            by_cases hgreater : c.type = .greater
            · rw [if_pos hgreater]
              constructor
              · rintro ⟨⟩
                exact ⟨par, c, rest, rfl, Or.inr ⟨hgreater, rfl, rfl⟩⟩
              · rintro ⟨_, _, _, ⟨⟩, ⟨h, -⟩ | ⟨-, rfl, rfl⟩⟩
                · exact absurd h hcomma
                · rfl
            · rw [if_neg hgreater]
              constructor
              · intro h
                cases h
              · rintro ⟨_, _, _, ⟨⟩, ⟨h, -⟩ | ⟨h, -⟩⟩
                · exact absurd h hcomma
                · exact absurd h hgreater

theorem macroParams_iff {fuel : Nat} {params out : List CMacroParam} {ts rest : List CToken}
    (hfuel : ts.length ≤ fuel) : macroParams fuel params ts = .ok (out, rest) ↔
      ∃ new w, ParamsText new w ∧ ts = w ++ rest ∧ out = params ++ new := by
  induction fuel generalizing params ts with
  | zero =>
      obtain rfl := List.length_eq_zero_iff.mp (Nat.le_zero.mp hfuel)
      constructor
      · intro h
        cases h
      · rintro ⟨new, w, hw, hts, -⟩
        exact absurd (List.append_eq_nil_iff.mp hts.symm).1 hw.ne_nil
  | succ fuel ih =>
      cases ts with
      | nil =>
          constructor
          · intro h
            cases h
          · rintro ⟨new, w, hw, hts, -⟩
            exact absurd (List.append_eq_nil_iff.mp hts.symm).1 hw.ne_nil
      | cons t ts =>
          by_cases ht : t.type = .greater
          · rw [macroParams, if_pos ht]
            constructor
            · intro h
              cases h
              exact ⟨[], [t], ParamsText.done ht, rfl, (List.append_nil _).symm⟩
            · rintro ⟨new, w, hw, hts, rfl⟩
              cases hw with
              | done hg =>
                  cases hts
                  rw [List.append_nil]
                  rfl
              | last hpar hg =>
                  obtain ⟨n, v, rfl, hname⟩ := hpar.cons
                  cases hts
                  rw [hname] at ht
                  cases ht
              | more hpar hc hmore =>
                  obtain ⟨n, v, rfl, hname⟩ := hpar.cons
                  cases hts
                  rw [hname] at ht
                  cases ht
          · rw [macroParams_turn ht]
            constructor
            · rintro ⟨par, c, rest', hpar, ⟨hcomma, h⟩ | ⟨hgreater, rfl, rfl⟩⟩
              · obtain ⟨u, hu, hts⟩ := (recognises_macroParam _ _ _).mp hpar
                have hlen : rest'.length ≤ fuel := by
                  have hsum := congrArg List.length hts
                  simp only [List.length_cons, List.length_append] at hsum hfuel
                  omega
                obtain ⟨new, v, hv, rfl, rfl⟩ := (ih hlen).mp h
                exact ⟨par :: new, u ++ c :: v, ParamsText.more hu hcomma hv, by simp [hts], by simp⟩
              · obtain ⟨u, hu, hts⟩ := (recognises_macroParam _ _ _).mp hpar
                exact ⟨[par], u ++ [c], ParamsText.last hu hgreater, by simp [hts], rfl⟩
            · rintro ⟨new, w, hw, hts, rfl⟩
              cases hw with
              | done hg =>
                  cases hts
                  exact absurd hg ht
              | @last par u g hu hg =>
                  rw [List.append_assoc] at hts
                  exact ⟨par, g, rest, (recognises_macroParam _ _ _).mpr ⟨u, hu, hts⟩,
                    Or.inr ⟨hg, rfl, rfl⟩⟩
              | @more par new u v c hu hc hv =>
                  rw [List.append_assoc] at hts
                  have hlen : (v ++ rest).length ≤ fuel := by
                    have hsum := congrArg List.length hts
                    simp only [List.length_cons, List.length_append] at hsum hfuel ⊢
                    omega
                  refine ⟨par, c, v ++ rest, (recognises_macroParam _ _ _).mpr ⟨u, hu, hts⟩,
                    Or.inl ⟨hc, (ih hlen).mpr ⟨new, v, hv, rfl, ?_⟩⟩⟩
                  rw [List.append_assoc, List.singleton_append]

theorem recognises_params : Recognises (fun ts => macroParams ts.length [] ts) ParamsText := by
  intro ts out rest
  rw [macroParams_iff (Nat.le_refl _)]
  constructor
  · rintro ⟨new, w, hw, hts, rfl⟩
    exact ⟨w, hw, hts⟩
  · rintro ⟨w, hw, hts⟩
    exact ⟨out, w, hw, hts, rfl⟩

section Delimiters

variable {opening closing : CppTtype} {depth : Nat} {t : CToken} {ts : List CToken}

private theorem countType_cons (type : CppTtype) (t : CToken) (ts : List CToken) :
    countType type (t :: ts) = countType type ts + if t.type = type then 1 else 0 := by
  rw [countType, List.countP_cons, countType]
  simp only [decide_eq_true_eq]

private theorem balanced_cons {depth' : Nat} (heof : t.type ≠ .eof)
    (hcount : (if t.type = closing then 1 else 0) + depth' =
      (if t.type = opening then 1 else 0) + depth) :
    Balanced opening closing depth (t :: ts) ↔ Balanced opening closing depth' ts := by
  constructor
  · rintro ⟨hnone, hprefixes, htotal⟩
    refine ⟨fun u hu => hnone u (List.mem_cons_of_mem _ hu), fun k => ?_, ?_⟩
    · have hk := hprefixes (k + 1)
      rw [List.take_succ_cons, countType_cons, countType_cons] at hk
      omega
    · rw [countType_cons, countType_cons] at htotal
      omega
  · rintro ⟨hnone, hprefixes, htotal⟩
    refine ⟨List.forall_mem_cons.mpr ⟨heof, hnone⟩, fun k => ?_, ?_⟩
    · cases k with
      | zero => exact Nat.zero_le _
      | succ k =>
          have hk := hprefixes k
          rw [List.take_succ_cons, countType_cons, countType_cons]
          omega
    · rw [countType_cons, countType_cons]
      omega

private theorem Balanced.head (hne : opening ≠ closing)
    (h : Balanced opening closing depth (t :: ts)) (hclosing : t.type = closing) : 0 < depth := by
  have hone := h.prefixes 1
  rw [List.take_succ_cons, List.take_zero, countType_cons, countType_cons, if_pos hclosing,
    if_neg (by rw [hclosing]; exact hne.symm)] at hone
  simp only [countType, List.countP_nil] at hone
  omega

private theorem balancedLoop_more (depth' : Nat) {content rest : List CToken}
    (hne : opening ≠ closing) (heof : t.type ≠ .eof)
    (hstep : balancedLoop opening closing (depth + 1) (t :: ts) =
      (balancedLoop opening closing (depth' + 1) ts).bind fun r => .ok (t :: r.1, r.2))
    (hcount : (if t.type = closing then 1 else 0) + depth' =
      (if t.type = opening then 1 else 0) + depth)
    (ih : ∀ {content}, balancedLoop opening closing (depth' + 1) ts = .ok (content, rest) ↔
      ∃ c, c.type = closing ∧ Balanced opening closing depth' content ∧ ts = content ++ c :: rest) :
    balancedLoop opening closing (depth + 1) (t :: ts) = .ok (content, rest) ↔
      ∃ c, c.type = closing ∧ Balanced opening closing depth content ∧
        t :: ts = content ++ c :: rest := by
  rw [hstep]
  constructor
  · intro h
    cases hloop : balancedLoop opening closing (depth' + 1) ts with
    | error e =>
        rw [hloop] at h
        cases h
    | ok r =>
        obtain ⟨toks, behind⟩ := r
        rw [hloop] at h
        cases h
        obtain ⟨c, hc, hbalanced, rfl⟩ := ih.mp hloop
        exact ⟨c, hc, (balanced_cons heof hcount).mpr hbalanced, rfl⟩
  · rintro ⟨c, hc, hbalanced, hts⟩
    cases content with
    | nil =>
        have hdepth : 0 = 0 + depth := hbalanced.total
        obtain ⟨rfl, rfl⟩ := List.cons.inj hts
        rw [if_pos hc, if_neg (by rw [hc]; exact hne.symm)] at hcount
        omega
    | cons u content =>
        obtain ⟨rfl, hrest⟩ := List.cons.inj hts
        rw [ih.mpr ⟨c, hc, (balanced_cons heof hcount).mp hbalanced, hrest⟩]
        rfl

theorem balancedLoop_iff (hne : opening ≠ closing) (hclosing : closing ≠ .eof)
    {content rest : List CToken} :
    balancedLoop opening closing (depth + 1) ts = .ok (content, rest) ↔
      ∃ c, c.type = closing ∧ Balanced opening closing depth content ∧ ts = content ++ c :: rest := by
  induction ts generalizing depth content with
  | nil =>
      constructor
      · intro h
        cases h
      · rintro ⟨c, -, -, hts⟩
        exact absurd hts.symm (by simp)
  | cons t ts ih =>
      by_cases heof : t.type = .eof
      · rw [balancedLoop, if_pos heof]
        constructor
        · intro h
          cases h
        · rintro ⟨c, hc, hbalanced, hts⟩
          cases content with
          | nil =>
              obtain ⟨rfl, -⟩ := List.cons.inj hts
              exact absurd (hc.symm.trans heof) hclosing
          | cons u content =>
              obtain ⟨rfl, -⟩ := List.cons.inj hts
              exact absurd heof (hbalanced.noEof t List.mem_cons_self)
      · by_cases hopen : t.type = opening
        · refine balancedLoop_more (depth + 1) hne heof ?_ ?_ ih
          · rw [balancedLoop, if_neg heof]
            simp only [if_pos hopen]
            rfl
          · rw [if_pos hopen, if_neg (by rw [hopen]; exact hne)]
            omega
        · by_cases hclose : t.type = closing
          · cases depth with
            | zero =>
                rw [balancedLoop, if_neg heof]
                simp only [if_neg hopen, if_pos hclose]
                constructor
                · intro h
                  cases h
                  exact ⟨t, hclose, ⟨by simp, fun _ => by simp [countType], rfl⟩, rfl⟩
                · rintro ⟨c, hc, hbalanced, hts⟩
                  cases content with
                  | nil =>
                      cases hts
                      rfl
                  | cons u content =>
                      obtain ⟨rfl, -⟩ := List.cons.inj hts
                      exact absurd (hbalanced.head hne hclose) (Nat.lt_irrefl 0)
            | succ depth =>
                refine balancedLoop_more depth hne heof ?_ ?_ ih
                · rw [balancedLoop, if_neg heof]
                  simp only [if_neg hopen, if_pos hclose]
                  rfl
                · rw [if_neg hopen, if_pos hclose]
                  omega
          · refine balancedLoop_more depth hne heof ?_ ?_ ih
            · rw [balancedLoop, if_neg heof]
              simp only [if_neg hopen, if_neg hclose]
              rfl
            · rw [if_neg hopen, if_neg hclose]

theorem recognises_takeBalanced (hne : opening ≠ closing) (hclosing : closing ≠ .eof) :
    Recognises (cCzetTakeBalanced opening closing) (DelimitedText opening closing) := by
  have hloop : Recognises (balancedLoop opening closing 1) (fun content w =>
      ∃ c, w = content ++ [c] ∧ c.type = closing ∧ Balanced opening closing 0 content) := by
    intro ts content rest
    rw [balancedLoop_iff hne hclosing]
    constructor
    · rintro ⟨c, hc, hbalanced, rfl⟩
      exact ⟨content ++ [c], ⟨c, rfl, hc, hbalanced⟩, by simp⟩
    · rintro ⟨w, ⟨c, rfl, hc, hbalanced⟩, rfl⟩
      exact ⟨c, hc, hbalanced, by simp⟩
  refine ((recognises_require opening "expected '<'").bind fun _ => hloop).congr fun content w => ?_
  constructor
  · rintro ⟨_, _, _, ⟨o, rfl, ho⟩, ⟨c, rfl, hc, hbalanced⟩, rfl⟩
    exact DelimitedText.intro ho hc hbalanced
  · rintro ⟨ho, hc, hbalanced⟩
    exact ⟨(), [_], _, ⟨_, rfl, ho⟩, ⟨_, rfl, hc, hbalanced⟩, rfl⟩

end Delimiters

private theorem recognises_parsedTree (params : List CMacroParam) (tokens : List CToken)
    (isPattern : Bool) : Recognises (macroArm.parsedTree params tokens isPattern)
      (fun r w => w = [] ∧ cCzetParseTree params tokens isPattern = .ok r) := by
  intro ts r rest
  rw [macroArm.parsedTree]
  cases cCzetParseTree params tokens isPattern with
  | error msg =>
      constructor
      · intro h
        cases h
      · rintro ⟨w, ⟨-, h⟩, -⟩
        cases h
  | ok r' =>
      constructor
      · intro h
        cases h
        exact ⟨[], ⟨rfl, rfl⟩, rfl⟩
      · rintro ⟨w, ⟨rfl, h⟩, rfl⟩
        cases h
        rfl

theorem recognises_macroArm (params : List CMacroParam) :
    Recognises (macroArm params) (ArmText params) := by
  have hparens : Recognises (cCzetTakeBalanced .openParen .closeParen)
      (DelimitedText .openParen .closeParen) :=
    recognises_takeBalanced (by decide) (by decide)
  have hbraces : Recognises (cCzetTakeBalanced .openBrace .closeBrace)
      (DelimitedText .openBrace .closeBrace) :=
    recognises_takeBalanced (by decide) (by decide)
  have hparts := hparens.bind fun pattern =>
    (recognises_parsedTree params pattern true).bind fun p =>
    hbraces.bind fun expansion =>
    (recognises_parsedTree p.2 expansion false).bind fun e =>
    recognises_pure ((⟨pattern, expansion, some p.1, some e.1⟩ : CMacroArm), e.2)
  refine hparts.congr fun r w => ?_
  constructor
  · rintro ⟨pattern, u, _, hu, ⟨⟨ptree, params₁⟩, _, _, ⟨rfl, hp⟩, ⟨expansion, v, _, hv,
      ⟨⟨etree, params₂⟩, _, _, ⟨rfl, he⟩, ⟨rfl, rfl⟩, rfl⟩, rfl⟩, rfl⟩, rfl⟩
    have harm := ArmText.intro hu hp hv he
    simpa using harm
  · rintro ⟨hu, hp, hv, he⟩
    exact ⟨_, _, _, hu, ⟨(_, _), [], _, ⟨rfl, hp⟩, ⟨_, _, [], hv, ⟨(_, _), [], [], ⟨rfl, he⟩,
      ⟨rfl, rfl⟩, rfl⟩, (List.append_nil _).symm⟩, rfl⟩, rfl⟩

private theorem ArmText.cons {params : List CMacroParam} {r : CMacroArm × List CMacroParam}
    {w : List CToken} (h : ArmText params r w) : ∃ t v, w = t :: v ∧ t.type = .openParen := by
  obtain ⟨⟨ho, -, -⟩, -, -, -⟩ := h
  exact ⟨_, _, rfl, ho⟩

private theorem ArmsText.cons {params : List CMacroParam} {r : List CMacroArm × List CMacroParam}
    {w : List CToken} (h : ArmsText params r w) : ∃ t v, w = t :: v := by
  cases h with
  | done _ => exact ⟨_, [], rfl⟩
  | more h _ =>
      obtain ⟨t, v, rfl, -⟩ := h.cons
      exact ⟨t, _, rfl⟩

private theorem macroArms_turn {fuel : Nat} {params params' : List CMacroParam}
    {arms : List CMacroArm} {t : CToken} {ts rest : List CToken} (hbrace : t.type ≠ .closeBrace) :
    macroArms (fuel + 1) params (t :: ts) = .ok ((arms, params'), rest) ↔
      ∃ arm params₁ arms' behind, macroArm params (t :: ts) = .ok ((arm, params₁), behind) ∧
        macroArms fuel params₁ behind = .ok ((arms', params'), rest) ∧ arms = arm :: arms' := by
  rw [macroArms, if_neg hbrace]
  cases harm : macroArm params (t :: ts) with
  | error e =>
      constructor
      · intro h
        split at h <;> cases h
      · rintro ⟨arm, params₁, arms', behind, h, -⟩
        cases h
  | ok r =>
      obtain ⟨⟨arm, params₁⟩, behind⟩ := r
      have heof : t.type ≠ .eof := by
        obtain ⟨w, hw, hts⟩ := (recognises_macroArm params _ _ _).mp harm
        obtain ⟨o, v, rfl, ho⟩ := hw.cons
        obtain ⟨rfl, -⟩ := List.cons.inj hts
        rw [ho]
        decide
      rw [if_neg heof]
      show (macroArms fuel params₁ behind).bind _ = _ ↔ _
      cases hmore : macroArms fuel params₁ behind with
      | error e =>
          constructor
          · intro h
            cases h
          · rintro ⟨_, _, arms', _, ⟨⟩, h, -⟩
            rw [hmore] at h
            cases h
      | ok r' =>
          constructor
          · intro h
            cases h
            exact ⟨arm, params₁, r'.1.1, behind, rfl, hmore, rfl⟩
          · rintro ⟨_, _, arms', _, ⟨⟩, h, rfl⟩
            obtain rfl := Except.ok.inj (hmore.symm.trans h)
            rfl

/-- The loop over the arms takes the texts of arms. -/
theorem macroArms_iff {fuel : Nat} {params params' : List CMacroParam} {arms : List CMacroArm}
    {ts rest : List CToken} (hfuel : ts.length ≤ fuel) :
    macroArms fuel params ts = .ok ((arms, params'), rest) ↔
      ∃ w, ArmsText params (arms, params') w ∧ ts = w ++ rest := by
  induction fuel generalizing params arms ts with
  | zero =>
      obtain rfl := List.length_eq_zero_iff.mp (Nat.le_zero.mp hfuel)
      constructor
      · intro h
        cases h
      · rintro ⟨w, hw, hts⟩
        obtain ⟨t, v, rfl⟩ := hw.cons
        cases hts
  | succ fuel ih =>
      cases ts with
      | nil =>
          constructor
          · intro h
            cases h
          · rintro ⟨w, hw, hts⟩
            obtain ⟨t, v, rfl⟩ := hw.cons
            cases hts
      | cons t ts =>
          by_cases hbrace : t.type = .closeBrace
          · rw [macroArms, if_pos hbrace]
            constructor
            · intro h
              cases h
              exact ⟨[t], ArmsText.done hbrace, rfl⟩
            · rintro ⟨w, hw, hts⟩
              cases hw with
              | done hb =>
                  cases hts
                  rfl
              | more h _ =>
                  obtain ⟨o, v, rfl, ho⟩ := h.cons
                  cases hts
                  rw [ho] at hbrace
                  cases hbrace
          · have hshort : ∀ {u behind : List CToken}, (∃ o v, u = o :: v) →
                t :: ts = u ++ behind → behind.length ≤ fuel := by
              rintro u behind ⟨o, v, rfl⟩ hts
              have hsum := congrArg List.length hts
              simp only [List.length_cons, List.length_append] at hsum hfuel
              omega
            rw [macroArms_turn hbrace]
            constructor
            · rintro ⟨arm, params₁, arms', behind, harm, hmore, rfl⟩
              obtain ⟨u, hu, hts⟩ := (recognises_macroArm params _ _ _).mp harm
              obtain ⟨o, v, ho, -⟩ := hu.cons
              obtain ⟨w, hw, rfl⟩ := (ih (hshort ⟨o, v, ho⟩ hts)).mp hmore
              exact ⟨u ++ w, ArmsText.more hu hw, by rw [hts, List.append_assoc]⟩
            · rintro ⟨w, hw, hts⟩
              cases hw with
              | done hb =>
                  cases hts
                  exact absurd hb hbrace
              | @more _ params₁ _ arm arms u w hu hw =>
                  obtain ⟨o, v, ho, -⟩ := hu.cons
                  rw [List.append_assoc] at hts
                  exact ⟨arm, params₁, arms, w ++ rest,
                    (recognises_macroArm params _ _ _).mpr ⟨u, hu, hts⟩,
                    (ih (hshort ⟨o, v, ho⟩ hts)).mpr ⟨w, hw, rfl⟩, rfl⟩

theorem recognises_arms (params : List CMacroParam) :
    Recognises (fun ts => macroArms ts.length params ts) (ArmsText params) := by
  rintro ts ⟨arms, params'⟩ rest
  exact macroArms_iff (Nat.le_refl _)

private theorem recognises_macroName (macros : CzetMacroMap) :
    Recognises (macroName macros) (fun name w => ∃ n, w = [n] ∧ n.type = .name ∧
      n.idKind ≠ .idTypename ∧ n.identifierPointer = name ∧ cCzetMacroLookup macros name = none) := by
  have hname : Recognises (token
      (fun t => if t.type = .name ∧ t.idKind ≠ .idTypename then some t.identifierPointer else none)
      (giveUpSkipping "expected macro name after '_Macro'"))
      (fun name w => ∃ n, w = [n] ∧ (n.type = .name ∧ n.idKind ≠ .idTypename) ∧
        n.identifierPointer = name) := by
    refine (recognises_token _ _).congr fun name w => ?_
    constructor
    · rintro ⟨n, rfl, hn⟩
      split at hn
      · exact ⟨n, rfl, ‹_›, Option.some.inj hn⟩
      · cases hn
    · rintro ⟨n, rfl, hn, rfl⟩
      exact ⟨n, rfl, if_pos hn⟩
  have hfresh : ∀ name, Recognises
      (if (cCzetMacroLookup macros name).isSome = true then
        refuse (giveUpSkipping ("redefinition of macro '" ++ name ++ "'"))
      else pure name : DefinitionParser String)
      (fun out w => (out = name ∧ w = []) ∧ cCzetMacroLookup macros name = none) := by
    intro name
    cases hlookup : cCzetMacroLookup macros name with
    | some d =>
        refine (recognises_refuse _).congr fun out w => ⟨False.elim, ?_⟩
        rintro ⟨-, h⟩
        cases h
    | none => exact (recognises_pure name).congr fun out w => ⟨fun h => ⟨h, rfl⟩, fun h => h.1⟩
  refine (hname.bind hfresh).congr fun name w => ?_
  constructor
  · rintro ⟨_, _, _, ⟨n, rfl, hn, rfl⟩, ⟨⟨rfl, rfl⟩, hnone⟩, rfl⟩
    exact ⟨n, rfl, hn.1, hn.2, rfl, hnone⟩
  · rintro ⟨n, rfl, hn, hid, rfl, hnone⟩
    exact ⟨_, [n], [], ⟨n, rfl, ⟨hn, hid⟩, rfl⟩, ⟨⟨rfl, rfl⟩, hnone⟩, rfl⟩

theorem recognises_macroDefinition (macros : CzetMacroMap) :
    Recognises (macroDefinition macros) (DefinitionText macros) := by
  have hparts := (recognises_any (giveUp "")).bind fun _ => (recognises_macroName macros).bind
    fun name => (recognises_require .less "expected '<' after macro name").bind fun _ =>
    recognises_params.bind fun params =>
    (recognises_require .openBrace "expected '\x7b' to begin _Macro arms").bind fun _ =>
    (recognises_arms params).bind fun r =>
    (recognises_require .semicolon "expected ';' after _Macro definition").bind fun _ =>
    recognises_pure (⟨name, r.2, r.1⟩ : CMacroDef)
  refine hparts.congr fun d w => ?_
  constructor
  · rintro ⟨kw, _, _, rfl, ⟨_, _, _, ⟨n, rfl, hn, hid, rfl, hfresh⟩, ⟨_, _, _, ⟨l, rfl, hl⟩,
      ⟨params, u, _, hu, ⟨_, _, _, ⟨b, rfl, hb⟩, ⟨⟨arms, params'⟩, v, _, hv, ⟨_, _, _, ⟨s, rfl, hs⟩,
      ⟨rfl, rfl⟩, rfl⟩, rfl⟩, rfl⟩, rfl⟩, rfl⟩, rfl⟩, rfl⟩
    exact DefinitionText.intro hn hid hfresh hl hu hb hv hs
  · rintro ⟨hn, hid, hfresh, hl, hu, hb, hv, hs⟩
    exact ⟨_, [_], _, rfl, ⟨_, [_], _, ⟨_, rfl, hn, hid, rfl, hfresh⟩, ⟨(), [_], _, ⟨_, rfl, hl⟩,
      ⟨_, _, _, hu, ⟨(), [_], _, ⟨_, rfl, hb⟩, ⟨(_, _), _, _, hv, ⟨(), [_], [], ⟨_, rfl, hs⟩,
      ⟨rfl, rfl⟩, rfl⟩, rfl⟩, rfl⟩, rfl⟩, rfl⟩, rfl⟩, rfl⟩

end Words

end CZet
