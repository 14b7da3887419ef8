/- source: src/gcc/gcc/c/c-parser.cc (enum czet_macro_kind .. struct c_macro_def,
     c_czet_find_param, c_czet_parse_tree, c_czet_collect_uses_seq)
   digest: Macro definitions and the pattern trees that c_czet_parse_tree accepts. -/

import CZet.Token

set_option autoImplicit false
set_option relaxedAutoImplicit false

namespace CZet

/-- `enum czet_macro_kind` without its `REPEAT_*` copies; a repeated parameter keeps
its base kind and sets `CMacroParam.isRepeat`. -/
inductive CzetMacroKind
  | ident | expr | type | stmt | block | tokens | number | string | literal
  deriving DecidableEq, Repr

/-- The repetition operators `*`, `+` and `?`. -/
inductive RepMod
  | star | plus | query
  deriving DecidableEq, Repr

/-- `struct c_macro_param`; `none` stands for the EOF separator and for `rep_depth` -1. -/
structure CMacroParam where
  name : String
  kind : CzetMacroKind
  isRepeat : Bool := false
  repeatMod : Option RepMod := none
  repeatSep : Option CToken := none
  repDepth : Option Nat := none

/-- `struct czet_rep_node`, one constructor for each `czet_rep_kind`. -/
inductive CzetRepNode
  | tok (t : CToken)
  | cap (param : Nat)
  | rep (kids : List CzetRepNode) (mod : RepMod) (sep : Option CToken) (uses : List Nat)

structure CMacroArm where
  pattern : List CToken
  expansion : List CToken
  patternTree : Option (List CzetRepNode)
  expansionTree : Option (List CzetRepNode)

structure CMacroDef where
  name : String
  params : List CMacroParam
  arms : List CMacroArm

/-- The registry `czet_macro_map`. -/
abbrev CzetMacroMap := List (String × CMacroDef)

def cCzetMacroLookup (macros : CzetMacroMap) (name : String) : Option CMacroDef :=
  macros.lookup name

def cCzetFindParam (params : List CMacroParam) (name : String) : Option Nat :=
  params.findIdx? (fun par => decide (par.name = name))

/-- `CZET_MACRO_KIND_IS_REPEAT` of parameter `p`. -/
def isRepeated (params : List CMacroParam) (p : Nat) : Bool :=
  (params[p]?).any fun par => par.isRepeat

mutual

def cCzetCollectUsesNode : CzetRepNode → List Nat → List Nat
  | .tok _, out => out
  | .cap p, out => if p ∈ out then out else out ++ [p]
  | .rep kids _ _ _, out => cCzetCollectUsesSeq kids out

/-- Append the parameter indices referenced in a sequence, each of them once. -/
def cCzetCollectUsesSeq : List CzetRepNode → List Nat → List Nat
  | [], out => out
  | n :: rest, out => cCzetCollectUsesSeq rest (cCzetCollectUsesNode n out)

end

/-- The content of a group up to the token that brings the depth back to zero, and
what follows that token. -/
def splitGroup : Int → List CToken → Option (List CToken × List CToken)
  | _, [] => none
  | depth, t :: ts =>
      if depth + cCzetDelta t = 0 then some ([], ts)
      else (splitGroup (depth + cCzetDelta t) ts).map fun r => (t :: r.1, r.2)

def repModOf (t : CToken) : Option RepMod :=
  match t.type with
  | .mult => some .star
  | .plus => some .plus
  | .query => some .query
  | _ => none

/-- The optional separator and the operator behind a group. -/
def takeRepOperator : List CToken → Option (Option CToken × RepMod × List CToken)
  | [] => none
  | m :: rest =>
      match repModOf m with
      | some op => some (none, op, rest)
      | none =>
          match rest with
          | [] => none
          | o :: rest' => (repModOf o).map fun op => (some m, op, rest')

/-- The checks on a `$name` that is a declared parameter, with the update of its
`rep_depth`. -/
def bindRepDepth (params : List CMacroParam) (p : Nat) (par : CMacroParam) (rdep : Nat)
    (isPattern : Bool) : Except String (List CMacroParam) :=
  if isPattern && par.isRepeat && decide (rdep = 0) then
    .error ("repeated parameter '" ++ par.name ++ "' used outside of a repetition")
  else if !par.isRepeat && decide (rdep > 0) then
    .error ("parameter '" ++ par.name ++
      "' used inside a repetition but not declared with repetition syntax")
  else if isPattern && par.isRepeat then
    match par.repDepth with
    | none => .ok (params.set p { par with repDepth := some rdep })
    | some d =>
        if d = rdep then .ok params
        else .error ("repeated parameter '" ++ par.name ++
          "' used at inconsistent repetition depths")
  else .ok params

/-- `c_czet_parse_tree` on a token range of at most `fuel` tokens. -/
def parseTreeFuel (isPattern : Bool) : Nat → Nat → List CMacroParam → List CToken →
    Except String (List CzetRepNode × List CMacroParam)
  | _, _, params, [] => .ok ([], params)
  | 0, _, _, _ :: _ => .error "out of fuel"
  | fuel + 1, rdep, params, t :: ts =>
      if cCzetIsRepStart t then
        match ts with
        | [] => .error "stray $ in macro pattern/expansion"
        | o :: body =>
            if o.type ≠ .openParen then .error "stray $ in macro pattern/expansion"
            else match splitGroup 1 body with
              | none => .error "unbalanced repetition group in macro pattern/expansion"
              | some (inner, after) => do
                  let (kids, params) ← parseTreeFuel isPattern fuel (rdep + 1) params inner
                  match takeRepOperator after with
                  | none => 
                      .error ("expected a repetition operator (star, plus or question mark) " ++
                        "after a repetition group")
                  | some (sep, mod, rest) =>
                      if kids.isEmpty then .error "macro repetition with empty matcher"
                      else do
                        let (nodes, params) ← parseTreeFuel isPattern fuel rdep params rest
                        pure (.rep kids mod sep (cCzetCollectUsesSeq kids []) :: nodes, params)
      else if cCzetIsParamRef t then
        match cCzetFindParam params t.identifierPointer with
        | none =>
            if isPattern then
              .error ("macro parameter '" ++ t.identifierPointer ++
                "' used in pattern but not declared")
            else do
              let (nodes, params) ← parseTreeFuel isPattern fuel rdep params ts
              pure (.tok t :: nodes, params)
        | some p =>
            match params[p]? with
            | none => .error "parameter index out of range"
            | some par => do
                let params ← bindRepDepth params p par rdep isPattern
                let (nodes, params) ← parseTreeFuel isPattern fuel rdep params ts
                pure (.cap p :: nodes, params)
      else do
        let (nodes, params) ← parseTreeFuel isPattern fuel rdep params ts
        pure (.tok t :: nodes, params)

/-- The tree of a whole pattern or expansion, and the parameters with their
`rep_depth` recorded. -/
def cCzetParseTree (params : List CMacroParam) (tokens : List CToken) (isPattern : Bool) :
    Except String (List CzetRepNode × List CMacroParam) :=
  parseTreeFuel isPattern tokens.length 0 params tokens

end CZet
