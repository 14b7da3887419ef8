/- source: src/gcc/gcc/c/c-parser.cc (czet_cap_level_list, czet_cap_navigate,
     czet_cap_first_leaf, c_czet_build_expansion, c_czet_expand_seq,
     c_czet_build_expansion_tree, c_czet_hygienize)
   digest: The expansion of a matched arm and the renaming of the names its body binds. -/

import Mathlib.Algebra.Group.Nat.Defs
import CZet.Macro.Matcher

set_option autoImplicit false
set_option relaxedAutoImplicit false

namespace CZet

/-- An emitted token with its mark: `true` for a token of the invocation arguments. -/
abbrev MarkedToken := CToken × Bool

/-- `node->kids`; a leaf has none. -/
def CzetCapNode.kids : CzetCapNode → Option (List CzetCapNode)
  | .leaf .. => none
  | .node kids => some kids

/-- The descent shared by `czet_cap_level_list` and `czet_cap_navigate`: `n` levels down from
level `L`, through the iterations that the cursors select. -/
def descendLevels (cursors : List Nat) : Nat → Nat → List CzetCapNode → Option (List CzetCapNode)
  | 0, _, lv => some lv
  | n + 1, L, lv => do
      let node ← lv[cursors.getD L 0]?
      let kids ← node.kids
      descendLevels cursors n (L + 1) kids

def czetCapLevelList (iters : Option (List CzetCapNode)) (cursors : List Nat) (level : Nat) :
    Option (List CzetCapNode) := do
  let lv ← iters
  descendLevels cursors level 0 lv

def czetCapNavigate (iters : Option (List CzetCapNode)) (cursors : List Nat) (level : Nat) :
    Option CzetCapNode := do
  let lv ← czetCapLevelList iters cursors level
  lv[cursors.getD level 0]?

/-- The first leaf below a node, as a span. -/
def czetCapFirstLeaf : CzetCapNode → Option (Nat × Nat)
  | .leaf start stop => some (start, stop)
  | .node [] => none
  | .node (k :: _) => czetCapFirstLeaf k

/-- The argument tokens of a span, marked as captured. -/
def capturedTokens (args : List CToken) (start stop : Nat) : List MarkedToken :=
  ((args.drop start).take (stop - start)).map fun t => (t, true)

/-- `c_czet_build_expansion`. -/
def cCzetBuildExpansion (params : List CMacroParam) (expansion : List CToken) (caps : Captures)
    (args : List CToken) : List MarkedToken :=
  expansion.flatMap fun t =>
    if cCzetIsParamRef t then
      match cCzetFindParam params t.identifierPointer with
      | some p => capturedTokens args (caps p).start (caps p).stop
      | none => [(t, false)]
    else [(t, false)]

/-- What `c_czet_expand_seq` changes: the cursors, the output, and the errors reported. -/
structure ExpandState where
  cursors : Nat → Option (List Nat)
  out : List MarkedToken := []
  errors : List String := []

def ExpandState.emit (st : ExpandState) (toks : List MarkedToken) : ExpandState :=
  { st with out := st.out ++ toks }

/-- The iteration count of a group, or the two counts that disagree. -/
def repCount (params : List CMacroParam) (caps : Captures) (cursors : Nat → Option (List Nat))
    (depth : Nat) : List Nat → Nat → Except (Nat × Nat) Nat
  | [], count => .ok count
  | p :: uses, count =>
      match params[p]? with
      | none => repCount params caps cursors depth uses count
      | some par =>
          match par.isRepeat, par.repDepth with
          | true, some bd =>
              if bd < depth then repCount params caps cursors depth uses count
              else match czetCapLevelList (caps p).cur ((cursors p).getD []) depth with
                | none => repCount params caps cursors depth uses count
                | some ll =>
                    if count ≠ 0 ∧ count ≠ ll.length then .error (ll.length, count)
                    else repCount params caps cursors depth uses ll.length
          | _, _ => repCount params caps cursors depth uses count

/-- Select iteration `k` at level `depth` for the parameters in `uses`. -/
def setCursors (params : List CMacroParam) (uses : List Nat) (depth k : Nat)
    (cursors : Nat → Option (List Nat)) : Nat → Option (List Nat) :=
  fun p =>
    match params[p]? with
    | none => cursors p
    | some par =>
        if p ∈ uses ∧ par.isRepeat = true ∧ (par.repDepth.any fun bd => decide (depth ≤ bd)) = true
        then (cursors p).map fun c => c.set depth k
        else cursors p

/-- The iterations of a group from `k` on, `left` of them. -/
def emitIters (body : Nat → ExpandState → ExpandState) (sep : Option CToken) :
    Nat → Nat → ExpandState → ExpandState
  | 0, _, st => st
  | 1, k, st => body k st
  | left + 2, k, st =>
      emitIters body sep (left + 1) (k + 1)
        ((body k st).emit (sep.toList.map fun t => (t, false)))

mutual

def expandNode (params : List CMacroParam) (caps : Captures) (args : List CToken) :
    CzetRepNode → Nat → ExpandState → ExpandState
  | .tok t, _, st => st.emit [(t, false)]
  | .cap p, _, st =>
      match params[p]? with
      | none => st
      | some par =>
          if par.isRepeat then
            match par.repDepth, st.cursors p with
            | some bd, some cur =>
                match (czetCapNavigate (caps p).cur cur bd).bind czetCapFirstLeaf with
                | some (start, stop) => st.emit (capturedTokens args start stop)
                | none => st
            | _, _ => st
          else st.emit (capturedTokens args (caps p).start (caps p).stop)
  | .rep kids mod sep uses, depth, st =>
      match repCount params caps st.cursors depth uses 0 with
      | .error (length, count) =>
          { st with errors := st.errors ++ ["meta-variable repeats " ++ toString length ++
              " times but another repeats " ++ toString count ++ " times"] }
      | .ok count =>
          emitIters
            (fun k st => cCzetExpandSeq params caps args kids (depth + 1)
              { st with cursors := setCursors params uses depth k st.cursors })
            sep (if mod = .query then min count 1 else count) 0 st

/-- `c_czet_expand_seq`. -/
def cCzetExpandSeq (params : List CMacroParam) (caps : Captures) (args : List CToken) :
    List CzetRepNode → Nat → ExpandState → ExpandState
  | [], _, st => st
  | n :: rest, depth, st =>
      cCzetExpandSeq params caps args rest depth (expandNode params caps args n depth st)

end

/-- The cursors before the first group: zero at every level of a parameter with a depth. -/
def zeroCursors (params : List CMacroParam) (p : Nat) : Option (List Nat) :=
  ((params[p]?).bind (·.repDepth)).map fun bd => List.replicate (bd + 1) 0

/-- `c_czet_build_expansion_tree`, with the errors it reports. -/
def cCzetBuildExpansionTree (params : List CMacroParam) (tree : List CzetRepNode)
    (caps : Captures) (args : List CToken) : List MarkedToken × List String :=
  let st := cCzetExpandSeq params caps args tree 0 { cursors := zeroCursors params }
  (st.out, st.errors)

def cCzetHygKw (t : CToken) (kws : List String) : Bool :=
  decide (t.type = .keyword) && kws.contains t.identifierPointer

def cCzetHygTypeKw (t : CToken) : Bool :=
  cCzetHygKw t ["int", "char", "short", "long", "double", "float", "unsigned",
    "signed", "void", "_Bool", "_Complex", "bool", "_Atomic"]

def cCzetHygQualifier (t : CToken) : Bool :=
  cCzetHygKw t ["const", "volatile", "restrict", "inline", "_Noreturn"]

def cCzetHygTagKw (t : CToken) : Bool :=
  cCzetHygKw t ["struct", "union", "enum", "typedef"]

/-- Whether a body name between the tokens `before` (nearest first) and `after` is declared
there. -/
def isBinder (before after : List CToken) : Bool :=
  match before.dropWhile (fun b => decide (b.type = .mult) || cCzetHygQualifier b), after with
  | prev :: _, next :: _ =>
      !cCzetHygTagKw prev && cCzetHygTypeKw prev &&
        (decide (next.type = .semicolon) || decide (next.type = .comma) ||
          decide (next.type = .eq))
  | _, _ => false

/-- The names bound by the unmarked tokens of an expansion. -/
def collectBinders : List CToken → List MarkedToken → List String → List String
  | _, [], binders => binders
  | before, (t, mark) :: rest, binders =>
      collectBinders (t :: before) rest
        (if t.type = .name ∧ mark = false ∧ isBinder before (rest.map Prod.fst) = true ∧
            t.identifierPointer ∉ binders
          then binders ++ [t.identifierPointer] else binders)

/-- `czet_macro_hygiene_gen` is an `unsigned`. -/
def nextGen (gen : Nat) : Nat := (gen + 1) % 2 ^ 32

/-- `c_czet_hygienize`, with the generation counter before and after. -/
def cCzetHygienize (gen : Nat) (out : List MarkedToken) : List CToken × Nat :=
  match collectBinders [] out [] with
  | [] => (out.map Prod.fst, gen)
  | b :: bs =>
      (out.map fun m =>
        if m.2 = false ∧ m.1.type = .name ∧ m.1.identifierPointer ∈ b :: bs then
          { m.1 with value := .identifier (m.1.identifierPointer ++ "__czet" ++ toString gen) }
        else m.1, nextGen gen)

end CZet
