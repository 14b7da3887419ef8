/- source: src/gcc/gcc/c/c-parser.cc (czet_cap_top, czet_cap_leaf, czet_cap_wrap,
     c_czet_mt_nodes, c_czet_matcher_tree, c_czet_matcher)
   digest: The backtracking matchers with the captures they record in place. -/

import Mathlib.Logic.Function.Basic
import CZet.Macro.Definition

set_option autoImplicit false
set_option relaxedAutoImplicit false

namespace CZet

/-- `struct czet_cap_node`. -/
inductive CzetCapNode
  | leaf (start stop : Nat)
  | node (kids : List CzetCapNode)

/-- `struct c_macro_capture`: the last span, and the list that `cur` points at.  A call
of the matcher only appends to that list and to lists it creates itself, so the lists
of the enclosing levels are held by the enclosing calls.  `none` is a `NULL` list. -/
structure CMacroCapture where
  start : Nat := 0
  stop : Nat := 0
  cur : Option (List CzetCapNode) := none

abbrev Captures := Nat → CMacroCapture

/-- The zeroed captures every arm starts with. -/
def noCaptures : Captures := fun _ => {}

def setSpan (caps : Captures) (p start stop : Nat) : Captures :=
  Function.update caps p { caps p with start := start, stop := stop }

def czetCapTop (c : CMacroCapture) : List CzetCapNode := c.cur.getD []

def czetCapLeaf (caps : Captures) (p start stop : Nat) : Captures :=
  Function.update caps p { caps p with cur := some (czetCapTop (caps p) ++ [.leaf start stop]) }

/-- Replace the current lists of the parameters in `uses`. -/
def setLists (uses : List Nat) (lists : Nat → List CzetCapNode) (caps : Captures) : Captures :=
  fun p => if p ∈ uses then { caps p with cur := some (lists p) } else caps p

/-- `wrap_iter`: each used parameter now records into the kids of a new node. -/
def wrapIter (uses : List Nat) (caps : Captures) : Captures :=
  setLists uses (fun _ => []) caps

/-- `pop_iter`: back to the lists of `outer`, which have gained the new node. -/
def popIter (uses : List Nat) (outer caps : Captures) : Captures :=
  setLists uses (fun p => czetCapTop (outer p) ++ [.node (czetCapTop (caps p))]) caps

/-- `restore_len (t)`: truncate the lists of `outer` to `saved_len + t`. -/
def restoreLen (uses : List Nat) (savedLen : Nat → Nat) (t : Nat) (outer caps : Captures) :
    Captures :=
  setLists uses (fun p => (czetCapTop (outer p)).take (savedLen p + t)) caps

/-- A call returns false or true with the captures it leaves behind, or overruns the
eight slots of `pos_after`. -/
inductive MtResult
  | fault
  | fail (caps : Captures)
  | ok (ii : Nat) (caps : Captures)

/-- How many tokens the longest candidate run has, counted by the first loop over the
run: it ends before a top-level semicolon, or comma where `commaBounded`. -/
def scanMaxcut (commaBounded : Bool) : Int → List CToken → Nat
  | _, [] => 0
  | depth, t :: ts =>
      if depth + cCzetDelta t = 0 ∧
          ((commaBounded = true ∧ t.type = .comma) ∨ t.type = .semicolon) then 0
      else scanMaxcut commaBounded (depth + cCzetDelta t) ts + 1

/-- The balance test of one cut: no prefix closes more than it opened, and the whole is even. -/
def balancedRun : Int → List CToken → Bool
  | d, [] => decide (d = 0)
  | d, t :: ts =>
      if d + cCzetDelta t < 0 then false else balancedRun (d + cCzetDelta t) ts

/-- The cuts of a run starting at `ii` that are tried, longest first. -/
def runCuts (commaBounded : Bool) (input : List CToken) (ii : Nat) : List Nat :=
  ((List.range' (ii + 1) (scanMaxcut commaBounded 0 (input.drop ii))).reverse).filter
    fun cut => balancedRun 0 ((input.drop ii).take (cut - ii))

/-- The `do ... while (depth > 0 && e < ni)` loop of a block, as a token count. -/
def scanBlock : Int → List CToken → Option Nat
  | _, [] => none
  | depth, t :: ts =>
      if depth + cCzetDelta t = 0 then some 1
      else if depth + cCzetDelta t > 0 then
        (scanBlock (depth + cCzetDelta t) ts).map (· + 1)
      else none

def commaBounded (kind : CzetMacroKind) : Bool :=
  decide (kind = .expr ∨ kind = .type)

/-- The parameter kinds whose capture is not a run. -/
def isFixedKind : CzetMacroKind → Bool
  | .ident | .block | .number | .string | .literal => true
  | _ => false

/-- Where the capture of a parameter that is not a run ends. -/
def matchFixed (kind : CzetMacroKind) (input : List CToken) (ii : Nat) : Option Nat :=
  match input[ii]? with
  | none => none
  | some t =>
      match kind with
      | .ident => if t.type = .name then some (ii + 1) else none
      | .block =>
          if t.type = .openBrace then (scanBlock 0 (input.drop ii)).map (ii + ·) else none
      | .number => if t.type = .number then some (ii + 1) else none
      | .string => if t.type = .string then some (ii + 1) else none
      | _ => if cCzetIsLiteralToken t then some (ii + 1) else none

/-- The loop over the cuts of a run; the leaf of a repeated parameter is recorded
after the rest has matched. -/
def tryCuts (rest : Nat → Captures → MtResult) (p : Nat) (isRepeat : Bool) (ii : Nat) :
    List Nat → Captures → MtResult
  | [], caps => .fail caps
  | cut :: cuts, caps =>
      match rest cut (setSpan caps p ii cut) with
      | .fault => .fault
      | .ok after caps' => .ok after (if isRepeat then czetCapLeaf caps' p ii cut else caps')
      | .fail caps' => tryCuts rest p isRepeat ii cuts (setSpan caps' p 0 0)

/-- Where the content of the next iteration starts: behind the separator, if one has to come
between two iterations. -/
def iterProbe (input : List CToken) (sep : Option CToken) (needSep : Bool) (cur : Nat) :
    Option Nat :=
  match needSep, sep with
  | true, some s =>
      match input[cur]? with
      | some t => if cCzetTokEq s t then some (cur + 1) else none
      | none => none
  | _, _ => some cur

/-- The iteration loop of a `*` or `+` group.  `room` counts the free slots of
`pos_after`; a `quick_push` without one is a fault. -/
def iterate (kids : Nat → Captures → MtResult) (input : List CToken) (sep : Option CToken)
    (uses : List Nat) (savedLen : Nat → Nat) :
    Nat → List Nat → Nat → Bool → Captures → Option (List Nat × Captures)
  | room, posAfter, cur, needSep, caps =>
      match iterProbe input sep needSep cur with
      | none => some (posAfter, caps)
      | some probe =>
          match kids probe (wrapIter uses caps) with
          | .fault => none
          | .fail caps' =>
              some (posAfter, restoreLen uses savedLen (posAfter.length - 1) caps caps')
          | .ok cur' caps' =>
              match room with
              | 0 => none
              | room + 1 =>
                  iterate kids input sep uses savedLen room (posAfter ++ [cur']) cur'
                    sep.isSome (popIter uses caps caps')

/-- The backtracking loop over the number of iterations kept. -/
def backtrack (rest : Nat → Captures → MtResult) (uses : List Nat) (savedLen : Nat → Nat)
    (posAfter : List Nat) : List Nat → Captures → MtResult
  | [], caps => .fail caps
  | t :: ts, caps =>
      match rest (posAfter.getD t 0) (restoreLen uses savedLen t caps caps) with
      | .fault => .fault
      | .ok after caps' => .ok after caps'
      | .fail caps' => backtrack rest uses savedLen posAfter ts caps'

/-- The iteration counts tried, from `m` down to `min_it`. -/
def countsDown (minIt m : Nat) : List Nat := (List.range' minIt (m + 1 - minIt)).reverse

mutual

/-- One node of `c_czet_mt_nodes`, followed by `rest`, where `slots` pushes behind the first fit in
`pos_after`. -/
def mtNode (slots : Nat) (params : List CMacroParam) (input : List CToken) :
    CzetRepNode → (Nat → Captures → MtResult) → Nat → Captures → MtResult
  | .tok t, rest, ii, caps =>
      match input[ii]? with
      | none => .fail caps
      | some itok => if cCzetTokEq t itok then rest (ii + 1) caps else .fail caps
  | .cap p, rest, ii, caps =>
      match params[p]? with
      | none => .fail caps
      | some par =>
          if isFixedKind par.kind then
            match matchFixed par.kind input ii with
            | none => .fail caps
            | some stop =>
                let caps := setSpan caps p ii stop
                rest stop (if par.isRepeat then czetCapLeaf caps p ii stop else caps)
          else
            tryCuts rest p par.isRepeat ii (runCuts (commaBounded par.kind) input ii) caps
  | .rep kids mod sep uses, rest, ii, caps =>
      -- czet_cap_top gives every used parameter a list before anything is tried
      let caps := setLists uses (fun p => czetCapTop (caps p)) caps
      let savedLen := fun p => (czetCapTop (caps p)).length
      match mod with
      | .query =>
          match mtNodes slots params input kids ii (wrapIter uses caps) with
          | .fault => .fault
          | .ok probe caps' =>
              match rest probe (popIter uses caps caps') with
              | .fault => .fault
              | .ok after caps'' => .ok after caps''
              | .fail caps'' => rest ii (restoreLen uses savedLen 0 caps'' caps'')
          | .fail caps' => rest ii (restoreLen uses savedLen 0 caps caps')
      | _ =>
          match iterate (mtNodes slots params input kids) input sep uses savedLen slots [ii] ii
              false caps with
          | none => .fault
          | some (posAfter, caps) =>
              backtrack rest uses savedLen posAfter
                (countsDown (if mod = .plus then 1 else 0) (posAfter.length - 1)) caps

/-- `c_czet_mt_nodes`. -/
def mtNodes (slots : Nat) (params : List CMacroParam) (input : List CToken) :
    List CzetRepNode → Nat → Captures → MtResult
  | [], ii, caps => .ok ii caps
  | n :: rest, ii, caps => mtNode slots params input n (mtNodes slots params input rest) ii caps

end

/-- The verdict of a matcher with the captures of a match; `none` is a fault. -/
abbrev MatchVerdict := Option (Option Captures)

/-- `c_czet_matcher_tree` from the first token, on zeroed captures, where `slots` pushes behind the
first fit in `pos_after`. -/
def growingMatcherTree (slots : Nat) (params : List CMacroParam) (tree : List CzetRepNode)
    (input : List CToken) : MatchVerdict :=
  match mtNodes slots params input tree 0 noCaptures with
  | .fault => none
  | .fail _ => some none
  | .ok ii caps => if ii = input.length then some (some caps) else some none

/-- `c_czet_matcher_tree`, whose `pos_after` has eight entries. -/
def cCzetMatcherTree (params : List CMacroParam) (tree : List CzetRepNode)
    (input : List CToken) : MatchVerdict :=
  growingMatcherTree 7 params tree input

/-- The bound of a run in the flat matcher: a top-level comma, where `commaBounded`; a
semicolon does not end a run here. -/
def flatMaxcut (commaBounded : Bool) : Int → List CToken → Nat
  | _, [] => 0
  | depth, t :: ts =>
      if commaBounded = true ∧ depth + cCzetDelta t = 0 ∧ t.type = .comma then 0
      else flatMaxcut commaBounded (depth + cCzetDelta t) ts + 1

def flatCuts (commaBounded : Bool) (input : List CToken) (ii : Nat) : List Nat :=
  ((List.range' (ii + 1) (flatMaxcut commaBounded 0 (input.drop ii))).reverse).filter
    fun cut => balancedRun 0 ((input.drop ii).take (cut - ii))

/-- `c_czet_matcher` on the pattern tokens left.  The kind of a repeated parameter is none of
the kinds it tests for, so such a parameter is an unbounded run. -/
def flatMatch (params : List CMacroParam) (input : List CToken) :
    List CToken → Nat → Captures → MtResult
  | [], ii, caps => if ii = input.length then .ok ii caps else .fail caps
  | ptok :: pattern, ii, caps =>
      if cCzetIsParamRef ptok then
        match cCzetFindParam params ptok.identifierPointer with
        | none => .fail caps
        | some p =>
            match params[p]? with
            | none => .fail caps
            | some par =>
                if isFixedKind par.kind && !par.isRepeat then
                  match matchFixed par.kind input ii with
                  | none => .fail caps
                  | some stop => flatMatch params input pattern stop (setSpan caps p ii stop)
                else
                  tryCuts (flatMatch params input pattern) p false ii
                    (flatCuts (commaBounded par.kind && !par.isRepeat) input ii) caps
      else
        match input[ii]? with
        | none => .fail caps
        | some itok =>
            if cCzetTokEq ptok itok then flatMatch params input pattern (ii + 1) caps
            else .fail caps

/-- `c_czet_matcher` from the first token, on zeroed captures. -/
def cCzetMatcher (params : List CMacroParam) (pattern : List CToken) (input : List CToken) :
    MatchVerdict :=
  match flatMatch params input pattern 0 noCaptures with
  | .fault => none
  | .fail _ => some none
  | .ok _ caps => some (some caps)

end CZet
