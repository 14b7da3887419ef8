/- source: src/gcc/gcc/c/c-parser.cc (c_czet_mt_nodes, czet_cap_wrap, czet_cap_leaf)
   digest: The match that the tree matcher accepts, stated without captures: the alternatives of
     each node, the first one whose rest passes, and what faithful captures of it are. -/

import CZet.Macro.SplitLanguage

set_option autoImplicit false
set_option relaxedAutoImplicit false

namespace CZet

/-- One way to match a node: where the iterations kept start, and where the node ends. -/
abbrev Alternative := List Nat × Nat

/-- The iterations of a group from `cur` on, as starts and ends of their contents. -/
def iterations (passKids : Nat → Option Nat) (input : List CToken) (sep : Option CToken) :
    Nat → Nat → Bool → List (Nat × Nat)
  | 0, _, _ => []
  | room + 1, cur, needSep =>
      match iterProbe input sep needSep cur with
      | none => []
      | some probe =>
          match passKids probe with
          | none => []
          | some stop =>
              (probe, stop) :: iterations passKids input sep room stop sep.isSome

/-- Keep the first `t` iterations. -/
def keepIters (ii : Nat) (its : List (Nat × Nat)) (t : Nat) : Alternative :=
  ((its.take t).map Prod.fst, (ii :: its.map Prod.snd).getD t 0)

def minIter (mod : RepMod) : Nat := if mod = .plus then 1 else 0

mutual

/-- The alternatives of a node in the order in which they are tried. -/
def alternatives (slots : Nat) (params : List CMacroParam) (input : List CToken) :
    CzetRepNode → Nat → List Alternative
  | .tok t, ii => (nodeCuts params input (.tok t) ii).map fun stop => ([], stop)
  | .cap p, ii => (nodeCuts params input (.cap p) ii).map fun stop => ([], stop)
  | .rep kids mod sep _, ii =>
      match mod with
      | .query =>
          match passNodes slots params input kids ii with
          | some probe => [([ii], probe), ([], ii)]
          | none => [([], ii)]
      | _ =>
          let its := iterations (passNodes slots params input kids) input sep slots ii false
          (countsDown (minIter mod) its.length).map (keepIters ii its)

/-- Where a match of the nodes from `ii` on ends, if there is one. -/
def passNodes (slots : Nat) (params : List CMacroParam) (input : List CToken) :
    List CzetRepNode → Nat → Option Nat
  | [], ii => some ii
  | n :: rest, ii =>
      (alternatives slots params input n ii).findSome? fun a =>
        passNodes slots params input rest a.2

end

/-- The alternative of `n` that the search settles on. -/
def chosen (slots : Nat) (params : List CMacroParam) (input : List CToken) (n : CzetRepNode)
    (rest : List CzetRepNode) (ii : Nat) : Option Alternative :=
  (alternatives slots params input n ii).find? fun a =>
    (passNodes slots params input rest a.2).isSome

/-- The alternatives of `n` that are tried and given up before. -/
def abandoned (slots : Nat) (params : List CMacroParam) (input : List CToken) (n : CzetRepNode)
    (rest : List CzetRepNode) (ii : Nat) : List Alternative :=
  (alternatives slots params input n ii).takeWhile fun a =>
    (passNodes slots params input rest a.2).isNone

/-- What an accepted match assigns to a node. -/
inductive NodeMatch
  | span (start stop : Nat)
  | group (iters : List (List NodeMatch))

mutual

def acceptedNode (slots : Nat) (params : List CMacroParam) (input : List CToken) :
    CzetRepNode → Nat → Alternative → NodeMatch
  | .tok _, ii, a => .span ii a.2
  | .cap _, ii, a => .span ii a.2
  | .rep kids _ _ _, _, a => .group (a.1.map (acceptedNodes slots params input kids))

/-- The match of a pattern that the search accepts. -/
def acceptedNodes (slots : Nat) (params : List CMacroParam) (input : List CToken) :
    List CzetRepNode → Nat → List NodeMatch
  | [], _ => []
  | n :: rest, ii =>
      match chosen slots params input n rest ii with
      | none => []
      | some a =>
          acceptedNode slots params input n ii a :: acceptedNodes slots params input rest a.2

end

mutual

def nodeForest (params : List CMacroParam) (p : Nat) :
    CzetRepNode → NodeMatch → List CzetCapNode
  | .cap q, .span start stop => if q = p ∧ isRepeated params p then [.leaf start stop] else []
  | .rep kids _ _ uses, .group iters =>
      if p ∈ uses then iters.map fun it => .node (captureForest params p kids it) else []
  | _, _ => []

/-- The capture tree of parameter `p` for a match: one interior node for each iteration and a
leaf for each accepted span, in input order. -/
def captureForest (params : List CMacroParam) (p : Nat) :
    List CzetRepNode → List NodeMatch → List CzetCapNode
  | n :: nodes, m :: ms => nodeForest params p n m ++ captureForest params p nodes ms
  | _, _ => []

end

mutual

/-- Substitute captures into a pattern.  `lv` holds, for each parameter, the capture nodes of
the current level that are still to be used. -/
inductive Resub (params : List CMacroParam) (input : List CToken) (caps : Captures) :
    List CzetRepNode → (Nat → List CzetCapNode) → List CToken → (Nat → List CzetCapNode) → Prop
  | nil (lv : Nat → List CzetCapNode) : Resub params input caps [] lv [] lv
  | tok {rest : List CzetRepNode} {lv lv' : Nat → List CzetCapNode} {out : List CToken}
      (t : CToken) : Resub params input caps rest lv out lv' →
      Resub params input caps (.tok t :: rest) lv (t :: out) lv'
  | single {rest : List CzetRepNode} {lv lv' : Nat → List CzetCapNode} {out : List CToken}
      {p : Nat} : isRepeated params p = false → Resub params input caps rest lv out lv' →
      Resub params input caps (.cap p :: rest) lv
        (slice input (caps p).start (caps p).stop ++ out) lv'
  | leaf {rest : List CzetRepNode} {lv lv' : Nat → List CzetCapNode} {out : List CToken}
      {p start stop : Nat} {more : List CzetCapNode} : isRepeated params p = true →
      lv p = .leaf start stop :: more →
      Resub params input caps rest (Function.update lv p more) out lv' →
      Resub params input caps (.cap p :: rest) lv (slice input start stop ++ out) lv'
  | rep {kids rest : List CzetRepNode} {mod : RepMod} {sep : Option CToken} {uses : List Nat}
      {lv lv₁ lv' : Nat → List CzetCapNode} {body out : List CToken} :
      ResubIters params input caps kids sep uses false lv body lv₁ →
      Resub params input caps rest lv₁ out lv' →
      Resub params input caps (.rep kids mod sep uses :: rest) lv (body ++ out) lv'

/-- The iterations of a group: each of them uses up one interior node of every parameter of the
group, and that node completely. -/
inductive ResubIters (params : List CMacroParam) (input : List CToken) (caps : Captures) :
    List CzetRepNode → Option CToken → List Nat → Bool → (Nat → List CzetCapNode) →
      List CToken → (Nat → List CzetCapNode) → Prop
  | done {kids : List CzetRepNode} {sep : Option CToken} {uses : List Nat} {needSep : Bool}
      (lv : Nat → List CzetCapNode) : ResubIters params input caps kids sep uses needSep lv [] lv
  | iter {kids : List CzetRepNode} {sep : Option CToken} {uses : List Nat} {needSep : Bool}
      {lv lv₁ lv' inner more : Nat → List CzetCapNode} {body out : List CToken} :
      (∀ p ∈ uses, lv p = .node (inner p) :: more p) →
      Resub params input caps kids (fun p => if p ∈ uses then inner p else lv p) body lv₁ →
      (∀ p ∈ uses, lv₁ p = []) →
      ResubIters params input caps kids sep uses true
        (fun p => if p ∈ uses then more p else lv₁ p) out lv' →
      ResubIters params input caps kids sep uses needSep lv
        ((if needSep then sep.toList else []) ++ (body ++ out)) lv'

end

/-- The captures describe the accepted match: the capture tree of every repeated parameter is
that of the match, every other parameter holds the span of each node that names it, and
substituting the captures back into the pattern reproduces the argument list. -/
structure FaithfulCaptures (slots : Nat) (params : List CMacroParam) (tree : List CzetRepNode)
    (input : List CToken) (caps : Captures) : Prop where
  repeated : ∀ p, czetCapTop (caps p) =
    captureForest params p tree (acceptedNodes slots params input tree 0)
  single : ∀ m p start stop : Nat, isRepeated params p = false → tree[m]? = some (.cap p) →
    (acceptedNodes slots params input tree 0)[m]? = some (.span start stop) →
    (caps p).start = start ∧ (caps p).stop = stop
  resubstitutes : ∃ out lv, Resub params input caps tree (fun p => czetCapTop (caps p)) out lv ∧
    (∀ p, lv p = []) ∧ List.Forall₂ (fun o i => cCzetTokEq o i = true) out input

end CZet
