/- source: src/gcc/gcc/c/c-parser.cc (c_czet_tok_eq, c_czet_mt_nodes, c_czet_matcher)
   digest: The classes of tokens that the matchers tell apart, and that a match depends on
     nothing else. -/

import CZet.Macro.Captures
import CZet.Macro.Invocation

set_option autoImplicit false
set_option relaxedAutoImplicit false

namespace CZet

/-- A token as the matchers see it. -/
def CToken.canon (t : CToken) : CToken where
  type := t.type
  value := if t.type = .name then .identifier t.identifierPointer else .null
  keyword := if t.type = .keyword then t.keyword else 0

@[simp] theorem canon_type (t : CToken) : t.canon.type = t.type := rfl

@[simp] theorem cCzetDelta_canon (t : CToken) : cCzetDelta t.canon = cCzetDelta t := rfl

@[simp] theorem cCzetIsLiteralToken_canon (t : CToken) :
    cCzetIsLiteralToken t.canon = cCzetIsLiteralToken t := rfl

theorem cCzetTokEq_iff_canon {p t : CToken} : cCzetTokEq p t = true ↔ p.canon = t.canon := by
  unfold cCzetTokEq CToken.canon
  by_cases hname : p.type = .name
  · by_cases hname' : t.type = .name
    · simp [hname, hname']
    · simp [hname, hname', Ne.symm hname']
  · by_cases hkey : p.type = .keyword
    · by_cases hkey' : t.type = .keyword
      · simp [hkey, hkey']
      · simp [hkey, hkey', Ne.symm hkey']
    · by_cases heq : p.type = t.type
      · rw [heq] at hname hkey
        simp [heq, hname, hkey]
      · simp [hname, hkey, heq]

@[simp] theorem canon_canon (t : CToken) : t.canon.canon = t.canon := by
  unfold CToken.canon
  by_cases hname : t.type = .name
  · simp [hname, CToken.identifierPointer]
  · by_cases hkey : t.type = .keyword
    · simp [hkey]
    · simp [hname, hkey]

@[simp] theorem cCzetTokEq_canon (p t : CToken) : cCzetTokEq p t.canon = cCzetTokEq p t := by
  rw [Bool.eq_iff_iff, cCzetTokEq_iff_canon, cCzetTokEq_iff_canon, canon_canon]

theorem cCzetTokEq_congr {a b : CToken} (h : a.canon = b.canon) (t : CToken) :
    cCzetTokEq a t = cCzetTokEq b t := by
  rw [Bool.eq_iff_iff, cCzetTokEq_iff_canon, cCzetTokEq_iff_canon, h]

private theorem scanMaxcut_canon (cb : Bool) (depth : Int) (ts : List CToken) :
    scanMaxcut cb depth (ts.map CToken.canon) = scanMaxcut cb depth ts := by
  induction ts generalizing depth with
  | nil => rfl
  | cons t ts ih => simp only [List.map_cons, scanMaxcut, cCzetDelta_canon, canon_type, ih]

private theorem flatMaxcut_canon (cb : Bool) (depth : Int) (ts : List CToken) :
    flatMaxcut cb depth (ts.map CToken.canon) = flatMaxcut cb depth ts := by
  induction ts generalizing depth with
  | nil => rfl
  | cons t ts ih => simp only [List.map_cons, flatMaxcut, cCzetDelta_canon, canon_type, ih]

private theorem balancedRun_canon (depth : Int) (ts : List CToken) :
    balancedRun depth (ts.map CToken.canon) = balancedRun depth ts := by
  induction ts generalizing depth with
  | nil => rfl
  | cons t ts ih => simp only [List.map_cons, balancedRun, cCzetDelta_canon, ih]

private theorem scanBlock_canon (depth : Int) (ts : List CToken) :
    scanBlock depth (ts.map CToken.canon) = scanBlock depth ts := by
  induction ts generalizing depth with
  | nil => rfl
  | cons t ts ih => simp only [List.map_cons, scanBlock, cCzetDelta_canon, ih]

private theorem runCuts_canon (cb : Bool) (input : List CToken) (ii : Nat) :
    runCuts cb (input.map CToken.canon) ii = runCuts cb input ii := by
  simp only [runCuts, ← List.map_drop, ← List.map_take, scanMaxcut_canon, balancedRun_canon]

theorem flatCuts_canon (cb : Bool) (input : List CToken) (ii : Nat) :
    flatCuts cb (input.map CToken.canon) ii = flatCuts cb input ii := by
  simp only [flatCuts, ← List.map_drop, ← List.map_take, flatMaxcut_canon, balancedRun_canon]

theorem matchFixed_canon (kind : CzetMacroKind) (input : List CToken) (ii : Nat) :
    matchFixed kind (input.map CToken.canon) ii = matchFixed kind input ii := by
  simp only [matchFixed, List.getElem?_map, ← List.map_drop, scanBlock_canon]
  cases input[ii]? with
  | none => rfl
  | some t => rfl

private theorem iterProbe_canon (input : List CToken) (sep : Option CToken) (needSep : Bool)
    (cur : Nat) : iterProbe (input.map CToken.canon) sep needSep cur =
      iterProbe input sep needSep cur := by
  simp only [iterProbe, List.getElem?_map]
  cases needSep <;> cases sep <;> simp only
  cases input[cur]? with
  | none => rfl
  | some t => simp only [Option.map_some, cCzetTokEq_canon]

private theorem nodeCuts_canon (params : List CMacroParam) (input : List CToken) (n : CzetRepNode)
    (ii : Nat) : nodeCuts params (input.map CToken.canon) n ii = nodeCuts params input n ii := by
  cases n with
  | tok t =>
      simp only [nodeCuts, List.getElem?_map]
      cases input[ii]? with
      | none => rfl
      | some itok => simp only [Option.map_some, cCzetTokEq_canon]
  | cap p => simp only [nodeCuts, matchFixed_canon, runCuts_canon]
  | rep kids mod sep uses => rfl

private theorem iterate_canon {kids kids' : Nat → Captures → MtResult} (hkids : kids = kids')
    (input : List CToken) (sep : Option CToken) (uses : List Nat) (savedLen : Nat → Nat) (room : Nat)
    (posAfter : List Nat) (cur : Nat) (needSep : Bool) (caps : Captures) :
    iterate kids (input.map CToken.canon) sep uses savedLen room posAfter cur needSep caps =
      iterate kids' input sep uses savedLen room posAfter cur needSep caps := by
  subst hkids
  induction room generalizing posAfter cur needSep caps with
  | zero => rw [iterate, iterate, iterProbe_canon]
  | succ room ih =>
      rw [iterate, iterate, iterProbe_canon]
      simp only [ih]

variable {slots : Nat}

mutual

private theorem mtNode_canon (params : List CMacroParam) (input : List CToken) :
    ∀ (n : CzetRepNode) (rest : Nat → Captures → MtResult) (ii : Nat) (caps : Captures),
      mtNode slots params (input.map CToken.canon) n rest ii caps =
        mtNode slots params input n rest ii caps
  | .tok t, rest, ii, caps => by
      simp only [mtNode, List.getElem?_map]
      cases input[ii]? with
      | none => rfl
      | some itok => simp only [Option.map_some, cCzetTokEq_canon]
  | .cap p, rest, ii, caps => by
      simp only [mtNode, matchFixed_canon, runCuts_canon]
  | .rep kids mod sep uses, rest, ii, caps => by
      have hkids : mtNodes slots params (input.map CToken.canon) kids =
          mtNodes slots params input kids := by
        funext j caps'
        exact mtNodes_canon params input kids j caps'
      cases mod with
      | query => simp only [mtNode, hkids]
      | star => simp only [mtNode, iterate_canon hkids]
      | plus => simp only [mtNode, iterate_canon hkids]

private theorem mtNodes_canon (params : List CMacroParam) (input : List CToken) :
    ∀ (nodes : List CzetRepNode) (ii : Nat) (caps : Captures),
      mtNodes slots params (input.map CToken.canon) nodes ii caps =
        mtNodes slots params input nodes ii caps
  | [], _, _ => rfl
  | n :: rest, ii, caps => by
      have hrest : mtNodes slots params (input.map CToken.canon) rest =
          mtNodes slots params input rest := by
        funext j caps'
        exact mtNodes_canon params input rest j caps'
      rw [mtNodes, mtNodes, hrest]
      exact mtNode_canon params input n _ ii caps

end

private theorem flatMatch_canon (params : List CMacroParam) (input : List CToken)
    (pattern : List CToken) (ii : Nat) (caps : Captures) :
    flatMatch params (input.map CToken.canon) pattern ii caps =
      flatMatch params input pattern ii caps := by
  induction pattern generalizing ii caps with
  | nil => simp only [flatMatch, List.length_map]
  | cons ptok pattern ih =>
      have hrest : flatMatch params (input.map CToken.canon) pattern =
          flatMatch params input pattern := by
        funext j caps'
        exact ih j caps'
      simp only [flatMatch, matchFixed_canon, flatCuts_canon, hrest, List.getElem?_map]
      cases input[ii]? with
      | none => rfl
      | some itok => simp only [Option.map_some, cCzetTokEq_canon]

/-- The verdict on an arm depends on the arguments only as the matchers see them. -/
theorem armMatch_canon (params : List CMacroParam) (arm : CMacroArm) (args : List CToken) :
    armMatch params arm (args.map CToken.canon) = armMatch params arm args := by
  unfold armMatch
  cases arm.patternTree with
  | some tree => simp only [cCzetMatcherTree, growingMatcherTree, mtNodes_canon, List.length_map]
  | none => simp only [cCzetMatcher, flatMatch_canon]

private theorem iterations_canon {passKids passKids' : Nat → Option Nat}
    (hkids : passKids = passKids')
    (input : List CToken) (sep : Option CToken) (room cur : Nat) (needSep : Bool) :
    iterations passKids (input.map CToken.canon) sep room cur needSep =
      iterations passKids' input sep room cur needSep := by
  subst hkids
  induction room generalizing cur needSep with
  | zero => rfl
  | succ room ih => simp only [iterations, iterProbe_canon, ih]

mutual

theorem alternatives_canon (params : List CMacroParam) (input : List CToken) :
    ∀ (n : CzetRepNode) (ii : Nat),
      alternatives slots params (input.map CToken.canon) n ii = alternatives slots params input n ii
  | .tok t, ii => by simp only [alternatives, nodeCuts_canon]
  | .cap p, ii => by simp only [alternatives, nodeCuts_canon]
  | .rep kids mod sep uses, ii => by
      have hkids : passNodes slots params (input.map CToken.canon) kids =
          passNodes slots params input kids := by
        funext j
        exact passNodes_canon params input kids j
      cases mod with
      | query => simp only [alternatives, hkids]
      | star => simp only [alternatives, iterations_canon hkids]
      | plus => simp only [alternatives, iterations_canon hkids]

theorem passNodes_canon (params : List CMacroParam) (input : List CToken) :
    ∀ (nodes : List CzetRepNode) (ii : Nat),
      passNodes slots params (input.map CToken.canon) nodes ii =
        passNodes slots params input nodes ii
  | [], _ => rfl
  | n :: rest, ii => by
      have hrest : passNodes slots params (input.map CToken.canon) rest =
      passNodes slots params input rest := by
        funext j
        exact passNodes_canon params input rest j
      rw [passNodes, passNodes, alternatives_canon params input n ii, hrest]

end

theorem chosen_canon (params : List CMacroParam) (input : List CToken) (n : CzetRepNode)
    (rest : List CzetRepNode) (ii : Nat) :
    chosen slots params (input.map CToken.canon) n rest ii = chosen slots params input n rest ii := by
  have hrest : passNodes slots params (input.map CToken.canon) rest =
      passNodes slots params input rest := by
    funext j
    exact passNodes_canon params input rest j
  rw [chosen, chosen, alternatives_canon, hrest]

end CZet
