/- source: src/gcc/gcc/c/c-parser.cc (c_czet_parse_tree)
   digest: The trees that repetition groups, parameters and fixed tokens are parsed to. -/

import CZet.Macro.SplitLanguage
import CZet.Macro.PatternTree

set_option autoImplicit false
set_option relaxedAutoImplicit false

namespace CZet

/-- `$( content ) sep op`, with or without a separator. -/
def groupTokens (content : List CToken) (sep : Option CToken) (op : CToken) : List CToken :=
  nameToken "$" :: punctToken .openParen :: content ++
    punctToken .closeParen :: (sep.toList ++ [op])

/-- A token that stands for itself in a pattern or an expansion. -/
structure PlainToken (params : List CMacroParam) (isPattern : Bool) (t : CToken) : Prop where
  notStart : cCzetIsRepStart t = false
  notParam : cCzetIsParamRef t = true →
    isPattern = false ∧ cCzetFindParam params t.identifierPointer = none

/-- `ts` is parsed to `nodes`, whatever the room for the recursion is. -/
def ParsesTo (isPattern : Bool) (rdep : Nat) (params : List CMacroParam) (ts : List CToken)
    (nodes : List CzetRepNode) (params' : List CMacroParam) : Prop :=
  ∀ fuel, ts.length ≤ fuel → parseTreeFuel isPattern fuel rdep params ts = .ok (nodes, params')

section Parsing

variable {isPattern : Bool} {rdep : Nat} {params params₁ params' : List CMacroParam}
  {ts : List CToken} {nodes : List CzetRepNode}

theorem ParsesTo.parseTree (h : ParsesTo isPattern 0 params ts nodes params') :
    cCzetParseTree params ts isPattern = .ok (nodes, params') :=
  h ts.length (Nat.le_refl _)

theorem parsesTo_nil : ParsesTo isPattern rdep params [] [] params := by
  intro fuel _
  unfold parseTreeFuel
  rfl

theorem parsesTo_plain {t : CToken} (ht : PlainToken params isPattern t)
    (h : ParsesTo isPattern rdep params ts nodes params') :
    ParsesTo isPattern rdep params (t :: ts) (.tok t :: nodes) params' := by
  intro fuel hfuel
  obtain ⟨f, rfl⟩ : ∃ f, fuel = f + 1 := ⟨fuel - 1, by simp only [List.length_cons] at hfuel; omega⟩
  have hrest := h f (by simpa using hfuel)
  unfold parseTreeFuel
  rw [if_neg (by rw [ht.notStart]; exact Bool.false_ne_true)]
  by_cases hparam : cCzetIsParamRef t = true
  · obtain ⟨rfl, hnone⟩ := ht.notParam hparam
    rw [if_pos hparam, hnone]
    simp only [Bool.false_eq_true, if_false, hrest]
    rfl
  · rw [if_neg hparam, hrest]
    rfl

theorem parsesTo_plains {fixed : List CToken} (hfixed : ∀ t ∈ fixed, PlainToken params isPattern t)
    (h : ParsesTo isPattern rdep params ts nodes params') :
    ParsesTo isPattern rdep params (fixed ++ ts) (fixed.map .tok ++ nodes) params' := by
  induction fixed with
  | nil => exact h
  | cons t fixed ih =>
      obtain ⟨ht, hrest⟩ := List.forall_mem_cons.mp hfixed
      exact parsesTo_plain ht (ih hrest)

theorem parsesTo_param {x : String} {p : Nat} {par : CMacroParam}
    (hx : cCzetIsParamRef (nameToken x) = true) (hstart : x ≠ "$")
    (hfind : cCzetFindParam params x = some p) (hpar : params[p]? = some par)
    (hbind : bindRepDepth params p par rdep isPattern = .ok params₁)
    (h : ParsesTo isPattern rdep params₁ ts nodes params') :
    ParsesTo isPattern rdep params (nameToken x :: ts) (.cap p :: nodes) params' := by
  intro fuel hfuel
  obtain ⟨f, rfl⟩ : ∃ f, fuel = f + 1 := ⟨fuel - 1, by simp only [List.length_cons] at hfuel; omega⟩
  have hid : (nameToken x).identifierPointer = x := rfl
  have hnot : cCzetIsRepStart (nameToken x) = false := by
    rw [cCzetIsRepStart, hid, decide_eq_false hstart, Bool.and_false]
  unfold parseTreeFuel
  rw [if_neg (by rw [hnot]; exact Bool.false_ne_true), if_pos hx, hid, hfind]
  simp only [hpar, hbind]
  change (parseTreeFuel isPattern f rdep params₁ ts >>= fun r => pure (.cap p :: r.1, r.2)) = _
  rw [h f (by simpa using hfuel)]
  rfl

private theorem splitGroup_balanced {content : List CToken} {close : CToken} (after : List CToken)
    {depth : Int} (hdepth : 0 ≤ depth) (hclose : cCzetDelta close = -1)
    (h : balancedRun depth content = true) :
    splitGroup (depth + 1) (content ++ close :: after) = some (content, after) := by
  induction content generalizing depth with
  | nil =>
      have hzero : depth = 0 := by simpa [balancedRun] using h
      rw [List.nil_append, splitGroup, if_pos (by omega)]
  | cons t content ih =>
      rw [balancedRun] at h
      split at h
      · cases h
      · rename_i hneg
        have hnext := ih (Int.not_lt.mp hneg) h
        have hsum : depth + 1 + cCzetDelta t = depth + cCzetDelta t + 1 := by omega
        rw [List.cons_append, splitGroup, if_neg (by omega), hsum, hnext]
        rfl

theorem parsesTo_group {content : List CToken} {kids : List CzetRepNode} {sep : Option CToken}
    {op : CToken} {mod : RepMod} (hcontent : ParsesTo isPattern (rdep + 1) params content kids
      params₁)
    (hbalanced : balancedRun 0 content = true) (hkids : kids ≠ [])
    (hsep : ∀ s ∈ sep, repModOf s = none) (hop : repModOf op = some mod)
    (h : ParsesTo isPattern rdep params₁ ts nodes params') :
    ParsesTo isPattern rdep params (groupTokens content sep op ++ ts)
      (.rep kids mod sep (cCzetCollectUsesSeq kids []) :: nodes) params' := by
  intro fuel hfuel
  have htokens : groupTokens content sep op ++ ts = nameToken "$" :: punctToken .openParen ::
      (content ++ punctToken .closeParen :: (sep.toList ++ op :: ts)) := by
    simp [groupTokens]
  rw [htokens] at hfuel ⊢
  obtain ⟨f, rfl⟩ : ∃ f, fuel = f + 1 := ⟨fuel - 1, by simp only [List.length_cons] at hfuel; omega⟩
  simp only [List.length_cons, List.length_append] at hfuel
  have hclose : cCzetDelta (punctToken .closeParen) = -1 := rfl
  have hsplit := splitGroup_balanced (sep.toList ++ op :: ts) (Int.le_refl 0) hclose hbalanced
  rw [Int.zero_add] at hsplit
  have htake : takeRepOperator (sep.toList ++ op :: ts) = some (sep, mod, ts) := by
    cases sep with
    | none => simp [takeRepOperator, hop]
    | some s => simp [takeRepOperator, hsep s rfl, hop]
  have hempty : kids.isEmpty = false := by
    cases kids with
    | nil => exact absurd rfl hkids
    | cons n kids => rfl
  have hstart : cCzetIsRepStart (nameToken "$") = true := rfl
  have hparen : (punctToken .openParen).type = .openParen := rfl
  rw [parseTreeFuel, if_pos hstart]
  simp only [hparen, ne_eq, not_true_eq_false, if_false, hsplit]
  rw [hcontent f (by omega)]
  simp only [bind, Except.bind, htake, hempty, Bool.false_eq_true, if_false, h f (by omega), pure,
    Except.pure]

end Parsing

end CZet
