/- source: src/gcc/gcc/c/c-parser.cc (c_czet_expand_seq, czet_cap_level_list,
     czet_cap_navigate)
   digest: What a node of an expansion stands for in its enclosing iterations, and when the cursors
     that earlier groups leave behind do not show. -/

import CZet.Macro.Captures
import CZet.Macro.Expansion
import CZet.Macro.PatternTree
import Mathlib.Data.List.GetD

set_option autoImplicit false
set_option relaxedAutoImplicit false

namespace CZet

/-- The iteration last selected for a parameter at a level. -/
abbrev Selection := Nat → Nat → Nat

/-- The cursors that hold a selection. -/
def storedCursors (params : List CMacroParam) (sel : Selection) (p : Nat) : Option (List Nat) :=
  (depthOf params p).map fun bd => (List.range (bd + 1)).map (sel p)

/-- The enclosing iterations, outermost first, and the first iteration at every further level. -/
def enclosing (path : List Nat) : Selection := fun _ L => path.getD L 0

/-- The tokens that stand for parameter `p` where the cursors point. -/
def capTokens (params : List CMacroParam) (caps : Captures) (args : List CToken) (p : Nat)
    (cursors : Nat → Option (List Nat)) : List MarkedToken :=
  match params[p]? with
  | none => []
  | some par =>
      if par.isRepeat then
        match par.repDepth, cursors p with
        | some bd, some cur =>
            match (czetCapNavigate (caps p).cur cur bd).bind czetCapFirstLeaf with
            | some (start, stop) => capturedTokens args start stop
            | none => []
        | _, _ => []
      else capturedTokens args (caps p).start (caps p).stop

/-- How often a group is expanded in the enclosing iterations `path`. -/
def groupTimes (params : List CMacroParam) (caps : Captures) (path : List Nat) (mod : RepMod)
    (uses : List Nat) : Nat :=
  match repCount params caps (storedCursors params (enclosing path)) path.length uses 0 with
  | .error _ => 0
  | .ok n => if mod = .query then min n 1 else n

/-- The tokens of `left` passes from the `k`-th on, with separators between them. -/
def joinPasses (pass : Nat → List MarkedToken) (sep : Option CToken) : Nat → Nat → List MarkedToken
  | 0, _ => []
  | 1, k => pass k
  | left + 2, k =>
      pass k ++ sep.toList.map (fun t => (t, false)) ++ joinPasses pass sep (left + 1) (k + 1)

mutual

/-- What a node stands for, by the enclosing iterations alone. -/
def selectNode (params : List CMacroParam) (caps : Captures) (args : List CToken) :
    CzetRepNode → List Nat → List MarkedToken
  | .tok t, _ => [(t, false)]
  | .cap p, path => capTokens params caps args p (storedCursors params (enclosing path))
  | .rep kids mod sep uses, path =>
      joinPasses (fun k => selectSeq params caps args kids (path ++ [k])) sep
        (groupTimes params caps path mod uses) 0

/-- A sequence stands for the concatenation of its members. -/
def selectSeq (params : List CMacroParam) (caps : Captures) (args : List CToken) :
    List CzetRepNode → List Nat → List MarkedToken
  | [], _ => []
  | n :: rest, path =>
      selectNode params caps args n path ++ selectSeq params caps args rest path

end

/-- Iteration `k` of a group at level `depth` is selected for the parameters it iterates. -/
def selectIteration (params : List CMacroParam) (uses : List Nat) (depth k : Nat)
    (sel : Selection) : Selection := fun p L =>
  if (p ∈ uses ∧ isRepeated params p = true ∧
      ((depthOf params p).any fun bd => decide (depth ≤ bd)) = true) ∧ L = depth then k
  else sel p L

/-- The selection behind `left` passes from the `k`-th on. -/
def leavePasses (pass : Nat → Selection → Selection) : Nat → Nat → Selection → Selection
  | 0, _, sel => sel
  | left + 1, k, sel => leavePasses pass left (k + 1) (pass k sel)

mutual

/-- The selection that the groups of a node leave behind: their last iterations. -/
def leaveNode (params : List CMacroParam) (caps : Captures) :
    CzetRepNode → List Nat → Selection → Selection
  | .tok _, _, sel => sel
  | .cap _, _, sel => sel
  | .rep kids mod _ uses, path, sel =>
      leavePasses
        (fun k sel => leaveSeq params caps kids (path ++ [k])
          (selectIteration params uses path.length k sel))
        (groupTimes params caps path mod uses) 0 sel

def leaveSeq (params : List CMacroParam) (caps : Captures) :
    List CzetRepNode → List Nat → Selection → Selection
  | [], _, sel => sel
  | n :: rest, path, sel => leaveSeq params caps rest path (leaveNode params caps n path sel)

end

/-- The selection at the start of pass `k` of a group. -/
def passSelection (params : List CMacroParam) (caps : Captures) (kids : List CzetRepNode)
    (uses : List Nat) (path : List Nat) (k : Nat) (sel : Selection) : Selection :=
  selectIteration params uses path.length k
    (leavePasses
      (fun k sel => leaveSeq params caps kids (path ++ [k])
        (selectIteration params uses path.length k sel))
      k 0 sel)

/-- Expanding a sequence comes to a node, with its enclosing iterations and the selection then. -/
inductive ExpandReaches (params : List CMacroParam) (caps : Captures) :
    List CzetRepNode → List Nat → Selection → CzetRepNode → List Nat → Selection → Prop
  | here {n : CzetRepNode} {rest : List CzetRepNode} {path : List Nat} {sel : Selection} :
      ExpandReaches params caps (n :: rest) path sel n path sel
  | next {n m : CzetRepNode} {rest : List CzetRepNode} {path path' : List Nat}
      {sel sel' : Selection} :
      ExpandReaches params caps rest path (leaveNode params caps n path sel) m path' sel' →
      ExpandReaches params caps (n :: rest) path sel m path' sel'
  | inside {m : CzetRepNode} {kids rest : List CzetRepNode} {mod : RepMod} {sep : Option CToken}
      {uses : List Nat} {path path' : List Nat} {sel sel' : Selection} {k : Nat} :
      k < groupTimes params caps path mod uses →
      ExpandReaches params caps kids (path ++ [k]) (passSelection params caps kids uses path k sel)
        m path' sel' →
      ExpandReaches params caps (.rep kids mod sep uses :: rest) path sel m path' sel'

/-- The tokens that `c_czet_expand_seq` emits for a node inside `depth` groups. -/
def emittedFor (params : List CMacroParam) (caps : Captures) (args : List CToken)
    (n : CzetRepNode) (depth : Nat) (sel : Selection) : List MarkedToken :=
  (expandNode params caps args n depth { cursors := storedCursors params sel }).out

mutual

def collectsNode : CzetRepNode → Prop
  | .tok _ => True
  | .cap _ => True
  | .rep kids _ _ uses => (∀ p, p ∈ uses ↔ mentions p kids = true) ∧ collectsSeq kids

/-- Every group lists the parameters that it names. -/
def collectsSeq : List CzetRepNode → Prop
  | [] => True
  | n :: rest => collectsNode n ∧ collectsSeq rest

end

section Parsed

private theorem collectsSeq_cons_of {n : CzetRepNode} {rest : List CzetRepNode}
    (hn : collectsNode n) (hrest : collectsSeq rest) : collectsSeq (n :: rest) := by
  rw [collectsSeq]
  exact ⟨hn, hrest⟩

private theorem parseTreeFuel_collects (isPattern : Bool) (fuel : Nat) {rdep : Nat}
    {params params' : List CMacroParam} {tokens : List CToken} {nodes : List CzetRepNode}
    (h : parseTreeFuel isPattern fuel rdep params tokens = .ok (nodes, params')) :
    collectsSeq nodes := by
  have hleaf : ∀ p, collectsNode (.cap p) := fun p => by rw [collectsNode]; trivial
  have htok : ∀ t, collectsNode (.tok t) := fun t => by rw [collectsNode]; trivial
  induction fuel generalizing rdep params params' tokens nodes with
  | zero =>
      cases tokens with
      | nil =>
          rw [parseTreeFuel] at h
          cases h
          rw [collectsSeq]
          trivial
      | cons t ts =>
          rw [parseTreeFuel] at h
          cases h
  | succ fuel ih =>
      cases tokens with
      | nil =>
          rw [parseTreeFuel] at h
          cases h
          rw [collectsSeq]
          trivial
      | cons t ts =>
          unfold parseTreeFuel at h
          split at h
          · split at h
            · cases h
            · rename_i o body
              split at h
              · cases h
              · split at h
                · cases h
                · rename_i inner after _
                  obtain ⟨⟨kids, params₁⟩, hkids, h⟩ := bind_eq_ok h
                  simp only at h
                  split at h
                  · cases h
                  · rename_i sep mod rest _
                    split at h
                    · cases h
                    · obtain ⟨⟨more, params₂⟩, hmore, h⟩ := bind_eq_ok h
                      cases h
                      refine collectsSeq_cons_of ?_ (ih hmore)
                      rw [collectsNode]
                      exact ⟨fun p => by simp [mem_collectUsesSeq], ih hkids⟩
          · split at h
            · split at h
              · split at h
                · cases h
                · obtain ⟨⟨more, params₂⟩, hmore, h⟩ := bind_eq_ok h
                  cases h
                  exact collectsSeq_cons_of (htok t) (ih hmore)
              · rename_i p hp
                split at h
                · cases h
                · rename_i par hpar
                  obtain ⟨params₁, hbind, h⟩ := bind_eq_ok h
                  obtain ⟨⟨more, params₂⟩, hmore, h⟩ := bind_eq_ok h
                  cases h
                  exact collectsSeq_cons_of (hleaf p) (ih hmore)
            · obtain ⟨⟨more, params₂⟩, hmore, h⟩ := bind_eq_ok h
              cases h
              exact collectsSeq_cons_of (htok t) (ih hmore)

end Parsed

section Cursors

variable {params : List CMacroParam} {caps : Captures}

private theorem setCursors_stored (uses : List Nat) (depth k : Nat) (sel : Selection) :
    setCursors params uses depth k (storedCursors params sel) =
      storedCursors params (selectIteration params uses depth k sel) := by
  funext p
  unfold setCursors storedCursors selectIteration depthOf isRepeated
  cases params[p]? with
  | none => rfl
  | some par =>
      obtain ⟨name, kind, rep, repMod, repSep, repDepth⟩ := par
      cases repDepth with
      | none => simp
      | some bd =>
          simp only [Option.any_some, Option.bind_some, Option.map_some, decide_eq_true_eq]
          by_cases hpick : p ∈ uses ∧ rep = true ∧ depth ≤ bd
          · rw [if_pos hpick]
            congr 1
            apply List.ext_getElem?
            intro L
            rw [List.getElem?_set]
            by_cases hL : depth = L
            · subst hL
              simp [hpick, Nat.lt_succ_of_le hpick.2.2]
            · simp only [hL, if_false, List.getElem?_map, hpick, true_and, and_true]
              cases hget : (List.range (bd + 1))[L]? with
              | none => rfl
              | some j =>
                  obtain ⟨hlt, hj⟩ := List.getElem?_eq_some_iff.mp hget
                  rw [List.getElem_range] at hj
                  simp only [Option.map_some, if_neg (show ¬ j = depth by omega)]
          · rw [if_neg hpick]
            congr 1
            apply List.map_congr_left
            intro L _
            rw [if_neg fun h => hpick h.1]

/-- For a repeated parameter the selection is that of the enclosing iterations at their levels. -/
private def Follows (params : List CMacroParam) (path : List Nat) (sel : Selection) (p : Nat) :
    Prop :=
  isRepeated params p = true → ∀ bd, depthOf params p = some bd →
    ∀ L, L < path.length → L ≤ bd → sel p L = path.getD L 0

theorem descendLevels_congr {c c' : List Nat} (n : Nat) :
    ∀ (L : Nat) (lv : List CzetCapNode), (∀ j, L ≤ j → j < L + n → c.getD j 0 = c'.getD j 0) →
      descendLevels c n L lv = descendLevels c' n L lv := by
  induction n with
  | zero => exact fun L lv _ => rfl
  | succ n ih =>
      intro L lv h
      rw [descendLevels, descendLevels, h L (Nat.le_refl L) (by omega)]
      congr 1
      funext node
      congr 1
      funext kids
      exact ih (L + 1) kids fun j hj hlt => h j (by omega) (by omega)

private theorem stored_getD {sel : Selection} {p bd L : Nat} (hL : L ≤ bd) :
    ((List.range (bd + 1)).map (sel p)).getD L 0 = sel p L := by
  rw [List.getD_eq_getElem?_getD, List.getElem?_map, List.getElem?_range (by omega)]
  rfl

private theorem levelList_congr {path : List Nat} {sel : Selection} {p bd : Nat}
    (hrep : isRepeated params p = true) (hbd : depthOf params p = some bd)
    (hle : path.length ≤ bd) (h : Follows params path sel p)
    (iters : Option (List CzetCapNode)) :
    czetCapLevelList iters ((storedCursors params sel p).getD []) path.length =
      czetCapLevelList iters ((storedCursors params (enclosing path) p).getD []) path.length := by
  unfold czetCapLevelList storedCursors
  rw [hbd]
  congr 1
  funext lv
  apply descendLevels_congr
  intro j _ hj
  simp only [Option.map_some, Option.getD_some]
  rw [stored_getD (by omega), stored_getD (by omega)]
  exact h hrep bd hbd j (by omega) (by omega)

private theorem repCount_congr {path : List Nat} {sel : Selection} {uses : List Nat}
    (h : ∀ p ∈ uses, Follows params path sel p) (count : Nat) :
    repCount params caps (storedCursors params sel) path.length uses count =
      repCount params caps (storedCursors params (enclosing path)) path.length uses count := by
  induction uses generalizing count with
  | nil => rfl
  | cons p uses ih =>
      have ih' := fun count => ih (fun q hq => h q (List.mem_cons_of_mem _ hq)) count
      rw [repCount, repCount]
      cases hpar : params[p]? with
      | none => exact ih' count
      | some par =>
          simp only
          cases hrep : par.isRepeat with
          | false => exact ih' count
          | true =>
              cases hbd : par.repDepth with
              | none => exact ih' count
              | some bd =>
                  simp only
                  split
                  · exact ih' count
                  · rename_i hle
                    rw [levelList_congr (by simp [isRepeated, hpar, hrep])
                      (by simp [depthOf, hpar, hbd]) (Nat.le_of_not_lt hle)
                      (h p List.mem_cons_self)]
                    split
                    · exact ih' count
                    · split
                      · rfl
                      · exact ih' _

private theorem capTokens_enclosed {path : List Nat} {sel : Selection} {p : Nat}
    (args : List CToken) (h : Follows params path sel p)
    (hdeep : isRepeated params p = true → ∀ bd, depthOf params p = some bd → bd < path.length) :
    capTokens params caps args p (storedCursors params sel) =
      capTokens params caps args p (storedCursors params (enclosing path)) := by
  unfold capTokens
  cases hpar : params[p]? with
  | none => rfl
  | some par =>
      simp only
      cases hrep : par.isRepeat with
      | false => rfl
      | true =>
          cases hbd : par.repDepth with
          | none => rfl
          | some bd =>
              have hr : isRepeated params p = true := by simp [isRepeated, hpar, hrep]
              have hd : depthOf params p = some bd := by simp [depthOf, hpar, hbd]
              have hcur : storedCursors params sel p = storedCursors params (enclosing path) p := by
                unfold storedCursors
                rw [hd]
                simp only [Option.map_some]
                congr 1
                apply List.map_congr_left
                intro L hL
                rw [List.mem_range] at hL
                have := hdeep hr bd hd
                exact h hr bd hd L (by omega) (by omega)
              rw [hcur]

end Cursors

section Passes

variable {params : List CMacroParam} {caps : Captures} {args : List CToken}

private theorem leavePasses_keeps {pass : Nat → Selection → Selection} {p L : Nat}
    (h : ∀ k sel, pass k sel p L = sel p L) (left k : Nat) (sel : Selection) :
    leavePasses pass left k sel p L = sel p L := by
  induction left generalizing k sel with
  | zero => rfl
  | succ left ih => rw [leavePasses, ih, h]

private theorem selectIteration_of_ne {uses : List Nat} {depth k p L : Nat} (hL : L ≠ depth)
    (sel : Selection) : selectIteration params uses depth k sel p L = sel p L := by
  rw [selectIteration, if_neg fun h => hL h.2]

mutual

private theorem leaveNode_keeps (p L : Nat) : ∀ (n : CzetRepNode) (path : List Nat)
    (sel : Selection), L < path.length → leaveNode params caps n path sel p L = sel p L
  | .tok t, path, sel, _ => by rw [leaveNode]
  | .cap q, path, sel, _ => by rw [leaveNode]
  | .rep kids mod sep uses, path, sel, hL => by
      rw [leaveNode]
      apply leavePasses_keeps
      intro k sel
      rw [leaveSeq_keeps p L kids (path ++ [k]) _ (by simp; omega)]
      exact selectIteration_of_ne (Nat.ne_of_lt hL) sel

private theorem leaveSeq_keeps (p L : Nat) : ∀ (nodes : List CzetRepNode) (path : List Nat)
    (sel : Selection), L < path.length → leaveSeq params caps nodes path sel p L = sel p L
  | [], path, sel, _ => by rw [leaveSeq]
  | n :: rest, path, sel, hL => by
      rw [leaveSeq, leaveSeq_keeps p L rest path _ hL, leaveNode_keeps p L n path sel hL]

end

private theorem follows_of_keeps {path : List Nat} {sel sel' : Selection} {p : Nat}
    (h : Follows params path sel p) (hkeep : ∀ L, L < path.length → sel' p L = sel p L) :
    Follows params path sel' p := by
  intro hrep bd hbd L hL hle
  rw [hkeep L hL]
  exact h hrep bd hbd L hL hle

private theorem follows_pass {path : List Nat} {sel : Selection} {p k : Nat} {uses : List Nat}
    (hp : p ∈ uses) (h : Follows params path sel p) :
    Follows params (path ++ [k]) (selectIteration params uses path.length k sel) p := by
  intro hrep bd hbd L hL hle
  rw [List.length_append, List.length_singleton] at hL
  by_cases heq : L = path.length
  · subst heq
    rw [selectIteration, if_pos]
    · simp
    · simp [hp, hrep, hbd, hle]
  · rw [selectIteration_of_ne heq, h hrep bd hbd L (by omega) hle,
    List.getD_append _ _ _ _ (by omega)]

/-- The loop of a group, with an invariant `inv` of the selections and the condition `right` on a
pass. -/
private theorem emitIters_passes {body : Nat → ExpandState → ExpandState}
    {pass : Nat → Selection → Selection} {tokens : Nat → List MarkedToken} {sep : Option CToken}
    {inv : Selection → Prop} {right : Nat → Selection → Prop}
    (h : ∀ k sel st, inv sel → st.cursors = storedCursors params sel →
      inv (pass k sel) ∧ ∃ toks errs,
        body k st = ⟨storedCursors params (pass k sel), st.out ++ toks, errs⟩ ∧
          (right k sel → toks = tokens k))
    (left k : Nat) {sel : Selection} {st : ExpandState} (hinv : inv sel)
    (hst : st.cursors = storedCursors params sel) :
    ∃ toks errs,
      emitIters body sep left k st =
        ⟨storedCursors params (leavePasses pass left k sel), st.out ++ toks, errs⟩ ∧
      ((∀ j, j < left → right (k + j) (leavePasses pass j k sel)) →
        toks = joinPasses tokens sep left k) := by
  induction left generalizing k sel st with
  | zero =>
      obtain ⟨cursors, out, errors⟩ := st
      obtain rfl : cursors = storedCursors params sel := hst
      exact ⟨[], errors, by simp [emitIters, leavePasses], fun _ => rfl⟩
  | succ left ih =>
      obtain ⟨hnext, toks, errs, hbody, htoks⟩ := h k sel st hinv hst
      cases left with
      | zero =>
          refine ⟨toks, errs, hbody, fun hright => ?_⟩
          rw [joinPasses]
          exact htoks (hright 0 (Nat.lt_succ_self 0))
      | succ left =>
          have hafter : ((body k st).emit (sep.toList.map fun t => (t, false))).cursors =
              storedCursors params (pass k sel) := by
            rw [hbody]
            rfl
          obtain ⟨more, errs', hmore, hall⟩ := ih (k + 1) hnext hafter
          refine ⟨toks ++ sep.toList.map (fun t => (t, false)) ++ more, errs', ?_, ?_⟩
          · rw [emitIters, hmore, hbody]
            simp only [leavePasses, ExpandState.emit, List.append_assoc]
          · intro hright
            rw [joinPasses, htoks (hright 0 (Nat.succ_pos _)), hall]
            intro j hj
            have := hright (j + 1) (Nat.succ_lt_succ hj)
            rwa [leavePasses, ← Nat.add_assoc, Nat.add_right_comm] at this

end Passes

section Nodes

variable {params : List CMacroParam} {caps : Captures} {args : List CToken}

private def ShowsEnclosing (params : List CMacroParam) (caps : Captures) (args : List CToken)
    (nodes : List CzetRepNode) (path : List Nat) (sel : Selection) : Prop :=
  ∀ p path' sel', ExpandReaches params caps nodes path sel (.cap p) path' sel' →
    capTokens params caps args p (storedCursors params sel') =
      capTokens params caps args p (storedCursors params (enclosing path'))

private theorem expandNode_cap (p depth : Nat) (st : ExpandState) :
    expandNode params caps args (.cap p) depth st =
      st.emit (capTokens params caps args p st.cursors) := by
  have hnone : st.emit [] = st := by simp [ExpandState.emit]
  unfold expandNode capTokens
  cases params[p]? with
  | none => exact hnone.symm
  | some par =>
      simp only
      cases par.isRepeat with
      | false => rfl
      | true =>
          cases par.repDepth with
          | none => exact hnone.symm
          | some bd =>
              cases st.cursors p with
              | none => exact hnone.symm
              | some cur =>
                  simp only [if_true]
                  cases (czetCapNavigate (caps p).cur cur bd).bind czetCapFirstLeaf with
                  | none => exact hnone.symm
                  | some span => rfl

private theorem reaches_of_single {n m : CzetRepNode} {rest : List CzetRepNode}
    {path path' : List Nat} {sel sel' : Selection}
    (h : ExpandReaches params caps [n] path sel m path' sel') :
    ExpandReaches params caps (n :: rest) path sel m path' sel' := by
  cases h with
  | here => exact .here
  | next hnil => cases hnil
  | inside hk hkids => exact .inside hk hkids

mutual

private theorem expandNode_follows : ∀ (n : CzetRepNode) (path : List Nat) (sel : Selection)
    (st : ExpandState), collectsNode n →
    (∀ p, mentionsNode p n = true → Follows params path sel p) →
    st.cursors = storedCursors params sel →
    ∃ toks errs, expandNode params caps args n path.length st =
        ⟨storedCursors params (leaveNode params caps n path sel), st.out ++ toks, errs⟩ ∧
      (ShowsEnclosing params caps args [n] path sel →
        toks = selectNode params caps args n path)
  | .tok t, path, sel, st, _, _, hst => by
      refine ⟨[(t, false)], st.errors, ?_, fun _ => by rw [selectNode]⟩
      rw [expandNode, leaveNode, ← hst]
      rfl
  | .cap p, path, sel, st, _, _, hst => by
      refine ⟨capTokens params caps args p (storedCursors params sel), st.errors, ?_, ?_⟩
      · rw [expandNode_cap, leaveNode, hst]
        simp only [ExpandState.emit, hst]
      · intro hshows
        rw [selectNode]
        exact hshows p path sel .here
  | .rep kids mod sep uses, path, sel, st, hcollects, hfollows, hst => by
      rw [collectsNode] at hcollects
      obtain ⟨huses, hkids⟩ := hcollects
      have hmem : ∀ p ∈ uses, Follows params path sel p := by
        intro p hp
        refine hfollows p ?_
        rw [mentionsNode]
        exact (huses p).mp hp
      have hcount : repCount params caps st.cursors path.length uses 0 =
          repCount params caps (storedCursors params (enclosing path)) path.length uses 0 := by
        rw [hst, repCount_congr hmem]
      cases hres : repCount params caps (storedCursors params (enclosing path)) path.length uses
          0 with
      | error pair =>
          have hzero : groupTimes params caps path mod uses = 0 := by
            simp only [groupTimes, hres]
          rw [hres] at hcount
          rw [expandNode, hcount, leaveNode, hzero, selectNode, hzero, leavePasses, joinPasses]
          simp only
          exact ⟨[], _, by rw [List.append_nil, ← hst], fun _ => rfl⟩
      | ok n =>
          have htimes : groupTimes params caps path mod uses =
              if mod = .query then min n 1 else n := by
            simp only [groupTimes, hres]
          rw [hres] at hcount
          rw [expandNode, hcount, leaveNode, selectNode]
          simp only
          rw [← htimes]
          -- between two passes the parameters of the group still follow the enclosing iterations
          have hpass : ∀ k sel (st : ExpandState), (∀ p ∈ uses, Follows params path sel p) →
              st.cursors = storedCursors params sel →
              (∀ p ∈ uses, Follows params path (leaveSeq params caps kids (path ++ [k])
                (selectIteration params uses path.length k sel)) p) ∧
              ∃ toks errs, cCzetExpandSeq params caps args kids (path.length + 1)
                  { st with cursors := setCursors params uses path.length k st.cursors } =
                ⟨storedCursors params (leaveSeq params caps kids (path ++ [k])
                  (selectIteration params uses path.length k sel)), st.out ++ toks, errs⟩ ∧
                (ShowsEnclosing params caps args kids (path ++ [k])
                  (selectIteration params uses path.length k sel) →
                  toks = selectSeq params caps args kids (path ++ [k])) := by
            intro k sel st hsel hcur
            constructor
            · intro p hp
              apply follows_of_keeps (hsel p hp)
              intro L hL
              rw [leaveSeq_keeps p L kids (path ++ [k]) _ (by simp; omega)]
              exact selectIteration_of_ne (Nat.ne_of_lt hL) sel
            · have hinside := expandSeq_follows kids (path ++ [k])
                (selectIteration params uses path.length k sel)
                { st with cursors := setCursors params uses path.length k st.cursors } hkids
                (fun p hp => follows_pass ((huses p).mpr hp) (hsel p ((huses p).mpr hp)))
                (by rw [hcur, setCursors_stored])
              rwa [List.length_append, List.length_singleton] at hinside
          obtain ⟨toks, errs, hemit, hright⟩ :=
            emitIters_passes hpass (groupTimes params caps path mod uses) 0 hmem hst
          refine ⟨toks, errs, hemit, fun hshows => hright ?_⟩
          intro j hj p path' sel' hreach
          rw [Nat.zero_add] at hreach
          exact hshows p path' sel' (.inside hj hreach)

private theorem expandSeq_follows : ∀ (nodes : List CzetRepNode) (path : List Nat)
    (sel : Selection) (st : ExpandState), collectsSeq nodes →
    (∀ p, mentions p nodes = true → Follows params path sel p) →
    st.cursors = storedCursors params sel →
    ∃ toks errs, cCzetExpandSeq params caps args nodes path.length st =
        ⟨storedCursors params (leaveSeq params caps nodes path sel), st.out ++ toks, errs⟩ ∧
      (ShowsEnclosing params caps args nodes path sel →
        toks = selectSeq params caps args nodes path)
  | [], path, sel, st, _, _, hst => by
      refine ⟨[], st.errors, ?_, fun _ => by rw [selectSeq]⟩
      rw [cCzetExpandSeq, leaveSeq, ← hst, List.append_nil]
  | n :: rest, path, sel, st, hcollects, hfollows, hst => by
      rw [collectsSeq] at hcollects
      have hn : ∀ p, mentionsNode p n = true → Follows params path sel p :=
        fun p hp => hfollows p (by rw [mentions, hp]; rfl)
      have hrest : ∀ p, mentions p rest = true →
          Follows params path (leaveNode params caps n path sel) p := by
        intro p hp
        apply follows_of_keeps (hfollows p (by rw [mentions, hp, Bool.or_true]))
        intro L hL
        exact leaveNode_keeps p L n path sel hL
      obtain ⟨toks, errs, hnode, htoks⟩ := expandNode_follows n path sel st hcollects.1 hn hst
      obtain ⟨more, errs', hseq, hmore⟩ := expandSeq_follows rest path
        (leaveNode params caps n path sel)
        ⟨storedCursors params (leaveNode params caps n path sel), st.out ++ toks, errs⟩
        hcollects.2 hrest rfl
      refine ⟨toks ++ more, errs', ?_, ?_⟩
      · rw [cCzetExpandSeq, hnode, hseq, leaveSeq, List.append_assoc]
      · intro hshows
        rw [selectSeq, htoks, hmore]
        · exact fun p path' sel' hreach => hshows p path' sel' (.next hreach)
        · exact fun p path' sel' hreach => hshows p path' sel' (reaches_of_single hreach)

end

private theorem reaches_trans {nodes : List CzetRepNode} {n m : CzetRepNode}
    {path path₁ path₂ : List Nat} {sel sel₁ sel₂ : Selection}
    (h₁ : ExpandReaches params caps nodes path sel n path₁ sel₁)
    (h₂ : ExpandReaches params caps [n] path₁ sel₁ m path₂ sel₂) :
    ExpandReaches params caps nodes path sel m path₂ sel₂ := by
  induction h₁ with
  | here => exact reaches_of_single h₂
  | next _ ih => exact .next (ih h₂)
  | inside hk _ ih => exact .inside hk (ih h₂)

private theorem reaches_follows {nodes : List CzetRepNode} {n : CzetRepNode}
    {path path' : List Nat} {sel sel' : Selection}
    (h : ExpandReaches params caps nodes path sel n path' sel') (hcollects : collectsSeq nodes)
    (hfollows : ∀ p, mentions p nodes = true → Follows params path sel p) :
    collectsNode n ∧ ∀ p, mentionsNode p n = true → Follows params path' sel' p := by
  induction h with
  | here =>
      rw [collectsSeq] at hcollects
      exact ⟨hcollects.1, fun p hp => hfollows p (by rw [mentions, hp]; rfl)⟩
  | @next n m rest path path' sel sel' _ ih =>
      rw [collectsSeq] at hcollects
      refine ih hcollects.2 fun p hp => ?_
      apply follows_of_keeps (hfollows p (by rw [mentions, hp, Bool.or_true]))
      intro L hL
      exact leaveNode_keeps p L n path sel hL
  | @inside m kids rest mod sep uses path path' sel sel' k _ _ ih =>
      rw [collectsSeq, collectsNode] at hcollects
      obtain ⟨⟨huses, hkids⟩, -⟩ := hcollects
      refine ih hkids fun p hp => ?_
      have hp' : Follows params path sel p := by
        apply hfollows
        rw [mentions, mentionsNode, hp]
        rfl
      apply follows_pass ((huses p).mpr hp)
      apply follows_of_keeps hp'
      intro L hL
      apply leavePasses_keeps
      intro j sel
      rw [leaveSeq_keeps p L kids (path ++ [j]) _ (by simp; omega)]
      exact selectIteration_of_ne (Nat.ne_of_lt hL) sel

private theorem follows_nil (sel : Selection) (p : Nat) : Follows params [] sel p :=
  fun _ _ _ _ hL => (nomatch hL)

/-- For an expansion that parses, every capture state and argument list: each node that is reached
emits what its enclosing iterations select, exactly when this holds of the uses of repeated
parameters inside fewer groups than the parameter has levels. -/
theorem expansion_compositional_iff (params params' defParams : List CMacroParam)
    (tokens : List CToken) (tree : List CzetRepNode) (caps : Captures) (args : List CToken)
    (hparse : cCzetParseTree params tokens false = .ok (tree, params')) :
    (∀ n path sel, ExpandReaches defParams caps tree [] (fun _ _ => 0) n path sel →
      emittedFor defParams caps args n path.length sel = selectNode defParams caps args n path) ↔
    ∀ p path sel bd, ExpandReaches defParams caps tree [] (fun _ _ => 0) (.cap p) path sel →
      isRepeated defParams p = true → depthOf defParams p = some bd → path.length ≤ bd →
        capTokens defParams caps args p (storedCursors defParams sel) =
          capTokens defParams caps args p (storedCursors defParams (enclosing path)) := by
  have hcollects : collectsSeq tree := parseTreeFuel_collects false _ hparse
  constructor
  · intro h p path sel bd hreach _ _ _
    have hcap := h _ path sel hreach
    rw [emittedFor, expandNode_cap, selectNode] at hcap
    simpa [ExpandState.emit] using hcap
  · intro h n path sel hreach
    obtain ⟨hn, hfollows⟩ := reaches_follows hreach hcollects fun p _ => follows_nil _ p
    obtain ⟨toks, errs, hexpand, htoks⟩ := expandNode_follows n path sel
      { cursors := storedCursors defParams sel } hn hfollows rfl
    rw [emittedFor, hexpand]
    refine htoks fun p path' sel' hinside => ?_
    have hcap := reaches_trans hreach hinside
    by_cases hdeep : ∃ bd, isRepeated defParams p = true ∧ depthOf defParams p = some bd ∧
        path'.length ≤ bd
    · obtain ⟨bd, hrep, hbd, hle⟩ := hdeep
      exact h p path' sel' bd hcap hrep hbd hle
    · apply capTokens_enclosed
      · exact (reaches_follows hcap hcollects fun p _ => follows_nil _ p).2 p (by simp [mentionsNode])
      · intro hrep bd hbd
        by_contra hle
        exact hdeep ⟨bd, hrep, hbd, Nat.le_of_not_lt hle⟩

end Nodes

section LastOutside

/-- The expansion `$( $x ) * $x`. -/
def lastOutside : List CToken :=
  [nameToken "$", punctToken .openParen, nameToken "$x", punctToken .closeParen, punctToken .mult,
    nameToken "$x"]

/-- The expansion `$( f $x ) *`. -/
def calledEach : List CToken :=
  [nameToken "$", punctToken .openParen, nameToken "f", nameToken "$x", punctToken .closeParen,
    punctToken .mult]

private def twoNames : List CToken :=
  [nameToken "M", nameToken "a", punctToken .comma, nameToken "b"]

/-- The parameters behind the parse of `M $($x),*`. -/
private def listedParams : List CMacroParam :=
  [{ name := "$x", kind := .ident, isRepeat := true, repDepth := some 1 }]

private def listedCaps : Captures := fun _ => { cur := some [.node [.leaf 1 2], .node [.leaf 3 4]] }

/-- `$x` inside the group that repeats it. -/
theorem inside_use_compositional :
    ∃ exp, cCzetParseTree listedParams calledEach false = .ok (exp, listedParams) ∧
      ∀ n path sel, ExpandReaches listedParams listedCaps exp [] (fun _ _ => 0) n path sel →
        emittedFor listedParams listedCaps twoNames n path.length sel =
          selectNode listedParams listedCaps twoNames n path := by
  refine ⟨_, rfl, (expansion_compositional_iff listedParams listedParams listedParams calledEach _
    listedCaps twoNames rfl).mpr ?_⟩
  intro p path sel bd hreach _ _ _
  cases hreach with
  | next hnil => cases hnil
  | @inside _ _ _ _ _ _ _ _ _ _ k hk hkids =>
      cases hkids with
      | next hrest =>
          cases hrest with
          | next hnil => cases hnil
          | here =>
              have hk : k < 2 := hk
              match k with
              | 0 => rfl
              | 1 => rfl

/-- `M $($x),*` on `M a , b`: the `$x` behind the group stands for `b`. -/
theorem outside_use_shows_last :
    ∃ tree params caps exp, cCzetParseTree listParams starPattern true = .ok (tree, params) ∧
      cCzetMatcherTree params tree twoNames = some (some caps) ∧
      cCzetParseTree params lastOutside false = .ok (exp, params) ∧
      (∃ sel, ExpandReaches params caps exp [] (fun _ _ => 0) (.cap 0) [] sel ∧
        emittedFor params caps twoNames (.cap 0) 0 sel = [(nameToken "b", true)]) ∧
      selectNode params caps twoNames (.cap 0) [] = [(nameToken "a", true)] := by
  refine ⟨_, _, _, _, rfl, rfl, rfl, ⟨_, .next .here, ?_⟩, ?_⟩
  · rfl
  · rfl

end LastOutside

end CZet
