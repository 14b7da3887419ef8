/- source: src/gcc/gcc/c/c-parser.cc (c_czet_mt_nodes, c_czet_matcher_tree)
   digest: Which abandoned alternatives of the tree matcher leave captures behind, and what each
     call of the matcher does to the capture list of a parameter. -/

import CZet.Macro.AcceptedMatch
import CZet.Macro.PatternTree
import Mathlib.Data.List.Forall2

set_option autoImplicit false
set_option relaxedAutoImplicit false

namespace CZet

def CzetRepNode.isPlus : CzetRepNode → Bool
  | .rep _ mod _ _ => decide (mod = .plus)
  | _ => false

/-- The node is a repeated parameter `p` whose leaf is recorded before the rest is tried. -/
def recordsEarly (params : List CMacroParam) (p : Nat) : CzetRepNode → Bool
  | .cap q => decide (q = p) && (params[p]?).any fun par => par.isRepeat && isFixedKind par.kind
  | _ => false

/-- The node is a repeated parameter `p` whose leaf is recorded after the rest has matched. -/
def recordsLate (params : List CMacroParam) (p : Nat) : CzetRepNode → Bool
  | .cap q => decide (q = p) && (params[p]?).any fun par => par.isRepeat && !isFixedKind par.kind
  | _ => false

/-- `p` is named by a node of this level. -/
def namedHere (p : Nat) (nodes : List CzetRepNode) : Bool :=
  nodes.any fun n => match n with
    | .cap q => decide (q = p)
    | _ => false

/-- A failed attempt at the nodes from `ii` on gets past a node that records `p` and is not
undone: a parameter of one token or block, or the first iteration of a `+` group.  A group that
uses `p` truncates what its earlier attempts left. -/
def leavesCapture (slots : Nat) (params : List CMacroParam) (input : List CToken) (p : Nat) :
    List CzetRepNode → Nat → Bool
  | [], _ => false
  | n :: rest, ii =>
      if p ∈ n.uses then
        match (alternatives slots params input n ii).getLast? with
        | none => false
        | some a => n.isPlus || leavesCapture slots params input p rest a.2
      else (alternatives slots params input n ii).any fun a =>
        recordsEarly params p n || leavesCapture slots params input p rest a.2

mutual

def cleanNode (slots : Nat) (params : List CMacroParam) (input : List CToken) (p : Nat) :
    CzetRepNode → Alternative → Bool
  | .rep kids _ _ uses, a =>
      !decide (p ∈ uses) || a.1.all (cleanNodes slots params input p kids)
  | _, _ => true

/-- No attempt that is given up on the way to the accepted match leaves a capture of `p`
behind, and no run parameter `p` is named again later in its own group. -/
def cleanNodes (slots : Nat) (params : List CMacroParam) (input : List CToken) (p : Nat) :
    List CzetRepNode → Nat → Bool
  | [], _ => true
  | n :: rest, ii =>
      match chosen slots params input n rest ii with
      | none => true
      | some a =>
          cleanNode slots params input p n a &&
          (decide (p ∈ n.uses) || (abandoned slots params input n rest ii).all fun b =>
            !leavesCapture slots params input p rest b.2) &&
          !(recordsLate params p n && namedHere p rest) &&
          cleanNodes slots params input p rest a.2

end

/-- Every parameter without repetition is named by one node at most. -/
def SinglesNamedOnce (params : List CMacroParam) (tree : List CzetRepNode) : Prop :=
  ∀ m m' p : Nat, isRepeated params p = false → tree[m]? = some (.cap p) →
    tree[m']? = some (.cap p) → m = m'

/-- No capture of an abandoned alternative survives, and no parameter is captured twice where
its captures have one place. -/
def CleanMatch (slots : Nat) (params : List CMacroParam) (tree : List CzetRepNode)
    (input : List CToken) :
    Prop :=
  (∀ p, isRepeated params p = true → cleanNodes slots params input p tree 0 = true) ∧
    SinglesNamedOnce params tree

/-- The list that captures of `p` are appended to. -/
abbrev lst (caps : Captures) (p : Nat) : List CzetCapNode := czetCapTop (caps p)

theorem lst_setSpan (caps : Captures) (q p start stop : Nat) :
    lst (setSpan caps q start stop) p = lst caps p := by
  simp only [lst, setSpan, Function.update_apply]
  split
  · rename_i h
    rw [h]
    rfl
  · rfl

theorem lst_capLeaf (caps : Captures) (q p start stop : Nat) :
    lst (czetCapLeaf caps q start stop) p =
      if p = q then lst caps p ++ [.leaf start stop] else lst caps p := by
  simp only [lst, czetCapLeaf, Function.update_apply]
  split
  · rename_i h
    rw [h]
    rfl
  · rfl

theorem lst_setLists (uses : List Nat) (f : Nat → List CzetCapNode) (caps : Captures)
    (p : Nat) : lst (setLists uses f caps) p = if p ∈ uses then f p else lst caps p := by
  simp only [lst, setLists]
  split <;> rfl

theorem leavesCapture_of_not_mentioned {slots : Nat} {params : List CMacroParam}
    {input : List CToken}
    {p d : Nat} {nodes : List CzetRepNode} (hlevel : level p d nodes)
    (hmen : mentions p nodes = false) (ii : Nat) :
    leavesCapture slots params input p nodes ii = false := by
  induction nodes generalizing ii with
  | nil => rfl
  | cons n rest ih =>
      rw [level] at hlevel
      rw [mentions, Bool.or_eq_false_iff] at hmen
      rw [leavesCapture, if_neg (level_uses hlevel.1 hmen.1), List.any_eq_false]
      have hearly : recordsEarly params p n = false := by
        cases n with
        | cap q =>
            rw [mentionsNode] at hmen
            simp [recordsEarly, hmen.1]
        | _ => rfl
      intro a _
      simp [hearly, ih hlevel.2 hmen.2]

private theorem cleanNodes_of_not_mentioned {slots : Nat} {params : List CMacroParam}
    {input : List CToken}
    {p d : Nat} {nodes : List CzetRepNode} (hlevel : level p d nodes)
    (hmen : mentions p nodes = false) (ii : Nat) :
    cleanNodes slots params input p nodes ii = true := by
  induction nodes generalizing ii with
  | nil => rw [cleanNodes]
  | cons n rest ih =>
      rw [level] at hlevel
      rw [mentions, Bool.or_eq_false_iff] at hmen
      rw [cleanNodes]
      split
      · rfl
      · rename_i a _
        have hnode : cleanNode slots params input p n a = true := by
          cases n with
          | rep kids mod sep uses =>
              have := level_uses hlevel.1 hmen.1
              simp only [CzetRepNode.uses] at this
              simp [cleanNode, this]
          | _ => rw [cleanNode]; simp
        have hlate : recordsLate params p n = false := by
          cases n with
          | cap q =>
              rw [mentionsNode] at hmen
              simp [recordsLate, hmen.1]
          | _ => rfl
        have hleft : ∀ b, leavesCapture slots params input p rest b = false :=
          leavesCapture_of_not_mentioned hlevel.2 hmen.2
        simp [hnode, hlate, hleft, ih hlevel.2 hmen.2]

private theorem records_of_not_repeated {params : List CMacroParam} {p : Nat}
    (hrep : isRepeated params p = false) (n : CzetRepNode) :
    recordsEarly params p n = false ∧ recordsLate params p n = false := by
  have hany : ∀ f : CMacroParam → Bool,
      ((params[p]?).any fun par => par.isRepeat && f par) = false := by
    intro f
    cases hpar : params[p]? with
    | none => rfl
    | some par =>
        have : par.isRepeat = false := by simpa [isRepeated, hpar] using hrep
        simp [this]
  cases n with
  | cap q => simp [recordsEarly, recordsLate, hany]
  | _ => exact ⟨rfl, rfl⟩

private theorem not_uses_of_level_zero {p : Nat} {n : CzetRepNode} (h : levelNode p 0 n) :
    p ∉ n.uses := by
  cases n with
  | rep kids mod sep uses =>
      rw [levelNode] at h
      exact fun hp => h.2.1 hp rfl
  | _ => simp [CzetRepNode.uses]

private theorem leavesCapture_of_not_repeated {slots : Nat} {params : List CMacroParam}
    {input : List CToken}
    {p : Nat} (hrep : isRepeated params p = false) {nodes : List CzetRepNode}
    (hlevel : level p 0 nodes) (ii : Nat) : leavesCapture slots params input p nodes ii = false := by
  induction nodes generalizing ii with
  | nil => rfl
  | cons n rest ih =>
      rw [level] at hlevel
      rw [leavesCapture, if_neg (not_uses_of_level_zero hlevel.1), List.any_eq_false]
      intro a _
      simp [(records_of_not_repeated hrep n).1, ih hlevel.2]

theorem cleanNodes_of_not_repeated {slots : Nat} {params : List CMacroParam}
    {input : List CToken} {p : Nat}
    (hrep : isRepeated params p = false) {nodes : List CzetRepNode} (hlevel : level p 0 nodes)
    (ii : Nat) : cleanNodes slots params input p nodes ii = true := by
  induction nodes generalizing ii with
  | nil => rw [cleanNodes]
  | cons n rest ih =>
      rw [level] at hlevel
      rw [cleanNodes]
      split
      · rfl
      · rename_i a _
        have hnode : cleanNode slots params input p n a = true := by
          cases n with
          | rep kids mod sep uses =>
              have := not_uses_of_level_zero hlevel.1
              simp only [CzetRepNode.uses] at this
              simp [cleanNode, this]
          | _ => rw [cleanNode]; simp
        have hleft : ∀ b, leavesCapture slots params input p rest b = false :=
          leavesCapture_of_not_repeated hrep hlevel.2
        simp [hnode, (records_of_not_repeated hrep n).2, hleft, ih hlevel.2]

theorem captureForest_of_not_mentioned {params : List CMacroParam} {p d : Nat}
    {nodes : List CzetRepNode} (hlevel : level p d nodes) (hmen : mentions p nodes = false)
    (ms : List NodeMatch) : captureForest params p nodes ms = [] := by
  induction nodes generalizing ms with
  | nil => rw [captureForest]; simp
  | cons n rest ih =>
      rw [level] at hlevel
      rw [mentions, Bool.or_eq_false_iff] at hmen
      cases ms with
      | nil => rw [captureForest]; simp
      | cons m ms =>
          rw [captureForest, ih hlevel.2 hmen.2, List.append_nil]
          cases n with
          | tok t => rw [nodeForest] <;> simp
          | cap q =>
              rw [mentionsNode, decide_eq_false_iff_not] at hmen
              cases m with
              | span start stop => rw [nodeForest, if_neg fun h => hmen.1 h.1]
              | group iters => rw [nodeForest] <;> simp
          | rep kids mod sep uses =>
              have huses := level_uses hlevel.1 hmen.1
              cases m with
              | span start stop => rw [nodeForest] <;> simp
              | group iters =>
                  rw [nodeForest]
                  exact if_neg huses

theorem iterProbe_ge {input : List CToken} {sep : Option CToken} {needSep : Bool}
    {cur probe : Nat} (h : iterProbe input sep needSep cur = some probe) : cur ≤ probe := by
  unfold iterProbe at h
  split at h
  · split at h
    · split at h <;> cases h
      omega
    · cases h
  · cases h
    exact Nat.le_refl _

private theorem iterations_ge {passKids : Nat → Option Nat}
    (hkids : ∀ i k, passKids i = some k → i ≤ k) {input : List CToken} {sep : Option CToken}
    {room cur : Nat} {needSep : Bool} {it : Nat × Nat}
    (h : it ∈ iterations passKids input sep room cur needSep) : cur ≤ it.1 ∧ it.1 ≤ it.2 := by
  induction room generalizing cur needSep with
  | zero => simp [iterations] at h
  | succ room ih =>
      rw [iterations] at h
      split at h
      · cases h
      · rename_i probe hprobe
        split at h
        · cases h
        · rename_i stop hstop
          have hge := iterProbe_ge hprobe
          have hle := hkids probe stop hstop
          rcases List.mem_cons.mp h with rfl | h
          · exact ⟨hge, hle⟩
          · have := ih h
            exact ⟨by omega, this.2⟩

private theorem keepIters_ge {ii t : Nat} {its : List (Nat × Nat)} (ht : t ≤ its.length)
    (hits : ∀ it ∈ its, ii ≤ it.1 ∧ it.1 ≤ it.2) : ii ≤ (keepIters ii its t).2 := by
  cases t with
  | zero => simp [keepIters]
  | succ t =>
      have hmem := hits its[t] (List.getElem_mem ht)
      simp only [keepIters, List.getD_eq_getElem?_getD, List.getElem?_cons_succ, List.getElem?_map,
        List.getElem?_eq_getElem ht, Option.map_some, Option.getD_some]
      omega

theorem mem_countsDown {minIt m t : Nat} : t ∈ countsDown minIt m ↔ minIt ≤ t ∧ t ≤ m := by
  rw [countsDown, List.mem_reverse, List.mem_range'_1]
  omega

theorem alternatives_many {slots : Nat} {params : List CMacroParam} {input : List CToken}
    {kids : List CzetRepNode} {mod : RepMod} (hmod : mod ≠ .query) {sep : Option CToken}
    {uses : List Nat} {ii : Nat} :
    alternatives slots params input (.rep kids mod sep uses) ii =
      (countsDown (minIter mod)
        (iterations (passNodes slots params input kids) input sep slots ii false).length).map
        (keepIters ii (iterations (passNodes slots params input kids) input sep slots ii false)) := by
  cases mod <;> first | exact absurd rfl hmod | rw [alternatives]; simp

mutual

theorem alternatives_ge (slots : Nat) (params : List CMacroParam) (input : List CToken) :
    ∀ (n : CzetRepNode) {ii : Nat} {a : Alternative}, a ∈ alternatives slots params input n ii →
      ii ≤ a.2 ∧ ∀ start ∈ a.1, ii ≤ start
  | .tok t, ii, a, h => by
      rw [alternatives] at h
      obtain ⟨stop, hstop, rfl⟩ := List.mem_map.mp h
      exact ⟨le_of_lt (lt_of_mem_nodeCuts hstop), by simp⟩
  | .cap p, ii, a, h => by
      rw [alternatives] at h
      obtain ⟨stop, hstop, rfl⟩ := List.mem_map.mp h
      exact ⟨le_of_lt (lt_of_mem_nodeCuts hstop), by simp⟩
  | .rep kids mod sep uses, ii, a, h => by
      have hkids : ∀ i k, passNodes slots params input kids i = some k → i ≤ k :=
        fun i k => passNodes_ge slots params input kids
      have hmany : ∀ minIt its, (∀ it ∈ its, ii ≤ it.1 ∧ it.1 ≤ it.2) →
          a ∈ (countsDown minIt its.length).map (keepIters ii its) →
          ii ≤ a.2 ∧ ∀ start ∈ a.1, ii ≤ start := by
        intro minIt its hits ha
        obtain ⟨t, ht, rfl⟩ := List.mem_map.mp ha
        refine ⟨keepIters_ge (mem_countsDown.mp ht).2 hits, ?_⟩
        intro start hstart
        obtain ⟨it, hit, rfl⟩ := List.mem_map.mp hstart
        exact (hits it (List.mem_of_mem_take hit)).1
      cases mod with
      | query =>
          rw [alternatives] at h
          split at h
          · rename_i probe hprobe
            have := hkids ii probe hprobe
            rcases List.mem_cons.mp h with rfl | h
            · simpa using this
            · simp [List.mem_singleton.mp h]
          · simp [List.mem_singleton.mp h]
      | star =>
          rw [alternatives_many (by decide)] at h
          exact hmany _ _ (fun it hit => iterations_ge hkids hit) h
      | plus =>
          rw [alternatives_many (by decide)] at h
          exact hmany _ _ (fun it hit => iterations_ge hkids hit) h

theorem passNodes_ge (slots : Nat) (params : List CMacroParam) (input : List CToken) :
    ∀ (nodes : List CzetRepNode) {ii k : Nat}, passNodes slots params input nodes ii = some k → ii ≤ k
  | [], ii, k, h => by
      rw [passNodes] at h
      cases h
      exact Nat.le_refl _
  | n :: rest, ii, k, h => by
      rw [passNodes] at h
      obtain ⟨a, ha, hrest⟩ := List.exists_of_findSome?_eq_some h
      have h₁ := (alternatives_ge slots params input n ha).1
      have h₂ := passNodes_ge slots params input rest hrest
      omega

end

section Outcome

variable (slots : Nat) (params : List CMacroParam) (input : List CToken) (p : Nat)

/-- The capture tree of `p` for the accepted match of `nodes` from `ii` on. -/
def acceptedForest (nodes : List CzetRepNode) (ii : Nat) : List CzetCapNode :=
  captureForest params p nodes (acceptedNodes slots params input nodes ii)

/-- What a call of `c_czet_mt_nodes` does to the list `l` of `p`. -/
def Outcome (nodes : List CzetRepNode) (ii : Nat) (l : List CzetCapNode) :
    MtResult → Prop
  | .fault => True
  | .fail caps => passNodes slots params input nodes ii = none ∧
      ∃ left, lst caps p = l ++ left ∧
        (left = [] ↔ leavesCapture slots params input p nodes ii = false)
  | .ok stop caps => passNodes slots params input nodes ii = some stop ∧
      ∃ added, lst caps p = l ++ added ∧
        (acceptedForest slots params input p nodes ii).length ≤ added.length ∧
        (added = acceptedForest slots params input p nodes ii ↔
          cleanNodes slots params input p nodes ii = true)

def passes (rest : List CzetRepNode) (a : Alternative) : Bool :=
  (passNodes slots params input rest a.2).isSome

/-- What trying alternatives in turn does to the list `l` of a parameter whose captures the
node does not truncate; `late` is recorded once the rest has matched. -/
private def LoopOutcome (late : Alternative → List CzetCapNode) (alts : List Alternative)
    (rest : List CzetRepNode) (l : List CzetCapNode) : MtResult → Prop
  | .fault => True
  | .fail caps => (∀ a ∈ alts, passNodes slots params input rest a.2 = none) ∧
      ∃ left, lst caps p = l ++ left ∧
        (left = [] ↔ ∀ a ∈ alts, leavesCapture slots params input p rest a.2 = false)
  | .ok stop caps => ∃ a, alts.find? (passes slots params input rest) = some a ∧
      passNodes slots params input rest a.2 = some stop ∧
      ∃ left added, lst caps p = l ++ (left ++ (added ++ late a)) ∧
        (left = [] ↔ ∀ b ∈ alts.takeWhile (fun b => (passNodes slots params input rest b.2).isNone),
          leavesCapture slots params input p rest b.2 = false) ∧
        (acceptedForest slots params input p rest a.2).length ≤ added.length ∧
        (added = acceptedForest slots params input p rest a.2 ↔
          cleanNodes slots params input p rest a.2 = true)

end Outcome

section Loop

variable {slots : Nat} {params : List CMacroParam} {input : List CToken} {p : Nat}

private theorem loopOutcome_nil {late : Alternative → List CzetCapNode}
    {rest : List CzetRepNode} (caps : Captures) :
    LoopOutcome slots params input p late [] rest (lst caps p) (.fail caps) := by
  refine ⟨by simp, [], by simp, by simp⟩

private theorem loopOutcome_ok {late : Alternative → List CzetCapNode} {a : Alternative}
    {alts : List Alternative} {rest : List CzetRepNode} {l : List CzetCapNode} {stop : Nat}
    {caps caps' : Captures} (h : Outcome slots params input p rest a.2 l (.ok stop caps))
    (hlate : lst caps' p = lst caps p ++ late a) :
    LoopOutcome slots params input p late (a :: alts) rest l (.ok stop caps') := by
  obtain ⟨hpass, added, hadded, hlen, hclean⟩ := h
  refine ⟨a, ?_, hpass, [], added, ?_, ?_, hlen, hclean⟩
  · rw [List.find?_cons_of_pos]
    simp [passes, hpass]
  · rw [hlate, hadded]
    simp
  · simp [hpass]

private theorem loopOutcome_fail {late : Alternative → List CzetCapNode} {a : Alternative}
    {alts : List Alternative}
    {rest : List CzetRepNode} {l : List CzetCapNode} {caps : Captures} {r : MtResult}
    (h : Outcome slots params input p rest a.2 l (.fail caps))
    (hloop : LoopOutcome slots params input p late alts rest (lst caps p) r) :
    LoopOutcome slots params input p late (a :: alts) rest l r := by
  obtain ⟨hpass, left, hleft, hnil⟩ := h
  rw [hleft] at hloop
  cases r with
  | fault => trivial
  | fail caps' =>
      obtain ⟨hpass', left', hleft', hnil'⟩ := hloop
      refine ⟨?_, left ++ left', by simpa using hleft', ?_⟩
      · intro b hb
        rcases List.mem_cons.mp hb with rfl | hb
        · exact hpass
        · exact hpass' b hb
      · rw [List.append_eq_nil_iff, hnil, hnil', List.forall_mem_cons]
  | ok stop caps' =>
      obtain ⟨b, hfind, hpass', left', added, hlst, hnil', hlen, hclean⟩ := hloop
      refine ⟨b, ?_, hpass', left ++ left', added, by simpa using hlst, ?_, hlen, hclean⟩
      · rw [List.find?_cons_of_neg, hfind]
        simp [passes, hpass]
      · rw [List.takeWhile_cons_of_pos (by simp [hpass]), List.append_eq_nil_iff, hnil, hnil',
          List.forall_mem_cons]

theorem passNodes_of_find {n : CzetRepNode} {rest : List CzetRepNode} {ii stop : Nat}
    {a : Alternative}
    (hfind : (alternatives slots params input n ii).find? (passes slots params input rest) = some a)
    (hpass : passNodes slots params input rest a.2 = some stop) :
    passNodes slots params input (n :: rest) ii = some stop := by
  rw [passNodes]
  generalize alternatives slots params input n ii = alts at hfind ⊢
  induction alts with
  | nil => simp at hfind
  | cons b alts ih =>
      cases hb : passNodes slots params input rest b.2 with
      | none =>
          rw [List.find?_cons_of_neg (by simp [passes, hb])] at hfind
          simp [hb, ih hfind]
      | some stop' =>
          rw [List.find?_cons_of_pos (by simp [passes, hb])] at hfind
          cases hfind
          simp [hb, ← hpass]

theorem passNodes_of_none {n : CzetRepNode} {rest : List CzetRepNode} {ii : Nat}
    (h : ∀ a ∈ alternatives slots params input n ii, passNodes slots params input rest a.2 = none) :
    passNodes slots params input (n :: rest) ii = none := by
  rw [passNodes, List.findSome?_eq_none_iff]
  exact h

theorem chosen_of_find {n : CzetRepNode} {rest : List CzetRepNode} {ii : Nat}
    {a : Alternative}
    (hfind : (alternatives slots params input n ii).find? (passes slots params input rest) = some a) :
    chosen slots params input n rest ii = some a := hfind

theorem acceptedForest_of_find {n : CzetRepNode} {rest : List CzetRepNode} {ii : Nat}
    {a : Alternative}
    (hfind : (alternatives slots params input n ii).find? (passes slots params input rest) = some a) :
    acceptedForest slots params input p (n :: rest) ii =
      nodeForest params p n (acceptedNode slots params input n ii a) ++
        acceptedForest slots params input p rest a.2 := by
  rw [acceptedForest, acceptedNodes, chosen_of_find hfind]
  simp only
  rw [captureForest]
  rfl

private theorem append_eq_iff_of_length_le {α : Type} {left added T : List α}
    (hlen : T.length ≤ added.length) : left ++ added = T ↔ left = [] ∧ added = T := by
  constructor
  · rintro rfl
    have : left = [] := by
      rw [List.length_append] at hlen
      exact List.length_eq_zero_iff.mp (by omega)
    simp [this]
  · rintro ⟨rfl, rfl⟩
    rfl

private theorem cleanNodes_of_find {n : CzetRepNode} {rest : List CzetRepNode} {ii : Nat}
    {a : Alternative}
    (hfind : (alternatives slots params input n ii).find? (passes slots params input rest) = some a) :
    cleanNodes slots params input p (n :: rest) ii = true ↔ cleanNode slots params input p n a =
      true ∧
      (p ∈ n.uses ∨ ∀ b ∈ (alternatives slots params input n ii).takeWhile
        (fun b => (passNodes slots params input rest b.2).isNone),
        leavesCapture slots params input p rest b.2 = false) ∧
      (recordsLate params p n && namedHere p rest) = false ∧
      cleanNodes slots params input p rest a.2 = true := by
  rw [cleanNodes, chosen_of_find hfind]
  simp only [Bool.and_eq_true, Bool.or_eq_true, decide_eq_true_eq, List.all_eq_true,
    Bool.not_eq_true', abandoned, and_assoc]

private theorem outcome_of_loop {n : CzetRepNode} {rest : List CzetRepNode} {ii : Nat}
    {l : List CzetCapNode} {r : MtResult} (huses : p ∉ n.uses)
    (hearly : recordsEarly params p n = false) (hlate : recordsLate params p n = false)
    (hclean : ∀ a, cleanNode slots params input p n a = true)
    (hforest : ∀ a, nodeForest params p n (acceptedNode slots params input n ii a) = [])
    (hloop : LoopOutcome slots params input p (fun _ => []) (alternatives slots params input n ii)
      rest l r) :
    Outcome slots params input p (n :: rest) ii l r := by
  cases r with
  | fault => trivial
  | fail caps =>
      obtain ⟨hpass, left, hleft, hnil⟩ := hloop
      refine ⟨passNodes_of_none hpass, left, hleft, ?_⟩
      rw [hnil, leavesCapture, if_neg huses, List.any_eq_false]
      simp [hearly]
  | ok stop caps =>
      obtain ⟨a, hfind, hpass, left, added, hlst, hnil, hlen, hadded⟩ := hloop
      refine ⟨passNodes_of_find hfind hpass, left ++ added, by simpa using hlst, ?_, ?_⟩
      · rw [acceptedForest_of_find hfind, hforest, List.nil_append, List.length_append]
        omega
      · rw [acceptedForest_of_find hfind, hforest, List.nil_append,
          append_eq_iff_of_length_le hlen, cleanNodes_of_find hfind, hnil, hadded]
        simp [huses, hclean, hlate]

private theorem loopOutcome_one {a : Alternative} {rest : List CzetRepNode}
    {l : List CzetCapNode} {r : MtResult} (h : Outcome slots params input p rest a.2 l r) :
    LoopOutcome slots params input p (fun _ => []) [a] rest l r := by
  cases r with
  | fault => trivial
  | fail caps => exact loopOutcome_fail h (loopOutcome_nil caps)
  | ok stop caps => exact loopOutcome_ok h (by simp)

private theorem tryCuts_loop {rest : List CzetRepNode}
    (hrest : ∀ j caps, Outcome slots params input p rest j (lst caps p)
      (mtNodes slots params input rest j caps)) (q : Nat) (isRepeat : Bool) (ii : Nat)
    (cuts : List Nat) (caps : Captures) :
    LoopOutcome slots params input p
      (fun a => if p = q ∧ isRepeat = true then [.leaf ii a.2] else [])
      (cuts.map fun stop => ([], stop)) rest (lst caps p)
      (tryCuts (mtNodes slots params input rest) q isRepeat ii cuts caps) := by
  induction cuts generalizing caps with
  | nil => exact loopOutcome_nil caps
  | cons cut cuts ih =>
      have h := hrest cut (setSpan caps q ii cut)
      rw [lst_setSpan] at h
      rw [tryCuts, List.map_cons]
      cases hres : mtNodes slots params input rest cut (setSpan caps q ii cut) with
      | fault => trivial
      | fail caps' =>
          rw [hres] at h
          refine loopOutcome_fail h ?_
          rw [← lst_setSpan caps' q p 0 0]
          exact ih (setSpan caps' q 0 0)
      | ok stop caps' =>
          rw [hres] at h
          refine loopOutcome_ok h ?_
          cases isRepeat with
          | false => simp
          | true =>
              simp only [if_true, lst_capLeaf, and_true]
              split <;> simp

theorem find_of_passNodes {n : CzetRepNode} {rest : List CzetRepNode} {ii k : Nat}
    (h : passNodes slots params input (n :: rest) ii = some k) :
    ∃ a, (alternatives slots params input n ii).find? (passes slots params input rest) = some a ∧
      passNodes slots params input rest a.2 = some k := by
  cases hfind : (alternatives slots params input n ii).find? (passes slots params input rest) with
  | none =>
      rw [List.find?_eq_none] at hfind
      rw [passNodes_of_none fun a ha => by simpa [passes] using hfind a ha] at h
      cases h
  | some a =>
      have hsome : passes slots params input rest a = true := List.find?_some hfind
      obtain ⟨stop, hstop⟩ := Option.isSome_iff_exists.mp hsome
      rw [passNodes_of_find hfind hstop] at h
      cases h
      exact ⟨a, rfl, hstop⟩

private theorem acceptedForest_leaf {nodes : List CzetRepNode} (hlevel : level p 0 nodes)
    {ii k : Nat} (hpass : passNodes slots params input nodes ii = some k) :
    (∀ x ∈ acceptedForest slots params input p nodes ii, ∃ start stop, x = .leaf start stop ∧
      ii ≤ start) ∧
    (isRepeated params p = true → namedHere p nodes = true →
      acceptedForest slots params input p nodes ii ≠ []) := by
  induction nodes generalizing ii with
  | nil => simp [acceptedForest, captureForest, namedHere]
  | cons n rest ih =>
      rw [level] at hlevel
      obtain ⟨a, hfind, hrest⟩ := find_of_passNodes hpass
      have hge := (alternatives_ge slots params input n (List.mem_of_find?_eq_some hfind)).1
      obtain ⟨hleaf, hne⟩ := ih hlevel.2 hrest
      rw [acceptedForest_of_find hfind]
      have hrestLeaf : ∀ x ∈ acceptedForest slots params input p rest a.2,
          ∃ start stop, x = .leaf start stop ∧ ii ≤ start := by
        intro x hx
        obtain ⟨start, stop, rfl, hstart⟩ := hleaf x hx
        exact ⟨start, stop, rfl, by omega⟩
      cases n with
      | tok t =>
          rw [acceptedNode, nodeForest, List.nil_append]
          · exact ⟨hrestLeaf, fun hrep hnamed => hne hrep (by simpa [namedHere] using hnamed)⟩
          · simp
          · simp
      | cap q =>
          rw [acceptedNode, nodeForest]
          split
          · refine ⟨?_, by simp⟩
            intro x hx
            rcases List.mem_append.mp hx with hx | hx
            · exact ⟨ii, a.2, by simpa using hx, Nat.le_refl _⟩
            · exact hrestLeaf x hx
          · rename_i hq
            rw [List.nil_append]
            refine ⟨hrestLeaf, fun hrep hnamed => hne hrep ?_⟩
            have hqp : ¬ q = p := fun heq => hq ⟨heq, hrep⟩
            simpa [namedHere, hqp] using hnamed
      | rep kids mod sep uses =>
          have huses : p ∉ uses := by
            intro hmem
            have := hlevel.1
            rw [levelNode] at this
            exact this.2.1 hmem rfl
          rw [acceptedNode, nodeForest, if_neg huses, List.nil_append]
          exact ⟨hrestLeaf, fun hrep hnamed => hne hrep (by simpa [namedHere] using hnamed)⟩

theorem mentions_of_level_zero {nodes : List CzetRepNode} (hlevel : level p 0 nodes)
    (hnamed : namedHere p nodes = false) : mentions p nodes = false := by
  induction nodes with
  | nil => rw [mentions]
  | cons n rest ih =>
      rw [level] at hlevel
      rw [namedHere, List.any_cons, Bool.or_eq_false_iff] at hnamed
      rw [mentions, Bool.or_eq_false_iff]
      refine ⟨?_, ih hlevel.2 hnamed.2⟩
      cases n with
      | tok t => rw [mentionsNode]
      | cap q => simpa [mentionsNode] using hnamed.1
      | rep kids mod sep uses =>
          have h := hlevel.1
          rw [levelNode] at h
          rw [mentionsNode]
          cases hm : mentions p kids with
          | false => rfl
          | true => exact absurd rfl (h.2.1 (h.1.mpr hm))

private theorem outcome_no_alternative {n : CzetRepNode} {rest : List CzetRepNode} {ii : Nat}
    (halts : alternatives slots params input n ii = []) (caps : Captures) :
    Outcome slots params input p (n :: rest) ii (lst caps p) (.fail caps) := by
  refine ⟨passNodes_of_none (by simp [halts]), [], by simp, ?_⟩
  rw [leavesCapture]
  split <;> simp [halts]

private theorem tok_outcome {rest : List CzetRepNode}
    (hrest : ∀ j caps, Outcome slots params input p rest j (lst caps p)
      (mtNodes slots params input rest j caps)) (t : CToken) (ii : Nat) (caps : Captures) :
    Outcome slots params input p (.tok t :: rest) ii (lst caps p)
      (mtNode slots params input (.tok t) (mtNodes slots params input rest) ii caps) := by
  have hloop : ∀ r, LoopOutcome slots params input p (fun _ => [])
      (alternatives slots params input (.tok t) ii) rest (lst caps p) r →
      Outcome slots params input p (.tok t :: rest) ii (lst caps p) r := by
    intro r h
    refine outcome_of_loop (by simp [CzetRepNode.uses]) rfl rfl (fun a => ?_) (fun a => ?_) h
    · rw [cleanNode]
      simp
    · rw [acceptedNode, nodeForest] <;> simp
  apply hloop
  rw [mtNode, alternatives, nodeCuts]
  cases input[ii]? with
  | none => exact loopOutcome_nil caps
  | some itok =>
      by_cases heq : cCzetTokEq t itok = true
      · simp only [heq, if_true]
        exact loopOutcome_one (hrest (ii + 1) caps)
      · simp only [heq]
        exact loopOutcome_nil caps

private theorem silentCap_outcome {rest : List CzetRepNode}
    (hrest : ∀ j caps, Outcome slots params input p rest j (lst caps p)
      (mtNodes slots params input rest j caps)) {q : Nat}
        (hq : ¬ (q = p ∧ isRepeated params p = true))
    (ii : Nat) (caps : Captures) :
    Outcome slots params input p (.cap q :: rest) ii (lst caps p)
      (mtNode slots params input (.cap q) (mtNodes slots params input rest) ii caps) := by
  have hrep : ∀ par, params[q]? = some par → ¬ (p = q ∧ par.isRepeat = true) := by
    rintro par hpar ⟨rfl, hr⟩
    exact hq ⟨rfl, by simp [isRepeated, hpar, hr]⟩
  have hloop : ∀ r, LoopOutcome slots params input p (fun _ => [])
      (alternatives slots params input (.cap q) ii) rest (lst caps p) r →
      Outcome slots params input p (.cap q :: rest) ii (lst caps p) r := by
    intro r h
    refine outcome_of_loop (by simp [CzetRepNode.uses]) ?_ ?_ (fun a => ?_) (fun a => ?_) h
    · by_cases hqp : q = p
      · subst hqp
        cases hpar : params[q]? with
        | none => simp [recordsEarly, hpar]
        | some par =>
            have := hrep par hpar
            simp_all [recordsEarly]
      · simp [recordsEarly, hqp]
    · by_cases hqp : q = p
      · subst hqp
        cases hpar : params[q]? with
        | none => simp [recordsLate, hpar]
        | some par =>
            have := hrep par hpar
            simp_all [recordsLate]
      · simp [recordsLate, hqp]
    · rw [cleanNode]
      simp
    · rw [acceptedNode, nodeForest, if_neg hq]
  apply hloop
  rw [mtNode, alternatives, nodeCuts]
  cases hpar : params[q]? with
  | none => exact loopOutcome_nil caps
  | some par =>
      by_cases hfixed : isFixedKind par.kind = true
      · simp only [hfixed, if_true]
        cases matchFixed par.kind input ii with
        | none => exact loopOutcome_nil caps
        | some stop =>
            refine loopOutcome_one (a := ([], stop)) ?_
            have hlst : lst (if par.isRepeat = true then
                czetCapLeaf (setSpan caps q ii stop) q ii stop
                else setSpan caps q ii stop) p = lst caps p := by
              split
              · rename_i hr
                rw [lst_capLeaf, if_neg fun h => hrep par hpar ⟨h, hr⟩, lst_setSpan]
              · exact lst_setSpan caps q p ii stop
            rw [← hlst]
            exact hrest stop _
      · simp only [hfixed]
        have h := tryCuts_loop hrest q par.isRepeat ii (runCuts (commaBounded par.kind) input ii) caps
        simp only [hrep par hpar, if_false] at h
        exact h

private theorem earlyCap_outcome {rest : List CzetRepNode}
    (hrest : ∀ j caps, Outcome slots params input p rest j (lst caps p)
      (mtNodes slots params input rest j caps)) {par : CMacroParam} (hpar : params[p]? = some par)
    (hrep : par.isRepeat = true) (hfixed : isFixedKind par.kind = true)
    (ii : Nat) (caps : Captures) :
    Outcome slots params input p (.cap p :: rest) ii (lst caps p)
      (mtNode slots params input (.cap p) (mtNodes slots params input rest) ii caps) := by
  have hisrep : isRepeated params p = true := by simp [isRepeated, hpar, hrep]
  have halts : alternatives slots params input (.cap p) ii =
      (matchFixed par.kind input ii).toList.map fun stop => ([], stop) := by
    simp [alternatives, nodeCuts, hpar, hfixed]
  rw [mtNode]
  simp only [hpar, hfixed, hrep, if_true]
  cases hm : matchFixed par.kind input ii with
  | none => exact outcome_no_alternative (by simp [halts, hm]) caps
  | some stop =>
      rw [hm] at halts
      have hone : alternatives slots params input (.cap p) ii = [([], stop)] := halts
      have h := hrest stop (czetCapLeaf (setSpan caps p ii stop) p ii stop)
      rw [lst_capLeaf, if_pos rfl, lst_setSpan] at h
      simp only
      cases hres : mtNodes slots params input rest stop
          (czetCapLeaf (setSpan caps p ii stop) p ii stop) with
      | fault => trivial
      | fail caps' =>
          rw [hres] at h
          obtain ⟨hpass, left, hleft, -⟩ := h
          refine ⟨passNodes_of_none (by simpa [hone] using hpass), .leaf ii stop :: left,
            by simpa using hleft, ?_⟩
          rw [leavesCapture, if_neg (by simp [CzetRepNode.uses]), hone]
          simp [recordsEarly, hpar, hrep, hfixed]
      | ok k caps' =>
          rw [hres] at h
          obtain ⟨hpass, added, hadded, hlen, hclean⟩ := h
          have hfind : (alternatives slots params input (.cap p) ii).find?
            (passes slots params input rest) =
              some ([], stop) := by
            rw [hone]
            simp [passes, hpass]
          have hforest : acceptedForest slots params input p (.cap p :: rest) ii =
              .leaf ii stop :: acceptedForest slots params input p rest stop := by
            rw [acceptedForest_of_find hfind, acceptedNode, nodeForest, if_pos ⟨rfl, hisrep⟩]
            rfl
          refine ⟨passNodes_of_find hfind hpass, .leaf ii stop :: added, by simpa using hadded,
            ?_, ?_⟩
          · rw [hforest]
            simpa using hlen
          · rw [hforest, List.cons.injEq, hclean, cleanNodes_of_find hfind, hone]
            simp [recordsLate, hpar, hfixed, hpass, cleanNode]

private theorem lateCap_outcome {rest : List CzetRepNode}
    (hrest : ∀ j caps, Outcome slots params input p rest j (lst caps p)
      (mtNodes slots params input rest j caps)) (hlevel : level p 0 rest) {par : CMacroParam}
    (hpar : params[p]? = some par) (hrep : par.isRepeat = true)
    (hrun : isFixedKind par.kind = false) (ii : Nat) (caps : Captures) :
    Outcome slots params input p (.cap p :: rest) ii (lst caps p)
      (mtNode slots params input (.cap p) (mtNodes slots params input rest) ii caps) := by
  have hisrep : isRepeated params p = true := by simp [isRepeated, hpar, hrep]
  have halts : alternatives slots params input (.cap p) ii =
      (runCuts (commaBounded par.kind) input ii).map fun stop => ([], stop) := by
    simp [alternatives, nodeCuts, hpar, hrun]
  have h := tryCuts_loop hrest p par.isRepeat ii (runCuts (commaBounded par.kind) input ii) caps
  rw [← halts] at h
  rw [mtNode]
  simp only [hpar, hrun, Bool.false_eq_true, if_false]
  cases hres : tryCuts (mtNodes slots params input rest) p par.isRepeat ii
      (runCuts (commaBounded par.kind) input ii) caps with
  | fault => trivial
  | fail caps' =>
      rw [hres] at h
      obtain ⟨hpass, left, hleft, hnil⟩ := h
      refine ⟨passNodes_of_none hpass, left, hleft, ?_⟩
      rw [hnil, leavesCapture, if_neg (by simp [CzetRepNode.uses]), List.any_eq_false]
      simp [recordsEarly, hpar, hrun]
  | ok k caps' =>
      rw [hres] at h
      obtain ⟨a, hfind, hpass, left, added, hlst, hnil, hlen, hclean⟩ := h
      simp only [hrep, and_self, if_true] at hlst
      have hlt : ii < a.2 := by
        have hmem := List.mem_of_find?_eq_some hfind
        rw [alternatives] at hmem
        obtain ⟨stop, hstop, rfl⟩ := List.mem_map.mp hmem
        exact lt_of_mem_nodeCuts hstop
      have hforest : acceptedForest slots params input p (.cap p :: rest) ii =
          .leaf ii a.2 :: acceptedForest slots params input p rest a.2 := by
        rw [acceptedForest_of_find hfind, acceptedNode, nodeForest, if_pos ⟨rfl, hisrep⟩]
        rfl
      have hlate : recordsLate params p (.cap p) = true := by
        simp [recordsLate, hpar, hrep, hrun]
      refine ⟨passNodes_of_find hfind hpass, left ++ (added ++ [.leaf ii a.2]), hlst, ?_, ?_⟩
      · rw [hforest]
        simp only [List.length_cons, List.length_append, List.length_nil]
        omega
      · rw [hforest, cleanNodes_of_find hfind, hlate, Bool.true_and]
        obtain ⟨hleaf, hne⟩ := acceptedForest_leaf hlevel hpass
        cases hnamed : namedHere p rest with
        | true =>
            simp only [Bool.true_eq_false, false_and, and_false, iff_false]
            intro heq
            -- the last leaf on the left starts at `ii`, the last one on the right behind it
            obtain hnil' | ⟨init, x, hx⟩ :=
              List.eq_nil_or_concat (acceptedForest slots params input p rest a.2)
            · exact hne hisrep hnamed hnil'
            · rw [List.concat_eq_append] at hx
              rw [hx, ← List.append_assoc, ← List.cons_append] at heq
              obtain ⟨start, stop, rfl, hstart⟩ := hleaf x (by simp [hx])
              have hlast := List.append_inj_right' heq rfl
              simp only [List.cons.injEq, CzetCapNode.leaf.injEq] at hlast
              omega
        | false =>
            have hnone : acceptedForest slots params input p rest a.2 = [] :=
              captureForest_of_not_mentioned hlevel (mentions_of_level_zero hlevel hnamed) _
            rw [hnone] at hclean
            have hiff : left ++ (added ++ [.leaf ii a.2]) = [.leaf ii a.2] ↔
                left = [] ∧ added = [] := by
              rw [← List.append_assoc]
              constructor
              · intro heq
                have := congrArg List.length heq
                simp only [List.length_append, List.length_singleton] at this
                exact ⟨List.length_eq_zero_iff.mp (by omega), List.length_eq_zero_iff.mp (by omega)⟩
              · rintro ⟨rfl, rfl⟩
                rfl
            rw [hnone, hiff, hnil, hclean]
            simp [cleanNode, CzetRepNode.uses]

private theorem outcome_not_mentioned {nodes : List CzetRepNode} {d : Nat}
    (hlevel : level p d nodes) (hmen : mentions p nodes = false) {ii : Nat}
    {l : List CzetCapNode} {r : MtResult} (h : Outcome slots params input p nodes ii l r) :
    (∀ caps, r = .fail caps → lst caps p = l) ∧ ∀ k caps, r = .ok k caps → lst caps p = l := by
  constructor
  · rintro caps rfl
    obtain ⟨-, left, hleft, hnil⟩ := h
    rw [hleft, hnil.mpr (leavesCapture_of_not_mentioned hlevel hmen ii), List.append_nil]
  · rintro k caps rfl
    obtain ⟨-, added, hadded, -, hclean⟩ := h
    rw [hadded, hclean.mpr (cleanNodes_of_not_mentioned hlevel hmen ii), acceptedForest,
      captureForest_of_not_mentioned hlevel hmen, List.append_nil]

/-- The node recorded for an iteration of `kids` that starts at `it.1`. -/
def IterNode (slots : Nat) (params : List CMacroParam) (input : List CToken) (p : Nat)
    (kids : List CzetRepNode) (it : Nat × Nat) (x : CzetCapNode) : Prop :=
  ∃ added, x = .node added ∧ (added = acceptedForest slots params input p kids it.1 ↔
    cleanNodes slots params input p kids it.1 = true)

theorem lst_popIter (uses : List Nat) (outer caps : Captures) :
    lst (popIter uses outer caps) p =
      if p ∈ uses then lst outer p ++ [.node (lst caps p)] else lst caps p :=
  lst_setLists uses _ caps p

theorem lst_wrapIter (uses : List Nat) (caps : Captures) :
    lst (wrapIter uses caps) p = if p ∈ uses then [] else lst caps p :=
  lst_setLists uses _ caps p

theorem lst_restoreLen (uses : List Nat) (savedLen : Nat → Nat) (t : Nat)
    (outer caps : Captures) : lst (restoreLen uses savedLen t outer caps) p =
      if p ∈ uses then (lst outer p).take (savedLen p + t) else lst caps p :=
  lst_setLists uses _ caps p

private theorem iterate_last {kids : List CzetRepNode} {d : Nat} (hlevel : level p d kids)
    {uses : List Nat} (huses : p ∈ uses ↔ mentions p kids = true)
    (hkids : ∀ j caps, Outcome slots params input p kids j (lst caps p)
      (mtNodes slots params input kids j caps)) {savedLen : Nat → Nat} {t probe : Nat}
    {caps caps' : Captures} (hlen : p ∈ uses → (lst caps p).length = savedLen p + t)
    (hres : mtNodes slots params input kids probe (wrapIter uses caps) = .fail caps') :
    lst (restoreLen uses savedLen t caps caps') p = lst caps p := by
  rw [lst_restoreLen]
  split
  · rename_i hmem
    rw [List.take_of_length_le]
    rw [hlen hmem]
  · rename_i hmem
    have h := hkids probe (wrapIter uses caps)
    rw [lst_wrapIter, if_neg hmem] at h
    have hmen : mentions p kids = false := by
      rw [← Bool.not_eq_true, ← huses]
      exact hmem
    exact (outcome_not_mentioned hlevel hmen h).1 caps' hres

private theorem iterate_done {kids : List CzetRepNode} {uses posAfter pos : List Nat}
    {caps c caps' : Captures} (hc : lst c p = lst caps p)
    (heq : some (posAfter, c) = some (pos, caps')) :
    pos = posAfter ++ ([] : List (Nat × Nat)).map Prod.snd ∧
    (p ∉ uses → lst caps' p = lst caps p) ∧
    (p ∈ uses → ∃ nodes, lst caps' p = lst caps p ++ nodes ∧
      List.Forall₂ (IterNode slots params input p kids) [] nodes) := by
  cases heq
  exact ⟨by simp, fun _ => hc, fun _ => ⟨[], by simp [hc], .nil⟩⟩

theorem iterate_outcome {kids : List CzetRepNode} {d : Nat} (hlevel : level p d kids)
    {uses : List Nat} (huses : p ∈ uses ↔ mentions p kids = true)
    (hkids : ∀ j caps, Outcome slots params input p kids j (lst caps p)
      (mtNodes slots params input kids j caps)) (sep : Option CToken) (savedLen : Nat → Nat)
    (room : Nat) (posAfter : List Nat) (cur : Nat) (needSep : Bool) (caps : Captures)
    (hlen : p ∈ uses → (lst caps p).length = savedLen p + (posAfter.length - 1))
    (hpos : posAfter ≠ []) {posAfter' : List Nat} {caps' : Captures}
    (h : iterate (mtNodes slots params input kids) input sep uses savedLen room posAfter cur needSep
      caps = some (posAfter', caps')) :
    posAfter' = posAfter ++
      (iterations (passNodes slots params input kids) input sep room cur needSep).map Prod.snd ∧
    (p ∉ uses → lst caps' p = lst caps p) ∧
    (p ∈ uses → ∃ nodes, lst caps' p = lst caps p ++ nodes ∧
      List.Forall₂ (IterNode slots params input p kids)
        (iterations (passNodes slots params input kids) input sep room cur needSep) nodes) := by
  induction room generalizing posAfter cur needSep caps with
  | zero =>
      rw [iterate] at h
      rw [iterations]
      cases hprobe : iterProbe input sep needSep cur with
      | none => exact iterate_done rfl (by simpa [hprobe] using h)
      | some probe =>
          cases hres : mtNodes slots params input kids probe (wrapIter uses caps) with
          | fault => simp [hprobe, hres] at h
          | ok stop caps'' => simp [hprobe, hres] at h
          | fail caps'' =>
              simp only [hprobe, hres] at h
              exact iterate_done (iterate_last hlevel huses hkids hlen hres) h
  | succ room ih =>
      rw [iterate] at h
      rw [iterations]
      cases hprobe : iterProbe input sep needSep cur with
      | none => exact iterate_done rfl (by simpa [hprobe] using h)
      | some probe =>
          have hout := hkids probe (wrapIter uses caps)
          cases hres : mtNodes slots params input kids probe (wrapIter uses caps) with
          | fault => simp [hprobe, hres] at h
          | fail caps'' =>
              simp only [hprobe, hres] at h
              rw [hres] at hout
              simp only [hout.1]
              exact iterate_done (iterate_last hlevel huses hkids hlen hres) h
          | ok stop caps'' =>
              simp only [hprobe, hres] at h
              rw [hres] at hout
              simp only [hout.1]
              have hlen' : p ∈ uses → (lst (popIter uses caps caps'') p).length =
                  savedLen p + ((posAfter ++ [stop]).length - 1) := by
                intro hmem
                have hpos' := List.length_pos_of_ne_nil hpos
                have hlen := hlen hmem
                simp only [lst_popIter, if_pos hmem, List.length_append, List.length_singleton]
                omega
              obtain ⟨hposs, hout', hin⟩ := ih (posAfter ++ [stop]) stop sep.isSome
                (popIter uses caps caps'') hlen' (by simp) h
              refine ⟨by simp [hposs], ?_, ?_⟩
              · intro hmem
                have hmen : mentions p kids = false := by
                  rw [← Bool.not_eq_true, ← huses]
                  exact hmem
                rw [hout' hmem, lst_popIter, if_neg hmem,
                  (outcome_not_mentioned hlevel hmen hout).2 stop caps'' rfl, lst_wrapIter,
                  if_neg hmem]
              · intro hmem
                obtain ⟨nodes, hnodes, hrel⟩ := hin hmem
                obtain ⟨-, added, hadded, -, hclean⟩ := hout
                rw [lst_wrapIter, if_pos hmem, List.nil_append] at hadded
                refine ⟨.node added :: nodes, ?_, .cons ⟨added, rfl, hclean⟩ hrel⟩
                rw [hnodes, lst_popIter, if_pos hmem, hadded]
                simp

private theorem backtrack_loop {rest : List CzetRepNode}
    (hrest : ∀ j caps, Outcome slots params input p rest j (lst caps p)
      (mtNodes slots params input rest j caps)) {uses : List Nat} (huses : p ∉ uses)
    (savedLen : Nat → Nat) (ii : Nat) (its : List (Nat × Nat)) (ts : List Nat)
    (caps : Captures) :
    LoopOutcome slots params input p (fun _ => []) (ts.map (keepIters ii its)) rest (lst caps p)
      (backtrack (mtNodes slots params input rest) uses savedLen (ii :: its.map Prod.snd) ts
        caps) := by
  induction ts generalizing caps with
  | nil => exact loopOutcome_nil caps
  | cons t ts ih =>
      have h := hrest ((ii :: its.map Prod.snd).getD t 0) (restoreLen uses savedLen t caps caps)
      rw [lst_restoreLen, if_neg huses] at h
      rw [backtrack, List.map_cons]
      cases hres : mtNodes slots params input rest ((ii :: its.map Prod.snd).getD t 0)
          (restoreLen uses savedLen t caps caps) with
      | fault => trivial
      | fail caps' =>
          rw [hres] at h
          exact loopOutcome_fail h (ih caps')
      | ok stop caps' =>
          rw [hres] at h
          exact loopOutcome_ok h (by simp)

private def TruncatedOutcome (slots : Nat) (params : List CMacroParam) (input : List CToken) (p : Nat)
    (ii : Nat) (its : List (Nat × Nat)) (ts : List Nat) (rest : List CzetRepNode)
    (l nodes start : List CzetCapNode) : MtResult → Prop
  | .fault => True
  | .fail caps => (∀ t ∈ ts, passNodes slots params input rest (keepIters ii its t).2 = none) ∧
      match ts.getLast? with
      | none => lst caps p = start
      | some t => ∃ left, lst caps p = l ++ (nodes.take t ++ left) ∧
          (left = [] ↔ leavesCapture slots params input p rest (keepIters ii its t).2 = false)
  | .ok stop caps => ∃ t,
      ts.find? (fun t => passes slots params input rest (keepIters ii its t)) = some t ∧
      passNodes slots params input rest (keepIters ii its t).2 = some stop ∧
      ∃ added, lst caps p = l ++ (nodes.take t ++ added) ∧
        (acceptedForest slots params input p rest (keepIters ii its t).2).length ≤ added.length ∧
        (added = acceptedForest slots params input p rest (keepIters ii its t).2 ↔
          cleanNodes slots params input p rest (keepIters ii its t).2 = true)

private theorem truncatedOutcome_cons {ii t : Nat} {its : List (Nat × Nat)} {ts : List Nat}
    {rest : List CzetRepNode} {l nodes start start' : List CzetCapNode} {r : MtResult}
    (hts : ts ≠ []) (hpass : passNodes slots params input rest (keepIters ii its t).2 = none)
    (h : TruncatedOutcome slots params input p ii its ts rest l nodes start r) :
    TruncatedOutcome slots params input p ii its (t :: ts) rest l nodes start' r := by
  cases r with
  | fault => trivial
  | ok stop caps =>
      obtain ⟨t', hfind, hrest⟩ := h
      refine ⟨t', ?_, hrest⟩
      rw [List.find?_cons_of_neg, hfind]
      simp [passes, hpass]
  | fail caps =>
      obtain ⟨hpass', hlast⟩ := h
      refine ⟨List.forall_mem_cons.mpr ⟨hpass, hpass'⟩, ?_⟩
      cases ts with
      | nil => exact absurd rfl hts
      | cons t' ts =>
          rw [List.getLast?_cons_cons]
          exact hlast

private theorem truncatedOutcome_ok {ii t : Nat} {its : List (Nat × Nat)} {ts : List Nat}
    {rest : List CzetRepNode} {l nodes start : List CzetCapNode} {stop : Nat} {caps : Captures}
    (h : Outcome slots params input p rest (keepIters ii its t).2 (l ++ nodes.take t)
      (.ok stop caps)) :
    TruncatedOutcome slots params input p ii its (t :: ts) rest l nodes start (.ok stop caps) := by
  obtain ⟨hpass, added, hadded, hlen, hclean⟩ := h
  refine ⟨t, ?_, hpass, added, by simpa using hadded, hlen, hclean⟩
  rw [List.find?_cons_of_pos]
  simp [passes, hpass]

private theorem backtrack_truncated {rest : List CzetRepNode}
    (hrest : ∀ j caps, Outcome slots params input p rest j (lst caps p)
      (mtNodes slots params input rest j caps)) {uses : List Nat} (huses : p ∈ uses)
    (savedLen : Nat → Nat) (ii : Nat) (its : List (Nat × Nat)) {l nodes : List CzetCapNode}
    (hsaved : savedLen p = l.length) (ts : List Nat) (hts : ts.Pairwise (· > ·))
    (hle : ∀ t ∈ ts, t ≤ nodes.length) (caps : Captures)
    (hcaps : ∀ t ∈ ts, (lst caps p).take (savedLen p + t) = l ++ nodes.take t) :
    TruncatedOutcome slots params input p ii its ts rest l nodes (lst caps p)
      (backtrack (mtNodes slots params input rest) uses savedLen (ii :: its.map Prod.snd) ts
        caps) := by
  induction ts generalizing caps with
  | nil => exact ⟨by simp, rfl⟩
  | cons t ts ih =>
      have h := hrest ((ii :: its.map Prod.snd).getD t 0) (restoreLen uses savedLen t caps caps)
      rw [lst_restoreLen, if_pos huses, hcaps t List.mem_cons_self] at h
      rw [backtrack]
      cases hres : mtNodes slots params input rest ((ii :: its.map Prod.snd).getD t 0)
          (restoreLen uses savedLen t caps caps) with
      | fault => trivial
      | ok stop caps' =>
          rw [hres] at h
          exact truncatedOutcome_ok h
      | fail caps' =>
          rw [hres] at h
          obtain ⟨hpass, left, hleft, hnil⟩ := h
          have htake : ∀ t' ∈ ts, (lst caps' p).take (savedLen p + t') = l ++ nodes.take t' := by
            intro t' ht'
            have hlt : t' < t := List.rel_of_pairwise_cons hts ht'
            have hlen := hle t List.mem_cons_self
            rw [hleft, hsaved, List.append_assoc, List.take_append, List.take_of_length_le (by omega),
              Nat.add_sub_cancel_left, List.take_append_of_le_length, List.take_take,
              Nat.min_eq_left (by omega)]
            rw [List.length_take]
            omega
          have hrec := ih hts.of_cons (fun t' ht' => hle t' (List.mem_cons_of_mem _ ht')) caps' htake
          cases ts with
          | nil => exact ⟨List.forall_mem_singleton.mpr hpass, left, by simpa using hleft, hnil⟩
          | cons t' ts => exact truncatedOutcome_cons (by simp) hpass hrec

private theorem countsDown_descending (minIt m : Nat) : (countsDown minIt m).Pairwise (· > ·) :=
  List.pairwise_reverse.mpr (List.pairwise_lt_range' (s := minIt))

private theorem countsDown_getLast? (minIt m : Nat) :
    (countsDown minIt m).getLast? = if minIt ≤ m then some minIt else none := by
  rw [countsDown, List.getLast?_reverse, List.head?_range']
  by_cases h : minIt ≤ m
  · rw [if_pos h, if_neg (by omega)]
  · rw [if_neg h, if_pos (by omega)]

private theorem iterNodes_take_eq_iff {kids : List CzetRepNode} {its : List (Nat × Nat)}
    {nodes : List CzetCapNode} (h : List.Forall₂ (IterNode slots params input p kids) its nodes)
    (t : Nat) :
    nodes.take t = ((its.take t).map Prod.fst).map
        (fun start => .node (acceptedForest slots params input p kids start)) ↔
      ((its.take t).map Prod.fst).all (cleanNodes slots params input p kids) = true := by
  induction h generalizing t with
  | nil => simp
  | cons hnode _ ih =>
      obtain ⟨added, rfl, hclean⟩ := hnode
      cases t with
      | zero => simp
      | succ t =>
          simp only [List.take_succ_cons, List.map_cons, List.all_cons, Bool.and_eq_true,
            List.cons.injEq, CzetCapNode.node.injEq, hclean, ih]

theorem nodeForest_rep {kids : List CzetRepNode} {mod : RepMod} {sep : Option CToken}
    {uses : List Nat} (huses : p ∈ uses) (ii : Nat) (a : Alternative) :
    nodeForest params p (.rep kids mod sep uses)
        (acceptedNode slots params input (.rep kids mod sep uses) ii a) =
      a.1.map fun start => .node (acceptedForest slots params input p kids start) := by
  rw [acceptedNode, nodeForest, if_pos huses, List.map_map]
  rfl

private theorem silentRep_outcome {kids rest : List CzetRepNode} {mod : RepMod}
    {sep : Option CToken} {uses : List Nat} (huses : p ∉ uses) {ii : Nat}
    {l : List CzetCapNode} {r : MtResult}
    (h : LoopOutcome slots params input p (fun _ => [])
      (alternatives slots params input (.rep kids mod sep uses) ii) rest l r) :
    Outcome slots params input p (.rep kids mod sep uses :: rest) ii l r := by
  refine outcome_of_loop huses rfl rfl (fun a => ?_) (fun a => ?_) h
  · simp [cleanNode, huses]
  · rw [acceptedNode, nodeForest, if_neg huses]

private theorem usedRep_outcome {kids rest : List CzetRepNode} {mod : RepMod}
    {sep : Option CToken} {uses : List Nat} (huses : p ∈ uses) {ii : Nat}
    (its : List (Nat × Nat)) (minIt : Nat) (hmin : minIt = if mod = .plus then 1 else 0)
    (halts : alternatives slots params input (.rep kids mod sep uses) ii =
      (countsDown minIt its.length).map (keepIters ii its))
    {l nodes start : List CzetCapNode} (hstart : start = l ++ nodes)
    (hnodes : List.Forall₂ (IterNode slots params input p kids) its nodes) {r : MtResult}
    (h : TruncatedOutcome slots params input p ii its (countsDown minIt its.length) rest l nodes
      start r) :
    Outcome slots params input p (.rep kids mod sep uses :: rest) ii l r := by
  have hlength : its.length = nodes.length := hnodes.length_eq
  have huses' : p ∈ (CzetRepNode.rep kids mod sep uses).uses := huses
  cases r with
  | fault => trivial
  | fail caps =>
      obtain ⟨hpass, hlast⟩ := h
      have hnone : passNodes slots params input (.rep kids mod sep uses :: rest) ii = none := by
        refine passNodes_of_none ?_
        intro a ha
        rw [halts] at ha
        obtain ⟨t, ht, rfl⟩ := List.mem_map.mp ha
        exact hpass t ht
      rw [countsDown_getLast?] at hlast
      by_cases hle : minIt ≤ its.length
      · rw [if_pos hle] at hlast
        obtain ⟨left, hleft, hnil⟩ := hlast
        refine ⟨hnone, nodes.take minIt ++ left, hleft, ?_⟩
        rw [leavesCapture, if_pos huses', halts, List.getLast?_map, countsDown_getLast?, if_pos hle]
        simp only [Option.map_some, Bool.or_eq_false_iff, List.append_eq_nil_iff, hnil,
          List.take_eq_nil_iff]
        refine and_congr_left fun _ => ?_
        rw [hmin] at hle ⊢
        split at hle
        · rename_i hplus
          have hne : nodes ≠ [] := List.ne_nil_of_length_pos (by omega)
          simp [CzetRepNode.isPlus, hplus, hne]
        · rename_i hplus
          simp [CzetRepNode.isPlus, hplus]
      · rw [if_neg hle] at hlast
        have hnil : nodes = [] := by
          rw [hmin] at hle
          split at hle <;> exact List.length_eq_zero_iff.mp (by omega)
        refine ⟨hnone, [], by rw [hlast, hstart, hnil], ?_⟩
        rw [leavesCapture, if_pos huses', halts, List.getLast?_map, countsDown_getLast?, if_neg hle]
        simp
  | ok stop caps =>
      obtain ⟨t, hfindt, hpass, added, hadded, hlen, hclean⟩ := h
      have hfind : (alternatives slots params input (.rep kids mod sep uses) ii).find?
          (passes slots params input rest) = some (keepIters ii its t) := by
        rw [halts, List.find?_map]
        simp only [Function.comp_def, hfindt, Option.map_some]
      have hforest := acceptedForest_of_find (p := p) hfind
      rw [nodeForest_rep huses] at hforest
      have hcount : (nodes.take t).length =
          ((keepIters ii its t).1.map fun start =>
            CzetCapNode.node (acceptedForest slots params input p kids start)).length := by
        simp [keepIters, hlength]
      refine ⟨passNodes_of_find hfind hpass, nodes.take t ++ added, hadded, ?_, ?_⟩
      · rw [hforest, List.length_append, List.length_append, hcount]
        omega
      · rw [hforest, cleanNodes_of_find hfind]
        have hsplit : ∀ {a b c e : List CzetCapNode}, a.length = c.length →
            (a ++ b = c ++ e ↔ a = c ∧ b = e) := by
          intro a b c e hlen
          exact ⟨fun h => List.append_inj h hlen, fun h => by rw [h.1, h.2]⟩
        rw [hsplit hcount, hclean]
        have hiter := iterNodes_take_eq_iff hnodes t
        simp only [keepIters] at hiter ⊢
        rw [hiter]
        simp [cleanNode, huses, recordsLate, CzetRepNode.uses]

/-- The captures once every parameter of a group has a list. -/
def withLists (uses : List Nat) (caps : Captures) : Captures :=
  setLists uses (fun p => czetCapTop (caps p)) caps

/-- `saved_len` of every parameter. -/
def lengths (caps : Captures) : Nat → Nat := fun p => (czetCapTop (caps p)).length

theorem lst_withLists (uses : List Nat) (caps : Captures) :
    lst (withLists uses caps) p = lst caps p := by
  rw [withLists, lst_setLists]
  split <;> rfl

theorem mtNode_many {kids : List CzetRepNode} {mod : RepMod} (hmod : mod ≠ .query)
    {sep : Option CToken} {uses : List Nat} {rest : Nat → Captures → MtResult} {ii : Nat}
    {caps : Captures} :
    mtNode slots params input (.rep kids mod sep uses) rest ii caps =
      match iterate (mtNodes slots params input kids) input sep uses
        (lengths (withLists uses caps)) slots [ii] ii false (withLists uses caps) with
      | none => .fault
      | some (posAfter, caps₁) =>
          backtrack rest uses (lengths (withLists uses caps)) posAfter
            (countsDown (minIter mod) (posAfter.length - 1)) caps₁ := by
  cases mod with
  | query => exact absurd rfl hmod
  | star =>
      rw [mtNode]
      · rfl
      · simp
  | plus =>
      rw [mtNode]
      · rfl
      · simp

private theorem many_outcome {kids rest : List CzetRepNode} {d : Nat}
    (hlevel : level p d kids) {uses : List Nat} (huses : p ∈ uses ↔ mentions p kids = true)
    (hkids : ∀ j caps, Outcome slots params input p kids j (lst caps p)
      (mtNodes slots params input kids j caps))
    (hrest : ∀ j caps, Outcome slots params input p rest j (lst caps p)
      (mtNodes slots params input rest j caps)) {mod : RepMod} (hmod : mod ≠ .query)
    (sep : Option CToken) (ii : Nat) (caps : Captures) :
    Outcome slots params input p (.rep kids mod sep uses :: rest) ii (lst caps p)
      (mtNode slots params input (.rep kids mod sep uses) (mtNodes slots params input rest) ii
        caps) := by
  rw [mtNode_many hmod]
  have hlst : lst (withLists uses caps) p = lst caps p := lst_withLists uses caps
  have hsaved : lengths (withLists uses caps) p = (lst caps p).length := by rw [← hlst]; rfl
  cases hit : iterate (mtNodes slots params input kids) input sep uses
    (lengths (withLists uses caps)) slots [ii] ii false (withLists uses caps) with
  | none => trivial
  | some r =>
      obtain ⟨posAfter, caps₁⟩ := r
      obtain ⟨rfl, hout, hin⟩ := iterate_outcome hlevel huses hkids sep
        (lengths (withLists uses caps)) slots [ii] ii false (withLists uses caps)
        (fun _ => by rw [hsaved, hlst]; simp) (by simp) hit
      simp only [List.singleton_append, List.length_cons, List.length_map, Nat.add_sub_cancel]
      by_cases hmem : p ∈ uses
      · obtain ⟨nodes, hnodes, hrel⟩ := hin hmem
        refine usedRep_outcome hmem _ (minIter mod) rfl (alternatives_many hmod) rfl hrel ?_
        rw [hlst] at hnodes
        rw [← hnodes]
        refine backtrack_truncated hrest hmem _ ii _ hsaved _ (countsDown_descending _ _) ?_ caps₁ ?_
        · intro t ht
          rw [← hrel.length_eq]
          exact (mem_countsDown.mp ht).2
        · intro t ht
          rw [hnodes, hsaved, List.take_append, List.take_of_length_le (by omega),
            Nat.add_sub_cancel_left]
      · refine silentRep_outcome hmem ?_
        rw [alternatives_many hmod, ← hlst, ← hout hmem]
        exact backtrack_loop hrest hmem _ ii _ _ caps₁

theorem mtNode_query {kids : List CzetRepNode} {sep : Option CToken} {uses : List Nat}
    {rest : Nat → Captures → MtResult} {ii : Nat} {caps : Captures} :
    mtNode slots params input (.rep kids .query sep uses) rest ii caps =
      match mtNodes slots params input kids ii (wrapIter uses (withLists uses caps)) with
      | .fault => .fault
      | .ok probe caps' =>
          match rest probe (popIter uses (withLists uses caps) caps') with
          | .fault => .fault
          | .ok after caps'' => .ok after caps''
          | .fail caps'' => rest ii (restoreLen uses (lengths (withLists uses caps)) 0 caps'' caps'')
      | .fail caps' =>
          rest ii (restoreLen uses (lengths (withLists uses caps)) 0 (withLists uses caps)
            caps') := by
  rw [mtNode]
  rfl

private theorem query_none {rest : List CzetRepNode}
    (hrest : ∀ j caps, Outcome slots params input p rest j (lst caps p)
      (mtNodes slots params input rest j caps)) {ii : Nat} {its : List (Nat × Nat)}
    {l nodes : List CzetCapNode} (start : List CzetCapNode) {caps : Captures}
    (hcaps : lst caps p = l) :
    TruncatedOutcome slots params input p ii its [0] rest l nodes start
      (mtNodes slots params input rest ii caps) := by
  have h := hrest ii caps
  have hzero : (keepIters ii its 0).2 = ii := rfl
  rw [hcaps] at h
  cases hres : mtNodes slots params input rest ii caps with
  | fault => trivial
  | fail caps' =>
      rw [hres] at h
      obtain ⟨hpass, left, hleft, hnil⟩ := h
      exact ⟨by simpa [hzero] using hpass, left, by simpa using hleft, hnil⟩
  | ok stop caps' =>
      rw [hres] at h
      obtain ⟨hpass, added, hadded, hlen, hclean⟩ := h
      exact ⟨0, by simp [passes, hzero, hpass], hpass, added, by simpa using hadded, hlen, hclean⟩

private theorem query_outcome {kids rest : List CzetRepNode} {d : Nat}
    (hlevel : level p d kids) {uses : List Nat} (huses : p ∈ uses ↔ mentions p kids = true)
    (hkids : ∀ j caps, Outcome slots params input p kids j (lst caps p)
      (mtNodes slots params input kids j caps))
    (hrest : ∀ j caps, Outcome slots params input p rest j (lst caps p)
      (mtNodes slots params input rest j caps)) (sep : Option CToken) (ii : Nat) (caps : Captures) :
    Outcome slots params input p (.rep kids .query sep uses :: rest) ii (lst caps p)
      (mtNode slots params input (.rep kids .query sep uses) (mtNodes slots params input rest) ii
        caps) := by
  rw [mtNode_query]
  have hlst : lst (withLists uses caps) p = lst caps p := lst_withLists uses caps
  have hsaved : lengths (withLists uses caps) p = (lst caps p).length := by rw [← hlst]; rfl
  have hout := hkids ii (wrapIter uses (withLists uses caps))
  rw [lst_wrapIter, hlst] at hout
  have hframe : p ∉ uses → mentions p kids = false := by
    intro hmem
    rw [← Bool.not_eq_true, ← huses]
    exact hmem
  cases hres : mtNodes slots params input kids ii (wrapIter uses (withLists uses caps)) with
  | fault => trivial
  | fail caps' =>
      rw [hres] at hout
      have halts : alternatives slots params input (.rep kids .query sep uses) ii = [([], ii)] := by
        rw [alternatives, hout.1]
      simp only
      by_cases hmem : p ∈ uses
      · refine usedRep_outcome hmem [] 0 rfl halts (List.append_nil _).symm .nil ?_
        refine query_none hrest _ ?_
        rw [lst_restoreLen, if_pos hmem, hlst, hsaved, List.take_of_length_le (by omega)]
      · refine silentRep_outcome hmem ?_
        rw [halts]
        refine loopOutcome_one ?_
        have h := hrest ii (restoreLen uses (lengths (withLists uses caps)) 0
          (withLists uses caps) caps')
        rw [if_neg hmem] at hout
        rwa [lst_restoreLen, if_neg hmem,
          (outcome_not_mentioned hlevel (hframe hmem) hout).1 caps' rfl] at h
  | ok probe caps' =>
      rw [hres] at hout
      have halts : alternatives slots params input (.rep kids .query sep uses) ii =
          [([ii], probe), ([], ii)] := by
        rw [alternatives, hout.1]
      have hpop := hrest probe (popIter uses (withLists uses caps) caps')
      rw [lst_popIter, hlst] at hpop
      simp only
      by_cases hmem : p ∈ uses
      · rw [if_pos hmem] at hout hpop
        obtain ⟨-, added, hadded, -, hclean⟩ := hout
        rw [List.nil_append] at hadded
        refine usedRep_outcome hmem [(ii, probe)] 0 rfl halts rfl
          (.cons ⟨added, rfl, hclean⟩ .nil) ?_
        change TruncatedOutcome slots params input p ii [(ii, probe)] [1, 0] rest (lst caps p)
          [.node added] _ _
        rw [hadded] at hpop
        cases hr : mtNodes slots params input rest probe
          (popIter uses (withLists uses caps) caps') with
        | fault => trivial
        | ok after caps'' =>
            rw [hr] at hpop
            exact truncatedOutcome_ok hpop
        | fail caps'' =>
            rw [hr] at hpop
            obtain ⟨hpass, left, hleft, -⟩ := hpop
            refine truncatedOutcome_cons (by simp) hpass (query_none hrest [] ?_)
            · rw [lst_restoreLen, if_pos hmem, hleft, hsaved, List.append_assoc, Nat.add_zero,
                List.take_left']
              rfl
      · refine silentRep_outcome hmem ?_
        rw [halts]
        rw [if_neg hmem] at hout hpop
        rw [(outcome_not_mentioned hlevel (hframe hmem) hout).2 probe caps' rfl] at hpop
        cases hr : mtNodes slots params input rest probe
          (popIter uses (withLists uses caps) caps') with
        | fault => trivial
        | ok after caps'' =>
            rw [hr] at hpop
            exact loopOutcome_ok hpop (by simp)
        | fail caps'' =>
            rw [hr] at hpop
            refine loopOutcome_fail hpop (loopOutcome_one ?_)
            have h := hrest ii (restoreLen uses (lengths (withLists uses caps)) 0 caps'' caps'')
            rwa [lst_restoreLen, if_neg hmem] at h

mutual

private theorem node_outcome : ∀ (n : CzetRepNode) {d : Nat}, levelNode p d n →
    ∀ {rest : List CzetRepNode}, level p d rest →
    (∀ j caps, Outcome slots params input p rest j (lst caps p)
      (mtNodes slots params input rest j caps)) →
    ∀ (ii : Nat) (caps : Captures), Outcome slots params input p (n :: rest) ii (lst caps p)
      (mtNode slots params input n (mtNodes slots params input rest) ii caps)
  | .tok t, _, _, _, _, hrest, ii, caps => tok_outcome hrest t ii caps
  | .cap q, d, hnode, rest, hlevel, hrest, ii, caps => by
      by_cases hq : q = p ∧ isRepeated params p = true
      · obtain ⟨rfl, hisrep⟩ := hq
        rw [levelNode] at hnode
        rw [hnode rfl] at hlevel
        cases hpar : params[q]? with
        | none => simp [isRepeated, hpar] at hisrep
        | some par =>
            have hrep : par.isRepeat = true := by simpa [isRepeated, hpar] using hisrep
            cases hfixed : isFixedKind par.kind with
            | true => exact earlyCap_outcome hrest hpar hrep hfixed ii caps
            | false => exact lateCap_outcome hrest hlevel hpar hrep hfixed ii caps
      · exact silentCap_outcome hrest hq ii caps
  | .rep kids mod sep uses, d, hnode, rest, _, hrest, ii, caps => by
      rw [levelNode] at hnode
      have hkids := nodes_outcome kids hnode.2.2
      cases mod with
      | query => exact query_outcome hnode.2.2 hnode.1 hkids hrest sep ii caps
      | star => exact many_outcome hnode.2.2 hnode.1 hkids hrest (by decide) sep ii caps
      | plus => exact many_outcome hnode.2.2 hnode.1 hkids hrest (by decide) sep ii caps

/-- What a call of `c_czet_mt_nodes` does to the captures of a parameter: a failure leaves
something behind exactly when `leavesCapture` says so, and a success appends the captures of
the accepted match exactly when it is clean. -/
theorem nodes_outcome : ∀ (nodes : List CzetRepNode) {d : Nat}, level p d nodes →
    ∀ (ii : Nat) (caps : Captures), Outcome slots params input p nodes ii (lst caps p)
      (mtNodes slots params input nodes ii caps)
  | [], _, _, ii, caps => by
      rw [mtNodes]
      refine ⟨by rw [passNodes], [], by simp, by simp [acceptedForest, captureForest], ?_⟩
      simp [acceptedForest, captureForest, cleanNodes]
  | n :: rest, d, hlevel, ii, caps => by
      rw [level] at hlevel
      rw [mtNodes]
      exact node_outcome n hlevel.1 hlevel.2 (nodes_outcome rest hlevel.2) ii caps

end

end Loop

end CZet
