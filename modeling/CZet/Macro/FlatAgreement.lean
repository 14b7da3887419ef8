/- source: src/gcc/gcc/c/c-parser.cc (c_czet_matcher, c_czet_build_expansion, c_czet_parse_tree,
     c_czet_matcher_tree, c_czet_build_expansion_tree)
   digest: On arms without repetition groups the flat and the tree implementation of macros give
     the same verdicts, captures and expansions. -/

import CZet.Macro.Expansion
import CZet.Macro.PatternTree
import CZet.Macro.SplitLanguage

set_option autoImplicit false
set_option relaxedAutoImplicit false

namespace CZet

open CZet.Lib.LongestFirst

/-- No parameter that the tokens name is declared with repetition syntax. -/
def SingleParams (params : List CMacroParam) (tokens : List CToken) : Prop :=
  ∀ t ∈ tokens, ∀ p, cCzetFindParam params t.identifierPointer = some p →
    ∀ par, params[p]? = some par → par.isRepeat = false

/-- The node that stands for one token outside of a group. -/
def flatNode (params : List CMacroParam) (t : CToken) : CzetRepNode :=
  if cCzetIsParamRef t then
    match cCzetFindParam params t.identifierPointer with
    | some p => .cap p
    | none => .tok t
  else .tok t

section Parse

private theorem bindRepDepth_single {params params' : List CMacroParam} {p rdep : Nat}
    {par : CMacroParam} {isPattern : Bool} (hpar : par.isRepeat = false)
    (h : bindRepDepth params p par rdep isPattern = .ok params') : params' = params := by
  unfold bindRepDepth at h
  simp only [hpar, Bool.and_false, Bool.false_and, Bool.not_false, Bool.true_and] at h
  split at h
  · cases ‹false = true›
  · split at h
    · cases h
    · cases h
      rfl

private theorem parseTreeFuel_flat {isPattern : Bool} {fuel rdep : Nat} {params : List CMacroParam}
    {tokens : List CToken} (hsingle : SingleParams params tokens) {tree : List CzetRepNode}
    {params' : List CMacroParam}
    (h : parseTreeFuel isPattern fuel rdep params tokens = .ok (tree, params'))
    (hfree : RepFree tree) :
    params' = params ∧ tree = tokens.map (flatNode params) ∧
      (isPattern = true → ∀ t ∈ tokens, cCzetIsParamRef t = true →
        (cCzetFindParam params t.identifierPointer).isSome) := by
  induction fuel generalizing tokens tree with
  | zero =>
      cases tokens with
      | nil =>
          rw [parseTreeFuel] at h
          cases h
          exact ⟨rfl, rfl, by simp⟩
      | cons t ts =>
          rw [parseTreeFuel] at h
          cases h
  | succ fuel ih =>
      cases tokens with
      | nil =>
          rw [parseTreeFuel] at h
          cases h
          exact ⟨rfl, rfl, by simp⟩
      | cons t ts =>
          unfold parseTreeFuel at h
          have hnode : ∀ more params₂, flatNode params t :: more = tree →
              parseTreeFuel isPattern fuel rdep params ts = .ok (more, params₂) →
              params₂ = params' → (isPattern = true → cCzetIsParamRef t = true →
                (cCzetFindParam params t.identifierPointer).isSome) →
              params' = params ∧ tree = (t :: ts).map (flatNode params) ∧
                (isPattern = true → ∀ t' ∈ t :: ts, cCzetIsParamRef t' = true →
                  (cCzetFindParam params t'.identifierPointer).isSome) := by
            rintro more params₂ rfl hmore rfl hdecl
            obtain ⟨hparams, rfl, hrest⟩ :=
              ih (fun t' ht' => hsingle t' (List.mem_cons_of_mem _ ht')) hmore
                fun n hn => hfree n (List.mem_cons_of_mem _ hn)
            refine ⟨hparams, rfl, ?_⟩
            intro hpat t' ht'
            rcases List.mem_cons.mp ht' with rfl | ht'
            · exact hdecl hpat
            · exact hrest hpat t' ht'
          split at h
          · -- a group would be a node of the tree
            split at h
            · cases h
            · split at h
              · cases h
              · split at h
                · cases h
                · obtain ⟨⟨kids, params₁⟩, -, h⟩ := bind_eq_ok h
                  simp only at h
                  split at h
                  · cases h
                  · split at h
                    · cases h
                    · obtain ⟨⟨more, params₂⟩, -, h⟩ := bind_eq_ok h
                      cases h
                      exact absurd (hfree _ List.mem_cons_self) (by simp [CzetRepNode.isRep])
          · split at h
            · rename_i href
              split at h
              · rename_i hfind
                split at h
                · cases h
                · rename_i hpat
                  obtain ⟨⟨more, params₂⟩, hmore, h⟩ := bind_eq_ok h
                  cases h
                  refine hnode more _ (by simp [flatNode, href, hfind]) hmore rfl ?_
                  exact fun h => absurd h hpat
              · rename_i p hfind
                split at h
                · cases h
                · rename_i par hpar
                  obtain ⟨params₁, hbind, h⟩ := bind_eq_ok h
                  obtain ⟨⟨more, params₂⟩, hmore, h⟩ := bind_eq_ok h
                  cases h
                  have hrep := hsingle t List.mem_cons_self p hfind par hpar
                  rw [bindRepDepth_single hrep hbind] at hmore
                  exact hnode more _ (by simp [flatNode, href, hfind]) hmore rfl (by simp [hfind])
            · rename_i href
              obtain ⟨⟨more, params₂⟩, hmore, h⟩ := bind_eq_ok h
              cases h
              refine hnode more _ (by simp [flatNode, href]) hmore rfl ?_
              exact fun _ h => absurd h href

end Parse

section Matching

variable {params : List CMacroParam} {input : List CToken}

private theorem scanMaxcut_eq_flatMaxcut {cb : Bool} {d : Int} {ts : List CToken}
    (hsemi : ∀ t ∈ ts, t.type ≠ .semicolon) : scanMaxcut cb d ts = flatMaxcut cb d ts := by
  induction ts generalizing d with
  | nil => rfl
  | cons t ts ih =>
      have ht : t.type ≠ .semicolon := hsemi t List.mem_cons_self
      rw [scanMaxcut, flatMaxcut, ih fun t ht => hsemi t (List.mem_cons_of_mem _ ht)]
      have hiff : (d + cCzetDelta t = 0 ∧ ((cb = true ∧ t.type = .comma) ∨ t.type = .semicolon)) ↔
          (cb = true ∧ d + cCzetDelta t = 0 ∧ t.type = .comma) := by
        simp only [ht, or_false]
        tauto
      simp only [hiff]

private theorem flatCuts_eq_runCuts (hsemi : ∀ t ∈ input, t.type ≠ .semicolon) (cb : Bool)
    (ii : Nat) : flatCuts cb input ii = runCuts cb input ii := by
  rw [flatCuts, runCuts,
    scanMaxcut_eq_flatMaxcut fun t ht => hsemi t (List.mem_of_mem_drop ht)]

private theorem map_findSome_ends (e : Nat) (found : Nat → Option (List Nat)) (cuts : List Nat) :
    (cuts.findSome? fun j => (found j).map fun js => j :: js).map (fun js => (js, e)) =
      cuts.findSome? fun j => ((found j).map fun js => (js, e)).map fun r => (j :: r.1, r.2) := by
  induction cuts with
  | nil => rfl
  | cons cut cuts ih =>
      simp only [List.findSome?_cons]
      cases found cut with
      | none => exact ih
      | some js => rfl

private theorem flatMatch_agrees (hsemi : ∀ t ∈ input, t.type ≠ .semicolon)
    (pattern : List CToken) (hsingle : SingleParams params pattern)
    (hdecl : ∀ t ∈ pattern, cCzetIsParamRef t = true →
      (cCzetFindParam params t.identifierPointer).isSome) (ii : Nat) (caps : Captures) :
    Agrees (pattern.map (flatNode params)) ii caps
      ((searchTo input.length ((pattern.map (flatNode params)).map (nodeCuts params input)) ii).map
        fun js => (js, input.length))
      (flatMatch params input pattern ii caps) := by
  induction pattern generalizing ii caps with
  | nil =>
      rw [flatMatch]
      simp only [List.map_nil, searchTo]
      split
      · rename_i hi
        refine ⟨hi.symm, fun _ _ => rfl, ?_⟩
        intro m p hp
        simp at hp
      · exact fun _ _ => rfl
  | cons t pattern ih =>
      have hrest := ih (fun t' ht' => hsingle t' (List.mem_cons_of_mem _ ht'))
        fun t' ht' => hdecl t' (List.mem_cons_of_mem _ ht')
      rw [flatMatch, List.map_cons, List.map_cons, searchTo, map_findSome_ends]
      split
      · rename_i href
        obtain ⟨p, hfind⟩ := Option.isSome_iff_exists.mp (hdecl t List.mem_cons_self href)
        have hnode : flatNode params t = .cap p := by simp [flatNode, href, hfind]
        rw [hfind, hnode, nodeCuts]
        simp only
        cases hpar : params[p]? with
        | none => exact fun _ _ => rfl
        | some par =>
            have hrep := hsingle t List.mem_cons_self p hfind par hpar
            simp only [hrep, Bool.not_false, Bool.and_true]
            split
            · rename_i hfixed
              cases matchFixed par.kind input ii with
              | none => exact fun _ _ => rfl
              | some stop =>
                  rw [Option.toList_some, List.findSome?_singleton]
                  refine agrees_cap ?_ ?_ (hrest stop _)
                  · rw [spanAt_setSpan, if_pos rfl]
                  · intro q hq
                    rw [spanAt_setSpan, if_neg hq]
            · rw [flatCuts_eq_runCuts hsemi]
              exact tryCuts_agrees (fun j caps => hrest j caps) p false ii _ caps
      · rename_i href
        have hnode : flatNode params t = .tok t := by simp [flatNode, href]
        rw [hnode, nodeCuts]
        cases input[ii]? with
        | none => exact fun _ _ => rfl
        | some itok =>
            by_cases heq : cCzetTokEq t itok = true
            · simp only [heq, if_true, List.findSome?_singleton]
              exact agrees_tok (hrest (ii + 1) caps)
            · simp only [heq]
              exact fun _ _ => rfl

/-- The end is tested inside the search by one matcher and behind it by the other. -/
private theorem searchTo_nodeCuts (tree : List CzetRepNode) (i : Nat) :
    searchTo input.length (tree.map (nodeCuts params input)) i =
      (search (tree.map (nodeCuts params input)) i).bind fun r =>
        if r.2 = input.length then some r.1 else none := by
  refine searchTo_eq_search (depthAt input) ?_ ?_ i
  · intro c hc
    obtain ⟨n, -, rfl⟩ := List.mem_map.mp hc
    exact nodeCuts_exchangeable params input n
  · intro c hc i j hj
    obtain ⟨n, -, rfl⟩ := List.mem_map.mp hc
    exact (mem_nodeCuts_iff.mp hj).2.1

private theorem matcher_search (hsemi : ∀ t ∈ input, t.type ≠ .semicolon)
    {pattern : List CToken} (hsingle : SingleParams params pattern)
    (hdecl : ∀ t ∈ pattern, cCzetIsParamRef t = true →
      (cCzetFindParam params t.identifierPointer).isSome) :
    (∃ js caps, search ((pattern.map (flatNode params)).map (nodeCuts params input)) 0 =
        some (js, input.length) ∧ cCzetMatcher params pattern input = some (some caps) ∧
      Recorded (pattern.map (flatNode params)) 0 js caps) ∨
    ((∀ js, search ((pattern.map (flatNode params)).map (nodeCuts params input)) 0 ≠
        some (js, input.length)) ∧ cCzetMatcher params pattern input = some none) := by
  have h := flatMatch_agrees hsemi pattern hsingle hdecl 0 noCaptures
  rw [searchTo_nodeCuts] at h
  rw [cCzetMatcher]
  generalize search ((pattern.map (flatNode params)).map (nodeCuts params input)) 0 = found at h ⊢
  have hfound : (∃ js, found = some (js, input.length)) ∨
      ∀ js, found ≠ some (js, input.length) := by
    by_cases hex : ∃ js, found = some (js, input.length)
    · exact .inl hex
    · exact .inr (not_exists.mp hex)
  rcases hfound with ⟨js, rfl⟩ | hnone
  · simp only [Option.bind_some, if_true, Option.map_some] at h
    cases hres : flatMatch params input pattern 0 noCaptures with
    | ok k caps =>
        rw [hres] at h
        exact .inl ⟨js, caps, rfl, rfl, h.2.2⟩
    | fault =>
        rw [hres] at h
        exact h.elim
    | fail caps =>
        rw [hres] at h
        exact h.elim
  · have hbind : (found.bind fun r => if r.2 = input.length then some r.1 else none) = none := by
      cases found with
      | none => rfl
      | some r =>
          have hr : r.2 ≠ input.length := fun heq => hnone r.1 (by rw [← heq])
          simp [hr]
    rw [hbind] at h
    refine .inr ⟨hnone, ?_⟩
    cases hres : flatMatch params input pattern 0 noCaptures with
    | fail caps => rfl
    | fault =>
        rw [hres] at h
        exact h.elim
    | ok k caps =>
        rw [hres] at h
        exact h.elim

private theorem last_occurrence {tree : List CzetRepNode} {n : CzetRepNode} (h : n ∈ tree) :
    ∃ m, tree[m]? = some n ∧ n ∉ tree.drop (m + 1) := by
  induction tree with
  | nil => cases h
  | cons a tree ih =>
      by_cases hmem : n ∈ tree
      · obtain ⟨m, hm, hlast⟩ := ih hmem
        exact ⟨m + 1, by simpa using hm, by simpa using hlast⟩
      · rcases List.mem_cons.mp h with rfl | h
        · exact ⟨0, rfl, by simpa using hmem⟩
        · exact absurd h hmem

private theorem recorded_unique {tree : List CzetRepNode} {ii : Nat} {js : List Nat}
    {caps caps' : Captures} (h : Recorded tree ii js caps) (h' : Recorded tree ii js caps')
    {p : Nat} (hp : .cap p ∈ tree) : spanAt caps p = spanAt caps' p := by
  obtain ⟨m, hm, hlast⟩ := last_occurrence hp
  obtain ⟨a, b, ha, hb, hspan⟩ := h m p hm hlast
  obtain ⟨a', b', ha', hb', hspan'⟩ := h' m p hm hlast
  rw [ha] at ha'
  rw [hb] at hb'
  cases ha'
  cases hb'
  rw [hspan, hspan']

end Matching

section Expanding

variable {params : List CMacroParam}

private theorem expandNode_flat {t : CToken} (hsingle : SingleParams params [t]) (caps : Captures)
    (args : List CToken) (depth : Nat) (st : ExpandState) :
    expandNode params caps args (flatNode params t) depth st =
      st.emit (cCzetBuildExpansion params [t] caps args) := by
  simp only [cCzetBuildExpansion, List.flatMap_singleton]
  by_cases href : cCzetIsParamRef t = true
  · cases hfind : cCzetFindParam params t.identifierPointer with
    | none =>
        simp only [flatNode, href, hfind, if_true]
        rw [expandNode]
    | some p =>
        obtain ⟨hlt, -⟩ := List.findIdx?_eq_some_iff_getElem.mp hfind
        have hrep := hsingle t List.mem_cons_self p hfind _ (List.getElem?_eq_getElem hlt)
        simp only [flatNode, href, hfind, if_true]
        rw [expandNode]
        simp [List.getElem?_eq_getElem hlt, hrep]
  · have hnode : flatNode params t = .tok t := by simp [flatNode, href]
    rw [hnode, expandNode]
    simp [href]

private theorem expandSeq_flat {expansion : List CToken} (hsingle : SingleParams params expansion)
    (caps : Captures) (args : List CToken) (depth : Nat) (st : ExpandState) :
    cCzetExpandSeq params caps args (expansion.map (flatNode params)) depth st =
      st.emit (cCzetBuildExpansion params expansion caps args) := by
  induction expansion generalizing st with
  | nil =>
      rw [List.map_nil, cCzetExpandSeq]
      simp [cCzetBuildExpansion, ExpandState.emit]
  | cons t expansion ih =>
      have hhead : SingleParams params [t] := by
        intro t' ht'
        obtain rfl := List.mem_singleton.mp ht'
        exact hsingle t' List.mem_cons_self
      rw [List.map_cons, cCzetExpandSeq, expandNode_flat hhead,
        ih fun t' ht' => hsingle t' (List.mem_cons_of_mem _ ht')]
      simp [cCzetBuildExpansion, ExpandState.emit]

end Expanding

/-- On an arm without repetition groups and an argument list without semicolons, the flat and
the tree matcher give the same verdict and the same spans, and equal captures expand to the same
marked tokens. -/
theorem flat_and_tree_agree (params params₁ params₂ : List CMacroParam)
    (pattern expansion input : List CToken) (patternTree expansionTree : List CzetRepNode)
    (hpattern : cCzetParseTree params pattern true = .ok (patternTree, params₁))
    (hexpansion : cCzetParseTree params₁ expansion false = .ok (expansionTree, params₂))
    (hfree : RepFree patternTree) (hfree' : RepFree expansionTree)
    (hsingle : SingleParams params (pattern ++ expansion))
    (hsemi : ∀ t ∈ input, t.type ≠ .semicolon) :
    (cCzetMatcher params₂ pattern input).map Option.isSome =
        (cCzetMatcherTree params₂ patternTree input).map Option.isSome ∧
      (∀ caps caps', cCzetMatcher params₂ pattern input = some (some caps) →
        cCzetMatcherTree params₂ patternTree input = some (some caps') →
        ∀ p, .cap p ∈ patternTree → spanAt caps p = spanAt caps' p) ∧
      ∀ caps args, cCzetBuildExpansionTree params₂ expansionTree caps args =
        (cCzetBuildExpansion params₂ expansion caps args, []) := by
  have hnamed : SingleParams params pattern :=
    fun t ht => hsingle t (List.mem_append_left expansion ht)
  have hused : SingleParams params expansion :=
    fun t ht => hsingle t (List.mem_append_right pattern ht)
  obtain ⟨rfl, rfl, hdecl⟩ := parseTreeFuel_flat hnamed hpattern hfree
  obtain ⟨rfl, rfl, -⟩ := parseTreeFuel_flat hused hexpansion hfree'
  have hflat := matcher_search hsemi hnamed (hdecl rfl)
  have htree := matcherTree_search params₂ input hfree
  refine ⟨?_, ?_, ?_⟩
  · rcases hflat with ⟨js, caps, hs, hm, -⟩ | ⟨hs, hm⟩ <;>
      rcases htree with ⟨js', caps', hs', hm', -⟩ | ⟨hs', hm'⟩
    · rw [hm, hm']
      rfl
    · exact absurd hs (hs' js)
    · exact absurd hs' (hs js')
    · rw [hm, hm']
  · intro caps caps' hm hm' p hp
    rcases hflat with ⟨js, caps₁, hs, hm₁, hrec⟩ | ⟨-, hm₁⟩
    · rcases htree with ⟨js', caps₂, hs', hm₂, hrec'⟩ | ⟨-, hm₂⟩
      · obtain rfl : caps₁ = caps := by simpa [hm₁] using hm
        obtain rfl : caps₂ = caps' := by simpa [hm₂] using hm'
        obtain rfl : js = js' := by
          rw [hs] at hs'
          simpa using hs'
        exact recorded_unique hrec hrec' hp
      · simp [hm₂] at hm'
    · simp [hm₁] at hm
  · intro caps args
    rw [cCzetBuildExpansionTree, expandSeq_flat hused]
    simp [ExpandState.emit]

/-- `$a:tokens`, `$b:expr`, and `$c:ident` repeated. -/
private def threeParams : List CMacroParam :=
  [{ name := "$a", kind := .tokens }, { name := "$b", kind := .expr },
    { name := "$c", kind := .ident, isRepeat := true }]

/-- The arm `($a , $b) { $b $a $b }`, which does not name the repeated parameter, on `x , y , z`. -/
theorem pair_arm_agrees :
    let pattern := [nameToken "$a", punctToken .comma, nameToken "$b"]
    let expansion := [nameToken "$b", nameToken "$a", nameToken "$b"]
    let input := [nameToken "x", punctToken .comma, nameToken "y", punctToken .comma,
      nameToken "z"]
    ∃ patternTree expansionTree caps caps', cCzetParseTree threeParams pattern true =
        .ok (patternTree, threeParams) ∧
      cCzetParseTree threeParams expansion false = .ok (expansionTree, threeParams) ∧
      cCzetMatcher threeParams pattern input = some (some caps) ∧
      cCzetMatcherTree threeParams patternTree input = some (some caps') ∧
      spanAt caps 0 = spanAt caps' 0 ∧
      cCzetBuildExpansionTree threeParams expansionTree caps input =
        (cCzetBuildExpansion threeParams expansion caps input, []) := by
  have hsingle : SingleParams threeParams ([nameToken "$a", punctToken .comma, nameToken "$b"] ++
      [nameToken "$b", nameToken "$a", nameToken "$b"]) := by
    intro t ht p hp par hpar
    simp only [List.cons_append, List.nil_append, List.mem_cons, List.not_mem_nil, or_false] at ht
    rcases ht with rfl | rfl | rfl | rfl | rfl | rfl <;> cases hp <;> cases hpar <;> rfl
  have h := flat_and_tree_agree threeParams _ _
    [nameToken "$a", punctToken .comma, nameToken "$b"]
    [nameToken "$b", nameToken "$a", nameToken "$b"]
    [nameToken "x", punctToken .comma, nameToken "y", punctToken .comma, nameToken "z"] _ _
    rfl rfl (by decide) (by decide) hsingle (by decide)
  exact ⟨_, _, _, _, rfl, rfl, rfl, rfl, h.2.1 _ _ rfl rfl 0 List.mem_cons_self, h.2.2 _ _⟩

end CZet
