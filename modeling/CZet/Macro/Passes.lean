/- source: src/gcc/gcc/c/c-parser.cc (c_czet_mt_nodes, c_czet_matcher_tree)
   digest: The iteration loops that a match reaches, and that the matcher returns with every pass
     consuming a token exactly when no loop repeats an empty content or overruns its table. -/

import CZet.Macro.Sentences

set_option autoImplicit false
set_option relaxedAutoImplicit false

namespace CZet

/-- The iteration loop of a `*` or `+` group, entered at `start`. -/
structure GroupLoop where
  kids : List CzetRepNode
  sep : Option CToken
  start : Nat

/-- Where the content of a group is tried, pass after pass. -/
def attempts (passKids : Nat → Option Nat) (input : List CToken) (sep : Option CToken) :
    Nat → Nat → Bool → List Nat
  | 0, _, _ => []
  | room + 1, cur, needSep =>
      match iterProbe input sep needSep cur with
      | none => []
      | some probe =>
          probe ::
            match passKids probe with
            | none => []
            | some stop => attempts passKids input sep room stop sep.isSome

/-- The alternatives behind which the rest of the pattern is tried. -/
def tried (passRest : Nat → Option Nat) : List Alternative → List Alternative
  | [] => []
  | a :: alts =>
      a ::
        match passRest a.2 with
        | none => tried passRest alts
        | some _ => []

/-- The loops that `c_czet_mt_nodes` enters, as long as no earlier one overruns its table. -/
inductive Reaches (slots : Nat) (params : List CMacroParam) (input : List CToken) :
    List CzetRepNode → Nat → GroupLoop → Prop
  | here {kids rest : List CzetRepNode} {mod : RepMod} {sep : Option CToken} {uses : List Nat}
      {ii : Nat} : mod ≠ .query →
      Reaches slots params input (.rep kids mod sep uses :: rest) ii ⟨kids, sep, ii⟩
  | option {kids rest : List CzetRepNode} {sep : Option CToken} {uses : List Nat} {ii : Nat}
      {loop : GroupLoop} : Reaches slots params input kids ii loop →
      Reaches slots params input (.rep kids .query sep uses :: rest) ii loop
  | pass {kids rest : List CzetRepNode} {mod : RepMod} {sep : Option CToken} {uses : List Nat}
      {ii probe : Nat} {loop : GroupLoop} : mod ≠ .query →
      probe ∈ attempts (passNodes slots params input kids) input sep (slots + 1) ii false →
      Reaches slots params input kids probe loop →
      Reaches slots params input (.rep kids mod sep uses :: rest) ii loop
  | after {n : CzetRepNode} {rest : List CzetRepNode} {ii : Nat} {a : Alternative}
      {loop : GroupLoop} :
      a ∈ tried (passNodes slots params input rest) (alternatives slots params input n ii) →
      Reaches slots params input rest a.2 loop → Reaches slots params input (n :: rest) ii loop

section Loop

variable (slots : Nat) (params : List CMacroParam) (input : List CToken) (loop : GroupLoop)

/-- The passes of the loop that match, up to the one that finds no slot. -/
def loopPasses : List (Nat × Nat) :=
  iterations (passNodes slots params input loop.kids) input loop.sep (slots + 1) loop.start false

/-- The input position in front of pass `k`. -/
def beforePass (k : Nat) : Nat :=
  (loop.start :: (loopPasses slots params input loop).map Prod.snd).getD k 0

/-- Every pass but the last consumes a token. -/
def Progresses : Prop :=
  ∀ k, k + 1 < (loopPasses slots params input loop).length →
    beforePass slots params input loop k < beforePass slots params input loop (k + 1)

/-- The content consumes something, or a separator does so and no empty first pass stands in
front of one. -/
def Consumes : Prop :=
  [] ∉ patternLanguage params loop.kids ∨
    ∃ s, loop.sep = some s ∧
      ¬ (passNodes slots params input loop.kids loop.start = some loop.start ∧
        ∃ t, input[loop.start]? = some t ∧ cCzetTokEq s t = true)

/-- Every pass consumes something in one way or the other, and the loop ends within the entries of
`pos_after`. -/
structure Productive : Prop where
  consumes : Consumes slots params input loop
  fits : (loopPasses slots params input loop).length ≤ slots

end Loop

section Faults

variable {slots : Nat} {params : List CMacroParam} {input : List CToken} {p : Nat}

private theorem iterate_overruns {kids : List CzetRepNode} {d : Nat} (hlevel : level p d kids)
    {sep : Option CToken} {uses : List Nat} {savedLen : Nat → Nat} {room : Nat}
    {posAfter : List Nat} {cur : Nat} {needSep : Bool} {caps : Captures}
    (h : (iterations (passNodes slots params input kids) input sep (room + 1) cur needSep).length =
      room + 1) :
    iterate (mtNodes slots params input kids) input sep uses savedLen room posAfter cur needSep caps =
      none := by
  induction room generalizing posAfter cur needSep caps with
  | zero =>
      rw [iterations] at h
      rw [iterate]
      cases hprobe : iterProbe input sep needSep cur with
      | none => simp [hprobe] at h
      | some probe =>
          cases hres : mtNodes slots params input kids probe (wrapIter uses caps) with
          | fault => simp only [hres]
          | fail caps' => simp [hprobe, passNodes_of_fail hlevel hres] at h
          | ok stop caps' => simp only [hres]
  | succ room ih =>
      rw [iterations] at h
      rw [iterate]
      cases hprobe : iterProbe input sep needSep cur with
      | none => simp [hprobe] at h
      | some probe =>
          cases hres : mtNodes slots params input kids probe (wrapIter uses caps) with
          | fault => simp only [hres]
          | fail caps' => simp [hprobe, passNodes_of_fail hlevel hres] at h
          | ok stop caps' =>
              simp only [hprobe, passNodes_of_ok hlevel hres, List.length_cons] at h
              simp only [hres]
              exact ih (Nat.succ.inj h)

private theorem iterate_of_content {kids : List CzetRepNode} {d : Nat} (hlevel : level p d kids)
    {sep : Option CToken} {uses : List Nat} {savedLen : Nat → Nat} {room : Nat}
    {posAfter : List Nat} {cur probe : Nat} {needSep : Bool} {caps : Captures}
    (hmem : probe ∈ attempts (passNodes slots params input kids) input sep (room + 1) cur needSep)
    (hfault : ∀ caps, mtNodes slots params input kids probe caps = .fault) :
    iterate (mtNodes slots params input kids) input sep uses savedLen room posAfter cur needSep caps =
      none := by
  induction room generalizing posAfter cur needSep caps with
  | zero =>
      rw [attempts] at hmem
      rw [iterate]
      cases hprobe : iterProbe input sep needSep cur with
      | none => simp [hprobe] at hmem
      | some first =>
          cases hres : mtNodes slots params input kids first (wrapIter uses caps) with
          | fault => simp only [hres]
          | ok stop caps' => simp only [hres]
          | fail caps' =>
              simp only [hprobe, passNodes_of_fail hlevel hres, List.mem_singleton] at hmem
              rw [← hmem, hfault] at hres
              cases hres
  | succ room ih =>
      rw [attempts] at hmem
      rw [iterate]
      cases hprobe : iterProbe input sep needSep cur with
      | none => simp [hprobe] at hmem
      | some first =>
          cases hres : mtNodes slots params input kids first (wrapIter uses caps) with
          | fault => simp only [hres]
          | fail caps' =>
              simp only [hprobe, passNodes_of_fail hlevel hres, List.mem_singleton] at hmem
              rw [← hmem, hfault] at hres
              cases hres
          | ok stop caps' =>
              simp only [hprobe, passNodes_of_ok hlevel hres, List.mem_cons] at hmem
              rcases hmem with rfl | hmem
              · rw [hfault] at hres
                cases hres
              · simp only [hres]
                exact ih hmem

private theorem iterate_positions {kids : List CzetRepNode} {d : Nat} {mod : RepMod}
    {sep : Option CToken} {uses : List Nat} (hn : levelNode p d (.rep kids mod sep uses))
    {ii : Nat} {caps caps' : Captures} {posAfter : List Nat}
    (h : iterate (mtNodes slots params input kids) input sep uses (lengths (withLists uses caps))
      slots [ii] ii false (withLists uses caps) = some (posAfter, caps')) :
    posAfter =
      ii :: (iterations (passNodes slots params input kids) input sep slots ii false).map
        Prod.snd := by
  rw [levelNode] at hn
  exact (iterate_outcome hn.2.2 hn.1 (nodes_outcome kids hn.2.2) sep _ slots [ii] ii false _
    (fun _ => rfl) (by simp) h).1

private theorem iterate_fault {kids : List CzetRepNode} {d : Nat} (hlevel : level p d kids)
    {sep : Option CToken} {uses : List Nat} {savedLen : Nat → Nat} {room : Nat}
    {posAfter : List Nat} {cur : Nat} {needSep : Bool} {caps : Captures}
    (h : iterate (mtNodes slots params input kids) input sep uses savedLen room posAfter cur needSep
      caps = none) :
    (iterations (passNodes slots params input kids) input sep (room + 1) cur needSep).length =
        room + 1 ∨
      ∃ probe ∈ attempts (passNodes slots params input kids) input sep (room + 1) cur needSep,
        ∃ caps, mtNodes slots params input kids probe caps = .fault := by
  induction room generalizing posAfter cur needSep caps with
  | zero =>
      rw [iterate] at h
      rw [iterations, attempts]
      cases hprobe : iterProbe input sep needSep cur with
      | none => simp [hprobe] at h
      | some probe =>
          cases hres : mtNodes slots params input kids probe (wrapIter uses caps) with
          | fault => exact Or.inr ⟨probe, by simp, _, hres⟩
          | fail caps' => simp [hprobe, hres] at h
          | ok stop caps' =>
              left
              simp [passNodes_of_ok hlevel hres, iterations]
  | succ room ih =>
      rw [iterate] at h
      rw [iterations, attempts]
      cases hprobe : iterProbe input sep needSep cur with
      | none => simp [hprobe] at h
      | some probe =>
          cases hres : mtNodes slots params input kids probe (wrapIter uses caps) with
          | fault => exact Or.inr ⟨probe, by simp, _, hres⟩
          | fail caps' => simp [hprobe, hres] at h
          | ok stop caps' =>
              simp only [hprobe, hres] at h
              simp only [passNodes_of_ok hlevel hres, List.length_cons, Nat.add_right_cancel_iff,
                List.mem_cons, exists_eq_or_imp]
              rcases ih h with hlen | hcontent
              · exact Or.inl hlen
              · exact Or.inr (Or.inr hcontent)

private theorem tryCuts_faults {rest : List CzetRepNode} {d : Nat} (hlevel : level p d rest)
    {q : Nat} {isRepeat : Bool} {ii : Nat} {cuts : List Nat} {caps : Captures} :
    (tryCuts (mtNodes slots params input rest) q isRepeat ii cuts caps = .fault →
      ∃ a ∈ tried (passNodes slots params input rest) (cuts.map fun stop => ([], stop)),
        ∃ caps, mtNodes slots params input rest a.2 caps = .fault) ∧
    ((∃ a ∈ tried (passNodes slots params input rest) (cuts.map fun stop => ([], stop)),
        ∀ caps, mtNodes slots params input rest a.2 caps = .fault) →
      tryCuts (mtNodes slots params input rest) q isRepeat ii cuts caps = .fault) := by
  induction cuts generalizing caps with
  | nil => simp [tryCuts, tried]
  | cons cut cuts ih =>
      rw [tryCuts, List.map_cons, tried]
      cases hres : mtNodes slots params input rest cut (setSpan caps q ii cut) with
      | fault => exact ⟨fun _ => ⟨([], cut), by simp, _, hres⟩, fun _ => rfl⟩
      | fail caps' =>
          simp only [passNodes_of_fail hlevel hres, List.mem_cons, exists_eq_or_imp]
          refine ⟨fun h => Or.inr (ih.1 h), ?_⟩
          rintro (h | h)
          · rw [h] at hres
            cases hres
          · exact ih.2 h
      | ok stop caps' =>
          simp only [passNodes_of_ok hlevel hres, List.mem_singleton, exists_eq_left, reduceCtorEq,
            false_implies, true_and]
          intro h
          rw [h] at hres
          cases hres

private theorem backtrack_faults {rest : List CzetRepNode} {d : Nat} (hlevel : level p d rest)
    {uses : List Nat} {savedLen : Nat → Nat} {ii : Nat} {its : List (Nat × Nat)} {ts : List Nat}
    {caps : Captures} :
    (backtrack (mtNodes slots params input rest) uses savedLen (ii :: its.map Prod.snd) ts caps =
        .fault →
      ∃ a ∈ tried (passNodes slots params input rest) (ts.map (keepIters ii its)),
        ∃ caps, mtNodes slots params input rest a.2 caps = .fault) ∧
    ((∃ a ∈ tried (passNodes slots params input rest) (ts.map (keepIters ii its)),
        ∀ caps, mtNodes slots params input rest a.2 caps = .fault) →
      backtrack (mtNodes slots params input rest) uses savedLen (ii :: its.map Prod.snd) ts caps =
        .fault) := by
  induction ts generalizing caps with
  | nil => simp [backtrack, tried]
  | cons t ts ih =>
      rw [backtrack, List.map_cons, tried]
      have hpos : (ii :: its.map Prod.snd).getD t 0 = (keepIters ii its t).2 := rfl
      rw [hpos]
      cases hres : mtNodes slots params input rest (keepIters ii its t).2
          (restoreLen uses savedLen t caps caps) with
      | fault => exact ⟨fun _ => ⟨keepIters ii its t, by simp, _, hres⟩, fun _ => rfl⟩
      | fail caps' =>
          simp only [passNodes_of_fail hlevel hres, List.mem_cons, exists_eq_or_imp]
          refine ⟨fun h => Or.inr (ih.1 h), ?_⟩
          rintro (h | h)
          · rw [h] at hres
            cases hres
          · exact ih.2 h
      | ok stop caps' =>
          simp only [passNodes_of_ok hlevel hres, List.mem_singleton, exists_eq_left, reduceCtorEq,
            false_implies, true_and]
          intro h
          rw [h] at hres
          cases hres

private theorem node_fault_after {n : CzetRepNode} {d d' : Nat} (hn : levelNode p d n)
    {rest : List CzetRepNode} (hlevel : level p d' rest) {ii : Nat} {a : Alternative}
    (ha : a ∈ tried (passNodes slots params input rest) (alternatives slots params input n ii))
    (hfault : ∀ caps, mtNodes slots params input rest a.2 caps = .fault) (caps : Captures) :
    mtNode slots params input n (mtNodes slots params input rest) ii caps = .fault := by
  cases n with
  | tok t =>
      rw [alternatives, nodeCuts] at ha
      rw [mtNode]
      cases hin : input[ii]? with
      | none => simp [hin, tried] at ha
      | some itok =>
          simp only [hin] at ha ⊢
          split at ha
          · rename_i heq
            rw [if_pos heq]
            obtain rfl : a = ([], ii + 1) := by
              cases hpass : passNodes slots params input rest (ii + 1) <;>
                simpa [tried, hpass] using ha
            exact hfault caps
          · simp [tried] at ha
  | cap q =>
      rw [alternatives, nodeCuts] at ha
      rw [mtNode]
      cases hpar : params[q]? with
      | none => simp [hpar, tried] at ha
      | some par =>
          simp only [hpar] at ha ⊢
          split at ha
          · rename_i hfixed
            rw [if_pos hfixed]
            cases hstop : matchFixed par.kind input ii with
            | none => simp [hstop, tried] at ha
            | some stop =>
                obtain rfl : a = ([], stop) := by
                  cases hpass : passNodes slots params input rest stop <;>
                    simpa [hstop, tried, hpass] using ha
                exact hfault _
          · rename_i hrun
            rw [if_neg hrun]
            exact (tryCuts_faults hlevel).2 ⟨a, ha, hfault⟩
  | rep kids mod sep uses =>
      have hkidsLevel : level p (d - 1) kids := by
        rw [levelNode] at hn
        exact hn.2.2
      by_cases hmod : mod = .query
      · subst hmod
        rw [alternatives] at ha
        rw [mtNode_query]
        cases hkids : mtNodes slots params input kids ii (wrapIter uses (withLists uses caps)) with
        | fault => rfl
        | fail caps' =>
            obtain rfl : a = ([], ii) := by
              cases hpass : passNodes slots params input rest ii <;>
                simpa [passNodes_of_fail hkidsLevel hkids, tried, hpass] using ha
            exact hfault _
        | ok probe caps' =>
            simp only [passNodes_of_ok hkidsLevel hkids, tried, List.mem_cons] at ha
            cases hrest : mtNodes slots params input rest probe
              (popIter uses (withLists uses caps) caps') with
            | fault => simp only [hrest]
            | ok after caps'' =>
                simp only [passNodes_of_ok hlevel hrest, List.not_mem_nil, or_false] at ha
                rw [ha] at hfault
                rw [hfault] at hrest
                cases hrest
            | fail caps'' =>
                simp only [hrest]
                have hcases : a = ([ii], probe) ∨ a = ([], ii) := by
                  cases hpass : passNodes slots params input rest ii <;>
                    simpa [passNodes_of_fail hlevel hrest, hpass] using ha
                rcases hcases with rfl | rfl
                · rw [hfault] at hrest
                  cases hrest
                · exact hfault _
      · rw [mtNode_many hmod]
        cases hit : iterate (mtNodes slots params input kids) input sep uses
            (lengths (withLists uses caps)) slots [ii] ii false (withLists uses caps) with
        | none => rfl
        | some r =>
            obtain ⟨posAfter, caps₁⟩ := r
            obtain rfl := iterate_positions hn hit
            rw [alternatives_many hmod] at ha
            simp only [List.length_cons, List.length_map, Nat.add_sub_cancel]
            exact (backtrack_faults hlevel).2 ⟨a, ha, hfault⟩

private theorem node_fault_source {n : CzetRepNode} {d d' : Nat} (hn : levelNode p d n)
    {rest : List CzetRepNode} (hlevel : level p d' rest) {ii : Nat} {caps : Captures}
    (h : mtNode slots params input n (mtNodes slots params input rest) ii caps = .fault) :
    (∃ a ∈ tried (passNodes slots params input rest) (alternatives slots params input n ii),
      ∃ caps, mtNodes slots params input rest a.2 caps = .fault) ∨
    ∃ kids mod sep uses, n = .rep kids mod sep uses ∧
      ((mod = .query ∧ ∃ caps, mtNodes slots params input kids ii caps = .fault) ∨
      (mod ≠ .query ∧ ∃ probe ∈ attempts (passNodes slots params input kids) input sep (slots + 1)
        ii false,
        ∃ caps, mtNodes slots params input kids probe caps = .fault) ∨
      (mod ≠ .query ∧ (loopPasses slots params input ⟨kids, sep, ii⟩).length = slots + 1)) := by
  cases n with
  | tok t =>
      rw [mtNode] at h
      rw [alternatives, nodeCuts]
      cases hin : input[ii]? with
      | none => simp [hin] at h
      | some itok =>
          simp only [hin] at h ⊢
          split at h
          · rename_i heq
            exact Or.inl ⟨([], ii + 1), by simp [heq, tried], caps, h⟩
          · cases h
  | cap q =>
      rw [mtNode] at h
      rw [alternatives, nodeCuts]
      cases hpar : params[q]? with
      | none => simp [hpar] at h
      | some par =>
          simp only [hpar] at h ⊢
          split at h
          · rename_i hfixed
            cases hstop : matchFixed par.kind input ii with
            | none => simp [hstop] at h
            | some stop =>
                simp only [hstop] at h
                exact Or.inl ⟨([], stop), by simp [hfixed, tried], _, h⟩
          · rename_i hrun
            rw [if_neg hrun]
            exact Or.inl ((tryCuts_faults hlevel).1 h)
  | rep kids mod sep uses =>
      have hkidsLevel : level p (d - 1) kids := by
        rw [levelNode] at hn
        exact hn.2.2
      by_cases hmod : mod = .query
      · subst hmod
        rw [mtNode_query] at h
        rw [alternatives]
        cases hkids : mtNodes slots params input kids ii (wrapIter uses (withLists uses caps)) with
        | fault => exact Or.inr ⟨kids, .query, sep, uses, rfl, Or.inl ⟨rfl, _, hkids⟩⟩
        | fail caps' =>
            simp only [hkids] at h
            rw [passNodes_of_fail hkidsLevel hkids]
            exact Or.inl ⟨([], ii), by simp [tried], _, h⟩
        | ok probe caps' =>
            simp only [hkids] at h
            rw [passNodes_of_ok hkidsLevel hkids]
            cases hrest : mtNodes slots params input rest probe
              (popIter uses (withLists uses caps) caps') with
            | fault => exact Or.inl ⟨([ii], probe), by simp [tried], _, hrest⟩
            | ok after caps'' => simp [hrest] at h
            | fail caps'' =>
                simp only [hrest] at h
                refine Or.inl ⟨([], ii), ?_, _, h⟩
                simp [tried, passNodes_of_fail hlevel hrest]
      · rw [mtNode_many hmod] at h
        cases hit : iterate (mtNodes slots params input kids) input sep uses
            (lengths (withLists uses caps)) slots [ii] ii false (withLists uses caps) with
        | none =>
            refine Or.inr ⟨kids, mod, sep, uses, rfl, Or.inr ?_⟩
            rcases iterate_fault hkidsLevel hit with hlen | hcontent
            · exact Or.inr ⟨hmod, hlen⟩
            · exact Or.inl ⟨hmod, hcontent⟩
        | some r =>
            obtain ⟨posAfter, caps₁⟩ := r
            obtain rfl := iterate_positions hn hit
            simp only [hit, List.length_cons, List.length_map, Nat.add_sub_cancel] at h
            rw [alternatives_many hmod]
            exact Or.inl ((backtrack_faults hlevel).1 h)

private theorem overruns_of_fault : ∀ (nodes : List CzetRepNode) {d : Nat}, level p d nodes →
    ∀ {ii : Nat} {caps : Captures}, mtNodes slots params input nodes ii caps = .fault →
    ∃ loop, Reaches slots params input nodes ii loop ∧
      (loopPasses slots params input loop).length = slots + 1
  | [], _, _, ii, caps, h => by
      rw [mtNodes] at h
      cases h
  | .tok t :: rest, d, hlevel, ii, caps, h => by
      rw [level] at hlevel
      rw [mtNodes] at h
      rcases node_fault_source hlevel.1 hlevel.2 h with ⟨a, ha, _, hrest⟩ | ⟨_, _, _, _, hn, _⟩
      · obtain ⟨loop, hloop, hlen⟩ := overruns_of_fault rest hlevel.2 hrest
        exact ⟨loop, .after ha hloop, hlen⟩
      · cases hn
  | .cap q :: rest, d, hlevel, ii, caps, h => by
      rw [level] at hlevel
      rw [mtNodes] at h
      rcases node_fault_source hlevel.1 hlevel.2 h with ⟨a, ha, _, hrest⟩ | ⟨_, _, _, _, hn, _⟩
      · obtain ⟨loop, hloop, hlen⟩ := overruns_of_fault rest hlevel.2 hrest
        exact ⟨loop, .after ha hloop, hlen⟩
      · cases hn
  | .rep kids mod sep uses :: rest, d, hlevel, ii, caps, h => by
      rw [level] at hlevel
      have hkidsLevel : level p (d - 1) kids := by
        have hn := hlevel.1
        rw [levelNode] at hn
        exact hn.2.2
      rw [mtNodes] at h
      rcases node_fault_source hlevel.1 hlevel.2 h with ⟨a, ha, _, hrest⟩ | ⟨_, _, _, _, hn, hin⟩
      · obtain ⟨loop, hloop, hlen⟩ := overruns_of_fault rest hlevel.2 hrest
        exact ⟨loop, .after ha hloop, hlen⟩
      · cases hn
        rcases hin with ⟨rfl, _, hkids⟩ | ⟨hmod, probe, hprobe, _, hkids⟩ | ⟨hmod, hlen⟩
        · obtain ⟨loop, hloop, hlen⟩ := overruns_of_fault kids hkidsLevel hkids
          exact ⟨loop, .option hloop, hlen⟩
        · obtain ⟨loop, hloop, hlen⟩ := overruns_of_fault kids hkidsLevel hkids
          exact ⟨loop, .pass hmod hprobe hloop, hlen⟩
        · exact ⟨_, .here hmod, hlen⟩

private theorem fault_of_overruns {nodes : List CzetRepNode} {ii : Nat} {loop : GroupLoop}
    (h : Reaches slots params input nodes ii loop)
    (hlen : (loopPasses slots params input loop).length = slots + 1)
    {d : Nat} (hlevel : level p d nodes) (caps : Captures) :
    mtNodes slots params input nodes ii caps = .fault := by
  induction h generalizing d caps with
  | here hmod =>
      rw [level] at hlevel
      have hn := hlevel.1
      rw [levelNode] at hn
      rw [mtNodes, mtNode_many hmod, iterate_overruns hn.2.2 hlen]
  | option _ ih =>
      rw [level] at hlevel
      have hn := hlevel.1
      rw [levelNode] at hn
      rw [mtNodes, mtNode_query, ih hlen hn.2.2]
  | pass hmod hprobe _ ih =>
      rw [level] at hlevel
      have hn := hlevel.1
      rw [levelNode] at hn
      rw [mtNodes, mtNode_many hmod, iterate_of_content hn.2.2 hprobe (ih hlen hn.2.2)]
  | after ha _ ih =>
      rw [level] at hlevel
      rw [mtNodes]
      exact node_fault_after hlevel.1 hlevel.2 ha (ih hlen hlevel.2) caps

end Faults

section Nullable

variable {slots : Nat} {params : List CMacroParam} {input : List CToken}

private theorem nil_mem_mul {l m : Language CToken} (h : [] ∈ l * m) : [] ∈ l ∧ [] ∈ m := by
  obtain ⟨a, ha, b, hb, hab⟩ := Language.mem_mul.mp h
  obtain ⟨rfl, rfl⟩ := List.append_eq_nil_iff.mp hab
  exact ⟨ha, hb⟩

private theorem not_kindSegment_nil (kind : CzetMacroKind) : ¬ KindSegment kind [] := by
  cases kind with
  | expr | type | stmt | tokens => exact fun h => h.nonempty rfl
  | block =>
      intro h
      obtain ⟨t, ht, -⟩ := h.opens
      cases ht
  | ident | number | string | literal =>
      rintro ⟨t, ht, -⟩
      cases ht

private theorem countsDown_ne_nil {minIt m : Nat} (h : minIt ≤ m) : countsDown minIt m ≠ [] :=
  List.ne_nil_of_mem (mem_countsDown.mpr ⟨h, Nat.le_refl m⟩)

mutual

private theorem alternatives_of_nullable (hslots : 0 < slots) : ∀ (n : CzetRepNode),
    [] ∈ nodeLanguage params n → ∀ ii, alternatives slots params input n ii ≠ []
  | .tok t, h, ii => by
      rw [nodeLanguage] at h
      obtain ⟨itok, hnil, -⟩ := h
      cases hnil
  | .cap q, h, ii => by
      rw [nodeLanguage] at h
      obtain ⟨par, -, hkind⟩ := h
      exact absurd hkind (not_kindSegment_nil par.kind)
  | .rep kids mod sep uses, h, ii => by
      cases mod with
      | query =>
          rw [alternatives]
          cases passNodes slots params input kids ii <;> simp
      | star =>
          rw [alternatives_many (by decide)]
          exact mt List.map_eq_nil_iff.mp (countsDown_ne_nil (Nat.zero_le _))
      | plus =>
          rw [nodeLanguage] at h
          have hkids := passNodes_of_nullable hslots kids (nil_mem_mul h).1 ii
          obtain ⟨stop, hstop⟩ := Option.isSome_iff_exists.mp hkids
          rw [alternatives_many (by decide)]
          refine mt List.map_eq_nil_iff.mp (countsDown_ne_nil ?_)
          obtain ⟨more, rfl⟩ := Nat.exists_eq_succ_of_ne_zero hslots.ne'
          rw [iterations]
          simp [iterProbe, hstop, minIter]

private theorem passNodes_of_nullable (hslots : 0 < slots) : ∀ (nodes : List CzetRepNode),
    [] ∈ patternLanguage params nodes → ∀ ii, (passNodes slots params input nodes ii).isSome
  | [], _, ii => by
      rw [passNodes]
      rfl
  | n :: rest, h, ii => by
      rw [patternLanguage] at h
      obtain ⟨hn, hrest⟩ := nil_mem_mul h
      obtain ⟨a, ha⟩ := List.exists_mem_of_ne_nil _ (alternatives_of_nullable hslots n hn ii)
      rw [passNodes, List.findSome?_isSome_iff]
      exact ⟨a, ha, passNodes_of_nullable hslots rest hrest a.2⟩

end

private theorem iterations_length_le (passKids : Nat → Option Nat) (sep : Option CToken)
    (room cur : Nat) (needSep : Bool) :
    (iterations passKids input sep room cur needSep).length ≤ room := by
  induction room generalizing cur needSep with
  | zero => simp [iterations]
  | succ room ih =>
      rw [iterations]
      split
      · simp
      · split
        · simp
        · rename_i stop _
          have := ih stop sep.isSome
          simp only [List.length_cons]
          omega

private theorem iterations_standstill {passKids : Nat → Option Nat}
    (hkids : ∀ i, (passKids i).isSome) (room cur : Nat) (needSep : Bool) :
    (iterations passKids input none room cur needSep).length = room := by
  induction room generalizing cur needSep with
  | zero => simp [iterations]
  | succ room ih =>
      obtain ⟨stop, hstop⟩ := Option.isSome_iff_exists.mp (hkids cur)
      rw [iterations]
      simp [iterProbe, hstop, ih]

private theorem chain_step {passKids : Nat → Option Nat} {sep : Option CToken} {needSep : Bool}
    {cur : Nat} {its : List (Nat × Nat)} (h : IterChain passKids input sep needSep cur its)
    {k : Nat} (hk : k < its.length) :
    ∃ probe, iterProbe input sep (if k = 0 then needSep else sep.isSome)
        ((cur :: its.map Prod.snd).getD k 0) = some probe ∧
      passKids probe = some ((cur :: its.map Prod.snd).getD (k + 1) 0) := by
  induction its generalizing needSep cur k with
  | nil => cases hk
  | cons it its ih =>
      obtain ⟨hprobe, hpass, hrest⟩ := h
      cases k with
      | zero => exact ⟨it.1, hprobe, hpass⟩
      | succ k =>
          obtain ⟨probe, h₁, h₂⟩ := ih hrest (Nat.lt_of_succ_lt_succ hk)
          refine ⟨probe, ?_, h₂⟩
          simpa using h₁

private theorem pass_step {loop : GroupLoop} {k : Nat}
    (hk : k < (loopPasses slots params input loop).length) :
    ∃ probe, iterProbe input loop.sep (if k = 0 then false else loop.sep.isSome)
        (beforePass slots params input loop k) = some probe ∧
      passNodes slots params input loop.kids probe =
        some (beforePass slots params input loop (k + 1)) := by
  have hchain : IterChain (passNodes slots params input loop.kids) input loop.sep false loop.start
      ((iterations (passNodes slots params input loop.kids) input loop.sep (slots + 1) loop.start
        false).take (slots + 1)) :=
    iterations_chain (passNodes slots params input loop.kids) loop.sep (slots + 1) loop.start false
      (slots + 1)
  rw [List.take_of_length_le (iterations_length_le _ _ _ _ _)] at hchain
  exact chain_step hchain hk

private theorem separator_consumed {s : CToken} {cur probe : Nat}
    (h : iterProbe input (some s) true cur = some probe) :
    probe = cur + 1 ∧ ∃ t, input[cur]? = some t ∧ cCzetTokEq s t = true := by
  simp only [iterProbe] at h
  cases hin : input[cur]? with
  | none => simp [hin] at h
  | some t =>
      simp only [hin] at h
      split at h
      · rename_i heq
        exact ⟨(Option.some.inj h).symm, t, rfl, heq⟩
      · cases h

private theorem progresses_of_consumes {loop : GroupLoop}
    (h : Consumes slots params input loop) : Progresses slots params input loop := by
  intro k hk
  obtain ⟨probe, hprobe, hpass⟩ := pass_step (Nat.lt_of_succ_lt hk)
  have h₁ := iterProbe_ge hprobe
  have h₂ := passNodes_ge slots params input loop.kids hpass
  rcases h with hcontent | ⟨s, hsep, hfirst⟩
  · rcases Nat.lt_or_ge probe (beforePass slots params input loop (k + 1)) with hlt | hge
    · omega
    · have heq : beforePass slots params input loop (k + 1) = probe := Nat.le_antisymm hge h₂
      have hsound := passNodes_sound loop.kids hpass
      rw [heq, slice_self] at hsound
      exact absurd hsound hcontent
  · cases k with
    | succ k =>
        rw [hsep] at hprobe
        have := (separator_consumed hprobe).1
        omega
    | zero =>
        -- an empty first pass is followed by its separator, which the condition excludes
        have hstart : beforePass slots params input loop 0 = loop.start := rfl
        obtain rfl : beforePass slots params input loop 0 = probe := by simpa [iterProbe] using hprobe
        rcases Nat.lt_or_ge (beforePass slots params input loop 0)
          (beforePass slots params input loop 1) with
          hlt | hge
        · exact hlt
        · have heq : beforePass slots params input loop 1 = loop.start := Nat.le_antisymm hge h₂
          obtain ⟨probe', hprobe', -⟩ := pass_step hk
          rw [hsep, heq] at hprobe'
          rw [heq] at hpass
          exact absurd ⟨hpass, (separator_consumed hprobe').2⟩ hfirst

private theorem not_progresses {loop : GroupLoop} {s : CToken} (hslots : 0 < slots)
    (hsep : loop.sep = some s)
    (hnull : [] ∈ patternLanguage params loop.kids)
    (hfirst : passNodes slots params input loop.kids loop.start = some loop.start)
    {t : CToken} (ht : input[loop.start]? = some t) (heq : cCzetTokEq s t = true) :
    ¬ Progresses slots params input loop := by
  have hsecond : (passNodes slots params input loop.kids (loop.start + 1)).isSome :=
    passNodes_of_nullable hslots loop.kids hnull (loop.start + 1)
  obtain ⟨stop, hstop⟩ := Option.isSome_iff_exists.mp hsecond
  obtain ⟨more, rfl⟩ := Nat.exists_eq_succ_of_ne_zero hslots.ne'
  have hpasses : ∃ its, loopPasses (more + 1) params input loop =
      (loop.start, loop.start) :: (loop.start + 1, stop) :: its := by
    refine ⟨iterations (passNodes (more + 1) params input loop.kids) input loop.sep more stop
      loop.sep.isSome, ?_⟩
    have hturn : iterations (passNodes (more + 1) params input loop.kids) input (some s) (more + 1)
        loop.start true = (loop.start + 1, stop) ::
          iterations (passNodes (more + 1) params input loop.kids) input (some s) more stop true := by
      rw [iterations]
      simp [iterProbe, ht, heq, hstop]
    rw [loopPasses, hsep, iterations]
    simp [iterProbe, hfirst, hturn]
  obtain ⟨its, hits⟩ := hpasses
  intro h
  have := h 0 (by simp [hits])
  simp [beforePass, hits] at this

end Nullable

section Bounds

variable {slots : Nat} {params : List CMacroParam} {input : List CToken}

private theorem iterProbe_le {sep : Option CToken} {needSep : Bool} {cur probe : Nat}
    (h : iterProbe input sep needSep cur = some probe) (hcur : cur ≤ input.length) :
    probe ≤ input.length := by
  unfold iterProbe at h
  split at h
  · split at h
    · rename_i t ht
      have hlt := (List.getElem?_eq_some_iff.mp ht).1
      split at h
      · cases h
        exact hlt
      · cases h
    · cases h
  · cases h
    exact hcur

private theorem endOf_le {passKids : Nat → Option Nat} {sep : Option CToken} {needSep : Bool}
    {cur : Nat} {its : List (Nat × Nat)}
    (hkids : ∀ i k, passKids i = some k → i ≤ input.length → k ≤ input.length)
    (h : IterChain passKids input sep needSep cur its) (hcur : cur ≤ input.length) :
    endOf cur its ≤ input.length := by
  induction its generalizing needSep cur with
  | nil => exact hcur
  | cons it its ih =>
      obtain ⟨hprobe, hpass, hrest⟩ := h
      exact ih hrest (hkids _ _ hpass (iterProbe_le hprobe hcur))

mutual

private theorem alternatives_le : ∀ (n : CzetRepNode) {ii : Nat} {a : Alternative},
    a ∈ alternatives slots params input n ii → ii ≤ input.length → a.2 ≤ input.length
  | .tok t, ii, a, h, _ => by
      rw [alternatives] at h
      obtain ⟨stop, hstop, rfl⟩ := List.mem_map.mp h
      exact (mem_nodeCuts_iff.mp hstop).2.1
  | .cap p, ii, a, h, _ => by
      rw [alternatives] at h
      obtain ⟨stop, hstop, rfl⟩ := List.mem_map.mp h
      exact (mem_nodeCuts_iff.mp hstop).2.1
  | .rep kids mod sep uses, ii, a, h, hii => by
      have hkids : ∀ i k, passNodes slots params input kids i = some k →
          i ≤ input.length → k ≤ input.length := fun i k => passNodes_le kids
      obtain ⟨its, -, hend, hchain⟩ := alternatives_chain h
      rw [hend]
      exact endOf_le hkids hchain hii

private theorem passNodes_le : ∀ (nodes : List CzetRepNode) {ii k : Nat},
    passNodes slots params input nodes ii = some k → ii ≤ input.length → k ≤ input.length
  | [], ii, k, h, hii => by
      rw [passNodes] at h
      cases h
      exact hii
  | n :: rest, ii, k, h, hii => by
      rw [passNodes] at h
      obtain ⟨a, ha, hrest⟩ := List.exists_of_findSome?_eq_some h
      exact passNodes_le rest hrest (alternatives_le n ha hii)

end

private theorem mem_of_tried {passRest : Nat → Option Nat} {alts : List Alternative}
    {a : Alternative} (h : a ∈ tried passRest alts) : a ∈ alts := by
  induction alts with
  | nil => cases h
  | cons b alts ih =>
      rw [tried] at h
      rcases List.mem_cons.mp h with rfl | h
      · exact List.mem_cons_self
      · split at h
        · exact List.mem_cons_of_mem _ (ih h)
        · cases h

private theorem attempts_le {passKids : Nat → Option Nat} {sep : Option CToken} {room cur : Nat}
    {needSep : Bool} {probe : Nat}
    (hkids : ∀ i k, passKids i = some k → i ≤ input.length → k ≤ input.length)
    (h : probe ∈ attempts passKids input sep room cur needSep) (hcur : cur ≤ input.length) :
    probe ≤ input.length := by
  induction room generalizing cur needSep with
  | zero => cases h
  | succ room ih =>
      rw [attempts] at h
      split at h
      · cases h
      · rename_i first hfirst
        have hle := iterProbe_le hfirst hcur
        rcases List.mem_cons.mp h with rfl | h
        · exact hle
        · split at h
          · cases h
          · rename_i stop hstop
            exact ih h (hkids _ _ hstop hle)

private theorem start_le {nodes : List CzetRepNode} {ii : Nat} {loop : GroupLoop}
    (h : Reaches slots params input nodes ii loop) (hii : ii ≤ input.length) :
    loop.start ≤ input.length := by
  induction h with
  | here _ => exact hii
  | option _ ih => exact ih hii
  | pass _ hprobe _ ih => exact ih (attempts_le (fun _ _ => passNodes_le _) hprobe hii)
  | after ha _ ih => exact ih (alternatives_le _ (mem_of_tried ha) hii)

private theorem beforePass_le {loop : GroupLoop} (hstart : loop.start ≤ input.length) {k : Nat}
    (hk : k ≤ (loopPasses slots params input loop).length) :
    beforePass slots params input loop k ≤ input.length := by
  induction k with
  | zero => exact hstart
  | succ k ih =>
      obtain ⟨probe, hprobe, hpass⟩ := pass_step hk
      exact passNodes_le _ hpass (iterProbe_le hprobe (ih (Nat.le_of_succ_le hk)))

/-- Passes that each consume a token are no more than there are tokens, and the last one. -/
private theorem passes_le {loop : GroupLoop} (hstart : loop.start ≤ input.length)
    (h : Progresses slots params input loop) :
    (loopPasses slots params input loop).length ≤ input.length + 1 := by
  have hgrow : ∀ k, k < (loopPasses slots params input loop).length →
      k ≤ beforePass slots params input loop k := by
    intro k
    induction k with
    | zero => exact fun _ => Nat.zero_le _
    | succ k ih =>
        intro hk
        have hstep := h k hk
        have hpast := ih (Nat.lt_of_succ_lt hk)
        omega
  by_contra hmore
  have hfar := hgrow (input.length + 1) (by omega)
  have hnear : beforePass slots params input loop (input.length + 1) ≤ input.length :=
    beforePass_le hstart (by omega)
  omega

end Bounds

private theorem verdict_none_iff {tree : List CzetRepNode} {d slots : Nat}
    {params : List CMacroParam} {input : List CToken} {p : Nat} (hlevel : level p d tree) :
    growingMatcherTree slots params tree input = none ↔
      ∃ loop, Reaches slots params input tree 0 loop ∧
        (loopPasses slots params input loop).length = slots + 1 := by
  have hfault : growingMatcherTree slots params tree input = none ↔
      mtNodes slots params input tree 0 noCaptures = .fault := by
    unfold growingMatcherTree
    cases mtNodes slots params input tree 0 noCaptures with
    | fault => simp
    | fail caps => simp
    | ok stop caps =>
        simp only [reduceCtorEq, iff_false]
        split <;> simp
  rw [hfault]
  constructor
  · exact overruns_of_fault tree hlevel
  · rintro ⟨loop, hloop, hlen⟩
    exact fault_of_overruns hloop hlen hlevel noCaptures

/-- Whatever room there is for iterations: the matcher returns and every pass of a loop but the last
consumes a token, exactly when every loop it reaches is productive. -/
theorem growingTree_returns_iff_productive {slots : Nat} (hslots : 0 < slots)
    (params params' defParams : List CMacroParam) (tokens : List CToken) (tree : List CzetRepNode)
    (input : List CToken)
    (hparse : cCzetParseTree params tokens true = .ok (tree, params')) :
    (growingMatcherTree slots defParams tree input ≠ none ∧
      ∀ loop, Reaches slots defParams input tree 0 loop → Progresses slots defParams input loop) ↔
    ∀ loop, Reaches slots defParams input tree 0 loop → Productive slots defParams input loop := by
  obtain ⟨d, hlevel⟩ := (parseTree_level hparse 0).2.1
  rw [Ne, verdict_none_iff hlevel]
  constructor
  · rintro ⟨hreturns, hprogress⟩ loop hloop
    have hfits : (loopPasses slots defParams input loop).length ≠ slots + 1 := by
      intro hlen
      exact hreturns ⟨loop, hloop, hlen⟩
    have hle : (loopPasses slots defParams input loop).length ≤ slots + 1 :=
      iterations_length_le _ _ _ _ _
    refine ⟨?_, by omega⟩
    by_contra hcons
    rw [Consumes, not_or, not_not, not_exists] at hcons
    obtain ⟨hnull, hsep⟩ := hcons
    cases hs : loop.sep with
    | none =>
        refine hfits ?_
        rw [loopPasses, hs]
        exact iterations_standstill (passNodes_of_nullable hslots loop.kids hnull) (slots + 1) _ _
    | some s =>
        have hstall := hsep s
        simp only [hs, true_and, not_not] at hstall
        obtain ⟨hfirst, t, ht, heq⟩ := hstall
        exact not_progresses hslots hs hnull hfirst ht heq (hprogress loop hloop)
  · intro hprod
    refine ⟨?_, fun loop hloop => progresses_of_consumes (hprod loop hloop).consumes⟩
    rintro ⟨loop, hloop, hlen⟩
    have := (hprod loop hloop).fits
    omega

/-- With room for more iterations than there are tokens, only loops that repeat an empty content keep
the matcher from returning. -/
theorem growingTree_returns_iff_consumes {slots : Nat} (params params' defParams : List CMacroParam)
    (tokens : List CToken) (tree : List CzetRepNode) (input : List CToken)
    (hroom : input.length < slots)
    (hparse : cCzetParseTree params tokens true = .ok (tree, params')) :
    (growingMatcherTree slots defParams tree input ≠ none ∧
      ∀ loop, Reaches slots defParams input tree 0 loop → Progresses slots defParams input loop) ↔
    ∀ loop, Reaches slots defParams input tree 0 loop → Consumes slots defParams input loop := by
  rw [growingTree_returns_iff_productive (Nat.zero_lt_of_lt hroom) params params' defParams tokens
    tree input hparse]
  refine forall₂_congr fun loop hloop => ⟨Productive.consumes, fun hconsumes => ⟨hconsumes, ?_⟩⟩
  have hstart := start_le hloop (Nat.zero_le _)
  exact (passes_le hstart (progresses_of_consumes hconsumes)).trans hroom

/-- For an arm of an accepted definition and any argument list: the matcher returns and every
pass of a loop but the last consumes a token, exactly when every loop it reaches is productive. -/
theorem matcherTree_returns_iff_productive (params params' defParams : List CMacroParam)
    (tokens : List CToken) (tree : List CzetRepNode) (input : List CToken)
    (hparse : cCzetParseTree params tokens true = .ok (tree, params')) :
    (cCzetMatcherTree defParams tree input ≠ none ∧
      ∀ loop, Reaches 7 defParams input tree 0 loop → Progresses 7 defParams input loop) ↔
    ∀ loop, Reaches 7 defParams input tree 0 loop → Productive 7 defParams input loop :=
  growingTree_returns_iff_productive (by decide) params params' defParams tokens tree input hparse

/-- The pattern `M $( $( $x )* )*`. -/
def nestedStarPattern : List CToken :=
  [nameToken "M", nameToken "$", punctToken .openParen, nameToken "$", punctToken .openParen,
    nameToken "$x", punctToken .closeParen, punctToken .mult, punctToken .closeParen,
    punctToken .mult]

def nestedStarTree : List CzetRepNode :=
  [.tok (nameToken "M"), .rep [.rep [.cap 0] .star none [0]] .star none [0]]

/-- The outer loop of `M $( $( $x )* )*` repeats the empty match of the inner one. -/
theorem nested_star_never_returns :
    ∃ params, cCzetParseTree listParams nestedStarPattern true = .ok (nestedStarTree, params) ∧
      ¬ (cCzetMatcherTree params nestedStarTree [nameToken "M"] ≠ none ∧
        ∀ loop, Reaches 7 params [nameToken "M"] nestedStarTree 0 loop →
          Progresses 7 params [nameToken "M"] loop) := by
  refine ⟨_, rfl, ?_⟩
  rintro ⟨hreturns, -⟩
  refine hreturns ?_
  have hloop : ∀ params, Reaches 7 params [nameToken "M"] nestedStarTree 0
      ⟨[.rep [.cap 0] .star none [0]], none, 1⟩ := by
    intro params
    exact .after List.mem_cons_self (.here (by decide))
  have hlevel : level 1 0 nestedStarTree := by
    simp [nestedStarTree, level, levelNode, mentions, mentionsNode]
  exact (verdict_none_iff hlevel).mpr ⟨_, hloop _, rfl⟩

private def threeNames : List CToken :=
  [nameToken "M", nameToken "a", punctToken .comma, nameToken "b", punctToken .comma, nameToken "c"]

/-- `M $($x),*` returns on `M a , b , c`, after three passes. -/
theorem listed_names_return :
    ∃ tree params, cCzetParseTree listParams starPattern true = .ok (tree, params) ∧
      (∃ loop, Reaches 7 params threeNames tree 0 loop ∧
        (loopPasses 7 params threeNames loop).length = 3) ∧
      cCzetMatcherTree params tree threeNames ≠ none ∧
      ∀ loop, Reaches 7 params threeNames tree 0 loop → Progresses 7 params threeNames loop := by
  refine ⟨_, _, rfl, ⟨⟨[.cap 0], some (punctToken .comma), 1⟩, ?_, rfl⟩,
    (matcherTree_returns_iff_productive listParams _ _ starPattern _ _ rfl).mpr ?_⟩
  · exact .after List.mem_cons_self (.here (by decide))
  · intro loop hloop
    cases hloop with
    | after ha hrest =>
        cases List.mem_singleton.mp ha
        cases hrest with
        | here hmod =>
            refine ⟨Or.inr ⟨punctToken .comma, rfl, ?_⟩, by decide⟩
            rintro ⟨hempty, -⟩
            exact absurd hempty (by decide)
        | pass hmod hprobe hkids =>
            cases hkids with
            | after _ hnone => cases hnone
        | after _ hnone => cases hnone

/-- For an arm of an accepted definition and any argument list: every push on the table of a loop
finds a free slot exactly when no loop that the match reaches makes eight passes. -/
theorem matcherTree_pushes_fit_iff (params params' defParams : List CMacroParam)
    (tokens : List CToken) (tree : List CzetRepNode) (input : List CToken)
    (hparse : cCzetParseTree params tokens true = .ok (tree, params')) :
    cCzetMatcherTree defParams tree input ≠ none ↔
      ∀ loop, Reaches 7 defParams input tree 0 loop →
        (loopPasses 7 defParams input loop).length < 8 := by
  obtain ⟨d, hlevel⟩ := (parseTree_level hparse 0).2.1
  rw [cCzetMatcherTree, Ne, verdict_none_iff hlevel, not_exists]
  apply forall_congr'
  intro loop
  have hle : (loopPasses 7 defParams input loop).length ≤ 8 := iterations_length_le _ _ _ _ _
  rw [not_and]
  refine imp_congr_right fun _ => ?_
  omega

/-- The argument list `M x , x , …` with `n + 1` names. -/
private def namesList (n : Nat) : List CToken :=
  nameToken "M" :: nameToken "x" ::
    (List.replicate n [punctToken .comma, nameToken "x"]).flatten

private theorem names_loop {params : List CMacroParam} {n : Nat} {loop : GroupLoop}
    (h : Reaches 7 params (namesList n)
      [.tok (nameToken "M"), .rep [.cap 0] .star (some (punctToken .comma)) [0]] 0 loop) :
    loop = ⟨[.cap 0], some (punctToken .comma), 1⟩ := by
  cases h with
  | after ha hrest =>
      have hat : alternatives 7 params (namesList n) (.tok (nameToken "M")) 0 = [([], 1)] := rfl
      rw [hat] at ha
      obtain rfl : _ = (([], 1) : Alternative) := by
        cases hpass : passNodes 7 params (namesList n)
            [.rep [.cap 0] .star (some (punctToken .comma)) [0]] 1 <;>
          simpa [tried, hpass] using ha
      cases hrest with
      | here hmod => rfl
      | pass hmod hprobe hkids =>
          cases hkids with
          | after _ hnone => cases hnone
      | after _ hnone => cases hnone

/-- `M $($x),*` on seven names. -/
theorem seven_names_fit :
    ∃ tree params, cCzetParseTree listParams starPattern true = .ok (tree, params) ∧
      cCzetMatcherTree params tree (namesList 6) ≠ none := by
  refine ⟨_, _, rfl,
    (matcherTree_pushes_fit_iff listParams _ _ starPattern _ (namesList 6) rfl).mpr ?_⟩
  intro loop hloop
  rw [names_loop hloop]
  decide

/-- `M $($x),*` on eight names: the eighth iteration is the ninth entry of the table. -/
theorem eight_names_overrun :
    ∃ tree params, cCzetParseTree listParams starPattern true = .ok (tree, params) ∧
      cCzetMatcherTree params tree (namesList 7) = none := by
  refine ⟨_, _, rfl, ?_⟩
  decide

end CZet
