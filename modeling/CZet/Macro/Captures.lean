/- source: src/gcc/gcc/c/c-parser.cc (c_czet_mt_nodes, c_czet_matcher_tree)
   digest: The captures of a match are faithful exactly when no abandoned alternative left one
     behind and no parameter is captured twice. -/

import CZet.Macro.CaptureLists

set_option autoImplicit false
set_option relaxedAutoImplicit false

namespace CZet

section Spans

variable {slots : Nat} {params : List CMacroParam} {input : List CToken} {p : Nat}

private def KeepsSpan (p : Nat) (caps : Captures) : MtResult → Prop
  | .fault => True
  | .fail caps' => spanAt caps' p = spanAt caps p
  | .ok _ caps' => spanAt caps' p = spanAt caps p

private theorem keepsSpan_trans {caps caps₁ : Captures} {r : MtResult}
    (h₁ : spanAt caps₁ p = spanAt caps p) (h : KeepsSpan p caps₁ r) : KeepsSpan p caps r := by
  cases r with
  | fault => trivial
  | fail caps' => exact h.trans h₁
  | ok k caps' => exact h.trans h₁

private theorem spanAt_setLists (uses : List Nat) (f : Nat → List CzetCapNode) (caps : Captures) :
    spanAt (setLists uses f caps) p = spanAt caps p := by
  simp only [spanAt, setLists]
  split <;> rfl

private theorem tryCuts_keepsSpan {rest : Nat → Captures → MtResult}
    (hrest : ∀ j caps, KeepsSpan p caps (rest j caps)) {q : Nat} (hq : q ≠ p) (isRepeat : Bool)
    (ii : Nat) (cuts : List Nat) (caps : Captures) :
    KeepsSpan p caps (tryCuts rest q isRepeat ii cuts caps) := by
  have hset : ∀ (c : Captures) (a b : Nat), spanAt (setSpan c q a b) p = spanAt c p := by
    intro c a b
    rw [spanAt_setSpan, if_neg (Ne.symm hq)]
  induction cuts generalizing caps with
  | nil => rfl
  | cons cut cuts ih =>
      have h := hrest cut (setSpan caps q ii cut)
      rw [tryCuts]
      cases hres : rest cut (setSpan caps q ii cut) with
      | fault => trivial
      | fail caps' =>
          rw [hres] at h
          refine keepsSpan_trans ?_ (ih (setSpan caps' q 0 0))
          rw [hset, h, hset]
      | ok k caps' =>
          rw [hres] at h
          have hleaf : spanAt (if isRepeat then czetCapLeaf caps' q ii cut else caps') p =
              spanAt caps' p := by
            split
            · exact spanAt_capLeaf caps' q p ii cut
            · rfl
          exact hleaf.trans (h.trans (hset caps ii cut))

private theorem iterate_keepsSpan {kids : Nat → Captures → MtResult}
    (hkids : ∀ j caps, KeepsSpan p caps (kids j caps)) (sep : Option CToken) (uses : List Nat)
    (savedLen : Nat → Nat) (room : Nat) (posAfter : List Nat) (cur : Nat) (needSep : Bool)
    (caps : Captures) {posAfter' : List Nat} {caps' : Captures}
    (h : iterate kids input sep uses savedLen room posAfter cur needSep caps =
      some (posAfter', caps')) : spanAt caps' p = spanAt caps p := by
  have hstep : ∀ probe caps, KeepsSpan p caps (kids probe (wrapIter uses caps)) :=
    fun probe caps => keepsSpan_trans (spanAt_setLists uses _ caps) (hkids probe _)
  induction room generalizing posAfter cur needSep caps with
  | zero =>
      rw [iterate] at h
      cases hprobe : iterProbe input sep needSep cur with
      | none =>
          simp only [hprobe, Option.some.injEq, Prod.mk.injEq] at h
          rw [h.2]
      | some probe =>
          have hk := hstep probe caps
          cases hres : kids probe (wrapIter uses caps) with
          | fault => simp [hprobe, hres] at h
          | ok stop caps'' => simp [hprobe, hres] at h
          | fail caps'' =>
              simp only [hprobe, hres, Option.some.injEq, Prod.mk.injEq] at h
              rw [hres] at hk
              rw [← h.2, restoreLen, spanAt_setLists, hk]
  | succ room ih =>
      rw [iterate] at h
      cases hprobe : iterProbe input sep needSep cur with
      | none =>
          simp only [hprobe, Option.some.injEq, Prod.mk.injEq] at h
          rw [h.2]
      | some probe =>
          have hk := hstep probe caps
          cases hres : kids probe (wrapIter uses caps) with
          | fault => simp [hprobe, hres] at h
          | fail caps'' =>
              simp only [hprobe, hres, Option.some.injEq, Prod.mk.injEq] at h
              rw [hres] at hk
              rw [← h.2, restoreLen, spanAt_setLists, hk]
          | ok stop caps'' =>
              simp only [hprobe, hres] at h
              rw [hres] at hk
              rw [ih _ _ _ _ h, popIter, spanAt_setLists, hk]

private theorem backtrack_keepsSpan {rest : Nat → Captures → MtResult}
    (hrest : ∀ j caps, KeepsSpan p caps (rest j caps)) (uses : List Nat) (savedLen : Nat → Nat)
    (posAfter ts : List Nat) (caps : Captures) :
    KeepsSpan p caps (backtrack rest uses savedLen posAfter ts caps) := by
  induction ts generalizing caps with
  | nil => rfl
  | cons t ts ih =>
      have h := keepsSpan_trans (spanAt_setLists uses _ caps)
        (hrest (posAfter.getD t 0) (restoreLen uses savedLen t caps caps))
      rw [backtrack]
      cases hres : rest (posAfter.getD t 0) (restoreLen uses savedLen t caps caps) with
      | fault => trivial
      | fail caps' =>
          rw [hres] at h
          exact keepsSpan_trans h (ih caps')
      | ok k caps' =>
          rw [hres] at h
          exact h

private theorem query_keepsSpan {kids : List CzetRepNode}
    (hkids : ∀ j caps, KeepsSpan p caps (mtNodes slots params input kids j caps))
    {rest : Nat → Captures → MtResult} (hrest : ∀ j caps, KeepsSpan p caps (rest j caps))
    (sep : Option CToken) (uses : List Nat) (ii : Nat) (caps : Captures) :
    KeepsSpan p caps (mtNode slots params input (.rep kids .query sep uses) rest ii caps) := by
  rw [mtNode_query]
  have hwith : spanAt (withLists uses caps) p = spanAt caps p := spanAt_setLists uses _ caps
  have hk := hkids ii (wrapIter uses (withLists uses caps))
  replace hk := keepsSpan_trans ((spanAt_setLists uses _ _).trans hwith) hk
  cases hres : mtNodes slots params input kids ii (wrapIter uses (withLists uses caps)) with
  | fault => trivial
  | fail caps' =>
      rw [hres] at hk
      exact keepsSpan_trans ((spanAt_setLists uses _ caps').trans hk) (hrest ii _)
  | ok probe caps' =>
      rw [hres] at hk
      have hr := keepsSpan_trans ((spanAt_setLists uses _ caps').trans hk)
        (hrest probe (popIter uses (withLists uses caps) caps'))
      simp only
      cases hres' : rest probe (popIter uses (withLists uses caps) caps') with
      | fault => trivial
      | ok after caps'' =>
          rw [hres'] at hr
          exact hr
      | fail caps'' =>
          rw [hres'] at hr
          exact keepsSpan_trans ((spanAt_setLists uses _ caps'').trans hr) (hrest ii _)

private theorem many_keepsSpan {kids : List CzetRepNode}
    (hkids : ∀ j caps, KeepsSpan p caps (mtNodes slots params input kids j caps))
    {rest : Nat → Captures → MtResult} (hrest : ∀ j caps, KeepsSpan p caps (rest j caps))
    {mod : RepMod} (hmod : mod ≠ .query) (sep : Option CToken) (uses : List Nat) (ii : Nat)
    (caps : Captures) :
    KeepsSpan p caps (mtNode slots params input (.rep kids mod sep uses) rest ii caps) := by
  rw [mtNode_many hmod]
  cases hit : iterate (mtNodes slots params input kids) input sep uses
    (lengths (withLists uses caps)) slots [ii] ii false (withLists uses caps) with
  | none => trivial
  | some r =>
      have hspan := iterate_keepsSpan hkids sep uses _ slots [ii] ii false _ hit
      exact keepsSpan_trans (hspan.trans (spanAt_setLists uses _ caps))
        (backtrack_keepsSpan hrest uses _ _ _ _)

mutual

private theorem node_keepsSpan : ∀ (n : CzetRepNode), mentionsNode p n = false →
    ∀ {rest : Nat → Captures → MtResult}, (∀ j caps, KeepsSpan p caps (rest j caps)) →
    ∀ (ii : Nat) (caps : Captures), KeepsSpan p caps (mtNode slots params input n rest ii caps)
  | .tok t, _, rest, hrest, ii, caps => by
      rw [mtNode]
      cases input[ii]? with
      | none => rfl
      | some itok =>
          by_cases heq : cCzetTokEq t itok = true
          · simp only [heq, if_true]
            exact hrest (ii + 1) caps
          · simp only [heq]
            rfl
  | .cap q, hmen, rest, hrest, ii, caps => by
      have hq : q ≠ p := by simpa [mentionsNode] using hmen
      rw [mtNode]
      cases params[q]? with
      | none => rfl
      | some par =>
          by_cases hfixed : isFixedKind par.kind = true
          · simp only [hfixed, if_true]
            cases matchFixed par.kind input ii with
            | none => rfl
            | some stop =>
                refine keepsSpan_trans ?_ (hrest stop _)
                have hset : spanAt (setSpan caps q ii stop) p = spanAt caps p := by
                  rw [spanAt_setSpan, if_neg (Ne.symm hq)]
                split
                · rw [spanAt_capLeaf, hset]
                · exact hset
          · simp only [hfixed]
            exact tryCuts_keepsSpan hrest hq par.isRepeat ii _ caps
  | .rep kids mod sep uses, hmen, rest, hrest, ii, caps => by
      rw [mentionsNode] at hmen
      have hkids := nodes_keepsSpan kids hmen
      cases mod with
      | query => exact query_keepsSpan hkids hrest sep uses ii caps
      | star => exact many_keepsSpan hkids hrest (by decide) sep uses ii caps
      | plus => exact many_keepsSpan hkids hrest (by decide) sep uses ii caps

private theorem nodes_keepsSpan : ∀ (nodes : List CzetRepNode), mentions p nodes = false →
    ∀ (ii : Nat) (caps : Captures), KeepsSpan p caps (mtNodes slots params input nodes ii caps)
  | [], _, ii, caps => by
      rw [mtNodes]
      rfl
  | n :: rest, hmen, ii, caps => by
      rw [mentions, Bool.or_eq_false_iff] at hmen
      rw [mtNodes]
      exact node_keepsSpan n hmen.1 (nodes_keepsSpan rest hmen.2) ii caps

end

theorem passNodes_of_fail {nodes : List CzetRepNode} {d : Nat} (hlevel : level p d nodes)
    {ii : Nat} {caps caps' : Captures} (h : mtNodes slots params input nodes ii caps = .fail caps') :
    passNodes slots params input nodes ii = none := by
  have hout : Outcome slots params input p nodes ii _ _ := nodes_outcome nodes hlevel ii caps
  rw [h] at hout
  exact hout.1

theorem passNodes_of_ok {nodes : List CzetRepNode} {d : Nat} (hlevel : level p d nodes)
    {ii k : Nat} {caps caps' : Captures} (h : mtNodes slots params input nodes ii caps =
      .ok k caps') :
    passNodes slots params input nodes ii = some k := by
  have hout : Outcome slots params input p nodes ii _ _ := nodes_outcome nodes hlevel ii caps
  rw [h] at hout
  exact hout.1

/-- A successful call on `n :: rest` ends in one on `rest` behind the chosen alternative, which
starts with the span of `n` if that node names `p`. -/
private def Continues (slots : Nat) (params : List CMacroParam) (input : List CToken) (p : Nat)
    (n : CzetRepNode) (rest : List CzetRepNode) (ii stop : Nat) (caps' : Captures) : Prop :=
  ∃ a caps₁ caps₂, (alternatives slots params input n ii).find? (passes slots params input rest) =
    some a ∧
    mtNodes slots params input rest a.2 caps₁ = .ok stop caps₂ ∧ spanAt caps' p = spanAt caps₂ p ∧
    (n = .cap p → spanAt caps₁ p = (ii, a.2))

private theorem tryCuts_continues {rest : List CzetRepNode} {d : Nat} (hlevel : level p d rest)
    {q : Nat} {isRepeat : Bool} {ii stop : Nat} {cuts : List Nat} {caps caps' : Captures}
    (h : tryCuts (mtNodes slots params input rest) q isRepeat ii cuts caps = .ok stop caps') :
    ∃ a caps₁ caps₂, (cuts.map fun stop => (([], stop) : Alternative)).find?
        (passes slots params input rest) = some a ∧
      mtNodes slots params input rest a.2 caps₁ = .ok stop caps₂ ∧ spanAt caps' p = spanAt caps₂ p ∧
      (q = p → spanAt caps₁ p = (ii, a.2)) := by
  induction cuts generalizing caps with
  | nil =>
      rw [tryCuts] at h
      cases h
  | cons cut cuts ih =>
      rw [tryCuts] at h
      rw [List.map_cons]
      cases hres : mtNodes slots params input rest cut (setSpan caps q ii cut) with
      | fault => simp [hres] at h
      | fail caps'' =>
          simp only [hres] at h
          obtain ⟨a, caps₁, caps₂, hfind, hrest⟩ := ih h
          refine ⟨a, caps₁, caps₂, ?_, hrest⟩
          rw [List.find?_cons_of_neg, hfind]
          simp [passes, passNodes_of_fail hlevel hres]
      | ok k caps'' =>
          simp only [hres, MtResult.ok.injEq] at h
          obtain ⟨rfl, rfl⟩ := h
          refine ⟨([], cut), setSpan caps q ii cut, caps'', ?_, hres, ?_, ?_⟩
          · rw [List.find?_cons_of_pos]
            simp [passes, passNodes_of_ok hlevel hres]
          · split
            · exact spanAt_capLeaf caps'' q p ii cut
            · rfl
          · rintro rfl
            rw [spanAt_setSpan, if_pos rfl]

private theorem backtrack_continues {rest : List CzetRepNode} {d : Nat} (hlevel : level p d rest)
    {uses : List Nat} {savedLen : Nat → Nat} {ii stop : Nat} {its : List (Nat × Nat)}
    {ts : List Nat} {caps caps' : Captures}
    (h : backtrack (mtNodes slots params input rest) uses savedLen (ii :: its.map Prod.snd) ts caps =
      .ok stop caps') :
    ∃ a caps₁, (ts.map (keepIters ii its)).find? (passes slots params input rest) = some a ∧
      mtNodes slots params input rest a.2 caps₁ = .ok stop caps' := by
  induction ts generalizing caps with
  | nil =>
      rw [backtrack] at h
      cases h
  | cons t ts ih =>
      rw [backtrack] at h
      rw [List.map_cons]
      cases hres : mtNodes slots params input rest ((ii :: its.map Prod.snd).getD t 0)
          (restoreLen uses savedLen t caps caps) with
      | fault => simp only [hres, reduceCtorEq] at h
      | fail caps'' =>
          simp only [hres] at h
          obtain ⟨a, caps₁, hfind, hrest⟩ := ih h
          refine ⟨a, caps₁, ?_, hrest⟩
          have hnone : passNodes slots params input rest (keepIters ii its t).2 = none :=
            passNodes_of_fail hlevel hres
          rw [List.find?_cons_of_neg, hfind]
          simp [passes, hnone]
      | ok k caps'' =>
          simp only [hres, MtResult.ok.injEq] at h
          obtain ⟨rfl, rfl⟩ := h
          have hsome : passNodes slots params input rest (keepIters ii its t).2 = some k :=
            passNodes_of_ok hlevel hres
          refine ⟨keepIters ii its t, _, ?_, hres⟩
          rw [List.find?_cons_of_pos]
          simp [passes, hsome]

private theorem query_continues {kids rest : List CzetRepNode} {d d' : Nat}
    (hkids : level p d' kids) (hlevel : level p d rest) {sep : Option CToken} {uses : List Nat}
    {ii stop : Nat} {caps caps' : Captures}
    (h : mtNode slots params input (.rep kids .query sep uses) (mtNodes slots params input rest)
      ii caps =
      .ok stop caps') :
    ∃ a caps₁, (alternatives slots params input (.rep kids .query sep uses) ii).find?
        (passes slots params input rest) = some a ∧
      mtNodes slots params input rest a.2 caps₁ = .ok stop caps' := by
  rw [mtNode_query] at h
  cases hres : mtNodes slots params input kids ii (wrapIter uses (withLists uses caps)) with
  | fault => simp [hres] at h
  | fail caps'' =>
      simp only [hres] at h
      refine ⟨([], ii), _, ?_, h⟩
      rw [alternatives, passNodes_of_fail hkids hres]
      simp [passes, passNodes_of_ok hlevel h]
  | ok probe caps'' =>
      simp only [hres] at h
      have halts : alternatives slots params input (.rep kids .query sep uses) ii =
          [([ii], probe), ([], ii)] := by
        rw [alternatives, passNodes_of_ok hkids hres]
      rw [halts]
      cases hr : mtNodes slots params input rest probe
          (popIter uses (withLists uses caps) caps'') with
      | fault => simp [hr] at h
      | ok after caps₂ =>
          simp only [hr, MtResult.ok.injEq] at h
          obtain ⟨rfl, rfl⟩ := h
          exact ⟨([ii], probe), _, by simp [passes, passNodes_of_ok hlevel hr], hr⟩
      | fail caps₂ =>
          simp only [hr] at h
          refine ⟨([], ii), _, ?_, h⟩
          simp [passes, passNodes_of_fail hlevel hr, passNodes_of_ok hlevel h]

private theorem many_continues {kids rest : List CzetRepNode} {d d' : Nat}
    (hkids : level p d' kids) {uses : List Nat} (huses : p ∈ uses ↔ mentions p kids = true)
    (hlevel : level p d rest) {mod : RepMod} (hmod : mod ≠ .query) {sep : Option CToken}
    {ii stop : Nat} {caps caps' : Captures}
    (h : mtNode slots params input (.rep kids mod sep uses) (mtNodes slots params input rest) ii
      caps =
      .ok stop caps') :
    ∃ a caps₁, (alternatives slots params input (.rep kids mod sep uses) ii).find?
        (passes slots params input rest) = some a ∧
      mtNodes slots params input rest a.2 caps₁ = .ok stop caps' := by
  rw [mtNode_many hmod] at h
  cases hit : iterate (mtNodes slots params input kids) input sep uses
    (lengths (withLists uses caps)) slots [ii] ii false (withLists uses caps) with
  | none => simp [hit] at h
  | some r =>
      obtain ⟨posAfter, caps₁⟩ := r
      obtain ⟨rfl, -, -⟩ := iterate_outcome hkids huses (nodes_outcome kids hkids) sep
        (lengths (withLists uses caps)) slots [ii] ii false (withLists uses caps)
        (fun _ => by simp [lengths]) (by simp) hit
      simp only [hit, List.singleton_append, List.length_cons, List.length_map,
        Nat.add_sub_cancel] at h
      rw [alternatives_many hmod]
      exact backtrack_continues hlevel h

private theorem node_continues {n : CzetRepNode} {rest : List CzetRepNode} {d : Nat}
    (hnode : levelNode p d n) (hlevel : level p d rest) {ii stop : Nat} {caps caps' : Captures}
    (h : mtNode slots params input n (mtNodes slots params input rest) ii caps = .ok stop caps') :
    Continues slots params input p n rest ii stop caps' := by
  cases n with
  | tok t =>
      rw [mtNode] at h
      cases hin : input[ii]? with
      | none => simp [hin] at h
      | some itok =>
          by_cases heq : cCzetTokEq t itok = true
          · simp only [hin, heq, if_true] at h
            refine ⟨([], ii + 1), caps, caps', ?_, h, rfl, by simp⟩
            simp [alternatives, nodeCuts, hin, heq, passes, passNodes_of_ok hlevel h]
          · simp [hin, heq] at h
  | cap q =>
      rw [mtNode] at h
      cases hpar : params[q]? with
      | none => simp [hpar] at h
      | some par =>
          by_cases hfixed : isFixedKind par.kind = true
          · cases hm : matchFixed par.kind input ii with
            | none => simp [hpar, hfixed, hm] at h
            | some k =>
                simp only [hpar, hfixed, hm, if_true] at h
                refine ⟨([], k), _, caps', ?_, h, rfl, ?_⟩
                · simp [alternatives, nodeCuts, hpar, hfixed, hm, passes, passNodes_of_ok hlevel h]
                · intro hq
                  cases hq
                  have hset : spanAt (setSpan caps p ii k) p = (ii, k) := by
                    rw [spanAt_setSpan, if_pos rfl]
                  split
                  · rw [spanAt_capLeaf, hset]
                  · exact hset
          · simp only [hpar, hfixed] at h
            obtain ⟨a, caps₁, caps₂, hfind, hrest, hspan, hstart⟩ := tryCuts_continues hlevel h
            refine ⟨a, caps₁, caps₂, ?_, hrest, hspan, fun hq => hstart (by simpa using hq)⟩
            simpa [alternatives, nodeCuts, hpar, hfixed] using hfind
  | rep kids mod sep uses =>
      rw [levelNode] at hnode
      have hcont : ∃ a caps₁, (alternatives slots params input (.rep kids mod sep uses) ii).find?
          (passes slots params input rest) = some a ∧
          mtNodes slots params input rest a.2 caps₁ = .ok stop caps' := by
        cases mod with
        | query => exact query_continues hnode.2.2 hlevel h
        | star => exact many_continues hnode.2.2 hnode.1 hlevel (by decide) h
        | plus => exact many_continues hnode.2.2 hnode.1 hlevel (by decide) h
      obtain ⟨a, caps₁, hfind, hrest⟩ := hcont
      exact ⟨a, caps₁, caps', hfind, hrest, rfl, by simp⟩

private theorem nodes_span {nodes : List CzetRepNode} {d : Nat} (hlevel : level p d nodes)
    {ii k : Nat} {caps caps' : Captures}
    (h : mtNodes slots params input nodes ii caps = .ok k caps') (m start stop : Nat)
    (hm : nodes[m]? = some (.cap p)) (hlast : mentions p (nodes.drop (m + 1)) = false)
    (hspan : (acceptedNodes slots params input nodes ii)[m]? = some (.span start stop)) :
    spanAt caps' p = (start, stop) := by
  induction nodes generalizing ii caps caps' m with
  | nil => simp at hm
  | cons n rest ih =>
      rw [level] at hlevel
      rw [mtNodes] at h
      obtain ⟨a, caps₁, caps₂, hfind, hrest, hcaps, hset⟩ := node_continues hlevel.1 hlevel.2 h
      rw [acceptedNodes, chosen_of_find hfind] at hspan
      cases m with
      | zero =>
          simp only [List.getElem?_cons_zero, Option.some.injEq] at hm hspan
          subst hm
          rw [acceptedNode] at hspan
          cases hspan
          have hkeep : KeepsSpan p caps₁ (mtNodes slots params input rest a.2 caps₁) :=
            nodes_keepsSpan rest (by simpa using hlast) a.2 caps₁
          rw [hrest] at hkeep
          rw [hcaps, hkeep, hset rfl]
      | succ m =>
          rw [hcaps]
          exact ih hlevel.2 hrest m (by simpa using hm) (by simpa using hlast) (by simpa using hspan)

end Spans

section Resubstitution

variable {slots : Nat} {params : List CMacroParam} {input : List CToken}

theorem slice_append {i j k : Nat} (hij : i ≤ j) (hjk : j ≤ k) :
    slice input i k = slice input i j ++ slice input j k := by
  have hk : k - i = (j - i) + (k - j) := by omega
  have hj : i + (j - i) = j := by omega
  rw [slice, slice, slice, hk, List.take_add, List.drop_drop, hj]

private theorem tokEq_refl (ts : List CToken) :
    List.Forall₂ (fun o i => cCzetTokEq o i = true) ts ts := by
  induction ts with
  | nil => exact .nil
  | cons t ts ih => exact .cons (cCzetTokEq_refl t) ih

/-- Consecutive iterations, with separators between them. -/
def IterChain (passKids : Nat → Option Nat) (input : List CToken) (sep : Option CToken) :
    Bool → Nat → List (Nat × Nat) → Prop
  | _, _, [] => True
  | needSep, cur, it :: its => iterProbe input sep needSep cur = some it.1 ∧
      passKids it.1 = some it.2 ∧ IterChain passKids input sep sep.isSome it.2 its

def endOf : Nat → List (Nat × Nat) → Nat
  | cur, [] => cur
  | _, it :: its => endOf it.2 its

theorem iterations_chain (passKids : Nat → Option Nat) (sep : Option CToken)
    (room cur : Nat) (needSep : Bool) (t : Nat) :
    IterChain passKids input sep needSep cur
      ((iterations passKids input sep room cur needSep).take t) := by
  induction room generalizing cur needSep t with
  | zero =>
      rw [iterations]
      simp [IterChain]
  | succ room ih =>
      rw [iterations]
      split
      · simp [IterChain]
      · rename_i probe hprobe
        split
        · simp [IterChain]
        · rename_i stop hstop
          cases t with
          | zero => simp [IterChain]
          | succ t => exact ⟨hprobe, hstop, ih stop sep.isSome t⟩

private theorem keepIters_end (ii : Nat) (its : List (Nat × Nat)) {t : Nat}
    (ht : t ≤ its.length) : (keepIters ii its t).2 = endOf ii (its.take t) := by
  induction its generalizing ii t with
  | nil =>
      obtain rfl : t = 0 := by simpa using ht
      rfl
  | cons it its ih =>
      cases t with
      | zero => rfl
      | succ t =>
          have h := ih it.2 (Nat.le_of_succ_le_succ ht)
          simp only [List.take_succ_cons, endOf]
          rw [← h]
          rfl

theorem alternatives_chain {kids : List CzetRepNode} {mod : RepMod}
    {sep : Option CToken} {uses : List Nat} {ii : Nat} {a : Alternative}
    (ha : a ∈ alternatives slots params input (.rep kids mod sep uses) ii) :
    ∃ its, a.1 = its.map Prod.fst ∧ a.2 = endOf ii its ∧
      IterChain (passNodes slots params input kids) input sep false ii its := by
  have hmany : ∀ minIt its, its = iterations (passNodes slots params input kids) input sep slots
    ii false →
      a ∈ (countsDown minIt its.length).map (keepIters ii its) →
      ∃ its, a.1 = its.map Prod.fst ∧ a.2 = endOf ii its ∧
        IterChain (passNodes slots params input kids) input sep false ii its := by
    rintro minIt its rfl ha
    obtain ⟨t, ht, rfl⟩ := List.mem_map.mp ha
    exact ⟨_, rfl, keepIters_end ii _ (mem_countsDown.mp ht).2,
      iterations_chain _ sep slots ii false t⟩
  cases mod with
  | query =>
      rw [alternatives] at ha
      split at ha
      · rename_i probe hprobe
        rcases List.mem_cons.mp ha with rfl | ha
        · exact ⟨[(ii, probe)], rfl, rfl, by simp [iterProbe], hprobe, trivial⟩
        · rw [List.mem_singleton.mp ha]
          exact ⟨[], rfl, rfl, trivial⟩
      · rw [List.mem_singleton.mp ha]
        exact ⟨[], rfl, rfl, trivial⟩
  | star =>
      rw [alternatives_many (by decide)] at ha
      exact hmany _ _ rfl ha
  | plus =>
      rw [alternatives_many (by decide)] at ha
      exact hmany _ _ rfl ha

/-- Substituting the accepted captures back reproduces the tokens from `ii` to `k`. -/
private def Reproduces (slots : Nat) (params : List CMacroParam) (input : List CToken)
    (caps : Captures)
    (nodes : List CzetRepNode) (ii k : Nat) : Prop :=
  ∀ lv tl : Nat → List CzetCapNode,
    (∀ p, lv p = acceptedForest slots params input p nodes ii ++ tl p) →
    ∃ out lv', Resub params input caps nodes lv out lv' ∧ (∀ p, lv' p = tl p) ∧
      List.Forall₂ (fun o i => cCzetTokEq o i = true) out (slice input ii k)

theorem endOf_ge {kids : List CzetRepNode} {sep : Option CToken} {needSep : Bool}
    {cur : Nat} {its : List (Nat × Nat)}
    (h : IterChain (passNodes slots params input kids) input sep needSep cur its) :
    cur ≤ endOf cur its := by
  induction its generalizing cur needSep with
  | nil => exact Nat.le_refl _
  | cons it its ih =>
      obtain ⟨hprobe, hpass, hrest⟩ := h
      have h₁ := iterProbe_ge hprobe
      have h₂ := passNodes_ge slots params input kids hpass
      have h₃ := ih hrest
      simp only [endOf]
      omega

theorem iterProbe_slice {sep : Option CToken} {needSep : Bool} {cur probe : Nat}
    (h : iterProbe input sep (needSep && sep.isSome) cur = some probe) :
    List.Forall₂ (fun o i => cCzetTokEq o i = true) (if needSep then sep.toList else [])
      (slice input cur probe) := by
  cases needSep with
  | false =>
      simp only [iterProbe, Bool.false_and, Option.some.injEq] at h
      subst h
      simp [slice]
  | true =>
      cases sep with
      | none =>
          simp only [iterProbe, Option.isSome_none, Bool.and_false, Option.some.injEq] at h
          subst h
          simp [slice]
      | some s =>
          simp only [iterProbe, Option.isSome_some, Bool.and_self] at h
          cases hin : input[cur]? with
          | none => simp [hin] at h
          | some t =>
              simp only [hin] at h
              split at h
              · rename_i heq
                cases h
                obtain ⟨hlt, rfl⟩ := List.getElem?_eq_some_iff.mp hin
                have hslice : slice input cur (cur + 1) = [input[cur]] := by
                  rw [slice, Nat.add_sub_cancel_left, List.drop_eq_getElem_cons hlt]
                  rfl
                rw [hslice]
                exact .cons heq .nil
              · cases h

private theorem iters_reproduce {caps : Captures} {kids : List CzetRepNode} {uses : List Nat}
    (hunused : ∀ p, p ∉ uses → ∀ ii, acceptedForest slots params input p kids ii = [])
    (hkids : ∀ ii k, passNodes slots params input kids ii = some k →
      Reproduces slots params input caps kids ii k) {sep : Option CToken} (needSep : Bool) {cur : Nat}
    {its : List (Nat × Nat)}
    (hchain : IterChain (passNodes slots params input kids) input sep (needSep && sep.isSome) cur its)
    (lv tl : Nat → List CzetCapNode)
    (hlv : ∀ p, lv p = (if p ∈ uses then its.map fun it =>
      CzetCapNode.node (acceptedForest slots params input p kids it.1) else []) ++ tl p) :
    ∃ out lv', ResubIters params input caps kids sep uses needSep lv out lv' ∧
      (∀ p, lv' p = tl p) ∧
      List.Forall₂ (fun o i => cCzetTokEq o i = true) out (slice input cur (endOf cur its)) := by
  induction its generalizing needSep cur lv with
  | nil =>
      refine ⟨[], lv, .done lv, fun p => by rw [hlv p]; simp, ?_⟩
      simp [endOf, slice]
  | cons it its ih =>
      obtain ⟨hprobe, hpass, hrest⟩ := hchain
      obtain ⟨body, lv₁, hbody, hlv₁, hbodyEq⟩ := hkids it.1 it.2 hpass
        (fun p => if p ∈ uses then acceptedForest slots params input p kids it.1 else lv p)
        (fun p => if p ∈ uses then [] else lv p) (by
          intro p
          split
          · simp
          · rename_i hp
            simp [hunused p hp])
      have hmore : ∀ p ∈ uses, lv p = .node (acceptedForest slots params input p kids it.1) ::
          ((its.map fun it => CzetCapNode.node (acceptedForest slots params input p kids it.1)) ++
            tl p) := by
        intro p hp
        rw [hlv p, if_pos hp]
        rfl
      obtain ⟨out, lv', hiters, hlv', houtEq⟩ := ih true (by simpa using hrest)
        (fun p => if p ∈ uses then
          (its.map fun it => CzetCapNode.node (acceptedForest slots params input p kids it.1)) ++ tl p
          else lv₁ p) (by
          intro p
          split
          · rfl
          · rename_i hp
            rw [hlv₁ p, if_neg hp, hlv p, if_neg hp])
      refine ⟨_, lv', .iter hmore hbody (fun p hp => by rw [hlv₁ p, if_pos hp]) hiters, hlv', ?_⟩
      have hle₁ := iterProbe_ge hprobe
      have hle₂ := passNodes_ge slots params input kids hpass
      have hle₃ := endOf_ge hrest
      rw [endOf, slice_append hle₁ (Nat.le_trans hle₂ hle₃), slice_append hle₂ hle₃]
      exact List.rel_append (iterProbe_slice hprobe) (List.rel_append hbodyEq houtEq)

private def SinglesHold (slots : Nat) (params : List CMacroParam) (input : List CToken)
    (caps : Captures)
    (nodes : List CzetRepNode) (ii : Nat) : Prop :=
  ∀ m p start stop : Nat, isRepeated params p = false → nodes[m]? = some (.cap p) →
    (acceptedNodes slots params input nodes ii)[m]? = some (.span start stop) →
    (caps p).start = start ∧ (caps p).stop = stop

private def NodeReproduces (slots : Nat) (params : List CMacroParam) (input : List CToken)
    (caps : Captures)
    (n : CzetRepNode) (rest : List CzetRepNode) (ii : Nat) (a : Alternative) : Prop :=
  ∀ lv tl : Nat → List CzetCapNode,
    (∀ p, lv p = nodeForest params p n (acceptedNode slots params input n ii a) ++ tl p) →
    ∃ body lv₁, (∀ p, lv₁ p = tl p) ∧
      List.Forall₂ (fun o i => cCzetTokEq o i = true) body (slice input ii a.2) ∧
      ∀ out lv', Resub params input caps rest lv₁ out lv' →
        Resub params input caps (n :: rest) lv (body ++ out) lv'

private theorem tok_reproduces {caps : Captures} {t : CToken} {rest : List CzetRepNode}
    {ii : Nat} {a : Alternative} (ha : a ∈ alternatives slots params input (.tok t) ii) :
    NodeReproduces slots params input caps (.tok t) rest ii a := by
  intro lv tl hlv
  rw [alternatives] at ha
  obtain ⟨stop, hstop, rfl⟩ := List.mem_map.mp ha
  obtain ⟨-, -, itok, hslice, heq⟩ := mem_nodeCuts_iff.mp hstop
  refine ⟨[t], lv, fun p => ?_, ?_, fun out lv' h => .tok t h⟩
  · rw [hlv p, acceptedNode, nodeForest] <;> simp
  · rw [hslice]
    exact .cons heq .nil

private theorem cap_reproduces {caps : Captures} {q : Nat} {rest : List CzetRepNode} {ii : Nat}
    {a : Alternative}
    (hsingle : isRepeated params q = false → (caps q).start = ii ∧ (caps q).stop = a.2) :
    NodeReproduces slots params input caps (.cap q) rest ii a := by
  intro lv tl hlv
  simp only [acceptedNode, nodeForest] at hlv
  cases hrep : isRepeated params q with
  | false =>
      obtain ⟨hstart, hstop⟩ := hsingle hrep
      refine ⟨slice input ii a.2, lv, fun p => ?_, tokEq_refl _, fun out lv' h => ?_⟩
      · rw [hlv p, if_neg, List.nil_append]
        rintro ⟨rfl, h⟩
        rw [hrep] at h
        cases h
      · rw [← hstart, ← hstop]
        exact .single hrep h
  | true =>
      refine ⟨slice input ii a.2, Function.update lv q (tl q), fun p => ?_, tokEq_refl _,
        fun out lv' h => .leaf hrep ?_ h⟩
      · rw [Function.update_apply]
        split
        · rename_i hp
          rw [hp]
        · rename_i hp
          rw [hlv p, if_neg fun h => hp h.1.symm, List.nil_append]
      · rw [hlv q, if_pos ⟨rfl, hrep⟩]
        rfl

private theorem rep_reproduces {caps : Captures} {kids : List CzetRepNode} {mod : RepMod}
    {sep : Option CToken} {uses : List Nat} {rest : List CzetRepNode} {ii : Nat}
    {a : Alternative} (ha : a ∈ alternatives slots params input (.rep kids mod sep uses) ii)
    (hunused : ∀ p, p ∉ uses → ∀ ii, acceptedForest slots params input p kids ii = [])
    (hkids : ∀ ii k, passNodes slots params input kids ii = some k →
      Reproduces slots params input caps kids ii k) :
    NodeReproduces slots params input caps (.rep kids mod sep uses) rest ii a := by
  intro lv tl hlv
  obtain ⟨its, hstarts, hend, hchain⟩ := alternatives_chain ha
  obtain ⟨body, lv₁, hiters, hlv₁, hbody⟩ := iters_reproduce hunused hkids false
    (by simpa using hchain) lv tl (by
      intro p
      rw [hlv p]
      split
      · rename_i hp
        rw [nodeForest_rep hp, hstarts, List.map_map]
        rfl
      · rename_i hp
        rw [acceptedNode, nodeForest, if_neg hp])
  refine ⟨body, lv₁, hlv₁, ?_, fun out lv' h => .rep hiters h⟩
  rw [hend]
  exact hbody

private theorem nodes_reproduce {caps : Captures} : ∀ (nodes : List CzetRepNode),
    (∀ p, ∃ d, level p d nodes) → (∀ p, isRepeated params p = false → level p 0 nodes) →
    ∀ ii k, SinglesHold slots params input caps nodes ii → passNodes slots params input nodes ii =
      some k →
      Reproduces slots params input caps nodes ii k
  | [], _, _, ii, k, _, hpass => by
      rw [passNodes] at hpass
      cases hpass
      intro lv tl hlv
      refine ⟨[], lv, .nil lv, fun p => ?_, by simp [slice]⟩
      rw [hlv p]
      simp [acceptedForest, captureForest]
  | n :: rest, hlevel, hflat, ii, k, hsingle, hpass => by
      obtain ⟨a, hfind, hrest⟩ := find_of_passNodes hpass
      have hmem := List.mem_of_find?_eq_some hfind
      simp only [level] at hlevel hflat
      have haccepted : acceptedNodes slots params input (n :: rest) ii =
          acceptedNode slots params input n ii a :: acceptedNodes slots params input rest a.2 := by
        rw [acceptedNodes, chosen_of_find hfind]
      have hnode : NodeReproduces slots params input caps n rest ii a := by
        cases n with
        | tok t => exact tok_reproduces hmem
        | cap q =>
            refine cap_reproduces fun hrep => ?_
            exact hsingle 0 q ii a.2 hrep rfl (by rw [haccepted, acceptedNode]; rfl)
        | rep kids mod sep uses =>
            simp only [levelNode] at hlevel hflat
            refine rep_reproduces hmem ?_ ?_
            · intro p hp ii
              obtain ⟨d, ⟨huses, -, hkids⟩, -⟩ := hlevel p
              refine captureForest_of_not_mentioned hkids ?_ _
              rw [← Bool.not_eq_true, ← huses]
              exact hp
            · intro ii k hk
              refine nodes_reproduce kids ?_ ?_ ii k ?_ hk
              · intro p
                obtain ⟨d, ⟨-, -, hkids⟩, -⟩ := hlevel p
                exact ⟨d - 1, hkids⟩
              · intro p hp
                exact (hflat p hp).1.2.2
              · -- a parameter without repetition is not named inside a group
                intro m p start stop hp hm _
                obtain ⟨⟨huses, hzero, -⟩, -⟩ := hflat p hp
                exact absurd rfl (hzero (huses.mpr (mentions_of_getElem? hm)))
      have ih := nodes_reproduce rest (fun p => (hlevel p).imp fun d h => h.2)
        (fun p hp => (hflat p hp).2) a.2 k (fun m p start stop hp hm hspan =>
          hsingle (m + 1) p start stop hp hm (by rw [haccepted]; exact hspan)) hrest
      intro lv tl hlv
      simp only [acceptedForest_of_find hfind, List.append_assoc] at hlv
      obtain ⟨body, lv₁, hlv₁, hbody, hcont⟩ := hnode lv _ hlv
      obtain ⟨out, lv', hout, hlv', houtEq⟩ := ih lv₁ tl hlv₁
      refine ⟨body ++ out, lv', hcont out lv' hout, hlv', ?_⟩
      rw [slice_append (alternatives_ge slots params input n hmem).1
        (passNodes_ge slots params input rest hrest)]
      exact List.rel_append hbody houtEq

end Resubstitution

section Faithful

variable {slots : Nat} {params : List CMacroParam} {input : List CToken}

private theorem accepted_ge {nodes : List CzetRepNode} {ii m start stop : Nat}
    (h : (acceptedNodes slots params input nodes ii)[m]? = some (.span start stop)) : ii ≤ start := by
  induction nodes generalizing ii m with
  | nil => simp [acceptedNodes] at h
  | cons n rest ih =>
      rw [acceptedNodes] at h
      split at h
      · simp at h
      · rename_i a ha
        have hge := (alternatives_ge slots params input n (List.mem_of_find?_eq_some ha)).1
        cases m with
        | zero =>
            simp only [List.getElem?_cons_zero, Option.some.injEq] at h
            cases n <;> rw [acceptedNode] at h <;> cases h <;> exact Nat.le_refl _
        | succ m =>
            have := ih (by simpa using h)
            omega

private theorem acceptedNodes_of_find {n : CzetRepNode} {rest : List CzetRepNode} {ii : Nat}
    {a : Alternative}
    (hfind : (alternatives slots params input n ii).find? (passes slots params input rest) = some a) :
    acceptedNodes slots params input (n :: rest) ii =
      acceptedNode slots params input n ii a :: acceptedNodes slots params input rest a.2 := by
  rw [acceptedNodes, chosen_of_find hfind]

private theorem accepted_span {nodes : List CzetRepNode} {ii k : Nat}
    (hpass : passNodes slots params input nodes ii = some k) {m p : Nat}
    (hm : nodes[m]? = some (.cap p)) :
    ∃ start stop, (acceptedNodes slots params input nodes ii)[m]? = some (.span start stop) := by
  induction nodes generalizing ii m with
  | nil => simp at hm
  | cons n rest ih =>
      obtain ⟨a, hfind, hrest⟩ := find_of_passNodes hpass
      rw [acceptedNodes_of_find hfind]
      cases m with
      | zero =>
          simp only [List.getElem?_cons_zero, Option.some.injEq] at hm
          subst hm
          exact ⟨ii, a.2, by rw [acceptedNode]; rfl⟩
      | succ m => exact ih hrest (by simpa using hm)

private theorem accepted_lt {nodes : List CzetRepNode} {ii k : Nat}
    (hpass : passNodes slots params input nodes ii = some k) {m m' p q : Nat} (hmm : m < m')
    (hm : nodes[m]? = some (.cap p)) (hm' : nodes[m']? = some (.cap q)) :
    ∃ start stop start' stop', (acceptedNodes slots params input nodes ii)[m]? =
      some (.span start stop) ∧
      (acceptedNodes slots params input nodes ii)[m']? = some (.span start' stop') ∧
        start < start' := by
  induction nodes generalizing ii m m' with
  | nil => simp at hm
  | cons n rest ih =>
      obtain ⟨a, hfind, hrest⟩ := find_of_passNodes hpass
      rw [acceptedNodes_of_find hfind]
      obtain ⟨m', rfl⟩ : ∃ j, m' = j + 1 := ⟨m' - 1, by omega⟩
      cases m with
      | zero =>
          simp only [List.getElem?_cons_zero, Option.some.injEq] at hm
          subst hm
          obtain ⟨start', stop', hspan⟩ := accepted_span hrest (by simpa using hm')
          refine ⟨ii, a.2, start', stop', by rw [acceptedNode]; rfl, by simpa using hspan, ?_⟩
          have hmem := List.mem_of_find?_eq_some hfind
          rw [alternatives] at hmem
          obtain ⟨stop, hstop, rfl⟩ := List.mem_map.mp hmem
          exact Nat.lt_of_lt_of_le (lt_of_mem_nodeCuts hstop) (accepted_ge hspan)
      | succ m => exact ih hrest (by omega) (by simpa using hm) (by simpa using hm')

private theorem singles_iff {tree : List CzetRepNode} {caps : Captures}
    (hflat : ∀ p, isRepeated params p = false → level p 0 tree) {k : Nat}
    (hok : mtNodes slots params input tree 0 noCaptures = .ok k caps) :
    SinglesHold slots params input caps tree 0 ↔ SinglesNamedOnce params tree := by
  constructor
  · intro hsingle
    have hlt : ∀ m m' p : Nat, m < m' → isRepeated params p = false →
        tree[m]? = some (.cap p) → tree[m']? = some (.cap p) → False := by
      intro m m' p hmm hp hm hm'
      obtain ⟨start, stop, start', stop', hspan, hspan', hlt⟩ :=
        accepted_lt (passNodes_of_ok (hflat p hp) hok) hmm hm hm'
      have h := (hsingle m p start stop hp hm hspan).1
      have h' := (hsingle m' p start' stop' hp hm' hspan').1
      omega
    intro m m' p hp hm hm'
    rcases Nat.lt_trichotomy m m' with h | h | h
    · exact (hlt m m' p h hp hm hm').elim
    · exact h
    · exact (hlt m' m p h hp hm' hm).elim
  · intro honce m p start stop hp hm hspan
    have hlast : mentions p (tree.drop (m + 1)) = false := by
      refine mentions_of_level_zero (level_drop (hflat p hp) (m + 1)) ?_
      rw [namedHere, List.any_eq_false]
      intro n hn
      cases n with
      | cap q =>
          obtain ⟨i, hi⟩ := List.mem_iff_getElem?.mp hn
          rw [List.getElem?_drop] at hi
          intro hq
          rw [of_decide_eq_true hq] at hi
          have := honce m (m + 1 + i) p hp hm hi
          omega
      | _ => simp
    have hspanAt := nodes_span (hflat p hp) hok m start stop hm hlast hspan
    simpa [spanAt] using hspanAt

theorem mtNodes_of_accept {params : List CMacroParam} {tree : List CzetRepNode}
    {input : List CToken} {caps : Captures}
    (haccept : growingMatcherTree slots params tree input = some (some caps)) :
    mtNodes slots params input tree 0 noCaptures = .ok input.length caps := by
  unfold growingMatcherTree at haccept
  split at haccept
  · cases haccept
  · cases haccept
  · split at haccept
    · rename_i hres hlen
      cases haccept
      rw [hres, hlen]
    · cases haccept

/-- Whatever room there is for iterations: on every match of an accepted definition, the captures
are faithful exactly when no abandoned alternative left a capture behind and no parameter is
captured twice in one place. -/
theorem growingTree_captures_faithful (slots : Nat) (params params' defParams : List CMacroParam)
    (tokens : List CToken) (tree : List CzetRepNode) (input : List CToken) (caps : Captures)
    (hparse : cCzetParseTree params tokens true = .ok (tree, params'))
    (hdecls : SameDecls params' defParams)
    (haccept : growingMatcherTree slots defParams tree input = some (some caps)) :
    FaithfulCaptures slots defParams tree input caps ↔ CleanMatch slots defParams tree input := by
  have hrep : ∀ p, isRepeated params p = isRepeated defParams p := by
    intro p
    exact isRepeated_of_sameDecls ((parseTree_level hparse p).1.trans hdecls) p
  have hlevel : ∀ p, ∃ d, level p d tree := fun p => (parseTree_level hparse p).2.1
  have hflat : ∀ p, isRepeated defParams p = false → level p 0 tree := by
    intro p hp
    exact (parseTree_level hparse p).2.2 (by rw [hrep p, hp])
  have hok : mtNodes slots defParams input tree 0 noCaptures = .ok input.length caps :=
    mtNodes_of_accept haccept
  have hlists : ∀ p, (czetCapTop (caps p) =
      captureForest defParams p tree (acceptedNodes slots defParams input tree 0) ↔
      cleanNodes slots defParams input p tree 0 = true) := by
    intro p
    obtain ⟨d, hd⟩ := hlevel p
    have hout : Outcome slots defParams input p tree 0 _ _ := nodes_outcome tree hd 0 noCaptures
    rw [hok] at hout
    obtain ⟨-, added, hadded, -, hclean⟩ := hout
    rw [← hclean]
    simp only [lst] at hadded
    rw [hadded]
    rfl
  constructor
  · intro h
    exact ⟨fun p _ => (hlists p).mp (h.repeated p), (singles_iff hflat hok).mp h.single⟩
  · rintro ⟨hclean, honce⟩
    have hall : ∀ p, czetCapTop (caps p) =
        captureForest defParams p tree (acceptedNodes slots defParams input tree 0) := by
      intro p
      refine (hlists p).mpr ?_
      cases hp : isRepeated defParams p with
      | true => exact hclean p hp
      | false => exact cleanNodes_of_not_repeated hp (hflat p hp) 0
    have hsingle := (singles_iff hflat hok).mpr honce
    refine ⟨hall, hsingle, ?_⟩
    obtain ⟨d, hd⟩ := hlevel 0
    obtain ⟨out, lv, hresub, hlv, heq⟩ := nodes_reproduce tree hlevel hflat 0 input.length hsingle
      (passNodes_of_ok hd hok) (fun p => czetCapTop (caps p)) (fun _ => [])
      (fun p => by rw [hall p, List.append_nil]; rfl)
    refine ⟨out, lv, hresub, hlv, ?_⟩
    simpa [slice] using heq

/-- On every match of an accepted definition, the captures are faithful exactly when no
abandoned alternative left a capture behind and no parameter is captured twice in one place. -/
theorem matcherTree_captures_faithful (params params' defParams : List CMacroParam)
    (tokens : List CToken) (tree : List CzetRepNode) (input : List CToken) (caps : Captures)
    (hparse : cCzetParseTree params tokens true = .ok (tree, params'))
    (hdecls : SameDecls params' defParams)
    (haccept : cCzetMatcherTree defParams tree input = some (some caps)) :
    FaithfulCaptures 7 defParams tree input caps ↔ CleanMatch 7 defParams tree input :=
  growingTree_captures_faithful 7 params params' defParams tokens tree input caps hparse hdecls
    haccept

/-- `$x:ident` repeated, and `$a:tokens`, `$b:tokens` without repetition. -/
def listParams : List CMacroParam :=
  [{ name := "$x", kind := .ident, isRepeat := true }, { name := "$a", kind := .tokens },
    { name := "$b", kind := .tokens }]

/-- The pattern `M $a , $($x),+ = $b`. -/
def plusPattern : List CToken :=
  [nameToken "M", nameToken "$a", punctToken .comma, nameToken "$", punctToken .openParen,
    nameToken "$x", punctToken .closeParen, punctToken .comma, punctToken .plus, punctToken .eq,
    nameToken "$b"]

/-- The pattern `M $($x),*`. -/
def starPattern : List CToken :=
  [nameToken "M", nameToken "$", punctToken .openParen, nameToken "$x", punctToken .closeParen,
    punctToken .comma, punctToken .mult]

/-- On `M a , b = z , c` the `+` group first matches `c` behind the longest `$a`; the rest fails
there, and the iteration stays in the captures of the match with `$a` = `a`. -/
theorem abandoned_iteration_survives :
    ∃ tree params caps, cCzetParseTree listParams plusPattern true = .ok (tree, params) ∧
      cCzetMatcherTree params tree [nameToken "M", nameToken "a", punctToken .comma, nameToken "b",
        punctToken .eq, nameToken "z", punctToken .comma, nameToken "c"] = some (some caps) ∧
      ¬ FaithfulCaptures 7 params tree [nameToken "M", nameToken "a", punctToken .comma,
        nameToken "b", punctToken .eq, nameToken "z", punctToken .comma, nameToken "c"] caps := by
  refine ⟨_, _, _, rfl, rfl, fun h => ?_⟩
  exact absurd (congrArg List.length (h.repeated 0)) (by decide)

/-- The group of `M $($x),*` on `M a , b` is captured faithfully. -/
theorem star_group_faithful :
    ∃ tree params caps, cCzetParseTree listParams starPattern true = .ok (tree, params) ∧
      cCzetMatcherTree params tree [nameToken "M", nameToken "a", punctToken .comma,
        nameToken "b"] = some (some caps) ∧
      FaithfulCaptures 7 params tree [nameToken "M", nameToken "a", punctToken .comma,
        nameToken "b"] caps := by
  refine ⟨_, _, _, rfl, rfl, ?_⟩
  refine (matcherTree_captures_faithful listParams _ _ starPattern _ _ _ rfl rfl rfl).mpr ⟨?_, ?_⟩
  · intro p hp
    match p with
    | 0 => decide
    | 1 | 2 => cases hp
    | p + 3 => cases hp
  · intro m m' p _ hm _
    match m with
    | 0 | 1 => cases hm
    | m + 2 => cases hm

end Faithful

end CZet
