/- source: src/gcc/gcc/c/c-parser.cc (c_czet_parse_tree, c_czet_collect_uses_seq)
   digest: What c_czet_parse_tree guarantees of the pattern trees it accepts: groups list exactly
     the parameters they name, and a parameter is named at one nesting depth only. -/

import CZet.Macro.Definition

set_option autoImplicit false
set_option relaxedAutoImplicit false

namespace CZet

def CzetRepNode.uses : CzetRepNode → List Nat
  | .rep _ _ _ uses => uses
  | _ => []

mutual

def mentionsNode (p : Nat) : CzetRepNode → Bool
  | .tok _ => false
  | .cap q => decide (q = p)
  | .rep kids _ _ _ => mentions p kids

def mentions (p : Nat) : List CzetRepNode → Bool
  | [] => false
  | n :: rest => mentionsNode p n || mentions p rest

end

mutual

def levelNode (p : Nat) : Nat → CzetRepNode → Prop
  | _, .tok _ => True
  | d, .cap q => q = p → d = 0
  | d, .rep kids _ _ uses => (p ∈ uses ↔ mentions p kids = true) ∧ (p ∈ uses → d ≠ 0) ∧
      level p (d - 1) kids

/-- The pattern names `p` only inside `d` groups, and its groups list it in `uses` exactly when
they name it. -/
def level (p : Nat) : Nat → List CzetRepNode → Prop
  | _, [] => True
  | d, n :: rest => levelNode p d n ∧ level p d rest

end

theorem level_uses {p d : Nat} {n : CzetRepNode} (hlevel : levelNode p d n)
    (hmen : mentionsNode p n = false) : p ∉ n.uses := by
  cases n with
  | tok t => simp [CzetRepNode.uses]
  | cap q => simp [CzetRepNode.uses]
  | rep kids mod sep uses =>
      rw [levelNode] at hlevel
      rw [mentionsNode] at hmen
      intro hmem
      rw [hlevel.1.mp hmem] at hmen
      cases hmen

theorem mentions_of_getElem? {p m : Nat} {nodes : List CzetRepNode}
    (h : nodes[m]? = some (.cap p)) : mentions p nodes = true := by
  induction nodes generalizing m with
  | nil => simp at h
  | cons n rest ih =>
      rw [mentions, Bool.or_eq_true]
      cases m with
      | zero =>
          simp only [List.getElem?_cons_zero, Option.some.injEq] at h
          subst h
          exact .inl (by simp [mentionsNode])
      | succ m => exact .inr (ih (by simpa using h))

theorem level_drop {p d : Nat} {nodes : List CzetRepNode} (h : level p d nodes) (m : Nat) :
    level p d (nodes.drop m) := by
  induction nodes generalizing m with
  | nil => simpa using h
  | cons n rest ih =>
      cases m with
      | zero => exact h
      | succ m =>
          rw [level] at h
          exact ih h.2 m

mutual

private theorem mem_collectUsesNode (p : Nat) : ∀ (n : CzetRepNode) (out : List Nat),
    p ∈ cCzetCollectUsesNode n out ↔ p ∈ out ∨ mentionsNode p n = true
  | .tok t, out => by simp [cCzetCollectUsesNode, mentionsNode]
  | .cap q, out => by
      rw [cCzetCollectUsesNode, mentionsNode]
      split
      · rename_i hq
        constructor
        · exact .inl
        · rintro (h | h)
          · exact h
          · rwa [← of_decide_eq_true h]
      · simp [eq_comm]
  | .rep kids mod sep uses, out => by
      rw [cCzetCollectUsesNode, mentionsNode]
      exact mem_collectUsesSeq p kids out

theorem mem_collectUsesSeq (p : Nat) : ∀ (nodes : List CzetRepNode) (out : List Nat),
    p ∈ cCzetCollectUsesSeq nodes out ↔ p ∈ out ∨ mentions p nodes = true
  | [], out => by simp [cCzetCollectUsesSeq, mentions]
  | n :: rest, out => by
      rw [cCzetCollectUsesSeq, mem_collectUsesSeq p rest, mem_collectUsesNode p n, mentions,
        Bool.or_eq_true, or_assoc]

end

/-- The nesting depth recorded for a parameter. -/
def depthOf (params : List CMacroParam) (p : Nat) : Option Nat := (params[p]?).bind (·.repDepth)

/-- The declarations agree in everything but the recorded depths. -/
def SameDecls (params params' : List CMacroParam) : Prop :=
  params.map (fun par => (par.name, par.kind, par.isRepeat)) =
    params'.map fun par => (par.name, par.kind, par.isRepeat)

theorem isRepeated_of_sameDecls {params params' : List CMacroParam}
    (h : SameDecls params params') (p : Nat) : isRepeated params p = isRepeated params' p := by
  have hp := congrArg (fun l => (l[p]?).any fun d => d.2.2) h
  simpa [isRepeated, Option.any_map, Function.comp_def] using hp

/-- What a parse of `nodes` inside `rdep` groups guarantees. -/
structure ParsedAt (rdep : Nat) (params params' : List CMacroParam) (nodes : List CzetRepNode) :
    Prop where
  same : SameDecls params params'
  keep : ∀ p D, depthOf params p = some D → depthOf params' p = some D
  unnamed : ∀ p d, mentions p nodes = false → level p d nodes
  single : ∀ p, isRepeated params p = false →
    level p 0 nodes ∧ (rdep ≠ 0 → mentions p nodes = false)
  repeated : ∀ p, isRepeated params p = true → mentions p nodes = true →
    ∃ D, depthOf params' p = some D ∧ rdep ≤ D ∧ level p (D - rdep) nodes

private theorem parsedAt_nil (rdep : Nat) (params : List CMacroParam) :
    ParsedAt rdep params params [] := by
  refine ⟨rfl, fun _ _ h => h, fun _ _ _ => ?_, fun _ _ => ⟨?_, fun _ => ?_⟩, ?_⟩
  · rw [level]; trivial
  · rw [level]; trivial
  · rw [mentions]
  · intro p _ hmen
    simp [mentions] at hmen

private theorem parsedAt_cons {rdep : Nat} {params params₁ params' : List CMacroParam}
    {n : CzetRepNode} {rest : List CzetRepNode} (h₁ : ParsedAt rdep params params₁ [n])
    (h₂ : ParsedAt rdep params₁ params' rest) : ParsedAt rdep params params' (n :: rest) := by
  have hlevel : ∀ p d, level p d [n] → level p d rest → level p d (n :: rest) := by
    intro p d ha hb
    rw [level] at ha ⊢
    exact ⟨ha.1, hb⟩
  have hmen : ∀ p, mentions p (n :: rest) = (mentions p [n] || mentions p rest) := by
    intro p
    simp [mentions]
  refine ⟨h₁.same.trans h₂.same, fun p D h => h₂.keep p D (h₁.keep p D h), ?_, ?_, ?_⟩
  · intro p d h
    rw [hmen, Bool.or_eq_false_iff] at h
    exact hlevel p d (h₁.unnamed p d h.1) (h₂.unnamed p d h.2)
  · intro p hrep
    have s₁ := h₁.single p hrep
    have s₂ := h₂.single p (by rw [← isRepeated_of_sameDecls h₁.same, hrep])
    refine ⟨hlevel p 0 s₁.1 s₂.1, fun hd => ?_⟩
    rw [hmen, s₁.2 hd, s₂.2 hd]
    rfl
  · intro p hrep h
    have hrep₁ : isRepeated params₁ p = true := by rw [← isRepeated_of_sameDecls h₁.same, hrep]
    cases hrest : mentions p rest with
    | true =>
        obtain ⟨D, hD, hle, hl⟩ := h₂.repeated p hrep₁ hrest
        refine ⟨D, hD, hle, hlevel p _ ?_ hl⟩
        cases hn : mentions p [n] with
        | true =>
            obtain ⟨D', hD', hle', hl'⟩ := h₁.repeated p hrep hn
            have : D = D' := by
              have := h₂.keep p D' hD'
              rw [hD] at this
              simpa using this
            rwa [this]
        | false => exact h₁.unnamed p _ hn
    | false =>
        rw [hmen, hrest, Bool.or_false] at h
        obtain ⟨D, hD, hle, hl⟩ := h₁.repeated p hrep h
        exact ⟨D, h₂.keep p D hD, hle, hlevel p _ hl (h₂.unnamed p _ hrest)⟩

private theorem parsedAt_tok (rdep : Nat) (params : List CMacroParam) (t : CToken) :
    ParsedAt rdep params params [.tok t] := by
  have hmen : ∀ p, mentions p [.tok t] = false := by
    intro p
    simp [mentions, mentionsNode]
  have hlevel : ∀ p d, level p d [.tok t] := by
    intro p d
    simp [level, levelNode]
  refine ⟨rfl, fun _ _ h => h, fun p d _ => hlevel p d, fun p _ => ⟨hlevel p 0, fun _ => hmen p⟩, ?_⟩
  intro p _ h
  rw [hmen] at h
  cases h

private theorem parsedAt_rep {rdep : Nat} {params params' : List CMacroParam}
    {kids : List CzetRepNode} (h : ParsedAt (rdep + 1) params params' kids) (mod : RepMod)
    (sep : Option CToken) :
    ParsedAt rdep params params' [.rep kids mod sep (cCzetCollectUsesSeq kids [])] := by
  have huses : ∀ p, p ∈ cCzetCollectUsesSeq kids [] ↔ mentions p kids = true := by
    intro p
    rw [mem_collectUsesSeq]
    simp
  have hmen : ∀ p, mentions p [.rep kids mod sep (cCzetCollectUsesSeq kids [])] =
      mentions p kids := by
    intro p
    simp [mentions, mentionsNode]
  have hlevel : ∀ p d, (mentions p kids = true → d ≠ 0) → level p (d - 1) kids →
      level p d [.rep kids mod sep (cCzetCollectUsesSeq kids [])] := by
    intro p d hd hk
    simp only [level, levelNode, and_true]
    exact ⟨huses p, fun hp => hd ((huses p).mp hp), hk⟩
  refine ⟨h.same, h.keep, ?_, ?_, ?_⟩
  · intro p d hp
    rw [hmen] at hp
    exact hlevel p d (by simp [hp]) (h.unnamed p _ hp)
  · intro p hrep
    have hno := (h.single p hrep).2 (by omega)
    refine ⟨hlevel p 0 (by simp [hno]) (h.unnamed p _ hno), fun _ => ?_⟩
    rw [hmen, hno]
  · intro p hrep hp
    rw [hmen] at hp
    obtain ⟨D, hD, hle, hl⟩ := h.repeated p hrep hp
    refine ⟨D, hD, by omega, hlevel p _ (fun _ => by omega) ?_⟩
    rwa [Nat.sub_sub]

theorem sameDecls_set {params : List CMacroParam} {p : Nat} {par : CMacroParam}
    (hpar : params[p]? = some par) (D : Option Nat) :
    SameDecls params (params.set p { par with repDepth := D }) := by
  refine List.ext_getElem? fun i => ?_
  rw [List.getElem?_map, List.getElem?_map, List.getElem?_set]
  split
  · rename_i hpi
    subst hpi
    rw [if_pos (List.getElem?_eq_some_iff.mp hpar).1, hpar]
    rfl
  · rfl

private theorem bindRepDepth_ok {params params' : List CMacroParam} {p rdep : Nat}
    {par : CMacroParam} (h : bindRepDepth params p par rdep true = .ok params') :
    (par.isRepeat = false ∧ rdep = 0 ∧ params' = params) ∨
    (par.isRepeat = true ∧ par.repDepth = none ∧
      params' = params.set p { par with repDepth := some rdep }) ∨
    (par.isRepeat = true ∧ par.repDepth = some rdep ∧ params' = params) := by
  unfold bindRepDepth at h
  split at h
  · cases h
  · split at h
    · cases h
    · rename_i hin
      split at h
      · rename_i hrep
        simp only [Bool.true_and] at hrep
        split at h
        · rename_i hnone
          cases h
          exact .inr (.inl ⟨hrep, hnone, rfl⟩)
        · rename_i d hd
          split at h
          · rename_i heq
            cases h
            exact .inr (.inr ⟨hrep, heq ▸ hd, rfl⟩)
          · cases h
      · rename_i hrep
        cases h
        refine .inl ⟨by simpa using hrep, ?_, rfl⟩
        simp_all

private theorem parsedAt_cap {rdep : Nat} {params params' : List CMacroParam} {p : Nat}
    {par : CMacroParam} (hpar : params[p]? = some par)
    (h : bindRepDepth params p par rdep true = .ok params') :
    ParsedAt rdep params params' [.cap p] := by
  have hmen : ∀ q, mentions q [.cap p] = decide (p = q) := by
    intro q
    simp [mentions, mentionsNode]
  have hlevel : ∀ q d, (p = q → d = 0) → level q d [.cap p] := by
    intro q d hq
    simpa [level, levelNode] using hq
  have hunnamed : ∀ q d, mentions q [.cap p] = false → level q d [.cap p] := by
    intro q d hq
    rw [hmen] at hq
    exact hlevel q d fun heq => absurd heq (of_decide_eq_false hq)
  have hrepeat : isRepeated params p = par.isRepeat := by simp [isRepeated, hpar]
  have hsingle : (par.isRepeat = false → rdep = 0) → ∀ q, isRepeated params q = false →
      level q 0 [.cap p] ∧ (rdep ≠ 0 → mentions q [.cap p] = false) := by
    intro hdep q hq
    refine ⟨hlevel q 0 fun _ => rfl, fun hd => ?_⟩
    rw [hmen, decide_eq_false_iff_not]
    rintro rfl
    exact hd (hdep (by rw [← hrepeat, hq]))
  have hrepeated : ∀ ps, (par.isRepeat = true → depthOf ps p = some rdep) →
      ∀ q, isRepeated params q = true → mentions q [.cap p] = true →
      ∃ D, depthOf ps q = some D ∧ rdep ≤ D ∧ level q (D - rdep) [.cap p] := by
    intro ps hdep q hq hm
    rw [hmen, decide_eq_true_eq] at hm
    subst hm
    exact ⟨rdep, hdep (by rw [← hrepeat, hq]), Nat.le_refl _, hlevel p _ fun _ => Nat.sub_self _⟩
  rcases bindRepDepth_ok h with ⟨hrep, hdep, rfl⟩ | ⟨hrep, hnone, rfl⟩ | ⟨hrep, hsome, rfl⟩
  · refine ⟨rfl, fun _ _ h => h, hunnamed, hsingle fun _ => hdep, hrepeated _ ?_⟩
    simp [hrep]
  · have hlt := (List.getElem?_eq_some_iff.mp hpar).1
    refine ⟨sameDecls_set hpar _, ?_, hunnamed, hsingle (by simp [hrep]), hrepeated _ ?_⟩
    · intro q D hD
      by_cases hq : p = q
      · subst hq
        simp [depthOf, hpar, hnone] at hD
      · simpa [depthOf, List.getElem?_set, hq] using hD
    · intro _
      simp [depthOf, hlt]
  · refine ⟨rfl, fun _ _ h => h, hunnamed, hsingle (by simp [hrep]), hrepeated _ ?_⟩
    intro _
    simp [depthOf, hpar, hsome]

theorem bind_eq_ok {ε α β : Type} {x : Except ε α} {f : α → Except ε β} {b : β}
    (h : (x >>= f) = .ok b) : ∃ a, x = .ok a ∧ f a = .ok b := by
  cases x with
  | error e => cases h
  | ok a => exact ⟨a, rfl, h⟩

private theorem parseTreeFuel_parsedAt (fuel : Nat) {rdep : Nat}
    {params params' : List CMacroParam} {tokens : List CToken} {nodes : List CzetRepNode}
    (h : parseTreeFuel true fuel rdep params tokens = .ok (nodes, params')) :
    ParsedAt rdep params params' nodes := by
  induction fuel generalizing rdep params params' tokens nodes with
  | zero =>
      cases tokens with
      | nil =>
          rw [parseTreeFuel] at h
          cases h
          exact parsedAt_nil rdep params
      | cons t ts =>
          rw [parseTreeFuel] at h
          cases h
  | succ fuel ih =>
      cases tokens with
      | nil =>
          rw [parseTreeFuel] at h
          cases h
          exact parsedAt_nil rdep params
      | cons t ts =>
          unfold parseTreeFuel at h
          split at h
          · split at h
            · cases h
            · rename_i o body
              split at h
              · cases h
              · split at h
                · cases h
                · rename_i inner after _
                  obtain ⟨⟨kids, params₁⟩, hkids, h⟩ := bind_eq_ok h
                  simp only at h
                  split at h
                  · cases h
                  · rename_i sep mod rest _
                    split at h
                    · cases h
                    · obtain ⟨⟨more, params₂⟩, hmore, h⟩ := bind_eq_ok h
                      cases h
                      exact parsedAt_cons (parsedAt_rep (ih hkids) mod sep) (ih hmore)
          · split at h
            · split at h
              · simp at h
              · rename_i p hp
                split at h
                · cases h
                · rename_i par hpar
                  obtain ⟨params₁, hbind, h⟩ := bind_eq_ok h
                  obtain ⟨⟨more, params₂⟩, hmore, h⟩ := bind_eq_ok h
                  cases h
                  exact parsedAt_cons (parsedAt_cap hpar hbind) (ih hmore)
            · obtain ⟨⟨more, params₂⟩, hmore, h⟩ := bind_eq_ok h
              cases h
              exact parsedAt_cons (parsedAt_tok rdep params t) (ih hmore)

theorem parseTree_parsedAt {params params' : List CMacroParam} {tokens : List CToken}
    {tree : List CzetRepNode} (h : cCzetParseTree params tokens true = .ok (tree, params')) :
    ParsedAt 0 params params' tree :=
  parseTreeFuel_parsedAt _ h

private theorem bindRepDepth_expansion {params params' : List CMacroParam} {p rdep : Nat}
    {par : CMacroParam} (h : bindRepDepth params p par rdep false = .ok params') :
    params' = params := by
  rw [bindRepDepth] at h
  simp only [Bool.false_and, Bool.false_eq_true, if_false] at h
  split at h
  · cases h
  · exact (Except.ok.inj h).symm

private theorem parseTreeFuel_expansion (fuel : Nat) {rdep : Nat}
    {params params' : List CMacroParam} {tokens : List CToken} {nodes : List CzetRepNode}
    (h : parseTreeFuel false fuel rdep params tokens = .ok (nodes, params')) :
    params' = params := by
  induction fuel generalizing rdep params params' tokens nodes with
  | zero =>
      cases tokens with
      | nil =>
          rw [parseTreeFuel] at h
          cases h
          rfl
      | cons t ts =>
          rw [parseTreeFuel] at h
          cases h
  | succ fuel ih =>
      cases tokens with
      | nil =>
          rw [parseTreeFuel] at h
          cases h
          rfl
      | cons t ts =>
          unfold parseTreeFuel at h
          split at h
          · split at h
            · cases h
            · split at h
              · cases h
              · split at h
                · cases h
                · obtain ⟨⟨kids, params₁⟩, hkids, h⟩ := bind_eq_ok h
                  simp only at h
                  split at h
                  · cases h
                  · split at h
                    · cases h
                    · obtain ⟨⟨more, params₂⟩, hmore, h⟩ := bind_eq_ok h
                      cases h
                      exact (ih hmore).trans (ih hkids)
          · split at h
            · split at h
              · obtain ⟨⟨more, params₂⟩, hmore, h⟩ := bind_eq_ok h
                cases h
                exact ih hmore
              · split at h
                · cases h
                · obtain ⟨params₁, hbind, h⟩ := bind_eq_ok h
                  obtain ⟨⟨more, params₂⟩, hmore, h⟩ := bind_eq_ok h
                  cases h
                  exact (ih hmore).trans (bindRepDepth_expansion hbind)
            · obtain ⟨⟨more, params₂⟩, hmore, h⟩ := bind_eq_ok h
              cases h
              exact ih hmore

theorem parseTree_expansion {params params' : List CMacroParam} {tokens : List CToken}
    {tree : List CzetRepNode} (h : cCzetParseTree params tokens false = .ok (tree, params')) :
    params' = params :=
  parseTreeFuel_expansion _ h

/-- A pattern that `c_czet_parse_tree` accepts names every parameter at one depth only, and
parameters without repetition outside of every group. -/
theorem parseTree_level {params params' : List CMacroParam} {tokens : List CToken}
    {tree : List CzetRepNode} (h : cCzetParseTree params tokens true = .ok (tree, params'))
    (p : Nat) : SameDecls params params' ∧ (∃ d, level p d tree) ∧
      (isRepeated params p = false → level p 0 tree) := by
  have hparsed := parseTreeFuel_parsedAt _ h
  refine ⟨hparsed.same, ?_, fun hrep => (hparsed.single p hrep).1⟩
  cases hrep : isRepeated params p with
  | false => exact ⟨0, (hparsed.single p hrep).1⟩
  | true =>
      cases hm : mentions p tree with
      | false => exact ⟨0, hparsed.unnamed p 0 hm⟩
      | true =>
          obtain ⟨D, -, -, hlevel⟩ := hparsed.repeated p hrep hm
          exact ⟨D - 0, hlevel⟩

end CZet
