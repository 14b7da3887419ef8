/- source: src/gcc/gcc/c/c-parser.cc (c_czet_build_expansion, c_czet_expand_seq,
     c_czet_build_expansion_tree, c_czet_marked, c_czet_hygienize)
   digest: The expansion and its side-car vector are pushed in lockstep, the vector marks the copies
     of argument tokens, and hygiene renames the other names consistently. -/

import CZet.Macro.Hygiene
import CZet.Macro.Invocation
import Mathlib.Data.List.FinRange

set_option autoImplicit false
set_option relaxedAutoImplicit false

namespace CZet

/-- What `c_czet_expand_seq` changes, with `out` and `mark` as vectors of their own. -/
structure VecState where
  cursors : Nat → Option (List Nat)
  out : List CToken := []
  mark : List Bool := []
  errors : List String := []

/-- `vec_safe_push (*pout, t)`. -/
def VecState.pushOut (st : VecState) (t : CToken) : VecState := { st with out := st.out ++ [t] }

/-- `vec_safe_push (*pmark, m)`. -/
def VecState.pushMark (st : VecState) (m : Bool) : VecState := { st with mark := st.mark ++ [m] }

/-- The loop over the argument tokens of a span. -/
def pushSpan (args : List CToken) (start stop : Nat) (st : VecState) : VecState :=
  (List.range' start (stop - start)).foldl
    (fun st k =>
      match args[k]? with
      | some t => (st.pushOut t).pushMark true
      | none => st)
    st

/-- The iterations of a group from `k` on, `left` of them. -/
def pushIters (body : Nat → VecState → VecState) (sep : Option CToken) :
    Nat → Nat → VecState → VecState
  | 0, _, st => st
  | 1, k, st => body k st
  | left + 2, k, st =>
      pushIters body sep (left + 1) (k + 1)
        (match sep with
        | some t => ((body k st).pushOut t).pushMark false
        | none => body k st)

mutual

def pushNode (params : List CMacroParam) (caps : Captures) (args : List CToken) :
    CzetRepNode → Nat → VecState → VecState
  | .tok t, _, st => (st.pushOut t).pushMark false
  | .cap p, _, st =>
      match params[p]? with
      | none => st
      | some par =>
          if par.isRepeat then
            match par.repDepth, st.cursors p with
            | some bd, some cur =>
                match (czetCapNavigate (caps p).cur cur bd).bind czetCapFirstLeaf with
                | some (start, stop) => pushSpan args start stop st
                | none => st
            | _, _ => st
          else pushSpan args (caps p).start (caps p).stop st
  | .rep kids mod sep uses, depth, st =>
      match repCount params caps st.cursors depth uses 0 with
      | .error (length, count) =>
          { st with errors := st.errors ++ ["meta-variable repeats " ++ toString length ++
              " times but another repeats " ++ toString count ++ " times"] }
      | .ok count =>
          pushIters
            (fun k st => pushSeq params caps args kids (depth + 1)
              { st with cursors := setCursors params uses depth k st.cursors })
            sep (if mod = .query then min count 1 else count) 0 st

/-- `c_czet_expand_seq` on the two vectors. -/
def pushSeq (params : List CMacroParam) (caps : Captures) (args : List CToken) :
    List CzetRepNode → Nat → VecState → VecState
  | [], _, st => st
  | n :: rest, depth, st =>
      pushSeq params caps args rest depth (pushNode params caps args n depth st)

end

/-- `c_czet_build_expansion` on the two vectors. -/
def pushFlat (params : List CMacroParam) (caps : Captures) (args : List CToken) :
    List CToken → VecState → VecState
  | [], st => st
  | t :: ts, st =>
      pushFlat params caps args ts
        (if cCzetIsParamRef t then
          match cCzetFindParam params t.identifierPointer with
          | some p => pushSpan args (caps p).start (caps p).stop st
          | none => (st.pushOut t).pushMark false
        else (st.pushOut t).pushMark false)

/-- `exp` and `mark` of a matched arm. -/
def buildVectors (params : List CMacroParam) (arm : CMacroArm) (args : List CToken)
    (caps : Captures) : List CToken × List Bool :=
  let st := match arm.expansionTree with
    | some tree => pushSeq params caps args tree 0 { cursors := zeroCursors params }
    | none => pushFlat params caps args arm.expansion { cursors := zeroCursors params }
  (st.out, st.mark)

/-- `c_czet_marked`. -/
def cCzetMarked (mark : List Bool) (i : Nat) : Bool := (mark[i]?).getD false

/-- The tokens of `out` with what `c_czet_marked` says of them. -/
def markedBy (out : List CToken) (mark : List Bool) : List MarkedToken :=
  out.mapIdx fun i t => (t, cCzetMarked mark i)

/-- A matched arm: the captures are those of its match. -/
structure ArmUse where
  params : List CMacroParam
  arm : CMacroArm
  args : List CToken
  caps : Captures
  matched : armMatch params arm args = some (some caps)

def ArmUse.out (u : ArmUse) : List CToken := (buildVectors u.params u.arm u.args u.caps).1

def ArmUse.mark (u : ArmUse) : List Bool := (buildVectors u.params u.arm u.args u.caps).2

/-- The expansions of the matched arms, one after the other. -/
def expandUses : Nat → List ArmUse → List (List CToken)
  | _, [] => []
  | gen, u :: us =>
      let r := cCzetHygienize gen (markedBy u.out u.mark)
      r.1 :: expandUses r.2 us

/-- The expansion renames something. -/
def ArmUse.renaming (u : ArmUse) : Bool := renames (markedBy u.out u.mark)

/-- The token at position `i` of the `k`-th expansion after hygiene. -/
def finalToken (gen : Nat) (us : List ArmUse) (k i : Nat) : Option CToken :=
  (expandUses gen us)[k]?.bind fun toks => toks[i]?

/-- The vectors have one length, and there is a plan for every argument list of the same length: a
marked token is the copy of the argument token at a fixed position, the others are fixed. -/
structure ArmUse.Provenance (u : ArmUse) : Prop where
  lockstep : u.mark.length = u.out.length
  copies : ∃ plan : List (CToken ⊕ Fin u.args.length),
    u.mark = plan.map Sum.isRight ∧ u.out = plan.map (Sum.elim id u.args.get) ∧
      ∀ args : Fin u.args.length → CToken,
        buildVectors u.params u.arm (List.ofFn args) u.caps =
          (plan.map (Sum.elim id args), plan.map Sum.isRight)

/-- Marked tokens and tokens that are no names are kept; the unmarked names of one spelling are all
kept or all get the same other spelling. -/
structure RenamedTogether (u : ArmUse) (final : Nat → Option CToken) : Prop where
  kept : ∀ i t, u.out[i]? = some t → (u.mark[i]? = some true ∨ t.type ≠ .name) →
    final i = some t
  together : ∀ s,
    (∀ i t, u.out[i]? = some t → u.mark[i]? = some false → t.type = .name →
      t.identifierPointer = s → final i = some t) ∨
    ∃ s', s' ≠ s ∧ ∀ i t, u.out[i]? = some t → u.mark[i]? = some false → t.type = .name →
      t.identifierPointer = s → final i = some { t with value := .identifier s' }

/-- Two renamed tokens have one spelling exactly when they had one in the same expansion. -/
def RenamedApart (gen : Nat) (us : List ArmUse) : Prop :=
  ∀ k l i j (u v : ArmUse) (t t' s s' : CToken), us[k]? = some u → us[l]? = some v →
    u.out[i]? = some t → v.out[j]? = some s →
    finalToken gen us k i = some t' → finalToken gen us l j = some s' → t' ≠ t → s' ≠ s →
      (t'.identifierPointer = s'.identifierPointer ↔
        k = l ∧ t.identifierPointer = s.identifierPointer)

section Lockstep

variable {params : List CMacroParam} {caps : Captures} {args : List CToken}

/-- The pairs of the paired model taken apart. -/
def ExpandState.vectors (st : ExpandState) : VecState :=
  { cursors := st.cursors, out := st.out.map Prod.fst, mark := st.out.map Prod.snd,
    errors := st.errors }

@[simp] theorem ExpandState.vectors_cursors (st : ExpandState) :
    st.vectors.cursors = st.cursors := rfl

private theorem vectors_emit_body (st : ExpandState) (t : CToken) :
    (st.vectors.pushOut t).pushMark false = (st.emit [(t, false)]).vectors := by
  simp [ExpandState.vectors, ExpandState.emit, VecState.pushOut, VecState.pushMark]

private theorem pushSpan_vectors (args : List CToken) (start stop : Nat) (st : ExpandState) :
    pushSpan args start stop st.vectors = (st.emit (capturedTokens args start stop)).vectors := by
  unfold pushSpan capturedTokens
  generalize stop - start = n
  induction n generalizing start st with
  | zero => simp [ExpandState.emit]
  | succ n ih =>
      rw [List.range'_succ, List.foldl_cons]
      cases ht : args[start]? with
      | none =>
          have hend : args.length ≤ start := List.getElem?_eq_none_iff.mp ht
          simp only
          rw [ih, List.drop_eq_nil_of_le (Nat.le_succ_of_le hend), List.drop_eq_nil_of_le hend]
          simp
      | some t =>
          have hone : (st.vectors.pushOut t).pushMark true = (st.emit [(t, true)]).vectors := by
            simp [ExpandState.vectors, ExpandState.emit, VecState.pushOut, VecState.pushMark]
          have hdrop : args.drop start = t :: args.drop (start + 1) := by
            obtain ⟨hlt, rfl⟩ := List.getElem?_eq_some_iff.mp ht
            exact List.drop_eq_getElem_cons hlt
          simp only
          rw [hone, ih, hdrop, List.take_succ_cons, List.map_cons]
          simp [ExpandState.emit]

private theorem pushIters_vectors {vec : Nat → VecState → VecState}
    {body : Nat → ExpandState → ExpandState} (h : ∀ k st, vec k st.vectors = (body k st).vectors)
    (sep : Option CToken) (left k : Nat) (st : ExpandState) :
    pushIters vec sep left k st.vectors = (emitIters body sep left k st).vectors := by
  induction left generalizing k st with
  | zero => rfl
  | succ left ih =>
      cases left with
      | zero => exact h k st
      | succ left =>
          rw [emitIters, ← ih]
          show pushIters vec sep (left + 1) (k + 1) _ = _
          rw [h]
          cases sep with
          | none => simp [ExpandState.emit]
          | some t =>
              simp only
              rw [vectors_emit_body]
              rfl

mutual

private theorem pushNode_vectors : ∀ (n : CzetRepNode) (depth : Nat) (st : ExpandState),
    pushNode params caps args n depth st.vectors =
      (expandNode params caps args n depth st).vectors
  | .tok t, depth, st => by
      rw [pushNode, expandNode]
      exact vectors_emit_body st t
  | .cap p, depth, st => by
      rw [pushNode, expandNode]
      cases params[p]? with
      | none => rfl
      | some par =>
          simp only
          split
          · cases par.repDepth with
            | none => rfl
            | some bd =>
                rw [ExpandState.vectors_cursors]
                cases st.cursors p with
                | none => rfl
                | some cur =>
                    simp only
                    cases (czetCapNavigate (caps p).cur cur bd).bind czetCapFirstLeaf with
                    | none => rfl
                    | some span => exact pushSpan_vectors args span.1 span.2 st
          · exact pushSpan_vectors args _ _ st
  | .rep kids mod sep uses, depth, st => by
      rw [pushNode, expandNode]
      rw [ExpandState.vectors_cursors]
      cases repCount params caps st.cursors depth uses 0 with
      | error pair => rfl
      | ok count =>
          apply pushIters_vectors
          intro k st
          exact pushSeq_vectors kids (depth + 1)
            { st with cursors := setCursors params uses depth k st.cursors }

private theorem pushSeq_vectors : ∀ (nodes : List CzetRepNode) (depth : Nat) (st : ExpandState),
    pushSeq params caps args nodes depth st.vectors =
      (cCzetExpandSeq params caps args nodes depth st).vectors
  | [], depth, st => by
      rw [pushSeq, cCzetExpandSeq]
  | n :: rest, depth, st => by
      rw [pushSeq, cCzetExpandSeq, pushNode_vectors n depth st, pushSeq_vectors rest depth _]

end

private theorem pushFlat_vectors (expansion : List CToken) (st : ExpandState) :
    pushFlat params caps args expansion st.vectors =
      (st.emit (cCzetBuildExpansion params expansion caps args)).vectors := by
  induction expansion generalizing st with
  | nil => simp [pushFlat, cCzetBuildExpansion, ExpandState.emit]
  | cons t ts ih =>
      have hemit : ∀ toks : List MarkedToken,
          (st.emit toks).emit (cCzetBuildExpansion params ts caps args) =
            st.emit (toks ++ cCzetBuildExpansion params ts caps args) := by
        intro toks
        simp [ExpandState.emit]
      rw [pushFlat, cCzetBuildExpansion, List.flatMap_cons, ← cCzetBuildExpansion]
      split
      · cases cCzetFindParam params t.identifierPointer with
        | none =>
            simp only
            rw [vectors_emit_body, ih, hemit]
        | some p =>
            simp only
            rw [pushSpan_vectors, ih, hemit]
      · rw [vectors_emit_body, ih, hemit]

/-- The pairs that the paired builders give for an arm. -/
def buildPairs (params : List CMacroParam) (arm : CMacroArm) (args : List CToken)
    (caps : Captures) : List MarkedToken :=
  match arm.expansionTree with
  | some tree => (cCzetBuildExpansionTree params tree caps args).1
  | none => cCzetBuildExpansion params arm.expansion caps args

/-- The two vectors are the two sides of the pairs. -/
theorem buildVectors_eq (arm : CMacroArm) :
    buildVectors params arm args caps =
      ((buildPairs params arm args caps).map Prod.fst,
        (buildPairs params arm args caps).map Prod.snd) := by
  have hstart : ({ cursors := zeroCursors params } : VecState) =
      ExpandState.vectors { cursors := zeroCursors params } := rfl
  unfold buildVectors buildPairs
  cases arm.expansionTree with
  | some tree =>
      simp only
      rw [hstart, pushSeq_vectors]
      rfl
  | none =>
      simp only
      rw [hstart, pushFlat_vectors]
      simp [ExpandState.vectors, ExpandState.emit]

private theorem markedBy_pairs (pairs : List MarkedToken) :
    markedBy (pairs.map Prod.fst) (pairs.map Prod.snd) = pairs := by
  apply List.ext_getElem?
  intro i
  rw [markedBy, List.getElem?_mapIdx, List.getElem?_map, cCzetMarked, List.getElem?_map]
  cases pairs[i]? with
  | none => rfl
  | some m => rfl

theorem expandArm_eq (arm : CMacroArm) (gen : Nat) :
    (expandArm params arm args caps gen).1 =
        (cCzetHygienize gen (markedBy (buildVectors params arm args caps).1
          (buildVectors params arm args caps).2)).1 ∧
      (expandArm params arm args caps gen).2.1 =
        (cCzetHygienize gen (markedBy (buildVectors params arm args caps).1
          (buildVectors params arm args caps).2)).2 := by
  rw [buildVectors_eq, markedBy_pairs]
  unfold expandArm buildPairs
  cases arm.expansionTree with
  | some tree => exact ⟨rfl, rfl⟩
  | none => exact ⟨rfl, rfl⟩

end Lockstep

section Copies

variable {n : Nat} {params : List CMacroParam} {caps : Captures}

private def source (args : Fin n → CToken) : CToken ⊕ Fin n → MarkedToken
  | .inl t => (t, false)
  | .inr k => (args k, true)

/-- The state of an expansion with the argument tokens left open. -/
private structure PlanState (n : Nat) where
  cursors : Nat → Option (List Nat)
  plan : List (CToken ⊕ Fin n)
  errors : List String

private def PlanState.realise (ps : PlanState n) (args : Fin n → CToken) : ExpandState :=
  { cursors := ps.cursors, out := ps.plan.map (source args), errors := ps.errors }

private def Planned (step : (Fin n → CToken) → ExpandState → ExpandState) : Prop :=
  ∀ ps : PlanState n, ∃ ps' : PlanState n, ∀ args, step args (ps.realise args) = ps'.realise args

private theorem planned_emit (plan : List (CToken ⊕ Fin n)) :
    Planned fun args st => st.emit (plan.map (source args)) := by
  intro ps
  refine ⟨{ ps with plan := ps.plan ++ plan }, fun args => ?_⟩
  simp [PlanState.realise, ExpandState.emit]

private theorem planned_body (t : CToken) : Planned (n := n) fun _ st => st.emit [(t, false)] :=
  planned_emit [.inl t]

private theorem capturedTokens_ofFn (args : Fin n → CToken) (start stop : Nat) :
    capturedTokens (List.ofFn args) start stop =
      ((((List.finRange n).drop start).take (stop - start)).map Sum.inr).map (source args) := by
  rw [capturedTokens, List.ofFn_eq_map]
  simp [source, Function.comp_def]

private theorem planned_span (start stop : Nat) :
    Planned (n := n) fun args st => st.emit (capturedTokens (List.ofFn args) start stop) := by
  intro ps
  obtain ⟨ps', h⟩ := planned_emit
    ((((List.finRange n).drop start).take (stop - start)).map Sum.inr) ps
  refine ⟨ps', fun args => ?_⟩
  simp only [capturedTokens_ofFn]
  exact h args

private theorem planned_id : Planned (n := n) fun _ st => st := fun ps => ⟨ps, fun _ => rfl⟩

private theorem planned_comp {f g : (Fin n → CToken) → ExpandState → ExpandState} (hf : Planned f)
    (hg : Planned g) : Planned fun args st => g args (f args st) := by
  intro ps
  obtain ⟨ps₁, h₁⟩ := hf ps
  obtain ⟨ps₂, h₂⟩ := hg ps₁
  refine ⟨ps₂, fun args => ?_⟩
  simp only [h₁, h₂]

private theorem planned_iters {body : (Fin n → CToken) → Nat → ExpandState → ExpandState}
    (h : ∀ k, Planned fun args => body args k) (sep : Option CToken) (left k : Nat) :
    Planned fun args => emitIters (body args) sep left k := by
  induction left generalizing k with
  | zero => exact planned_id
  | succ left ih =>
      cases left with
      | zero => exact h k
      | succ left =>
          have hsep : Planned (n := n) fun _ st => st.emit (sep.toList.map fun t => (t, false)) := by
            cases sep with
            | none => exact planned_emit []
            | some t => exact planned_body t
          have hfirst : Planned fun args st =>
              (body args k st).emit (sep.toList.map fun t => (t, false)) := planned_comp (h k) hsep
          have hrest := planned_comp hfirst (ih (k + 1))
          exact hrest

mutual

private theorem planned_node : ∀ (node : CzetRepNode) (depth : Nat),
    Planned (n := n) fun args => expandNode params caps (List.ofFn args) node depth
  | .tok t, depth => by
      simp only [expandNode]
      exact planned_body t
  | .cap p, depth => by
      simp only [expandNode]
      cases params[p]? with
      | none => exact planned_id
      | some par =>
          simp only
          split
          · intro ps
            cases hdepth : par.repDepth with
            | none => exact ⟨ps, fun _ => rfl⟩
            | some bd =>
                cases hcur : ps.cursors p with
                | none =>
                    refine ⟨ps, fun args => ?_⟩
                    simp only [PlanState.realise, hcur]
                | some cur =>
                    cases hleaf : (czetCapNavigate (caps p).cur cur bd).bind czetCapFirstLeaf with
                    | none =>
                        refine ⟨ps, fun args => ?_⟩
                        simp only [PlanState.realise, hcur, hleaf]
                    | some span =>
                        obtain ⟨ps', h⟩ := planned_span span.1 span.2 ps
                        refine ⟨ps', fun args => ?_⟩
                        rw [← h args]
                        simp only [PlanState.realise, hcur, hleaf]
          · exact planned_span _ _
  | .rep kids mod sep uses, depth => by
      intro ps
      cases hcount : repCount params caps ps.cursors depth uses 0 with
      | error pair =>
          refine ⟨{ ps with errors := ps.errors ++ ["meta-variable repeats " ++ toString pair.1 ++
            " times but another repeats " ++ toString pair.2 ++ " times"] }, fun args => ?_⟩
          simp only [expandNode, PlanState.realise, hcount]
      | ok count =>
          have hbody : ∀ k, Planned (n := n) fun args st =>
              cCzetExpandSeq params caps (List.ofFn args) kids (depth + 1)
                { st with cursors := setCursors params uses depth k st.cursors } := by
            intro k ps
            exact planned_seq kids (depth + 1)
              { ps with cursors := setCursors params uses depth k ps.cursors }
          obtain ⟨ps', h⟩ := planned_iters hbody sep (if mod = .query then min count 1 else count)
            0 ps
          refine ⟨ps', fun args => ?_⟩
          rw [← h args]
          simp only [expandNode, PlanState.realise, hcount]

private theorem planned_seq : ∀ (nodes : List CzetRepNode) (depth : Nat),
    Planned (n := n) fun args => cCzetExpandSeq params caps (List.ofFn args) nodes depth
  | [], depth => by
      simp only [cCzetExpandSeq]
      exact planned_id
  | node :: rest, depth => by
      simp only [cCzetExpandSeq]
      exact planned_comp (planned_node node depth) (planned_seq rest depth)

end

private theorem planned_flat (expansion : List CToken) :
    Planned (n := n) fun args st =>
      st.emit (cCzetBuildExpansion params expansion caps (List.ofFn args)) := by
  induction expansion with
  | nil => exact planned_emit []
  | cons t ts ih =>
      have hcons : ∀ toks : (Fin n → CToken) → List MarkedToken,
          Planned (fun args st => st.emit (toks args)) →
          Planned fun args st =>
            st.emit (toks args ++ cCzetBuildExpansion params ts caps (List.ofFn args)) := by
        intro toks htoks
        have hboth := planned_comp htoks ih
        simpa [ExpandState.emit] using hboth
      simp only [cCzetBuildExpansion, List.flatMap_cons]
      split
      · cases cCzetFindParam params t.identifierPointer with
        | none => exact hcons _ (planned_body t)
        | some p => exact hcons _ (planned_span _ _)
      · exact hcons _ (planned_body t)

private theorem buildPairs_planned (arm : CMacroArm) :
    ∃ plan : List (CToken ⊕ Fin n), ∀ args,
      buildPairs params arm (List.ofFn args) caps = plan.map (source args) := by
  have hstart : ∀ args : Fin n → CToken, ({ cursors := zeroCursors params } : ExpandState) =
      PlanState.realise ⟨zeroCursors params, [], []⟩ args := fun _ => rfl
  unfold buildPairs
  cases arm.expansionTree with
  | some tree =>
      have hseq : Planned (n := n) fun args =>
          cCzetExpandSeq params caps (List.ofFn args) tree 0 := planned_seq tree 0
      obtain ⟨ps, h⟩ := hseq ⟨zeroCursors params, [], []⟩
      refine ⟨ps.plan, fun args => ?_⟩
      simp only [cCzetBuildExpansionTree]
      rw [hstart args]
      exact congrArg ExpandState.out (h args)
  | none =>
      have hflat : Planned (n := n) fun args st =>
          st.emit (cCzetBuildExpansion params arm.expansion caps (List.ofFn args)) :=
        planned_flat arm.expansion
      obtain ⟨ps, h⟩ := hflat ⟨zeroCursors params, [], []⟩
      refine ⟨ps.plan, fun args => ?_⟩
      have hout := congrArg ExpandState.out (h args)
      simpa [PlanState.realise, ExpandState.emit] using hout

private theorem source_fst (args : Fin n → CToken) (plan : List (CToken ⊕ Fin n)) :
    (plan.map (source args)).map Prod.fst = plan.map (Sum.elim id args) := by
  rw [List.map_map]
  apply List.map_congr_left
  rintro (t | k) -
  · rfl
  · rfl

private theorem source_snd (args : Fin n → CToken) (plan : List (CToken ⊕ Fin n)) :
    (plan.map (source args)).map Prod.snd = plan.map Sum.isRight := by
  rw [List.map_map]
  apply List.map_congr_left
  rintro (t | k) -
  · rfl
  · rfl

private theorem armUse_provenance (u : ArmUse) : u.Provenance := by
  obtain ⟨plan, hplan⟩ : ∃ plan : List (CToken ⊕ Fin u.args.length), ∀ args,
      buildPairs u.params u.arm (List.ofFn args) u.caps = plan.map (source args) :=
    buildPairs_planned u.arm
  have hbuild : ∀ args : Fin u.args.length → CToken,
      buildVectors u.params u.arm (List.ofFn args) u.caps =
        (plan.map (Sum.elim id args), plan.map Sum.isRight) := by
    intro args
    rw [buildVectors_eq, hplan, source_fst, source_snd]
  have hself := hbuild u.args.get
  rw [List.ofFn_get] at hself
  have hmark : u.mark = plan.map Sum.isRight := congrArg Prod.snd hself
  have hout : u.out = plan.map (Sum.elim id u.args.get) := congrArg Prod.fst hself
  refine ⟨?_, plan, hmark, hout, hbuild⟩
  rw [hmark, hout, List.length_map, List.length_map]

end Copies

section Renaming

variable {gen : Nat} {us : List ArmUse}

private theorem expandUses_eq (gen : Nat) (us : List ArmUse) :
    expandUses gen us = hygienizeAll gen (us.map fun u => markedBy u.out u.mark) := by
  induction us generalizing gen with
  | nil => rfl
  | cons u us ih =>
      rw [expandUses, List.map_cons, hygienizeAll]
      exact congrArg _ (ih _)

private theorem finalToken_eq {k : Nat} {u : ArmUse} (hu : us[k]? = some u) (i : Nat) :
    finalToken gen us k i =
      (cCzetHygienize (genAfter gen ((us.map fun u => markedBy u.out u.mark).take k))
        (markedBy u.out u.mark)).1[i]? := by
  rw [finalToken, expandUses_eq, hygienizeAll_getElem?, List.getElem?_map, hu]
  rfl

private theorem markedBy_getElem? {out : List CToken} {mark : List Bool} {i : Nat} {t : CToken}
    (ht : out[i]? = some t) : (markedBy out mark)[i]? = some (t, cCzetMarked mark i) := by
  rw [markedBy, List.getElem?_mapIdx, ht]
  rfl

private theorem renamedTogether {k : Nat} {u : ArmUse} (hu : us[k]? = some u) :
    RenamedTogether u (finalToken gen us k) := by
  constructor
  · intro i t ht hkeep
    rw [finalToken_eq hu]
    apply hygienize_kept (markedBy_getElem? ht)
    rintro ⟨hmark, hname, -⟩
    rcases hkeep with hm | hm
    · simp [cCzetMarked, hm] at hmark
    · exact hm hname
  · intro s
    by_cases hs : Binds (markedBy u.out u.mark) s
    · right
      refine ⟨freshName (genAfter gen ((us.map fun u => markedBy u.out u.mark).take k)) s,
        freshName_ne _ _, ?_⟩
      rintro i t ht hmark hname rfl
      rw [finalToken_eq hu]
      have hat : (markedBy u.out u.mark)[i]? = some (t, false) := by
        rw [markedBy_getElem? ht, cCzetMarked, hmark]
        rfl
      exact hygienize_renamed hat hname hs
    · left
      rintro i t ht - - rfl
      rw [finalToken_eq hu]
      exact hygienize_kept (markedBy_getElem? ht) fun hren => hs hren.2.2

private theorem renamed_token {k i : Nat} {u : ArmUse} {t t' : CToken} (hu : us[k]? = some u)
    (ht : u.out[i]? = some t) (ht' : finalToken gen us k i = some t') (hne : t' ≠ t) :
    renames (markedBy u.out u.mark) = true ∧
      t' = freshToken (genAfter gen ((us.map fun u => markedBy u.out u.mark).take k)) t := by
  rw [finalToken_eq hu] at ht'
  by_cases hren : cCzetMarked u.mark i = false ∧ t.type = .name ∧
      Binds (markedBy u.out u.mark) t.identifierPointer
  · obtain ⟨hmark, hname, hs⟩ := hren
    have hat : (markedBy u.out u.mark)[i]? = some (t, false) := by
      rw [markedBy_getElem? ht, hmark]
    rw [hygienize_renamed hat hname hs] at ht'
    exact ⟨(renames_iff _).mpr ⟨_, hs⟩, (Option.some.inj ht').symm⟩
  · rw [hygienize_kept (markedBy_getElem? ht) hren] at ht'
    exact absurd (Option.some.inj ht').symm hne

private theorem renamedApart (hgen : gen < 2 ^ 32) (hfew : us.countP ArmUse.renaming < 2 ^ 32) :
    RenamedApart gen us := by
  intro k l i j u v t t' s s' hu hv ht hs ht' hs' htne hsne
  obtain ⟨hrenu, rfl⟩ := renamed_token hu ht ht' htne
  obtain ⟨hrenv, rfl⟩ := renamed_token hv hs hs' hsne
  rw [freshToken_identifierPointer, freshToken_identifierPointer, freshName_inj]
  refine and_congr_left fun _ => ⟨fun hgens => ?_, fun hkl => by rw [hkl]⟩
  have hcount : (us.map fun u => markedBy u.out u.mark).countP renames < 2 ^ 32 := by
    rw [List.countP_map]
    exact hfew
  have hat : ∀ {k : Nat} {u : ArmUse}, us[k]? = some u →
      (us.map fun u => markedBy u.out u.mark)[k]? = some (markedBy u.out u.mark) := by
    intro k u hu
    rw [List.getElem?_map, hu]
    rfl
  rcases Nat.lt_trichotomy k l with hlt | heq | hlt
  · exact absurd hgens (generations_differ hgen hcount (hat hu) hrenu hlt)
  · exact heq
  · exact absurd hgens.symm (generations_differ hgen hcount (hat hv) hrenv hlt)

/-- Over every sequence of matched arms with fewer than 2^32 renaming expansions: the vectors mark
the argument tokens, hygiene renames all body names of one spelling or none, and the new names are
equal only for one name of one expansion. -/
theorem hygiene_renames_consistently (gen : Nat) (hgen : gen < 2 ^ 32) (us : List ArmUse)
    (hfew : us.countP ArmUse.renaming < 2 ^ 32) :
    (∀ u ∈ us, u.Provenance) ∧
      (∀ k u, us[k]? = some u → RenamedTogether u (finalToken gen us k)) ∧
        RenamedApart gen us := by
  refine ⟨fun u _ => armUse_provenance u, fun k u hu => renamedTogether hu, ?_⟩
  exact renamedApart hgen hfew

end Renaming

section Steps

/-- `_Macro STEP<$n: number> { (STEP $n) { int steps = $n; } }` -/
def stepArm : CMacroArm where
  pattern := [nameToken "STEP", nameToken "$n"]
  expansion := [kwToken "int", nameToken "steps", punctToken .eq, nameToken "$n",
    punctToken .semicolon]
  patternTree := none
  expansionTree := none

def stepParams : List CMacroParam := [{ name := "$n", kind := .number }]

private def stepArgs : List CToken := [nameToken "STEP", { type := .number }]

private def stepUse : ArmUse where
  params := stepParams
  arm := stepArm
  args := stepArgs
  caps := setSpan noCaptures 0 1 2
  matched := rfl

/-- Two uses of `STEP`. -/
theorem steps_renamed_consistently :
    (∀ u ∈ [stepUse, stepUse], u.Provenance) ∧
      (∀ k u, [stepUse, stepUse][k]? = some u →
        RenamedTogether u (finalToken 0 [stepUse, stepUse] k)) ∧
        RenamedApart 0 [stepUse, stepUse] :=
  hygiene_renames_consistently 0 (by decide) [stepUse, stepUse] (by decide)

end Steps

end CZet
