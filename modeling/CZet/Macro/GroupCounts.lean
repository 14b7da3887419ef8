/- source: src/gcc/gcc/c/c-parser.cc (c_czet_expand_seq, repetition group)
   digest: How often an expansion group is expanded, and when its parameters are reported to repeat
     different numbers of times. -/

import CZet.Macro.Expansion

set_option autoImplicit false
set_option relaxedAutoImplicit false

namespace CZet

/-- How often parameter `p` repeats at level `depth`, if it has iterations there. -/
def iterationCount (params : List CMacroParam) (caps : Captures)
    (cursors : Nat → Option (List Nat)) (depth p : Nat) : Option Nat :=
  match params[p]? with
  | none => none
  | some par =>
      match par.isRepeat, par.repDepth with
      | true, some bd =>
          if bd < depth then none
          else (czetCapLevelList (caps p).cur ((cursors p).getD []) depth).map List.length
      | _, _ => none

/-- The counts of the parameters that a group uses, in their order. -/
def iterationCounts (params : List CMacroParam) (caps : Captures)
    (cursors : Nat → Option (List Nat)) (depth : Nat) (uses : List Nat) : List Nat :=
  uses.filterMap (iterationCount params caps cursors depth)

/-- Two of the counts are different. -/
def CountsDiffer (counts : List Nat) : Prop := ∃ a ∈ counts, ∃ b ∈ counts, a ≠ b

/-- The count of the first parameter that has one. -/
def commonCount (counts : List Nat) : Nat := counts.head?.getD 0

/-- Parameters without an iteration come first, and all behind them repeat equally often. -/
def ZerosFirst (counts : List Nat) : Prop :=
  ∃ zeros n rest, zeros ≠ [] ∧ (∀ a ∈ zeros, a = 0) ∧ n ≠ 0 ∧ (∀ a ∈ rest, a = n) ∧
    counts = zeros ++ n :: rest

def repeatsMessage (length count : Nat) : String :=
  "meta-variable repeats " ++ toString length ++ " times but another repeats " ++ toString count ++
    " times"

/-- The content of a group, with iteration `k` selected for the parameters it uses. -/
def groupPass (params : List CMacroParam) (caps : Captures) (args : List CToken)
    (kids : List CzetRepNode) (uses : List Nat) (depth k : Nat) (st : ExpandState) : ExpandState :=
  cCzetExpandSeq params caps args kids (depth + 1)
    { st with cursors := setCursors params uses depth k st.cursors }

/-- `n` passes, with the separator between two of them. -/
def expandTimes (pass : Nat → ExpandState → ExpandState) (sep : Option CToken) (n : Nat)
    (st : ExpandState) : ExpandState :=
  (List.range n).foldl
    (fun st k => pass k (if k = 0 then st else st.emit (sep.toList.map fun t => (t, false)))) st

/-- What a group makes of its counts: the two that it reports, or how many passes it makes. -/
def groupDecision (params : List CMacroParam) (caps : Captures) (cursors : Nat → Option (List Nat))
    (mod : RepMod) (uses : List Nat) (depth : Nat) : Except (Nat × Nat) Nat :=
  (repCount params caps cursors depth uses 0).map fun n => if mod = .query then min n 1 else n

def carryOut (params : List CMacroParam) (caps : Captures) (args : List CToken)
    (kids : List CzetRepNode) (sep : Option CToken) (uses : List Nat) (depth : Nat)
    (st : ExpandState) : Except (Nat × Nat) Nat → ExpandState
  | .error (a, b) => { st with errors := st.errors ++ [repeatsMessage a b] }
  | .ok n => expandTimes (groupPass params caps args kids uses depth) sep n st

/-- Counts that differ are reported, and others are the number of passes. -/
def RightlyDecided (counts : List Nat) (decision : Except (Nat × Nat) Nat) : Prop :=
  (CountsDiffer counts ↔ ∃ a ∈ counts, ∃ b ∈ counts, a ≠ b ∧ decision = .error (a, b)) ∧
    (¬ CountsDiffer counts → decision = .ok (commonCount counts))

section Counting

variable {params : List CMacroParam} {caps : Captures} {cursors : Nat → Option (List Nat)}
  {depth : Nat}

/-- The accumulation over the counts; zero also means that no count has been seen. -/
private def scanCounts : Nat → List Nat → Except (Nat × Nat) Nat
  | count, [] => .ok count
  | count, a :: counts =>
      if count ≠ 0 ∧ count ≠ a then .error (a, count) else scanCounts a counts

private theorem repCount_eq_scan (uses : List Nat) (count : Nat) :
    repCount params caps cursors depth uses count =
      scanCounts count (iterationCounts params caps cursors depth uses) := by
  induction uses generalizing count with
  | nil => rfl
  | cons p uses ih =>
      rw [repCount, iterationCounts, List.filterMap_cons, iterationCount]
      cases params[p]? with
      | none => exact ih count
      | some par =>
          simp only
          cases par.isRepeat with
          | false => exact ih count
          | true =>
              cases par.repDepth with
              | none => exact ih count
              | some bd =>
                  by_cases hbd : bd < depth
                  · simp only [if_pos hbd]
                    exact ih count
                  · simp only [if_neg hbd]
                    cases czetCapLevelList (caps p).cur ((cursors p).getD []) depth with
                    | none => exact ih count
                    | some ll =>
                        simp only [Option.map_some, scanCounts]
                        rw [ih ll.length]
                        rfl

private theorem scanCounts_const {n : Nat} {counts : List Nat} (h : ∀ a ∈ counts, a = n) :
    scanCounts n counts = .ok n := by
  induction counts with
  | nil => rfl
  | cons a counts ih =>
      obtain rfl : a = n := h a List.mem_cons_self
      rw [scanCounts, if_neg (by simp)]
      exact ih fun b hb => h b (List.mem_cons_of_mem _ hb)

private theorem scanCounts_differ {n : Nat} (hn : n ≠ 0) {counts : List Nat}
    (h : ∃ a ∈ counts, a ≠ n) :
    ∃ a ∈ counts, a ≠ n ∧ scanCounts n counts = .error (a, n) := by
  induction counts with
  | nil =>
      obtain ⟨a, ha, -⟩ := h
      cases ha
  | cons b counts ih =>
      rw [scanCounts]
      by_cases hb : n = b
      · subst hb
        rw [if_neg (by simp)]
        obtain ⟨a, ha, hne⟩ := h
        rcases List.mem_cons.mp ha with rfl | ha
        · exact absurd rfl hne
        · obtain ⟨a, ha, hne, hscan⟩ := ih ⟨a, ha, hne⟩
          exact ⟨a, List.mem_cons_of_mem _ ha, hne, hscan⟩
      · rw [if_pos ⟨hn, hb⟩]
        exact ⟨b, List.mem_cons_self, Ne.symm hb, rfl⟩

private theorem scanCounts_zeros {zeros counts : List Nat} (h : ∀ a ∈ zeros, a = 0) :
    scanCounts 0 (zeros ++ counts) = scanCounts 0 counts := by
  induction zeros with
  | nil => rfl
  | cons a zeros ih =>
      obtain rfl : a = 0 := h a List.mem_cons_self
      rw [List.cons_append, scanCounts, if_neg (by simp)]
      exact ih fun b hb => h b (List.mem_cons_of_mem _ hb)

private theorem scanCounts_first {n : Nat} (counts : List Nat) :
    scanCounts 0 (n :: counts) = scanCounts n counts := by
  rw [scanCounts, if_neg (by simp)]

private theorem eq_commonCount {counts : List Nat} (h : ¬ CountsDiffer counts) :
    ∀ a ∈ counts, a = commonCount counts := by
  intro a ha
  by_contra hne
  cases counts with
  | nil => cases ha
  | cons b counts => exact h ⟨a, ha, b, List.mem_cons_self, hne⟩

private theorem scanCounts_agree {counts : List Nat} (h : ¬ CountsDiffer counts) :
    scanCounts 0 counts = .ok (commonCount counts) := by
  have hall := eq_commonCount h
  cases counts with
  | nil => rfl
  | cons n counts =>
      rw [scanCounts_first]
      exact scanCounts_const fun a ha => hall a (List.mem_cons_of_mem _ ha)

private theorem split_zeros (counts : List Nat) :
    ∃ zeros, (∀ a ∈ zeros, a = 0) ∧
      (counts = zeros ∨ ∃ n rest, n ≠ 0 ∧ counts = zeros ++ n :: rest) := by
  induction counts with
  | nil => exact ⟨[], fun a ha => (nomatch ha), Or.inl rfl⟩
  | cons a counts ih =>
      by_cases ha : a = 0
      · obtain ⟨zeros, hzeros, hrest⟩ := ih
        refine ⟨a :: zeros, ?_, ?_⟩
        · intro b hb
          rcases List.mem_cons.mp hb with rfl | hb
          · exact ha
          · exact hzeros b hb
        · rcases hrest with rfl | ⟨n, rest, hn, rfl⟩
          · exact Or.inl rfl
          · exact Or.inr ⟨n, rest, hn, rfl⟩
      · exact ⟨[], fun b hb => (nomatch hb), Or.inr ⟨a, counts, ha, rfl⟩⟩

private theorem scanCounts_reports {counts : List Nat} (hdiffer : CountsDiffer counts)
    (hslip : ¬ ZerosFirst counts) :
    ∃ a ∈ counts, ∃ b ∈ counts, a ≠ b ∧ scanCounts 0 counts = .error (a, b) := by
  obtain ⟨zeros, hzeros, rfl | ⟨n, rest, hn, rfl⟩⟩ := split_zeros counts
  · obtain ⟨a, ha, b, hb, hne⟩ := hdiffer
    exact absurd ((hzeros a ha).trans (hzeros b hb).symm) hne
  · rw [scanCounts_zeros hzeros, scanCounts_first]
    have hother : ∃ a ∈ rest, a ≠ n := by
      by_contra hnone
      simp only [not_exists, not_and, not_not] at hnone
      cases zeros with
      | cons z zeros => exact hslip ⟨z :: zeros, n, rest, by simp, hzeros, hn, hnone, rfl⟩
      | nil =>
          have hall : ∀ a ∈ n :: rest, a = n := by
            intro a ha
            rcases List.mem_cons.mp ha with rfl | ha
            · rfl
            · exact hnone a ha
          obtain ⟨a, ha, b, hb, hne⟩ := hdiffer
          exact hne ((hall a ha).trans (hall b hb).symm)
    obtain ⟨a, ha, hne, hscan⟩ := scanCounts_differ hn hother
    refine ⟨a, ?_, n, ?_, hne, hscan⟩
    · exact List.mem_append_right _ (List.mem_cons_of_mem _ ha)
    · exact List.mem_append_right _ List.mem_cons_self

end Counting

section Groups

private theorem emitIters_succ (pass : Nat → ExpandState → ExpandState) (sep : Option CToken)
    (n k : Nat) (st : ExpandState) :
    emitIters pass sep (n + 1) k st =
      (List.range' (k + 1) n).foldl
        (fun st j => pass j (st.emit (sep.toList.map fun t => (t, false)))) (pass k st) := by
  induction n generalizing k st with
  | zero => rfl
  | succ n ih =>
      rw [emitIters, ih, List.range'_succ, List.foldl_cons]

theorem emitIters_eq_expandTimes (pass : Nat → ExpandState → ExpandState) (sep : Option CToken)
    (n : Nat) (st : ExpandState) : emitIters pass sep n 0 st = expandTimes pass sep n st := by
  cases n with
  | zero => rfl
  | succ n =>
      rw [emitIters_succ, expandTimes, List.range_eq_range', List.range'_succ, List.foldl_cons]
      apply List.foldl_ext
      intro st k hk
      have hpos : k ≠ 0 := by
        have := (List.mem_range'_1.mp hk).1
        omega
      rw [if_neg hpos]

variable {params : List CMacroParam} {caps : Captures} {args : List CToken}
  {kids : List CzetRepNode} {mod : RepMod} {sep : Option CToken} {uses : List Nat} {depth : Nat}
  {st : ExpandState}

private theorem expandNode_report {a b : Nat}
    (h : repCount params caps st.cursors depth uses 0 = .error (a, b)) :
    expandNode params caps args (.rep kids mod sep uses) depth st =
      { st with errors := st.errors ++ [repeatsMessage a b] } := by
  unfold expandNode
  split
  · rename_i heq
    rw [h] at heq
    obtain ⟨rfl, rfl⟩ := Prod.mk.inj (Except.error.inj heq)
    unfold repeatsMessage
    exact Eq.refl _
  · rename_i heq
    rw [h] at heq
    cases heq

private theorem expandNode_passes {n : Nat}
    (h : repCount params caps st.cursors depth uses 0 = .ok n) :
    expandNode params caps args (.rep kids mod sep uses) depth st =
      expandTimes (groupPass params caps args kids uses depth) sep
        (if mod = .query then min n 1 else n) st := by
  simp only [expandNode, h]
  exact emitIters_eq_expandTimes _ _ _ _

theorem expandNode_rep : expandNode params caps args (.rep kids mod sep uses) depth st =
    carryOut params caps args kids sep uses depth st
      (groupDecision params caps st.cursors mod uses depth) := by
  rw [groupDecision]
  cases h : repCount params caps st.cursors depth uses 0 with
  | error e => exact expandNode_report h
  | ok n => exact expandNode_passes h

private theorem zerosFirst_decides {cursors : Nat → Option (List Nat)}
    (h : ZerosFirst (iterationCounts params caps cursors depth uses)) :
    ∃ n, groupDecision params caps cursors mod uses depth = .ok n := by
  obtain ⟨zeros, n, rest, -, hzeros, -, hrest, hcounts⟩ := h
  refine ⟨if mod = .query then min n 1 else n, ?_⟩
  rw [groupDecision, repCount_eq_scan, hcounts, scanCounts_zeros hzeros, scanCounts_first,
    scanCounts_const hrest]
  rfl

private theorem zerosFirst_differ {counts : List Nat} (h : ZerosFirst counts) :
    CountsDiffer counts := by
  obtain ⟨zeros, n, rest, hne, hzeros, hn, -, rfl⟩ := h
  obtain ⟨z, hz⟩ := List.exists_mem_of_ne_nil zeros hne
  refine ⟨z, List.mem_append_left _ hz, n, List.mem_append_right _ List.mem_cons_self, ?_⟩
  rw [hzeros z hz]
  exact hn.symm

private theorem agreeing_decide {cursors : Nat → Option (List Nat)}
    (h : ¬ CountsDiffer (iterationCounts params caps cursors depth uses)) :
    groupDecision params caps cursors mod uses depth =
      .ok (if mod = .query
        then min (commonCount (iterationCounts params caps cursors depth uses)) 1
        else commonCount (iterationCounts params caps cursors depth uses)) := by
  rw [groupDecision, repCount_eq_scan, scanCounts_agree h]
  rfl

/-- A group carries out its decision, and the decision is right unless the counts are zeros in front
of equal counts that are none, or a `?` group has a common count above one. -/
theorem group_counts_decide (params : List CMacroParam) (caps : Captures) (args : List CToken)
    (kids : List CzetRepNode) (mod : RepMod) (sep : Option CToken) (uses : List Nat) (depth : Nat)
    (st : ExpandState) :
    expandNode params caps args (.rep kids mod sep uses) depth st =
        carryOut params caps args kids sep uses depth st
          (groupDecision params caps st.cursors mod uses depth) ∧
      (RightlyDecided (iterationCounts params caps st.cursors depth uses)
          (groupDecision params caps st.cursors mod uses depth) ↔
        ¬ ZerosFirst (iterationCounts params caps st.cursors depth uses) ∧
          (mod = .query → CountsDiffer (iterationCounts params caps st.cursors depth uses) ∨
            commonCount (iterationCounts params caps st.cursors depth uses) ≤ 1)) := by
  refine ⟨expandNode_rep, ?_, ?_⟩
  · rintro ⟨hreport, hpasses⟩
    refine ⟨?_, ?_⟩
    · intro hzeros
      obtain ⟨a, -, b, -, -, herror⟩ := hreport.mp (zerosFirst_differ hzeros)
      obtain ⟨n, hok⟩ : ∃ n, groupDecision params caps st.cursors mod uses depth = .ok n :=
        zerosFirst_decides hzeros
      rw [herror] at hok
      cases hok
    · rintro rfl
      refine or_iff_not_imp_left.mpr fun hagree => ?_
      have hclamped := (agreeing_decide hagree).symm.trans (hpasses hagree)
      rw [if_pos rfl] at hclamped
      rw [← Except.ok.inj hclamped]
      exact Nat.min_le_right _ _
  · rintro ⟨hkind, hquery⟩
    refine ⟨⟨?_, ?_⟩, ?_⟩
    · intro hdiffer
      obtain ⟨a, ha, b, hb, hne, hscan⟩ := scanCounts_reports hdiffer hkind
      refine ⟨a, ha, b, hb, hne, ?_⟩
      rw [groupDecision, repCount_eq_scan, hscan]
      rfl
    · rintro ⟨a, ha, b, hb, hne, -⟩
      exact ⟨a, ha, b, hb, hne⟩
    · intro hagree
      rw [agreeing_decide hagree]
      split
      next hmod => rw [Nat.min_eq_left ((hquery hmod).resolve_left hagree)]
      next => rfl

end Groups

section ParallelRepetitions

/-- The parameters of `_Macro U<$($x: ident)*, $($y: number)*>`. -/
private def unitParams : List CMacroParam :=
  [{ name := "$x", kind := .ident, isRepeat := true, repeatMod := some .star },
    { name := "$y", kind := .number, isRepeat := true, repeatMod := some .star }]

private def repeated (names : List String) : List CToken :=
  [nameToken "$", punctToken .openParen] ++ names.map nameToken ++
    [punctToken .closeParen, punctToken .mult]

private def unitPattern : List CToken := [nameToken "U"] ++ repeated ["$x"] ++ repeated ["$y"]

private def numberToken (spelling : String) : CToken :=
  { type := .number, value := .constant spelling }

/-- `U a b 1 2`. -/
private def twoEach : List CToken :=
  [nameToken "U", nameToken "a", nameToken "b", numberToken "1", numberToken "2"]

/-- `U 1 2`: no `$x`, and two `$y`. -/
private def numbersOnly : List CToken := [nameToken "U", numberToken "1", numberToken "2"]

/-- `$( $x $y )*` is expanded twice. -/
theorem equal_counts_expand : ∃ tree params caps kids uses,
    cCzetParseTree unitParams unitPattern true = .ok (tree, params) ∧
      cCzetMatcherTree params tree twoEach = some (some caps) ∧
      cCzetParseTree params (repeated ["$x", "$y"]) false =
        .ok ([.rep kids .star none uses], params) ∧
      iterationCounts params caps (zeroCursors params) 0 uses = [2, 2] ∧
      RightlyDecided (iterationCounts params caps (zeroCursors params) 0 uses)
        (groupDecision params caps (zeroCursors params) .star uses 0) := by
  refine ⟨_, _, _, _, _, rfl, rfl, rfl, rfl, ?_⟩
  refine (group_counts_decide _ _ twoEach [] .star none _ 0
    { cursors := zeroCursors _ }).2.mpr ⟨?_, nofun⟩
  intro hzeros
  obtain ⟨a, ha, b, hb, hne⟩ := zerosFirst_differ hzeros
  have hcounts : ∀ c ∈ [2, 2], c = 2 := by decide
  exact hne ((hcounts a ha).trans (hcounts b hb).symm)

/-- `$( $x $y )*` is expanded twice without a report, and `$( $y $x )*` is reported. -/
theorem zero_count_unreported : ∃ tree params caps kids uses swapped,
    cCzetParseTree unitParams unitPattern true = .ok (tree, params) ∧
      cCzetMatcherTree params tree numbersOnly = some (some caps) ∧
      cCzetParseTree params (repeated ["$x", "$y"]) false =
        .ok ([.rep kids .star none uses], params) ∧
      cCzetParseTree params (repeated ["$y", "$x"]) false = .ok (swapped, params) ∧
      iterationCounts params caps (zeroCursors params) 0 uses = [0, 2] ∧
      ¬ RightlyDecided (iterationCounts params caps (zeroCursors params) 0 uses)
        (groupDecision params caps (zeroCursors params) .star uses 0) ∧
      cCzetBuildExpansionTree params [.rep kids .star none uses] caps numbersOnly =
        ([(numberToken "1", true), (numberToken "2", true)], []) ∧
      cCzetBuildExpansionTree params swapped caps numbersOnly = ([], [repeatsMessage 0 2]) := by
  refine ⟨_, _, _, _, _, _, rfl, rfl, rfl, rfl, rfl, ?_, rfl, rfl⟩
  rintro ⟨hreport, -⟩
  obtain ⟨a, -, b, -, -, herror⟩ :=
    hreport.mp ⟨0, List.mem_cons_self, 2, List.mem_cons_of_mem _ List.mem_cons_self, by decide⟩
  cases herror

end ParallelRepetitions

end CZet
