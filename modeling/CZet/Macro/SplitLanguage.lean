/- source: src/gcc/gcc/c/c-parser.cc (c_czet_mt_nodes, c_czet_matcher_tree)
   digest: The language of a pattern without repetition groups as splits of the argument list
     into segments, and the matcher as a longest-first search for them. -/

import CZet.Lib.LongestFirst
import CZet.Macro.Matcher
import Mathlib.Algebra.Order.Ring.Int

set_option autoImplicit false
set_option relaxedAutoImplicit false

namespace CZet

open CZet.Lib.LongestFirst

/-- The `c_czet_delta` sum of a run of tokens. -/
def deltaSum (ts : List CToken) : Int := (ts.map cCzetDelta).sum

/-- The tokens that end a run at nesting depth zero. -/
def isRunStop (commaBounded : Bool) (t : CToken) : Prop :=
  (commaBounded = true ∧ t.type = .comma) ∨ t.type = .semicolon

/-- What an `expr`, `type`, `stmt` or `tokens` parameter stands for. -/
structure RunSegment (commaBounded : Bool) (seg : List CToken) : Prop where
  nonempty : seg ≠ []
  nonneg : ∀ k, 0 ≤ deltaSum (seg.take k)
  balanced : deltaSum seg = 0
  unstopped : ∀ k t, seg[k]? = some t → deltaSum (seg.take (k + 1)) = 0 →
    ¬ isRunStop commaBounded t

/-- What a `block` parameter stands for. -/
structure BlockSegment (seg : List CToken) : Prop where
  opens : ∃ t, seg.head? = some t ∧ t.type = .openBrace
  balanced : deltaSum seg = 0
  shortest : ∀ k, 0 < k → k < seg.length → deltaSum (seg.take k) ≠ 0

/-- The segments that each parameter kind accepts. -/
def KindSegment : CzetMacroKind → List CToken → Prop
  | .ident, seg => ∃ t, seg = [t] ∧ t.type = .name
  | .number, seg => ∃ t, seg = [t] ∧ t.type = .number
  | .string, seg => ∃ t, seg = [t] ∧ t.type = .string
  | .literal, seg => ∃ t, seg = [t] ∧ cCzetIsLiteralToken t = true
  | .block, seg => BlockSegment seg
  | .expr, seg | .type, seg => RunSegment true seg
  | .stmt, seg | .tokens, seg => RunSegment false seg

/-- The segments that one node of a pattern without groups accepts. -/
def Segment (params : List CMacroParam) : CzetRepNode → List CToken → Prop
  | .tok t, seg => ∃ itok, seg = [itok] ∧ cCzetTokEq t itok = true
  | .cap p, seg => ∃ par, params[p]? = some par ∧ KindSegment par.kind seg
  | .rep .., _ => False

/-- `segs` splits the whole argument list, one segment for each node. -/
def FullSplit (params : List CMacroParam) (tree : List CzetRepNode) (input : List CToken)
    (segs : List (List CToken)) : Prop :=
  List.Forall₂ (Segment params) tree segs ∧ segs.flatten = input

def CzetRepNode.isRep : CzetRepNode → Bool
  | .rep .. => true
  | _ => false

/-- The pattern contains no repetition group. -/
def RepFree (tree : List CzetRepNode) : Prop := ∀ n ∈ tree, n.isRep = false

instance (tree : List CzetRepNode) : Decidable (RepFree tree) :=
  inferInstanceAs (Decidable (∀ n ∈ tree, n.isRep = false))

@[simp] theorem deltaSum_nil : deltaSum [] = 0 := rfl

@[simp] theorem deltaSum_cons (t : CToken) (ts : List CToken) :
    deltaSum (t :: ts) = cCzetDelta t + deltaSum ts := by
  simp [deltaSum]

@[simp] theorem deltaSum_append (a b : List CToken) :
    deltaSum (a ++ b) = deltaSum a + deltaSum b := by
  simp [deltaSum]

theorem cCzetDelta_ge (t : CToken) : -1 ≤ cCzetDelta t := by
  unfold cCzetDelta
  split <;> decide

/-- The nesting depth in front of position `i`. -/
def depthAt (input : List CToken) (i : Nat) : Int := deltaSum (input.take i)

/-- The tokens from `i` up to `j`. -/
def slice (input : List CToken) (i j : Nat) : List CToken := (input.drop i).take (j - i)

private theorem deltaSum_drop_take (input : List CToken) (i k : Nat) :
    deltaSum ((input.drop i).take k) = depthAt input (i + k) - depthAt input i := by
  have h : input.take (i + k) = input.take i ++ (input.drop i).take k := List.take_add
  simp only [depthAt, h, deltaSum_append]
  omega

private theorem length_slice {input : List CToken} {i j : Nat} (hij : i ≤ j)
    (hj : j ≤ input.length) : (slice input i j).length = j - i := by
  simp only [slice, List.length_take, List.length_drop]
  omega

private theorem deltaSum_slice {input : List CToken} {i j : Nat} (hij : i ≤ j) :
    deltaSum (slice input i j) = depthAt input j - depthAt input i := by
  rw [slice, deltaSum_drop_take]
  congr 2
  omega

private theorem runSegment_slice_iff {cb : Bool} {input : List CToken} {i j : Nat}
    (hij : i ≤ j) (hj : j ≤ input.length) :
    RunSegment cb (slice input i j) ↔ i < j ∧ depthAt input j = depthAt input i ∧
      (∀ k, i ≤ k → k ≤ j → depthAt input i ≤ depthAt input k) ∧
      ∀ k t, i ≤ k → k < j → input[k]? = some t → depthAt input (k + 1) = depthAt input i →
        ¬ isRunStop cb t := by
  have htake : ∀ k, k ≤ j - i →
      deltaSum ((slice input i j).take k) = depthAt input (i + k) - depthAt input i := by
    intro k hk
    rw [slice, List.take_take, Nat.min_eq_left hk, deltaSum_drop_take]
  have hget : ∀ k, k < j - i → (slice input i j)[k]? = input[i + k]? := by
    intro k hk
    rw [slice, List.getElem?_take_of_lt hk, List.getElem?_drop]
  have hlen := length_slice hij hj
  constructor
  · intro h
    refine ⟨?_, ?_, ?_, ?_⟩
    · have := List.length_pos_of_ne_nil h.nonempty
      omega
    · have := h.balanced
      rw [deltaSum_slice hij] at this
      omega
    · intro k hik hkj
      have := h.nonneg (k - i)
      rw [htake (k - i) (by omega), Nat.add_sub_cancel' hik] at this
      omega
    · intro k t hik hkj hk hdepth
      refine h.unstopped (k - i) t ?_ ?_
      · rw [hget (k - i) (by omega), Nat.add_sub_cancel' hik, hk]
      · rw [htake (k - i + 1) (by omega), ← Nat.add_assoc, Nat.add_sub_cancel' hik]
        omega
  · rintro ⟨hlt, hbal, hnonneg, hstop⟩
    refine ⟨?_, ?_, ?_, ?_⟩
    · intro hnil
      rw [hnil] at hlen
      simp only [List.length_nil] at hlen
      omega
    · intro k
      by_cases hk : k ≤ j - i
      · rw [htake k hk]
        have := hnonneg (i + k) (by omega) (by omega)
        omega
      · rw [List.take_of_length_le (by omega), deltaSum_slice hij]
        omega
    · rw [deltaSum_slice hij]
      omega
    · intro k t hk hsum
      have hkj : k < j - i := by
        have := (List.getElem?_eq_some_iff.mp hk).1
        omega
      rw [htake (k + 1) (by omega)] at hsum
      rw [hget k hkj] at hk
      exact hstop (i + k) t (by omega) (by omega) hk (by rw [Nat.add_assoc]; omega)

private theorem blockSegment_slice_iff {input : List CToken} {i j : Nat} (hij : i ≤ j)
    (hj : j ≤ input.length) :
    BlockSegment (slice input i j) ↔ i < j ∧ (∃ t, input[i]? = some t ∧ t.type = .openBrace) ∧
      depthAt input j = depthAt input i ∧
      ∀ k, i < k → k < j → depthAt input k ≠ depthAt input i := by
  have hlen := length_slice hij hj
  have hhead : i < j → (slice input i j).head? = input[i]? := by
    intro hlt
    rw [slice, List.head?_take, if_neg (by omega), List.head?_drop]
  constructor
  · intro h
    obtain ⟨t, ht, hbrace⟩ := h.opens
    have hlt : i < j := by
      rcases Nat.lt_or_ge i j with hlt | hge
      · exact hlt
      · have : (slice input i j).length = 0 := by omega
        rw [List.length_eq_zero_iff.mp this] at ht
        cases ht
    refine ⟨hlt, ⟨t, by rw [← hhead hlt, ht], hbrace⟩, ?_, ?_⟩
    · have := h.balanced
      rw [deltaSum_slice hij] at this
      omega
    · intro k hik hkj heq
      refine h.shortest (k - i) (by omega) (by omega) ?_
      rw [slice, List.take_take, Nat.min_eq_left (by omega), deltaSum_drop_take,
        Nat.add_sub_cancel' (by omega)]
      omega
  · rintro ⟨hlt, ⟨t, ht, hbrace⟩, hbal, hshort⟩
    refine ⟨⟨t, by rw [hhead hlt, ht], hbrace⟩, ?_, ?_⟩
    · rw [deltaSum_slice hij]
      omega
    · intro k hk hklen hsum
      rw [slice, List.take_take, Nat.min_eq_left (by omega), deltaSum_drop_take] at hsum
      exact hshort (i + k) (by omega) (by omega) (by omega)

private theorem oneToken_slice_iff {P : CToken → Prop} {input : List CToken} {i j : Nat}
    (hij : i ≤ j) (hj : j ≤ input.length) :
    (∃ t, slice input i j = [t] ∧ P t) ↔ j = i + 1 ∧ ∃ t, input[i]? = some t ∧ P t := by
  have hlen := length_slice hij hj
  constructor
  · rintro ⟨t, ht, hP⟩
    rw [ht] at hlen
    simp only [List.length_singleton] at hlen
    have hji : j = i + 1 := by omega
    refine ⟨hji, t, ?_, hP⟩
    have : (slice input i j)[0]? = some t := by rw [ht]; rfl
    rwa [slice, List.getElem?_take_of_lt (by omega), List.getElem?_drop, Nat.add_zero] at this
  · rintro ⟨rfl, t, ht, hP⟩
    refine ⟨t, ?_, hP⟩
    obtain ⟨hi, rfl⟩ := List.getElem?_eq_some_iff.mp ht
    rw [slice, Nat.add_sub_cancel_left, List.drop_eq_getElem_cons hi]
    rfl

theorem le_scanMaxcut_iff {cb : Bool} {l : List CToken} {d : Int} {k : Nat} :
    k ≤ scanMaxcut cb d l ↔ k ≤ l.length ∧ ∀ m t, m < k → l[m]? = some t →
      d + deltaSum (l.take (m + 1)) = 0 → ¬ isRunStop cb t := by
  induction l generalizing d k with
  | nil =>
      simp only [scanMaxcut, List.length_nil]
      constructor
      · intro hk
        exact ⟨hk, fun m t _ ht => by simp at ht⟩
      · exact And.left
  | cons a l ih =>
      rw [scanMaxcut]
      cases k with
      | zero => simp
      | succ k =>
          split
          · rename_i hstop
            constructor
            · intro hk
              omega
            · rintro ⟨-, h⟩
              exact absurd hstop.2 (h 0 a (by omega) rfl (by simpa using hstop.1))
          · rename_i hstop
            rw [Nat.succ_le_succ_iff, ih, List.length_cons, Nat.succ_le_succ_iff]
            refine and_congr_right fun _ => ?_
            constructor
            · intro h m t hm ht hsum
              cases m with
              | zero =>
                  simp only [List.getElem?_cons_zero, Option.some.injEq] at ht
                  subst ht
                  intro hrun
                  exact hstop ⟨by simpa using hsum, hrun⟩
              | succ m =>
                  refine h m t (by omega) (by simpa using ht) ?_
                  simpa [Int.add_assoc] using hsum
            · intro h m t hm ht hsum
              refine h (m + 1) t (by omega) (by simpa using ht) ?_
              simpa [Int.add_assoc] using hsum

theorem balancedRun_iff {l : List CToken} {d : Int} (hd : 0 ≤ d) :
    balancedRun d l = true ↔ d + deltaSum l = 0 ∧ ∀ k, 0 ≤ d + deltaSum (l.take k) := by
  induction l generalizing d with
  | nil => simp [balancedRun, hd]
  | cons a l ih =>
      rw [balancedRun]
      split
      · rename_i hneg
        constructor
        · intro h
          cases h
        · rintro ⟨-, h⟩
          have := h 1
          simp only [List.take_succ_cons, List.take_zero, deltaSum_cons, deltaSum_nil] at this
          omega
      · rename_i hneg
        rw [ih (by omega), deltaSum_cons, Int.add_assoc]
        refine and_congr_right fun _ => ⟨fun h k => ?_, fun h k => ?_⟩
        · cases k with
          | zero => simpa using hd
          | succ k => simpa [Int.add_assoc] using h k
        · simpa [Int.add_assoc] using h (k + 1)

private theorem mem_runCuts_iff {cb : Bool} {input : List CToken} {i j : Nat} :
    j ∈ runCuts cb input i ↔ i < j ∧ j ≤ input.length ∧ RunSegment cb (slice input i j) := by
  have hrange : j ∈ (List.range' (i + 1) (scanMaxcut cb 0 (input.drop i))).reverse ↔
      i < j ∧ j - i ≤ scanMaxcut cb 0 (input.drop i) := by
    rw [List.mem_reverse, List.mem_range'_1]
    omega
  rw [runCuts, List.mem_filter, hrange, le_scanMaxcut_iff, balancedRun_iff (Int.le_refl 0)]
  simp only [Int.zero_add, List.length_drop]
  constructor
  · rintro ⟨⟨hij, hlen, hstop⟩, hbal, hnonneg⟩
    refine ⟨hij, by omega, ?_, hnonneg, hbal, ?_⟩
    · intro hnil
      have hslice : (slice input i j).length = j - i := length_slice (le_of_lt hij) (by omega)
      rw [hnil, List.length_nil] at hslice
      omega
    · intro k t hk hsum
      have hkj : k < j - i := by
        have := (List.getElem?_eq_some_iff.mp hk).1
        rw [length_slice (le_of_lt hij) (by omega)] at this
        exact this
      rw [slice, List.getElem?_take_of_lt hkj] at hk
      rw [slice, List.take_take, Nat.min_eq_left (by omega)] at hsum
      exact hstop k t hkj hk hsum
  · rintro ⟨hij, hlen, hrun⟩
    refine ⟨⟨hij, by omega, ?_⟩, hrun.balanced, hrun.nonneg⟩
    intro m t hm ht hsum
    refine hrun.unstopped m t ?_ ?_
    · rw [slice, List.getElem?_take_of_lt hm, ht]
    · rw [slice, List.take_take, Nat.min_eq_left (by omega), hsum]

private theorem scanBlock_iff {l : List CToken} {d : Int} (hd : 0 < d) {n : Nat} :
    scanBlock d l = some n ↔ 0 < n ∧ n ≤ l.length ∧ d + deltaSum (l.take n) = 0 ∧
      ∀ k, 0 < k → k < n → d + deltaSum (l.take k) ≠ 0 := by
  induction l generalizing d n with
  | nil =>
      simp only [scanBlock, List.length_nil]
      constructor
      · intro h
        cases h
      · rintro ⟨h0, hle, -⟩
        omega
  | cons a l ih =>
      rw [scanBlock]
      have hge := cCzetDelta_ge a
      split
      · rename_i hzero
        constructor
        · intro h
          cases h
          refine ⟨by omega, by simp, by simpa using hzero, ?_⟩
          intro k hk hk1
          omega
        · rintro ⟨h0, -, -, hmin⟩
          rcases Nat.lt_or_ge 1 n with hn | hn
          · exact absurd (by simpa using hzero) (hmin 1 (by omega) hn)
          · rw [show n = 1 by omega]
      · rename_i hzero
        rw [if_pos (by omega)]
        cases n with
        | zero => simp
        | succ n =>
            simp only [Option.map_eq_some_iff, Nat.add_right_cancel_iff, exists_eq_right]
            rw [ih (by omega)]
            simp only [List.length_cons, List.take_succ_cons, deltaSum_cons, Nat.succ_le_succ_iff,
              ← Int.add_assoc]
            constructor
            · rintro ⟨h0, hle, hsum, hmin⟩
              refine ⟨by omega, hle, hsum, ?_⟩
              intro k hk hkn
              cases k with
              | zero => omega
              | succ k =>
                  rw [List.take_succ_cons, deltaSum_cons, ← Int.add_assoc]
                  cases k with
                  | zero => simpa using hzero
                  | succ k => exact hmin (k + 1) (by omega) (by omega)
            · rintro ⟨-, hle, hsum, hmin⟩
              refine ⟨?_, hle, hsum, ?_⟩
              · rcases Nat.eq_zero_or_pos n with rfl | hpos
                · exact absurd (by simpa using hsum) hzero
                · exact hpos
              · intro k hk hkn
                have := hmin (k + 1) (by omega) (by omega)
                rwa [List.take_succ_cons, deltaSum_cons, ← Int.add_assoc] at this

/-- The ends of the segments that a node of a pattern without groups may take from `i`, in the
order in which the matcher tries them. -/
def nodeCuts (params : List CMacroParam) (input : List CToken) (n : CzetRepNode) (i : Nat) :
    List Nat :=
  match n with
  | .tok t =>
      match input[i]? with
      | none => []
      | some itok => if cCzetTokEq t itok then [i + 1] else []
  | .cap p =>
      match params[p]? with
      | none => []
      | some par =>
          if isFixedKind par.kind then (matchFixed par.kind input i).toList
          else runCuts (commaBounded par.kind) input i
  | .rep .. => []

private theorem mem_singleOrNil_iff {P : CToken → Prop} [DecidablePred P] {input : List CToken}
    {i j : Nat} :
    (∃ t, input[i]? = some t ∧ P t ∧ j = i + 1) ↔
      i ≤ j ∧ j ≤ input.length ∧ ∃ t, slice input i j = [t] ∧ P t := by
  constructor
  · rintro ⟨t, ht, hP, rfl⟩
    have hlen := (List.getElem?_eq_some_iff.mp ht).1
    exact ⟨by omega, hlen, (oneToken_slice_iff (by omega) hlen).mpr ⟨rfl, t, ht, hP⟩⟩
  · rintro ⟨hij, hlen, hone⟩
    obtain ⟨rfl, t, ht, hP⟩ := (oneToken_slice_iff hij hlen).mp hone
    exact ⟨t, ht, hP, rfl⟩

private theorem blockCut_iff {input : List CToken} {i j : Nat} :
    (∃ t, input[i]? = some t ∧ t.type = .openBrace ∧
      ∃ n, scanBlock 0 (input.drop i) = some n ∧ i + n = j) ↔
      i ≤ j ∧ j ≤ input.length ∧ BlockSegment (slice input i j) := by
  have hopen : ∀ t, input[i]? = some t → t.type = .openBrace →
      (∀ n, scanBlock 0 (input.drop i) = some (n + 1) ↔
        scanBlock 1 (input.drop (i + 1)) = some n) ∧ scanBlock 0 (input.drop i) ≠ some 0 ∧
      depthAt input (i + 1) = depthAt input i + 1 := by
    intro t ht hbrace
    obtain ⟨hi, rfl⟩ := List.getElem?_eq_some_iff.mp ht
    have hdelta : cCzetDelta input[i] = 1 := by simp [cCzetDelta, hbrace]
    have hdrop := List.drop_eq_getElem_cons hi
    refine ⟨?_, ?_, ?_⟩
    · intro n
      rw [hdrop]
      simp [scanBlock, hdelta]
    · rw [hdrop]
      simp [scanBlock, hdelta]
    · have := deltaSum_drop_take input i 1
      rw [hdrop] at this
      simp only [List.take_succ_cons, List.take_zero, deltaSum_cons, deltaSum_nil, hdelta] at this
      omega
  constructor
  · rintro ⟨t, ht, hbrace, n, hn, rfl⟩
    obtain ⟨hsucc, hzero, hdepth⟩ := hopen t ht hbrace
    have hi := (List.getElem?_eq_some_iff.mp ht).1
    cases n with
    | zero => exact absurd hn hzero
    | succ n =>
        rw [hsucc, scanBlock_iff (by decide), List.length_drop] at hn
        obtain ⟨h0, hle, hsum, hmin⟩ := hn
        rw [deltaSum_drop_take] at hsum
        refine ⟨by omega, by omega, ?_⟩
        rw [blockSegment_slice_iff (by omega) (by omega)]
        refine ⟨by omega, ⟨t, ht, hbrace⟩, ?_, ?_⟩
        · rw [show i + (n + 1) = i + 1 + n by omega]
          omega
        · intro k hik hkn heq
          rcases Nat.eq_or_lt_of_le (Nat.succ_le_of_lt hik) with rfl | hlt
          · rw [Nat.succ_eq_add_one] at heq
            omega
          · have := hmin (k - (i + 1)) (by omega) (by omega)
            rw [deltaSum_drop_take, Nat.add_sub_cancel' (by omega)] at this
            omega
  · rintro ⟨hij, hlen, hblock⟩
    obtain ⟨hlt, ⟨t, ht, hbrace⟩, hbal, hshort⟩ := (blockSegment_slice_iff hij hlen).mp hblock
    obtain ⟨hsucc, -, hdepth⟩ := hopen t ht hbrace
    refine ⟨t, ht, hbrace, j - (i + 1) + 1, ?_, by omega⟩
    rw [hsucc, scanBlock_iff (by decide), List.length_drop]
    have hne : j ≠ i + 1 := by
      rintro rfl
      omega
    refine ⟨by omega, by omega, ?_, ?_⟩
    · rw [deltaSum_drop_take, Nat.add_sub_cancel' (by omega)]
      omega
    · intro k hk hkj
      rw [deltaSum_drop_take]
      have := hshort (i + 1 + k) (by omega) (by omega)
      omega

private theorem mem_matchFixed_iff {kind : CzetMacroKind} (hkind : isFixedKind kind = true)
    {input : List CToken} {i j : Nat} :
    j ∈ (matchFixed kind input i).toList ↔
      i ≤ j ∧ j ≤ input.length ∧ KindSegment kind (slice input i j) := by
  rw [Option.mem_toList, matchFixed]
  cases kind <;> simp only [isFixedKind, Bool.false_eq_true] at hkind <;> simp only [KindSegment]
  case block =>
    rw [← blockCut_iff]
    cases input[i]? with
    | none => simp
    | some t => simp
  all_goals
    rw [← mem_singleOrNil_iff]
    cases input[i]? with
    | none => simp
    | some t => simp [eq_comm (a := j)]

private theorem kindSegment_run_iff {kind : CzetMacroKind} (hkind : isFixedKind kind = false)
    {seg : List CToken} : KindSegment kind seg ↔ RunSegment (commaBounded kind) seg := by
  cases kind <;> simp [isFixedKind] at hkind <;> simp [KindSegment, commaBounded]

/-- The cuts of a node are the segments it accepts. -/
theorem mem_nodeCuts_iff {params : List CMacroParam} {input : List CToken} {n : CzetRepNode}
    {i j : Nat} :
    j ∈ nodeCuts params input n i ↔
      i ≤ j ∧ j ≤ input.length ∧ Segment params n (slice input i j) := by
  cases n with
  | tok t =>
      simp only [nodeCuts, Segment]
      rw [← mem_singleOrNil_iff]
      cases input[i]? with
      | none => simp
      | some itok => simp
  | cap p =>
      simp only [nodeCuts, Segment]
      cases hpar : params[p]? with
      | none => simp
      | some par =>
          simp only [Option.some.injEq, exists_eq_left']
          split
          · rename_i hfixed
            exact mem_matchFixed_iff hfixed
          · rename_i hrun
            rw [mem_runCuts_iff, kindSegment_run_iff (Bool.eq_false_iff.mpr hrun)]
            constructor
            · rintro ⟨hij, hlen, hseg⟩
              exact ⟨le_of_lt hij, hlen, hseg⟩
            · rintro ⟨hij, hlen, hseg⟩
              exact ⟨((runSegment_slice_iff hij hlen).mp hseg).1, hlen, hseg⟩
  | rep kids mod sep uses => simp [nodeCuts, Segment]

theorem lt_of_mem_nodeCuts {params : List CMacroParam} {input : List CToken} {n : CzetRepNode}
    {i j : Nat} (h : j ∈ nodeCuts params input n i) : i < j := by
  obtain ⟨hij, hlen, hseg⟩ := mem_nodeCuts_iff.mp h
  have hone : ∀ P : CToken → Prop, (∃ t, slice input i j = [t] ∧ P t) → i < j := by
    intro P hP
    have := ((oneToken_slice_iff hij hlen).mp hP).1
    omega
  cases n with
  | tok t => exact hone _ hseg
  | cap p =>
      obtain ⟨par, -, hkind⟩ := hseg
      cases hk : par.kind <;> rw [hk] at hkind <;> simp only [KindSegment] at hkind
      case block => exact ((blockSegment_slice_iff hij hlen).mp hkind).1
      case expr | type | stmt | tokens => exact ((runSegment_slice_iff hij hlen).mp hkind).1
      all_goals exact hone _ hkind
  | rep kids mod sep uses => exact hseg.elim

private def nodeDelta : CzetRepNode → Int
  | .tok t => cCzetDelta t
  | _ => 0

private theorem cCzetDelta_of_literal {t : CToken} (h : cCzetIsLiteralToken t = true) :
    cCzetDelta t = 0 := by
  unfold cCzetIsLiteralToken at h
  unfold cCzetDelta
  cases ht : t.type <;> simp [ht] at h ⊢

private theorem segment_deltaSum {params : List CMacroParam} {n : CzetRepNode}
    {seg : List CToken} (h : Segment params n seg) : deltaSum seg = nodeDelta n := by
  cases n with
  | tok t =>
      obtain ⟨itok, rfl, heq⟩ := h
      simp [nodeDelta, cCzetDelta_eq_of_tokEq heq]
  | cap p =>
      obtain ⟨par, -, hseg⟩ := h
      simp only [nodeDelta]
      cases hk : par.kind <;> rw [hk] at hseg <;> simp only [KindSegment] at hseg
      case block => exact hseg.balanced
      case literal =>
        obtain ⟨t, rfl, hlit⟩ := hseg
        simp [cCzetDelta_of_literal hlit]
      case expr | type | stmt | tokens => exact hseg.balanced
      all_goals
        obtain ⟨t, rfl, htype⟩ := hseg
        simp [cCzetDelta, htype]
  | rep kids mod sep uses => exact h.elim

/-- A segment that starts inside another one at the same depth, and ends inside it, may be
extended to its end. -/
private theorem segment_exchange {params : List CMacroParam} {input : List CToken}
    {n : CzetRepNode} {i i' j j' : Nat} (hii : i ≤ i')
    (hdepth : depthAt input i = depthAt input i') (hij : i ≤ j) (hj : j ≤ input.length)
    (hseg : Segment params n (slice input i j)) (hij' : i' ≤ j')
    (hseg' : Segment params n (slice input i' j')) (hjj : j' ≤ j) :
    Segment params n (slice input i' j) := by
  have hone : ∀ P : CToken → Prop, (∃ t, slice input i j = [t] ∧ P t) →
      (∃ t, slice input i' j' = [t] ∧ P t) → ∃ t, slice input i' j = [t] ∧ P t := by
    intro P h h'
    obtain ⟨rfl, -⟩ := (oneToken_slice_iff hij hj).mp h
    obtain ⟨rfl, -⟩ := (oneToken_slice_iff hij' (by omega)).mp h'
    obtain rfl : i' = i := by omega
    exact h
  have hrun : ∀ cb, RunSegment cb (slice input i j) → RunSegment cb (slice input i' j') →
      RunSegment cb (slice input i' j) := by
    intro cb h h'
    obtain ⟨-, hbal, hnonneg, hstop⟩ := (runSegment_slice_iff hij hj).mp h
    have hlt := ((runSegment_slice_iff hij' (by omega)).mp h').1
    refine (runSegment_slice_iff (by omega) hj).mpr ⟨by omega, by omega, ?_, ?_⟩
    · intro k hik hkj
      have := hnonneg k (by omega) hkj
      omega
    · intro k t hik hkj hk hsum
      exact hstop k t (by omega) hkj hk (by omega)
  cases n with
  | tok t => exact hone _ hseg hseg'
  | cap p =>
      obtain ⟨par, hpar, hkind⟩ := hseg
      obtain ⟨par', hpar', hkind'⟩ := hseg'
      obtain rfl : par = par' := by simpa [hpar] using hpar'
      refine ⟨par, hpar, ?_⟩
      cases hk : par.kind <;> rw [hk] at hkind hkind' <;> simp only [KindSegment] at hkind hkind' ⊢
      case block =>
        obtain ⟨-, -, -, hshort⟩ := (blockSegment_slice_iff hij hj).mp hkind
        have hlt := ((blockSegment_slice_iff hij' (by omega)).mp hkind').1
        rcases Nat.eq_or_lt_of_le hii with rfl | hlt'
        · exact hkind
        · exact absurd hdepth.symm (hshort i' hlt' (by omega))
      case expr | type | stmt | tokens => exact hrun _ hkind hkind'
      all_goals exact hone _ hkind hkind'
  | rep kids mod sep uses => exact hseg.elim

private theorem nodeCuts_descending (params : List CMacroParam) (input : List CToken)
    (n : CzetRepNode) (i : Nat) : (nodeCuts params input n i).Pairwise (· > ·) := by
  cases n with
  | tok t =>
      simp only [nodeCuts]
      split
      · exact .nil
      · split <;> simp
  | cap p =>
      simp only [nodeCuts]
      split
      · exact .nil
      · split
        · cases matchFixed _ input i <;> simp
        · exact (List.pairwise_reverse.mpr (List.pairwise_lt_range' (s := i + 1))).filter _
  | rep kids mod sep uses => exact .nil

theorem nodeCuts_exchangeable (params : List CMacroParam) (input : List CToken)
    (n : CzetRepNode) : Exchangeable (depthAt input) (nodeCuts params input n) where
  descending := nodeCuts_descending params input n
  level_eq := by
    intro i i' j j' hlevel hj hj'
    obtain ⟨hij, -, hseg⟩ := mem_nodeCuts_iff.mp hj
    obtain ⟨hij', -, hseg'⟩ := mem_nodeCuts_iff.mp hj'
    have h := segment_deltaSum hseg
    have h' := segment_deltaSum hseg'
    rw [deltaSum_slice hij] at h
    rw [deltaSum_slice hij'] at h'
    omega
  exchange := by
    intro i i' j j' hii hlevel hj hj' hjj
    obtain ⟨hij, hlen, hseg⟩ := mem_nodeCuts_iff.mp hj
    obtain ⟨hij', -, hseg'⟩ := mem_nodeCuts_iff.mp hj'
    exact mem_nodeCuts_iff.mpr ⟨by omega, hlen,
      segment_exchange hii hlevel hij hlen hseg hij' hseg' hjj⟩

/-- Where the segments of a split end. -/
def endsFrom : Nat → List (List CToken) → List Nat
  | _, [] => []
  | i, seg :: segs => (i + seg.length) :: endsFrom (i + seg.length) segs

private theorem endsFrom_lt_iff {i : Nat} {a b : List (List CToken)} :
    endsFrom i a < endsFrom i b ↔ a.map List.length < b.map List.length := by
  induction a generalizing i b with
  | nil =>
      cases b with
      | nil => exact Iff.rfl
      | cons s b => simp [endsFrom]
  | cons s a ih =>
      cases b with
      | nil => simp [endsFrom]
      | cons s' b =>
          simp only [endsFrom, List.map_cons, List.cons_lt_cons_iff, Nat.add_lt_add_iff_left,
            Nat.add_left_cancel_iff]
          refine or_congr_right (and_congr_right fun hlen => ?_)
          rw [hlen, ih]

private theorem path_iff_split {params : List CMacroParam} {input : List CToken}
    {tree : List CzetRepNode} {i : Nat} (hi : i ≤ input.length) {js : List Nat} :
    Path (tree.map (nodeCuts params input)) i js input.length ↔
      ∃ segs, List.Forall₂ (Segment params) tree segs ∧ segs.flatten = input.drop i ∧
        js = endsFrom i segs := by
  induction tree generalizing i js with
  | nil =>
      constructor
      · intro h
        cases h
        exact ⟨[], .nil, by simp, rfl⟩
      · rintro ⟨segs, hsegs, hflat, rfl⟩
        cases hsegs
        have : i = input.length := by
          have := congrArg List.length hflat
          simp only [List.flatten_nil, List.length_nil, List.length_drop] at this
          omega
        subst this
        exact .nil _
  | cons n tree ih =>
      constructor
      · intro h
        cases h with
        | @cons _ _ _ j _ js hj hrest =>
            obtain ⟨hij, hlen, hseg⟩ := mem_nodeCuts_iff.mp hj
            obtain ⟨segs, hsegs, hflat, rfl⟩ := (ih hlen).mp hrest
            refine ⟨slice input i j :: segs, .cons hseg hsegs, ?_, ?_⟩
            · rw [List.flatten_cons, hflat, slice]
              have : input.drop j = (input.drop i).drop (j - i) := by
                rw [List.drop_drop, Nat.add_sub_cancel' hij]
              rw [this, List.take_append_drop]
            · rw [endsFrom, length_slice hij hlen, Nat.add_sub_cancel' hij]
      · rintro ⟨segs, hsegs, hflat, rfl⟩
        cases hsegs with
        | @cons _ seg _ segs hseg hsegs =>
            rw [List.flatten_cons] at hflat
            have hlen : i + seg.length ≤ input.length := by
              have := congrArg List.length hflat
              simp only [List.length_append, List.length_drop] at this
              omega
            have hslice : slice input i (i + seg.length) = seg := by
              rw [slice, Nat.add_sub_cancel_left, ← hflat, List.take_left']
              rfl
            have hdrop : segs.flatten = input.drop (i + seg.length) := by
              rw [← List.drop_drop, ← hflat, List.drop_left']
              rfl
            refine .cons (mem_nodeCuts_iff.mpr ⟨by omega, hlen, by rwa [hslice]⟩) ?_
            exact (ih hlen).mpr ⟨segs, hsegs, hdrop, rfl⟩

/-- The span that parameter `p` holds. -/
def spanAt (caps : Captures) (p : Nat) : Nat × Nat := ((caps p).start, (caps p).stop)

theorem spanAt_setSpan (caps : Captures) (q p start stop : Nat) :
    spanAt (setSpan caps q start stop) p = if p = q then (start, stop) else spanAt caps p := by
  simp only [spanAt, setSpan, Function.update_apply]
  split <;> rfl

theorem spanAt_capLeaf (caps : Captures) (q p start stop : Nat) :
    spanAt (czetCapLeaf caps q start stop) p = spanAt caps p := by
  simp only [spanAt, czetCapLeaf, Function.update_apply]
  split
  · rename_i h
    rw [h]
  · rfl

/-- Every parameter holds the segment of the last node that refers to it. -/
def Recorded (tree : List CzetRepNode) (ii : Nat) (js : List Nat) (caps : Captures) :
    Prop :=
  ∀ m p, tree[m]? = some (.cap p) → .cap p ∉ tree.drop (m + 1) →
    ∃ a b, (ii :: js)[m]? = some a ∧ js[m]? = some b ∧ spanAt caps p = (a, b)

def Frame (tree : List CzetRepNode) (caps caps' : Captures) : Prop :=
  ∀ p, .cap p ∉ tree → spanAt caps' p = spanAt caps p

/-- The outcome of `c_czet_mt_nodes` in terms of the search for a path. -/
def Agrees (tree : List CzetRepNode) (ii : Nat) (caps : Captures) :
    Option (List Nat × Nat) → MtResult → Prop
  | none, .fail caps' => Frame tree caps caps'
  | some (js, k), .ok k' caps' => k = k' ∧ Frame tree caps caps' ∧ Recorded tree ii js caps'
  | _, _ => False

private theorem agrees_frame {tree : List CzetRepNode} {ii : Nat} {caps caps₀ : Captures}
    {found : Option (List Nat × Nat)} {r : MtResult} (hframe : Frame tree caps₀ caps)
    (h : Agrees tree ii caps found r) : Agrees tree ii caps₀ found r := by
  match found, r with
  | none, .fail caps' => exact fun p hp => (h p hp).trans (hframe p hp)
  | some (js, k), .ok k' caps' =>
      exact ⟨h.1, fun p hp => (h.2.1 p hp).trans (hframe p hp), h.2.2⟩
  | none, .fault | none, .ok .. | some _, .fault | some _, .fail _ => exact h.elim

private theorem recorded_cap {tree : List CzetRepNode} {p i j : Nat} {js : List Nat}
    {caps caps' : Captures} (hspan : spanAt caps p = (i, j)) (hframe : Frame tree caps caps')
    (h : Recorded tree j js caps') : Recorded (.cap p :: tree) i (j :: js) caps' := by
  intro m q hq hlast
  cases m with
  | zero =>
      simp only [List.getElem?_cons_zero, Option.some.injEq, CzetRepNode.cap.injEq] at hq
      subst hq
      exact ⟨i, j, rfl, rfl, (hframe p (by simpa using hlast)).trans hspan⟩
  | succ m => exact h m q (by simpa using hq) (by simpa using hlast)

private theorem frame_cap {tree : List CzetRepNode} {p : Nat} {caps caps₁ caps₂ : Captures}
    (h₁ : ∀ q, q ≠ p → spanAt caps₁ q = spanAt caps q) (h₂ : Frame tree caps₁ caps₂) :
    Frame (.cap p :: tree) caps caps₂ := by
  intro q hq
  simp only [List.mem_cons, CzetRepNode.cap.injEq, not_or] at hq
  rw [h₂ q hq.2, h₁ q hq.1]

theorem tryCuts_agrees {rest : Nat → Captures → MtResult}
    {tree : List CzetRepNode} {found : Nat → Option (List Nat × Nat)}
    (hrest : ∀ j caps, Agrees tree j caps (found j) (rest j caps)) (p : Nat) (isRepeat : Bool)
    (ii : Nat) (cuts : List Nat) (caps : Captures) :
    Agrees (.cap p :: tree) ii caps
      (cuts.findSome? fun j => (found j).map fun r => (j :: r.1, r.2))
      (tryCuts rest p isRepeat ii cuts caps) := by
  induction cuts generalizing caps with
  | nil => exact fun _ _ => rfl
  | cons cut cuts ih =>
      have h := hrest cut (setSpan caps p ii cut)
      have hset : ∀ q, q ≠ p → spanAt (setSpan caps p ii cut) q = spanAt caps q := by
        intro q hq
        rw [spanAt_setSpan, if_neg hq]
      rw [List.findSome?_cons, tryCuts]
      match hfound : found cut, hres : rest cut (setSpan caps p ii cut) with
      | none, .fail caps' =>
          rw [hfound, hres] at h
          -- the failed cut leaves spans behind that the next one overwrites
          refine agrees_frame ?_ (ih (setSpan caps' p 0 0))
          intro q hq
          have hcaps := frame_cap hset h q hq
          simp only [List.mem_cons, CzetRepNode.cap.injEq, not_or] at hq
          rw [spanAt_setSpan, if_neg hq.1, hcaps]
      | some (js, k), .ok k' caps' =>
          rw [hfound, hres] at h
          obtain ⟨rfl, hframe, hrec⟩ := h
          have hleaf : ∀ q, spanAt (if isRepeat then czetCapLeaf caps' p ii cut else caps') q =
              spanAt caps' q := by
            intro q
            split
            · exact spanAt_capLeaf caps' p q ii cut
            · rfl
          refine ⟨rfl, fun q hq => (hleaf q).trans (frame_cap hset hframe q hq), ?_⟩
          have hspan : spanAt (setSpan caps p ii cut) p = (ii, cut) := by
            rw [spanAt_setSpan, if_pos rfl]
          refine recorded_cap hspan ?_ ?_
          · exact fun q hq => (hleaf q).trans (hframe q hq)
          · intro m q hq hlast
            rw [hleaf]
            exact hrec m q hq hlast
      | none, .fault | none, .ok .. | some _, .fault | some _, .fail _ =>
          rw [hfound, hres] at h
          exact h.elim

theorem agrees_tok {tree : List CzetRepNode} {t : CToken} {ii j : Nat} {caps : Captures}
    {found : Option (List Nat × Nat)} {r : MtResult} (h : Agrees tree j caps found r) :
    Agrees (.tok t :: tree) ii caps (found.map fun r => (j :: r.1, r.2)) r := by
  have hframe : ∀ caps', Frame tree caps caps' → Frame (.tok t :: tree) caps caps' := by
    intro caps' hc p hp
    exact hc p fun hmem => hp (List.mem_cons_of_mem _ hmem)
  match found, r with
  | none, .fail caps' => exact hframe caps' h
  | some (js, k), .ok k' caps' =>
      refine ⟨h.1, hframe caps' h.2.1, ?_⟩
      intro m p hp hlast
      cases m with
      | zero => simp at hp
      | succ m => exact h.2.2 m p (by simpa using hp) (by simpa using hlast)
  | none, .fault | none, .ok .. | some _, .fault | some _, .fail _ => exact h.elim

theorem agrees_cap {tree : List CzetRepNode} {p ii j : Nat} {caps caps₁ : Captures}
    (hspan : spanAt caps₁ p = (ii, j)) (hother : ∀ q, q ≠ p → spanAt caps₁ q = spanAt caps q)
    {found : Option (List Nat × Nat)} {r : MtResult} (h : Agrees tree j caps₁ found r) :
    Agrees (.cap p :: tree) ii caps (found.map fun r => (j :: r.1, r.2)) r := by
  match found, r with
  | none, .fail caps' => exact frame_cap hother h
  | some (js, k), .ok k' caps' =>
      exact ⟨h.1, frame_cap hother h.2.1, recorded_cap hspan h.2.1 h.2.2⟩
  | none, .fault | none, .ok .. | some _, .fault | some _, .fail _ => exact h.elim

private theorem mtNodes_agrees (slots : Nat) (params : List CMacroParam) (input : List CToken)
    (tree : List CzetRepNode) (hfree : RepFree tree) (ii : Nat) (caps : Captures) :
    Agrees tree ii caps (search (tree.map (nodeCuts params input)) ii)
      (mtNodes slots params input tree ii caps) := by
  induction tree generalizing ii caps with
  | nil =>
      rw [mtNodes]
      refine ⟨rfl, fun _ _ => rfl, ?_⟩
      intro m p hp
      simp at hp
  | cons n tree ih =>
      have hrest := ih fun n hn => hfree n (List.mem_cons_of_mem _ hn)
      rw [List.map_cons, search, mtNodes]
      cases n with
      | tok t =>
          rw [mtNode, nodeCuts]
          cases input[ii]? with
          | none => exact fun _ _ => rfl
          | some itok =>
              by_cases heq : cCzetTokEq t itok = true
              · simp only [heq, if_true, List.findSome?_singleton]
                exact agrees_tok (hrest (ii + 1) caps)
              · simp only [heq]
                exact fun _ _ => rfl
      | cap p =>
          rw [mtNode, nodeCuts]
          cases params[p]? with
          | none => exact fun _ _ => rfl
          | some par =>
              by_cases hfixed : isFixedKind par.kind = true
              · simp only [hfixed, if_true]
                cases matchFixed par.kind input ii with
                | none => exact fun _ _ => rfl
                | some stop =>
                    rw [Option.toList_some, List.findSome?_singleton]
                    have hspan : ∀ q, spanAt (if par.isRepeat = true then
                        czetCapLeaf (setSpan caps p ii stop) p ii stop
                        else setSpan caps p ii stop) q = spanAt (setSpan caps p ii stop) q := by
                      intro q
                      split
                      · exact spanAt_capLeaf _ p q ii stop
                      · rfl
                    refine agrees_cap ?_ ?_ (hrest stop _)
                    · rw [hspan, spanAt_setSpan, if_pos rfl]
                    · intro q hq
                      rw [hspan, spanAt_setSpan, if_neg hq]
              · simp only [hfixed]
                exact tryCuts_agrees (fun j caps => hrest j caps) p par.isRepeat ii _ caps
      | rep kids mod sep uses =>
          exact absurd (hfree _ List.mem_cons_self) (by simp [CzetRepNode.isRep])

private theorem getElem?_endsFrom (i : Nat) (segs : List (List CToken)) (m : Nat) (a b : Nat)
    (ha : (i :: endsFrom i segs)[m]? = some a) (hb : (endsFrom i segs)[m]? = some b) :
    ∃ seg, segs[m]? = some seg ∧ a = i + ((segs.take m).flatten).length ∧ b = a + seg.length := by
  induction segs generalizing i m with
  | nil => simp [endsFrom] at hb
  | cons seg segs ih =>
      cases m with
      | zero =>
          simp only [endsFrom, List.getElem?_cons_zero, Option.some.injEq] at ha hb
          exact ⟨seg, rfl, by simpa using ha.symm, by rw [← hb, ← ha]⟩
      | succ m =>
          simp only [endsFrom, List.getElem?_cons_succ] at ha hb
          obtain ⟨seg', hseg, ha', hb'⟩ := ih (i + seg.length) m ha hb
          refine ⟨seg', by simpa using hseg, ?_, hb'⟩
          simp only [List.take_succ_cons, List.flatten_cons, List.length_append]
          omega

private theorem fullSplit_iff_path {params : List CMacroParam} {tree : List CzetRepNode}
    {input : List CToken} {js : List Nat} :
    Path (tree.map (nodeCuts params input)) 0 js input.length ↔
      ∃ segs, FullSplit params tree input segs ∧ js = endsFrom 0 segs := by
  rw [path_iff_split (Nat.zero_le _), List.drop_zero]
  simp only [FullSplit, and_assoc]

private theorem search_of_fullSplit {params : List CMacroParam} {tree : List CzetRepNode}
    {input : List CToken} {segs : List (List CToken)} (h : FullSplit params tree input segs) :
    ∃ js, search (tree.map (nodeCuts params input)) 0 = some (js, input.length) ∧
      endsFrom 0 segs ≤ js := by
  refine search_full (depthAt input) ?_ ?_ (fullSplit_iff_path.mpr ⟨segs, h, rfl⟩)
  · intro c hc
    obtain ⟨n, -, rfl⟩ := List.mem_map.mp hc
    exact nodeCuts_exchangeable params input n
  · intro c hc i j hj
    obtain ⟨n, -, rfl⟩ := List.mem_map.mp hc
    exact (mem_nodeCuts_iff.mp hj).2.1

/-- The verdict of the matcher is that of the search. -/
theorem matcherTree_search (params : List CMacroParam) {tree : List CzetRepNode}
    (input : List CToken) (hfree : RepFree tree) :
    (∃ js caps, search (tree.map (nodeCuts params input)) 0 = some (js, input.length) ∧
      cCzetMatcherTree params tree input = some (some caps) ∧ Recorded tree 0 js caps) ∨
    ((∀ js, search (tree.map (nodeCuts params input)) 0 ≠ some (js, input.length)) ∧
      cCzetMatcherTree params tree input = some none) := by
  have h := mtNodes_agrees 7 params input tree hfree 0 noCaptures
  rw [cCzetMatcherTree, growingMatcherTree]
  match hs : search (tree.map (nodeCuts params input)) 0, hr : mtNodes 7 params input tree 0
    noCaptures with
  | none, .fail caps => exact .inr ⟨by simp, rfl⟩
  | some (js, k), .ok k' caps =>
      rw [hs, hr] at h
      obtain ⟨rfl, -, hrec⟩ := h
      by_cases hk : k = input.length
      · subst hk
        exact .inl ⟨js, caps, rfl, by simp, hrec⟩
      · exact .inr ⟨by simp [hk], by simp [hk]⟩
  | none, .fault | none, .ok .. | some _, .fault | some _, .fail _ =>
      rw [hs, hr] at h
      exact h.elim

/-- `c_czet_matcher_tree` on an arm without repetition groups accepts exactly the argument lists
that can be split into one segment for each node.  Of all full splits it takes the one whose
segments are longest from left to right, and each parameter captures the segment of the last
node that names it. -/
theorem matcherTree_repFree (params : List CMacroParam) (tree : List CzetRepNode)
    (input : List CToken) (hfree : RepFree tree) :
    cCzetMatcherTree params tree input ≠ none ∧
    ((∃ caps, cCzetMatcherTree params tree input = some (some caps)) ↔
      ∃ segs, FullSplit params tree input segs) ∧
    ∀ caps, cCzetMatcherTree params tree input = some (some caps) →
      ∃ segs, FullSplit params tree input segs ∧
        (∀ segs', FullSplit params tree input segs' →
          segs'.map List.length ≤ segs.map List.length) ∧
        ∀ m p, tree[m]? = some (.cap p) → .cap p ∉ tree.drop (m + 1) →
          ∃ seg, segs[m]? = some seg ∧
            (caps p).start = ((segs.take m).flatten).length ∧
            (caps p).stop = (caps p).start + seg.length := by
  rcases matcherTree_search params input hfree with
    ⟨js, caps, hsearch, haccept, hrec⟩ | ⟨hnone, hreject⟩
  · obtain ⟨segs, hsplit, rfl⟩ := fullSplit_iff_path.mp (search_sound hsearch)
    refine ⟨by simp [haccept], ⟨fun _ => ⟨segs, hsplit⟩, fun _ => ⟨caps, haccept⟩⟩, ?_⟩
    intro caps' hcaps'
    obtain rfl : caps = caps' := by simpa [haccept] using hcaps'
    refine ⟨segs, hsplit, ?_, ?_⟩
    · intro segs' hsplit'
      obtain ⟨js, hsearch', hle⟩ := search_of_fullSplit hsplit'
      obtain rfl : endsFrom 0 segs = js := by simpa [hsearch] using hsearch'
      exact not_lt.mp fun hlt => not_lt.mpr hle (endsFrom_lt_iff.mpr hlt)
    · intro m p hp hlast
      obtain ⟨a, b, ha, hb, hspan⟩ := hrec m p hp hlast
      obtain ⟨seg, hseg, hstart, hstop⟩ := getElem?_endsFrom 0 segs m a b ha hb
      simp only [spanAt, Prod.mk.injEq] at hspan
      refine ⟨seg, hseg, ?_, ?_⟩
      · rw [hspan.1, hstart, Nat.zero_add]
      · rw [hspan.2, hspan.1, hstop]
  · refine ⟨by simp [hreject], ⟨?_, ?_⟩, ?_⟩
    · rintro ⟨caps, hcaps⟩
      simp [hreject] at hcaps
    · rintro ⟨segs, hsplit⟩
      obtain ⟨js, hsearch, -⟩ := search_of_fullSplit hsplit
      exact absurd hsearch (hnone js)
    · intro caps hcaps
      simp [hreject] at hcaps

/-- The arm `$a:tokens , $b:expr` on `x , y , z`. -/
theorem matcherTree_repFree_pair :
    let params : List CMacroParam :=
      [{ name := "$a", kind := .tokens }, { name := "$b", kind := .expr }]
    let tree : List CzetRepNode := [.cap 0, .tok (punctToken .comma), .cap 1]
    let input := [nameToken "x", punctToken .comma, nameToken "y", punctToken .comma,
      nameToken "z"]
    RepFree tree ∧ ∃ segs, FullSplit params tree input segs := by
  refine ⟨by decide, ?_⟩
  exact (matcherTree_repFree _ _ _ (by decide)).2.1.mp ⟨_, rfl⟩

end CZet
