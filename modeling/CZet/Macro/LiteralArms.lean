/- source: src/gcc/gcc/c/c-parser.cc (c_czet_tok_eq, c_czet_mt_nodes, c_czet_matcher,
     c_czet_try_invoke), src/gcc/libcpp/include/cpplib.h (DIGRAPH)
   digest: The arm that an invocation selects, and the literal tokens that its match compares with
     tokens of the call. -/

import CZet.Macro.TokenClasses

set_option autoImplicit false
set_option relaxedAutoImplicit false

namespace CZet

/-- `flags & DIGRAPH`. -/
def CToken.isDigraph (t : CToken) : Bool := t.flags.testBit 1

/-- Two tokens are written alike: the type of a punctuator, together with the `DIGRAPH` flag, and
the value of any other token fix its spelling. -/
def SameSpelling (t u : CToken) : Prop :=
  t.type = u.type ∧ t.value = u.value ∧ t.isDigraph = u.isDigraph

/-- The punctuators that have a digraph. -/
def CppTtype.hasDigraph : CppTtype → Bool
  | .hash | .paste | .openSquare | .closeSquare | .openBrace | .closeBrace => true
  | _ => false

/-- The tokens of the lexer.  `reswords` is the table of reserved words. -/
structure Lexed (reswords : String → Rid) (t : CToken) : Prop where
  named : t.type = .name ∨ t.type = .keyword → ∃ s, t.value = .identifier s
  reserved : t.type = .keyword → t.keyword = reswords t.identifierPointer
  constant : cCzetIsLiteralToken t = true → ∃ text, t.value = .constant text
  bare : t.type ≠ .name → t.type ≠ .keyword → t.type ≠ .pragma → cCzetIsLiteralToken t = false →
    t.value = .null
  digraph : t.isDigraph = true → t.type.hasDigraph = true

/-- Some token of the lexer passes for `t` although it is written otherwise. -/
def Coarse (reswords : String → Rid) (t : CToken) : Prop :=
  ∃ u, Lexed reswords u ∧ cCzetTokEq t u = true ∧ ¬ SameSpelling t u

/-- The arm `k`, which is `arm`, is the first one that matches. -/
structure Selects (params : List CMacroParam) (arms : List CMacroArm) (args : List CToken) (k : Nat)
    (arm : CMacroArm) : Prop where
  here : arms[k]? = some arm
  matched : ∃ caps, armMatch params arm args = some (some caps)
  earlier : ∀ j < k, ∀ other, arms[j]? = some other → armMatch params other args = some none

mutual

/-- The literal tokens that the accepted match of a node compares, and where. -/
def nodeLiterals (params : List CMacroParam) (input : List CToken) :
    CzetRepNode → Nat → Alternative → List (CToken × Nat)
  | .tok t, ii, _ => [(t, ii)]
  | .cap _, _, _ => []
  | .rep kids _ sep _, _, a =>
      (a.1.drop 1).flatMap (fun start => sep.toList.map fun s => (s, start - 1)) ++
        a.1.flatMap (matchedLiterals params input kids)

def matchedLiterals (params : List CMacroParam) (input : List CToken) :
    List CzetRepNode → Nat → List (CToken × Nat)
  | [], _ => []
  | n :: rest, ii =>
      match chosen 7 params input n rest ii with
      | none => []
      | some a => nodeLiterals params input n ii a ++ matchedLiterals params input rest a.2

end

/-- Where the flat matcher may go on behind the pattern token `ptok`, in the order of trial. -/
def flatStops (params : List CMacroParam) (input : List CToken) (ptok : CToken) (ii : Nat) :
    List Nat :=
  if cCzetIsParamRef ptok then
    match cCzetFindParam params ptok.identifierPointer with
    | none => []
    | some p =>
        match params[p]? with
        | none => []
        | some par =>
            if isFixedKind par.kind && !par.isRepeat then (matchFixed par.kind input ii).toList
            else flatCuts (commaBounded par.kind && !par.isRepeat) input ii
  else
    match input[ii]? with
    | none => []
    | some itok => if cCzetTokEq ptok itok then [ii + 1] else []

/-- Whether the flat matcher accepts from `ii` on. -/
def flatPasses (params : List CMacroParam) (input : List CToken) : List CToken → Nat → Bool
  | [], ii => decide (ii = input.length)
  | ptok :: pattern, ii => (flatStops params input ptok ii).any (flatPasses params input pattern)

/-- The literal tokens that the accepted match of a flat pattern compares, and where. -/
def flatLiterals (params : List CMacroParam) (input : List CToken) :
    List CToken → Nat → List (CToken × Nat)
  | [], _ => []
  | ptok :: pattern, ii =>
      match (flatStops params input ptok ii).find? (flatPasses params input pattern) with
      | none => []
      | some stop => (if cCzetIsParamRef ptok then [] else [(ptok, ii)]) ++
          flatLiterals params input pattern stop

/-- The literal tokens of an arm that its match compares, and where. -/
def armLiterals (params : List CMacroParam) (arm : CMacroArm) (args : List CToken) :
    List (CToken × Nat) :=
  match arm.patternTree with
  | some tree => matchedLiterals params args tree 0
  | none => flatLiterals params args arm.pattern 0

mutual

/-- Two patterns that are the same but for one literal token, `a` in the one and `b` in the
other. -/
inductive NodeDiffers (a b : CToken) : CzetRepNode → CzetRepNode → Prop
  | tok : NodeDiffers a b (.tok a) (.tok b)
  | sep (kids : List CzetRepNode) (mod : RepMod) (uses : List Nat) :
      NodeDiffers a b (.rep kids mod (some a) uses) (.rep kids mod (some b) uses)
  | kids {kids kids' : List CzetRepNode} (mod : RepMod) (sep : Option CToken) (uses : List Nat) :
      NodesDiffer a b kids kids' → NodeDiffers a b (.rep kids mod sep uses) (.rep kids' mod sep uses)

inductive NodesDiffer (a b : CToken) : List CzetRepNode → List CzetRepNode → Prop
  | here {n n' : CzetRepNode} (rest : List CzetRepNode) :
      NodeDiffers a b n n' → NodesDiffer a b (n :: rest) (n' :: rest)
  | there {rest rest' : List CzetRepNode} (n : CzetRepNode) :
      NodesDiffer a b rest rest' → NodesDiffer a b (n :: rest) (n :: rest')

end

/-- Two arms whose patterns are the same but for one literal token. -/
inductive ArmsDiffer (a b : CToken) (arm other : CMacroArm) : Prop
  | tree {tree tree' : List CzetRepNode} : arm.patternTree = some tree →
      other.patternTree = some tree' → NodesDiffer a b tree tree' → ArmsDiffer a b arm other
  | flat {pre post : List CToken} : arm.patternTree = none → other.patternTree = none →
      arm.pattern = pre ++ a :: post → other.pattern = pre ++ b :: post →
      cCzetIsParamRef a = false → cCzetIsParamRef b = false → ArmsDiffer a b arm other

/-- The selected arm compares its literal tokens with tokens that are written alike, and no earlier
arm that differs from it in one such literal has the one that is written at the call. -/
structure SelectedByLiterals (reswords : String → Rid) (params : List CMacroParam)
    (arms : List CMacroArm) (args : List CToken) : Prop where
  written : ∀ k arm, Selects params arms args k arm →
    ∀ lit i u, (lit, i) ∈ armLiterals params arm args → args[i]? = some u → SameSpelling lit u
  first : ∀ k arm, Selects params arms args k arm →
    ∀ j < k, ∀ other, arms[j]? = some other → ∀ a b, Lexed reswords b → ArmsDiffer a b arm other →
      ∀ i u, (a, i) ∈ armLiterals params arm args → args[i]? = some u → ¬ SameSpelling b u

section Coarse

private theorem lexed_name {reswords : String → Rid} {t u : CToken} (ht : Lexed reswords t)
    (hu : Lexed reswords u) (htype : t.type = .name ∨ t.type = .keyword) (heq : t.type = u.type)
    (hid : t.identifierPointer = u.identifierPointer) : t.value = u.value := by
  obtain ⟨s, hs⟩ := ht.named htype
  obtain ⟨s', hs'⟩ := hu.named (heq ▸ htype)
  simp only [CToken.identifierPointer, hs, hs'] at hid
  rw [hs, hs', hid]

private theorem not_digraph {reswords : String → Rid} {t : CToken} (ht : Lexed reswords t)
    (htype : t.type.hasDigraph = false) : t.isDigraph = false := by
  by_contra h
  rw [ht.digraph (by simpa using h)] at htype
  cases htype

private theorem literal_type {t : CToken} (h : cCzetIsLiteralToken t = true) :
    t.type ≠ .name ∧ t.type ≠ .keyword := by
  unfold cCzetIsLiteralToken at h
  constructor <;> intro htype <;> rw [htype] at h <;> cases h

private theorem digraph_type {type : CppTtype} (h : type.hasDigraph = true) :
    type ≠ .name ∧ type ≠ .keyword := by
  constructor <;> rintro rfl <;> cases h

theorem cCzetTokEq_of_type {t u : CToken} (hname : t.type ≠ .name) (hkey : t.type ≠ .keyword)
    (h : t.type = u.type) : cCzetTokEq t u = true := by
  rw [cCzetTokEq, if_neg hname, if_neg hkey, h, decide_eq_true rfl]

private theorem coarse_of_value {reswords : String → Rid} {t : CToken} (value : TokenValue)
    (hu : Lexed reswords { t with value := value }) (hdiff : t.value ≠ value)
    (heq : cCzetTokEq t { t with value := value } = true) : Coarse reswords t :=
  ⟨_, hu, heq, fun hsame => hdiff hsame.2.1⟩

private theorem coarse_literal {reswords : String → Rid} {t : CToken} (ht : Lexed reswords t)
    (hlit : cCzetIsLiteralToken t = true) : Coarse reswords t := by
  obtain ⟨text, htext⟩ := ht.constant hlit
  obtain ⟨hname, hkey⟩ := literal_type hlit
  refine coarse_of_value (.constant (text ++ "0")) ⟨?_, ?_, ?_, ?_, ht.digraph⟩ ?_
    (cCzetTokEq_of_type hname hkey rfl)
  · intro h
    exact absurd h (not_or.mpr ⟨hname, hkey⟩)
  · intro h
    exact absurd h hkey
  · exact fun _ => ⟨_, rfl⟩
  · intro _ _ _ hnot
    exact absurd hlit (by rw [← Bool.not_eq_true] at hnot; exact hnot)
  · rw [htext]
    intro h
    have hlen := congrArg String.length (TokenValue.constant.inj h)
    simp at hlen

private theorem coarse_keyword {reswords : String → Rid} {t : CToken} (ht : Lexed reswords t)
    (hkey : t.type = .keyword) {s : String} (hne : s ≠ t.identifierPointer)
    (hrid : reswords s = t.keyword) : Coarse reswords t := by
  refine coarse_of_value (.identifier s) ⟨?_, ?_, ?_, ?_, ht.digraph⟩ ?_ ?_
  · exact fun _ => ⟨s, rfl⟩
  · exact fun _ => hrid.symm
  · intro hlit
    exact absurd hkey (literal_type hlit).2
  · intro _ hnot
    exact absurd hkey hnot
  · intro h
    rw [CToken.identifierPointer, h] at hne
    exact hne rfl
  · rw [cCzetTokEq, if_neg (by rw [hkey]; decide), if_pos hkey]
    simp [hkey]

private theorem coarse_digraph {reswords : String → Rid} {t : CToken} (ht : Lexed reswords t)
    (hdig : t.type.hasDigraph = true) : Coarse reswords t := by
  obtain ⟨hname, hkey⟩ := digraph_type hdig
  refine ⟨{ t with flags := if t.isDigraph then 0 else 2 },
    ⟨ht.named, ht.reserved, ht.constant, ht.bare, fun _ => hdig⟩,
    cCzetTokEq_of_type hname hkey rfl, ?_⟩
  rintro ⟨-, -, hsame⟩
  cases hflag : t.isDigraph with
  | true =>
      rw [hflag] at hsame
      exact absurd hsame (by simp [CToken.isDigraph])
  | false =>
      rw [hflag] at hsame
      exact absurd hsame (by simp [CToken.isDigraph, Nat.testBit])

private theorem coarse_pragma {reswords : String → Rid} {t : CToken} (ht : Lexed reswords t)
    (hpragma : t.type = .pragma) : Coarse reswords t := by
  have hname : t.type ≠ .name := by rw [hpragma]; decide
  have hkey : t.type ≠ .keyword := by rw [hpragma]; decide
  refine coarse_of_value
    (if t.value = .pragmaCode 0 then .pragmaCode 1 else .pragmaCode 0)
    ⟨?_, ?_, ?_, ?_, ht.digraph⟩ ?_ (cCzetTokEq_of_type hname hkey rfl)
  · intro h
    exact absurd h (not_or.mpr ⟨hname, hkey⟩)
  · intro h
    exact absurd h hkey
  · intro hlit
    simp [cCzetIsLiteralToken, hpragma] at hlit
  · intro _ _ hnot
    exact absurd hpragma hnot
  · intro h
    split at h
    · rename_i hzero
      rw [hzero] at h
      cases h
    · rename_i hzero
      exact hzero h

private theorem sameSpelling_of_fine {reswords : String → Rid} {t u : CToken}
    (ht : Lexed reswords t) (hu : Lexed reswords u) (heq : cCzetTokEq t u = true)
    (hlit : cCzetIsLiteralToken t = false) (hpragma : t.type ≠ .pragma)
    (hdig : t.type.hasDigraph = false)
    (hkey : t.type = .keyword → ∀ s, reswords s = t.keyword → s = t.identifierPointer) :
    SameSpelling t u := by
  have htype := cCzetTokEq_type heq
  refine ⟨htype, ?_, by rw [not_digraph ht hdig, not_digraph hu (htype ▸ hdig)]⟩
  by_cases hname : t.type = .name
  · refine lexed_name ht hu (Or.inl hname) htype ?_
    simp only [cCzetTokEq, hname, if_true, Bool.and_eq_true, decide_eq_true_eq] at heq
    exact heq.2
  by_cases hkeyword : t.type = .keyword
  · refine lexed_name ht hu (Or.inr hkeyword) htype ?_
    rw [cCzetTokEq, if_neg hname, if_pos hkeyword, Bool.and_eq_true, decide_eq_true_eq,
      decide_eq_true_eq] at heq
    refine (hkey hkeyword u.identifierPointer ?_).symm
    rw [← hu.reserved heq.1, heq.2]
  · have hlit' : cCzetIsLiteralToken u = false := by
      rw [cCzetIsLiteralToken, ← htype]
      exact hlit
    rw [ht.bare hname hkeyword hpragma hlit]
    rw [htype] at hname hkeyword hpragma
    rw [hu.bare hname hkeyword hpragma hlit']

/-- The tokens that are compared too coarsely: numbers, characters and strings, keywords with a
second spelling, punctuators with a digraph, and pragmas. -/
theorem coarse_iff {reswords : String → Rid} {t : CToken} (ht : Lexed reswords t) :
    Coarse reswords t ↔ cCzetIsLiteralToken t = true ∨
      (t.type = .keyword ∧ ∃ s, s ≠ t.identifierPointer ∧ reswords s = t.keyword) ∨
      t.type.hasDigraph = true ∨ t.type = .pragma := by
  constructor
  · rintro ⟨u, hu, heq, hdiff⟩
    by_contra hfine
    obtain ⟨hlit, hkey, hdig, hpragma⟩ : ¬ _ ∧ ¬ _ ∧ ¬ _ ∧ ¬ _ := by
      simpa only [not_or] using hfine
    refine hdiff (sameSpelling_of_fine ht hu heq (by simpa using hlit) hpragma (by simpa using hdig)
      fun hkeyword s hrid => ?_)
    by_contra hne
    exact hkey ⟨hkeyword, s, hne, hrid⟩
  · rintro (hlit | ⟨hkey, s, hne, hrid⟩ | hdig | hpragma)
    · exact coarse_literal ht hlit
    · exact coarse_keyword ht hkey hne hrid
    · exact coarse_digraph ht hdig
    · exact coarse_pragma ht hpragma

end Coarse

section Classes

mutual

private theorem nodeLiterals_canon (params : List CMacroParam) (input : List CToken) :
    ∀ (n : CzetRepNode) (ii : Nat) (a : Alternative),
      nodeLiterals params (input.map CToken.canon) n ii a = nodeLiterals params input n ii a
  | .tok _, _, _ => rfl
  | .cap _, _, _ => rfl
  | .rep kids _ sep _, ii, a => by
      have hkids : matchedLiterals params (input.map CToken.canon) kids =
          matchedLiterals params input kids := by
        funext j
        exact matchedLiterals_canon params input kids j
      rw [nodeLiterals, nodeLiterals, hkids]

private theorem matchedLiterals_canon (params : List CMacroParam) (input : List CToken) :
    ∀ (nodes : List CzetRepNode) (ii : Nat),
      matchedLiterals params (input.map CToken.canon) nodes ii = matchedLiterals params input nodes ii
  | [], _ => rfl
  | n :: rest, ii => by
      rw [matchedLiterals, matchedLiterals, chosen_canon]
      cases chosen 7 params input n rest ii with
      | none => rfl
      | some a =>
          simp only
          rw [nodeLiterals_canon params input n ii a, matchedLiterals_canon params input rest a.2]

end

private theorem flatStops_canon (params : List CMacroParam) (input : List CToken) (ptok : CToken)
    (ii : Nat) : flatStops params (input.map CToken.canon) ptok ii =
      flatStops params input ptok ii := by
  simp only [flatStops, matchFixed_canon, flatCuts_canon, List.getElem?_map]
  cases input[ii]? with
  | none => rfl
  | some itok => simp only [Option.map_some, cCzetTokEq_canon]

private theorem flatPasses_canon (params : List CMacroParam) (input pattern : List CToken) :
    flatPasses params (input.map CToken.canon) pattern = flatPasses params input pattern := by
  induction pattern with
  | nil =>
      funext ii
      simp only [flatPasses, List.length_map]
  | cons ptok pattern ih =>
      funext ii
      simp only [flatPasses, flatStops_canon, ih]

private theorem flatLiterals_canon (params : List CMacroParam) (input pattern : List CToken)
    (ii : Nat) : flatLiterals params (input.map CToken.canon) pattern ii =
      flatLiterals params input pattern ii := by
  induction pattern generalizing ii with
  | nil => rfl
  | cons ptok pattern ih => simp only [flatLiterals, flatStops_canon, flatPasses_canon, ih]

theorem armLiterals_canon (params : List CMacroParam) (arm : CMacroArm) (args : List CToken) :
    armLiterals params arm (args.map CToken.canon) = armLiterals params arm args := by
  unfold armLiterals
  cases arm.patternTree with
  | some tree => exact matchedLiterals_canon params args tree 0
  | none => exact flatLiterals_canon params args arm.pattern 0

end Classes

section Compared

/-- An arm is selected just when its expansion is produced. -/
theorem expandArms_selects {params : List CMacroParam} {args : List CToken} {gen : Nat}
    {arms : List CMacroArm} {r : List CToken × Nat × List String} :
    expandArms params args gen arms = some (some r) ↔
      ∃ k arm caps, Selects params arms args k arm ∧
        armMatch params arm args = some (some caps) ∧ r = expandArm params arm args caps gen := by
  induction arms with
  | nil =>
      simp only [expandArms, Option.some.injEq, reduceCtorEq, false_iff]
      rintro ⟨k, arm, caps, hselects, -⟩
      cases hselects.here
  | cons arm arms ih =>
      rw [expandArms]
      cases hmatch : armMatch params arm args with
      | none =>
          simp only [reduceCtorEq, false_iff]
          rintro ⟨k, arm', caps, hselects, hcaps, -⟩
          cases k with
          | zero =>
              obtain rfl : arm = arm' := by simpa using hselects.here
              rw [hmatch] at hcaps
              cases hcaps
          | succ k =>
              have := hselects.earlier 0 (Nat.succ_pos k) arm rfl
              rw [hmatch] at this
              cases this
      | some verdict =>
          cases verdict with
          | none =>
              simp only
              rw [ih]
              constructor
              · rintro ⟨k, arm', caps, hselects, hcaps, rfl⟩
                refine ⟨k + 1, arm', caps, ⟨hselects.here, hselects.matched, ?_⟩, hcaps, rfl⟩
                intro j hj other hother
                cases j with
                | zero =>
                    obtain rfl : arm = other := by simpa using hother
                    exact hmatch
                | succ j => exact hselects.earlier j (Nat.lt_of_succ_lt_succ hj) other hother
              · rintro ⟨k, arm', caps, hselects, hcaps, rfl⟩
                cases k with
                | zero =>
                    obtain rfl : arm = arm' := by simpa using hselects.here
                    rw [hmatch] at hcaps
                    cases hcaps
                | succ k =>
                    refine ⟨k, arm', caps, ⟨hselects.here, hselects.matched, ?_⟩, hcaps, rfl⟩
                    intro j hj other hother
                    exact hselects.earlier (j + 1) (Nat.succ_lt_succ hj) other hother
          | some caps =>
              simp only [Option.some.injEq]
              constructor
              · rintro rfl
                exact ⟨0, arm, caps, ⟨rfl, ⟨caps, hmatch⟩, fun j hj => absurd hj (Nat.not_lt_zero j)⟩,
                  hmatch, rfl⟩
              · rintro ⟨k, arm', caps', hselects, hcaps, rfl⟩
                cases k with
                | zero =>
                    obtain rfl : arm = arm' := by simpa using hselects.here
                    rw [hmatch] at hcaps
                    cases hcaps
                    rfl
                | succ k =>
                    have := hselects.earlier 0 (Nat.succ_pos k) arm rfl
                    rw [hmatch] at this
                    cases this

/-- A token of the input that passes for a literal. -/
def ComparedAt (input : List CToken) (lit : CToken × Nat) : Prop :=
  ∃ u, input[lit.2]? = some u ∧ cCzetTokEq lit.1 u = true

private theorem separators_compared {passKids : Nat → Option Nat} {input : List CToken}
    {s : CToken} {cur : Nat} {its : List (Nat × Nat)}
    (hchain : IterChain passKids input (some s) true cur its) :
    ∀ start ∈ its.map Prod.fst, ComparedAt input (s, start - 1) := by
  induction its generalizing cur with
  | nil => simp
  | cons it its ih =>
      obtain ⟨hprobe, -, hrest⟩ := hchain
      rw [List.map_cons, List.forall_mem_cons]
      refine ⟨?_, ih hrest⟩
      rw [iterProbe] at hprobe
      cases hcur : input[cur]? with
      | none =>
          rw [hcur] at hprobe
          cases hprobe
      | some t =>
          rw [hcur] at hprobe
          simp only at hprobe
          split at hprobe
          · rename_i heq
            rw [← Option.some.inj hprobe]
            exact ⟨t, hcur, heq⟩
          · cases hprobe

mutual

private theorem nodeLiterals_compared {params : List CMacroParam} {input : List CToken} :
    ∀ (n : CzetRepNode) (ii : Nat) (a : Alternative), a ∈ alternatives 7 params input n ii →
      ∀ lit ∈ nodeLiterals params input n ii a, ComparedAt input lit
  | .tok t, ii, a, ha, lit, hlit => by
      rw [nodeLiterals, List.mem_singleton] at hlit
      subst hlit
      obtain ⟨stop, hstop, -⟩ := List.mem_map.mp (by rw [alternatives] at ha; exact ha)
      rw [nodeCuts] at hstop
      cases hii : input[ii]? with
      | none =>
          rw [hii] at hstop
          cases hstop
      | some u =>
          rw [hii] at hstop
          simp only at hstop
          split at hstop
          · rename_i heq
            exact ⟨u, hii, heq⟩
          · cases hstop
  | .cap _, _, _, _, lit, hlit => by
      rw [nodeLiterals] at hlit
      cases hlit
  | .rep kids mod sep uses, ii, a, ha, lit, hlit => by
      obtain ⟨its, hstarts, -, hchain⟩ := alternatives_chain ha
      rw [nodeLiterals, hstarts, List.mem_append, List.mem_flatMap, List.mem_flatMap] at hlit
      rcases hlit with ⟨start, hstart, hlit⟩ | ⟨start, -, hlit⟩
      · cases sep with
        | none => cases hlit
        | some s =>
            rw [Option.toList_some, List.map_singleton, List.mem_singleton] at hlit
            subst hlit
            cases its with
            | nil => cases hstart
            | cons it its => exact separators_compared hchain.2.2 start hstart
      · exact matchedLiterals_compared kids start lit hlit

private theorem matchedLiterals_compared {params : List CMacroParam} {input : List CToken} :
    ∀ (nodes : List CzetRepNode) (ii : Nat),
      ∀ lit ∈ matchedLiterals params input nodes ii, ComparedAt input lit
  | [], _, lit, hlit => by
      rw [matchedLiterals] at hlit
      cases hlit
  | n :: rest, ii, lit, hlit => by
      rw [matchedLiterals] at hlit
      cases hchosen : chosen 7 params input n rest ii with
      | none =>
          rw [hchosen] at hlit
          cases hlit
      | some a =>
          rw [hchosen] at hlit
          rcases List.mem_append.mp hlit with hlit | hlit
          · exact nodeLiterals_compared n ii a (List.mem_of_find?_eq_some hchosen) lit hlit
          · exact matchedLiterals_compared rest a.2 lit hlit

end

private theorem flatLiterals_compared {params : List CMacroParam} {input pattern : List CToken}
    {ii : Nat} : ∀ lit ∈ flatLiterals params input pattern ii, ComparedAt input lit := by
  induction pattern generalizing ii with
  | nil =>
      intro lit hlit
      cases hlit
  | cons ptok pattern ih =>
      intro lit hlit
      rw [flatLiterals] at hlit
      cases hfind : (flatStops params input ptok ii).find? (flatPasses params input pattern) with
      | none =>
          rw [hfind] at hlit
          cases hlit
      | some stop =>
          rw [hfind] at hlit
          rcases List.mem_append.mp hlit with hlit | hlit
          · by_cases href : cCzetIsParamRef ptok = true
            · rw [if_pos href] at hlit
              cases hlit
            · rw [if_neg href, List.mem_singleton] at hlit
              subst hlit
              have hstop := List.mem_of_find?_eq_some hfind
              rw [flatStops, if_neg href] at hstop
              cases hii : input[ii]? with
              | none =>
                  rw [hii] at hstop
                  cases hstop
              | some u =>
                  rw [hii] at hstop
                  simp only at hstop
                  split at hstop
                  · rename_i heq
                    exact ⟨u, hii, heq⟩
                  · cases hstop
          · exact ih lit hlit

theorem armLiterals_compared {params : List CMacroParam} {arm : CMacroArm} {args : List CToken} :
    ∀ lit ∈ armLiterals params arm args, ComparedAt args lit := by
  unfold armLiterals
  cases arm.patternTree with
  | some tree => exact matchedLiterals_compared tree 0
  | none => exact flatLiterals_compared

private theorem tryCuts_passes {rest : Nat → Captures → MtResult} {passes : Nat → Bool}
    (hrest : ∀ j caps, match rest j caps with
      | .fault => False
      | .fail _ => passes j = false
      | .ok _ _ => passes j = true)
    (p ii : Nat) (cuts : List Nat) (caps : Captures) :
    match tryCuts rest p false ii cuts caps with
    | .fault => False
    | .fail _ => cuts.any passes = false
    | .ok _ _ => cuts.any passes = true := by
  induction cuts generalizing caps with
  | nil => rfl
  | cons cut cuts ih =>
      have hcut := hrest cut (setSpan caps p ii cut)
      rw [tryCuts]
      revert hcut
      cases rest cut (setSpan caps p ii cut) with
      | fault => exact False.elim
      | ok after caps' =>
          intro hpass
          simp [hpass]
      | fail caps' =>
          intro hpass
          have htail := ih (setSpan caps' p 0 0)
          simpa [List.any_cons, hpass] using htail

theorem flatMatch_passes (params : List CMacroParam) (input pattern : List CToken) (ii : Nat)
    (caps : Captures) :
    match flatMatch params input pattern ii caps with
    | .fault => False
    | .fail _ => flatPasses params input pattern ii = false
    | .ok _ _ => flatPasses params input pattern ii = true := by
  induction pattern generalizing ii caps with
  | nil =>
      rw [flatMatch, flatPasses]
      by_cases hend : ii = input.length
      · simp [hend]
      · simp [hend]
  | cons ptok pattern ih =>
      rw [flatMatch, flatPasses, flatStops]
      by_cases href : cCzetIsParamRef ptok = true
      · simp only [href, if_true]
        cases cCzetFindParam params ptok.identifierPointer with
        | none => rfl
        | some p =>
            simp only
            cases params[p]? with
            | none => rfl
            | some par =>
                simp only
                by_cases hfixed : (isFixedKind par.kind && !par.isRepeat) = true
                · simp only [hfixed, if_true]
                  cases matchFixed par.kind input ii with
                  | none => rfl
                  | some stop => simpa using ih stop (setSpan caps p ii stop)
                · simp only [hfixed, Bool.false_eq_true, if_false]
                  exact tryCuts_passes ih p ii _ caps
      · simp only [href, Bool.false_eq_true, if_false]
        cases input[ii]? with
        | none => rfl
        | some itok =>
            simp only
            by_cases heq : cCzetTokEq ptok itok = true
            · simpa [heq] using ih (ii + 1) caps
            · simp [heq]

theorem flatLiterals_complete {params : List CMacroParam} {input pattern : List CToken} {ii : Nat}
    (h : flatPasses params input pattern ii = true) :
    (flatLiterals params input pattern ii).map Prod.fst =
      pattern.filter fun t => !cCzetIsParamRef t := by
  induction pattern generalizing ii with
  | nil => rfl
  | cons ptok pattern ih =>
      rw [flatPasses] at h
      rw [flatLiterals]
      cases hfind : (flatStops params input ptok ii).find? (flatPasses params input pattern) with
      | none =>
          rw [List.find?_eq_none] at hfind
          obtain ⟨stop, hmem, hpass⟩ := List.any_eq_true.mp h
          exact absurd hpass (hfind stop hmem)
      | some stop =>
          have hrest := ih (List.find?_some hfind)
          cases href : cCzetIsParamRef ptok with
          | true => simp [href, hrest]
          | false => simp [href, hrest]

theorem matchedLiterals_complete {params : List CMacroParam} {input : List CToken}
    {nodes : List CzetRepNode} {ii k : Nat} (h : passNodes 7 params input nodes ii = some k)
    {t : CToken} (ht : .tok t ∈ nodes) : ∃ i, (t, i) ∈ matchedLiterals params input nodes ii := by
  induction nodes generalizing ii k with
  | nil => cases ht
  | cons n rest ih =>
      rw [passNodes] at h
      obtain ⟨a, ha, hpass⟩ := List.exists_of_findSome?_eq_some h
      have hsome : (chosen 7 params input n rest ii).isSome = true := by
        rw [chosen, List.find?_isSome]
        exact ⟨a, ha, by rw [hpass]; rfl⟩
      obtain ⟨a', hchosen⟩ := Option.isSome_iff_exists.mp hsome
      have hrest : ∃ k', passNodes 7 params input rest a'.2 = some k' := by
        have hfound := List.find?_some (by rw [chosen] at hchosen; exact hchosen)
        exact Option.isSome_iff_exists.mp hfound
      rw [matchedLiterals, hchosen]
      rcases List.mem_cons.mp ht with rfl | ht
      · exact ⟨ii, List.mem_append_left _ (by rw [nodeLiterals]; exact List.mem_singleton.mpr rfl)⟩
      · obtain ⟨k', hk'⟩ := hrest
        obtain ⟨i, hi⟩ := ih hk' ht
        exact ⟨i, List.mem_append_right _ hi⟩

end Compared

section Differing

variable {params : List CMacroParam} {input : List CToken} {a b : CToken}

private theorem iterate_differs {kids kids' : Nat → Captures → MtResult} (hkids : kids = kids')
    {sep sep' : Option CToken} (hprobe : iterProbe input sep = iterProbe input sep')
    (hsome : sep.isSome = sep'.isSome) (uses : List Nat) (savedLen : Nat → Nat) (room : Nat)
    (posAfter : List Nat) (cur : Nat) (needSep : Bool) (caps : Captures) :
    iterate kids input sep uses savedLen room posAfter cur needSep caps =
      iterate kids' input sep' uses savedLen room posAfter cur needSep caps := by
  subst hkids
  induction room generalizing posAfter cur needSep caps with
  | zero => rw [iterate, iterate, hprobe]
  | succ room ih =>
      rw [iterate, iterate, hprobe, hsome]
      simp only [ih]

mutual

private theorem mtNode_differs (h : a.canon = b.canon) {n n' : CzetRepNode}
    (hdiff : NodeDiffers a b n n') : mtNode 7 params input n = mtNode 7 params input n' := by
  cases hdiff with
  | tok =>
      funext rest ii caps
      simp only [mtNode, cCzetTokEq_congr h]
  | sep kids mod uses =>
      have hprobe : iterProbe input (some a) = iterProbe input (some b) := by
        funext needSep cur
        cases needSep <;> simp only [iterProbe, cCzetTokEq_congr h]
      funext rest ii caps
      cases mod <;> simp only [mtNode, iterate_differs rfl hprobe rfl]
  | kids mod sep uses hkids =>
      have heq := mtNodes_differs h hkids
      funext rest ii caps
      cases mod <;> simp only [mtNode, heq]

private theorem mtNodes_differs (h : a.canon = b.canon) {nodes nodes' : List CzetRepNode}
    (hdiff : NodesDiffer a b nodes nodes') :
    mtNodes 7 params input nodes = mtNodes 7 params input nodes' := by
  cases hdiff with
  | here rest hn =>
      funext ii caps
      rw [mtNodes, mtNodes, mtNode_differs h hn]
  | there n hrest =>
      funext ii caps
      rw [mtNodes, mtNodes, mtNodes_differs h hrest]

end

private theorem flatMatch_differs (h : a.canon = b.canon) (ha : cCzetIsParamRef a = false)
    (hb : cCzetIsParamRef b = false) (pre post : List CToken) :
    flatMatch params input (pre ++ a :: post) = flatMatch params input (pre ++ b :: post) := by
  induction pre with
  | nil =>
      funext ii caps
      simp only [List.nil_append, flatMatch, ha, hb, Bool.false_eq_true, if_false,
        cCzetTokEq_congr h]
  | cons ptok pre ih =>
      funext ii caps
      simp only [List.cons_append, flatMatch, ih]

theorem armMatch_differs (h : a.canon = b.canon) {arm other : CMacroArm}
    (hdiff : ArmsDiffer a b arm other) (args : List CToken) :
    armMatch params arm args = armMatch params other args := by
  unfold armMatch
  cases hdiff with
  | tree harm hother hnodes =>
      rw [harm, hother]
      simp only [cCzetMatcherTree, growingMatcherTree, mtNodes_differs h hnodes]
  | flat harm hother hpattern hpattern' ha hb =>
      rw [harm, hother]
      simp only [cCzetMatcher, hpattern, hpattern', flatMatch_differs h ha hb]

end Differing

section Selection

variable {reswords : String → Rid} {params : List CMacroParam} {arms : List CMacroArm}

private theorem canon_of_sameSpelling {t u : CToken} (ht : Lexed reswords t) (hu : Lexed reswords u)
    (h : SameSpelling t u) : t.canon = u.canon := by
  obtain ⟨htype, hvalue, -⟩ := h
  have hid : t.identifierPointer = u.identifierPointer := by
    rw [CToken.identifierPointer, hvalue]
    rfl
  unfold CToken.canon
  rw [hid, htype]
  by_cases hkey : u.type = .keyword
  · rw [ht.reserved (htype.trans hkey), hu.reserved hkey, hid]
  · rw [if_neg hkey, if_neg hkey]

private theorem selects_canon {args args' : List CToken}
    (h : args.map CToken.canon = args'.map CToken.canon) {k : Nat} {arm : CMacroArm}
    (hselects : Selects params arms args k arm) : Selects params arms args' k arm := by
  have hmatch : ∀ arm, armMatch params arm args' = armMatch params arm args := by
    intro arm
    rw [← armMatch_canon, ← h, armMatch_canon]
  refine ⟨hselects.here, ?_, ?_⟩
  · rw [hmatch]
    exact hselects.matched
  · intro j hj other hother
    rw [hmatch]
    exact hselects.earlier j hj other hother

private theorem map_canon_set {u v : CToken} (h : u.canon = v.canon) {args : List CToken} {i : Nat}
    (hi : args[i]? = some u) : args.map CToken.canon = (args.set i v).map CToken.canon := by
  have hget : (args.map CToken.canon)[i]? = some v.canon := by
    rw [List.getElem?_map, hi, ← h]
    rfl
  obtain ⟨hlt, hget⟩ := List.getElem?_eq_some_iff.mp hget
  rw [List.map_set, ← hget, List.set_getElem_self]

/-- For every macro: each invocation is decided by literals written as at the call, if and only if
no invocation is decided by a literal that is compared too coarsely. -/
theorem arms_selected_by_literals_iff (reswords : String → Rid) (params : List CMacroParam)
    (arms : List CMacroArm) :
    (∀ args, (∀ t ∈ args, Lexed reswords t) → SelectedByLiterals reswords params arms args) ↔
      ∀ args, (∀ t ∈ args, Lexed reswords t) → ∀ k arm, Selects params arms args k arm →
        ∀ lit ∈ armLiterals params arm args, ¬ Coarse reswords lit.1 := by
  constructor
  · rintro hall args hargs k arm hselects ⟨lit, i⟩ hlit ⟨v, hv, heq, hdiff⟩
    obtain ⟨u, hu, hequ⟩ := armLiterals_compared _ hlit
    have hcanon : u.canon = v.canon := by
      rw [← cCzetTokEq_iff_canon.mp hequ, ← cCzetTokEq_iff_canon.mp heq]
    have hset := map_canon_set hcanon hu
    have hargs' : ∀ t ∈ args.set i v, Lexed reswords t := by
      intro t ht
      rcases List.mem_or_eq_of_mem_set ht with ht | rfl
      · exact hargs t ht
      · exact hv
    refine hdiff ((hall (args.set i v) hargs').written k arm (selects_canon hset hselects) lit i v
      ?_ ?_)
    · rw [← armLiterals_canon, ← hset, armLiterals_canon]
      exact hlit
    · rw [List.getElem?_set_self (List.getElem?_eq_some_iff.mp hu).1]
  · intro hfine args hargs
    have hwritten : ∀ k arm, Selects params arms args k arm → ∀ lit i u,
        (lit, i) ∈ armLiterals params arm args → args[i]? = some u → SameSpelling lit u := by
      intro k arm hselects lit i u hlit hu
      obtain ⟨v, hv, heq⟩ := armLiterals_compared _ hlit
      obtain rfl : v = u := Option.some.inj (hv.symm.trans hu)
      by_contra hdiff
      exact hfine args hargs k arm hselects (lit, i) hlit
        ⟨v, hargs v (List.mem_of_getElem? hv), heq, hdiff⟩
    refine ⟨hwritten, ?_⟩
    intro k arm hselects j hj other hother a b hb hdiffer i u hlit hu hsame
    have hu' := hargs u (List.mem_of_getElem? hu)
    obtain ⟨v, hv, heq⟩ := armLiterals_compared _ hlit
    obtain rfl : v = u := Option.some.inj (hv.symm.trans hu)
    have hab : a.canon = b.canon :=
      (cCzetTokEq_iff_canon.mp heq).trans (canon_of_sameSpelling hb hu' hsame).symm
    obtain ⟨caps, hcaps⟩ := hselects.matched
    have hnone := hselects.earlier j hj other hother
    rw [← armMatch_differs hab hdiffer, hcaps] at hnone
    cases hnone

end Selection

section NumberArms

/-- An integer constant. -/
def integerToken (text : String) : CToken := { type := .number, value := .constant text }

/-- `NAME 1 => ...` in front of `NAME 2 => ...`. -/
def numberArms : List CMacroArm :=
  [⟨[nameToken "NAME", integerToken "1"], [], none, none⟩,
    ⟨[nameToken "NAME", integerToken "2"], [], none, none⟩]

/-- `NAME<2>` selects the arm that is written for `1`. -/
theorem second_number_arm_missed :
    ¬ ∀ args, (∀ t ∈ args, Lexed (fun _ => 0) t) →
      SelectedByLiterals (fun _ => 0) [] numberArms args := by
  intro h
  have hlexed : ∀ t ∈ [nameToken "NAME", integerToken "2"], Lexed (fun _ => 0) t := by
    intro t ht
    rcases List.mem_pair.mp ht with rfl | rfl
    · exact ⟨fun _ => ⟨"NAME", rfl⟩, nofun, nofun, fun h => absurd rfl h, nofun⟩
    · refine ⟨?_, nofun, fun _ => ⟨"2", rfl⟩, nofun, nofun⟩
      rintro (h | h) <;> cases h
  have hfirst : Selects [] numberArms [nameToken "NAME", integerToken "2"] 0
      ⟨[nameToken "NAME", integerToken "1"], [], none, none⟩ :=
    ⟨rfl, ⟨noCaptures, rfl⟩, fun j hj => absurd hj (Nat.not_lt_zero j)⟩
  obtain ⟨-, hvalue, -⟩ := (h _ hlexed).written 0 _ hfirst (integerToken "1") 1 (integerToken "2")
    (by decide) rfl
  exact absurd hvalue (by decide)

end NumberArms

end CZet
