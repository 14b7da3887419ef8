/- source: src/gcc/gcc/c/c-parser.cc (c_czet_mt_nodes, c_czet_matcher_tree)
   digest: A pattern tree read as a grammar, and that every argument list the tree matcher
     accepts is a sentence of it. -/

import Mathlib.Computability.Language
import CZet.Macro.Captures

set_option autoImplicit false
set_option relaxedAutoImplicit false

namespace CZet

open Computability

/-- What stands between two iterations of a group. -/
def separatorLanguage : Option CToken → Language CToken
  | none => 1
  | some s => {seg | ∃ t, seg = [t] ∧ cCzetTokEq s t = true}

mutual

def nodeLanguage (params : List CMacroParam) : CzetRepNode → Language CToken
  | .tok t => {seg | Segment params (.tok t) seg}
  | .cap p => {seg | Segment params (.cap p) seg}
  | .rep kids mod sep _ =>
      let content := patternLanguage params kids
      match mod with
      | .query => 1 + content
      | .plus => content * (separatorLanguage sep * content)∗
      | .star => 1 + content * (separatorLanguage sep * content)∗

/-- The sentences of a pattern read as a grammar: a group derives its content any number of
times, at least once or at most once, with the separator between two derivations. -/
def patternLanguage (params : List CMacroParam) : List CzetRepNode → Language CToken
  | [] => 1
  | n :: rest => nodeLanguage params n * patternLanguage params rest

end

section Sound

variable {slots : Nat} {params : List CMacroParam} {input : List CToken}

private theorem nodeLanguage_of_mem_nodeCuts {n : CzetRepNode} {i j : Nat}
    (h : j ∈ nodeCuts params input n i) : slice input i j ∈ nodeLanguage params n := by
  have hseg := (mem_nodeCuts_iff.mp h).2.2
  cases n with
  | tok t =>
      rw [nodeLanguage]
      exact hseg
  | cap p =>
      rw [nodeLanguage]
      exact hseg
  | rep kids mod sep uses => exact hseg.elim

theorem slice_self (i : Nat) : slice input i i = [] := by simp [slice]

private theorem separator_slice {sep : Option CToken} {cur probe : Nat}
    (h : iterProbe input sep sep.isSome cur = some probe) :
    slice input cur probe ∈ separatorLanguage sep := by
  have hsep : List.Forall₂ (fun o i => cCzetTokEq o i = true) (if true then sep.toList else [])
      (slice input cur probe) := iterProbe_slice (by simpa using h)
  cases sep with
  | none => simpa [separatorLanguage, Language.mem_one] using hsep
  | some s =>
      simp only [if_true, Option.toList_some] at hsep
      cases hin : slice input cur probe with
      | nil => simp [hin] at hsep
      | cons t ts =>
          rw [hin] at hsep
          cases hsep with
          | cons heq hnil =>
              cases hnil
              exact ⟨t, rfl, heq⟩

private theorem more_iterations {kids : List CzetRepNode} {sep : Option CToken}
    (hkids : ∀ i k, passNodes slots params input kids i = some k →
      slice input i k ∈ patternLanguage params kids) {cur : Nat} {its : List (Nat × Nat)}
    (h : IterChain (passNodes slots params input kids) input sep sep.isSome cur its) :
    slice input cur (endOf cur its) ∈
      (separatorLanguage sep * patternLanguage params kids)∗ := by
  induction its generalizing cur with
  | nil =>
      rw [endOf, slice_self]
      exact Language.nil_mem_kstar _
  | cons it its ih =>
      obtain ⟨hprobe, hpass, hrest⟩ := h
      have h₁ := iterProbe_ge hprobe
      have h₂ := passNodes_ge slots params input kids hpass
      have h₃ := endOf_ge hrest
      have hone : slice input cur it.2 ∈ separatorLanguage sep * patternLanguage params kids := by
        rw [slice_append h₁ h₂]
        exact Language.append_mem_mul (separator_slice hprobe) (hkids _ _ hpass)
      rw [endOf, slice_append (h₁.trans h₂) h₃, ← Language.one_add_self_mul_kstar_eq_kstar]
      exact Or.inr (Language.append_mem_mul hone (ih hrest))

private theorem some_iterations {kids : List CzetRepNode} {sep : Option CToken}
    (hkids : ∀ i k, passNodes slots params input kids i = some k →
      slice input i k ∈ patternLanguage params kids) {cur : Nat} {it : Nat × Nat}
    {its : List (Nat × Nat)}
    (h : IterChain (passNodes slots params input kids) input sep false cur (it :: its)) :
    slice input cur (endOf cur (it :: its)) ∈ patternLanguage params kids *
      (separatorLanguage sep * patternLanguage params kids)∗ := by
  obtain ⟨hprobe, hpass, hrest⟩ := h
  obtain rfl : cur = it.1 := by simpa [iterProbe] using hprobe
  have h₂ := passNodes_ge slots params input kids hpass
  have h₃ := endOf_ge hrest
  rw [endOf, slice_append h₂ h₃]
  exact Language.append_mem_mul (hkids _ _ hpass) (more_iterations hkids hrest)

private theorem plus_keeps_one {kids : List CzetRepNode} {sep : Option CToken} {uses : List Nat}
    {ii : Nat} {a : Alternative} (h : a ∈ alternatives slots params input
      (.rep kids .plus sep uses) ii) :
    a.1 ≠ [] := by
  rw [alternatives_many (by decide)] at h
  obtain ⟨t, ht, rfl⟩ := List.mem_map.mp h
  obtain ⟨hmin, hmax⟩ := mem_countsDown.mp ht
  have hpos : 1 ≤ t := hmin
  intro hnil
  have hlen := congrArg List.length hnil
  simp only [keepIters, List.length_map, List.length_take, List.length_nil] at hlen
  omega

mutual

private theorem alternatives_sound : ∀ (n : CzetRepNode) {ii : Nat} {a : Alternative},
    a ∈ alternatives slots params input n ii → slice input ii a.2 ∈ nodeLanguage params n
  | .tok t, ii, a, h => by
      rw [alternatives] at h
      obtain ⟨stop, hstop, rfl⟩ := List.mem_map.mp h
      exact nodeLanguage_of_mem_nodeCuts hstop
  | .cap p, ii, a, h => by
      rw [alternatives] at h
      obtain ⟨stop, hstop, rfl⟩ := List.mem_map.mp h
      exact nodeLanguage_of_mem_nodeCuts hstop
  | .rep kids mod sep uses, ii, a, h => by
      have hkids : ∀ i k, passNodes slots params input kids i = some k →
          slice input i k ∈ patternLanguage params kids := fun i k => passNodes_sound kids
      cases mod with
      | query =>
          rw [alternatives] at h
          rw [nodeLanguage]
          cases hpass : passNodes slots params input kids ii with
          | none =>
              simp only [hpass, List.mem_singleton] at h
              rw [h, slice_self]
              exact Or.inl rfl
          | some probe =>
              simp only [hpass, List.mem_cons, List.not_mem_nil, or_false] at h
              rcases h with rfl | rfl
              · exact Or.inr (hkids _ _ hpass)
              · rw [slice_self]
                exact Or.inl rfl
      | star =>
          obtain ⟨its, -, hend, hchain⟩ := alternatives_chain h
          rw [nodeLanguage, hend]
          cases its with
          | nil =>
              rw [endOf, slice_self]
              exact Or.inl rfl
          | cons it its => exact Or.inr (some_iterations hkids hchain)
      | plus =>
          obtain ⟨its, hkept, hend, hchain⟩ := alternatives_chain h
          rw [nodeLanguage, hend]
          cases its with
          | nil => exact absurd hkept (plus_keeps_one h)
          | cons it its => exact some_iterations hkids hchain

/-- What the search takes for a pattern is one of its sentences. -/
theorem passNodes_sound : ∀ (nodes : List CzetRepNode) {ii k : Nat},
    passNodes slots params input nodes ii = some k → slice input ii k ∈ patternLanguage params nodes
  | [], ii, k, h => by
      rw [passNodes, Option.some.injEq] at h
      rw [← h, slice_self, patternLanguage]
      rfl
  | n :: rest, ii, k, h => by
      rw [passNodes] at h
      obtain ⟨a, ha, hrest⟩ := List.exists_of_findSome?_eq_some h
      have h₁ := (alternatives_ge slots params input n ha).1
      have h₂ := passNodes_ge slots params input rest hrest
      rw [patternLanguage, slice_append h₁ h₂]
      exact Language.append_mem_mul (alternatives_sound n ha) (passNodes_sound rest hrest)

end

end Sound

/-- Whatever room there is for iterations, what is accepted for an arm is a sentence of its
pattern. -/
theorem growingTree_accepts_sentence (slots : Nat) (params params' defParams : List CMacroParam)
    (tokens : List CToken) (tree : List CzetRepNode) (input : List CToken) (caps : Captures)
    (hparse : cCzetParseTree params tokens true = .ok (tree, params'))
    (haccept : growingMatcherTree slots defParams tree input = some (some caps)) :
    input ∈ patternLanguage defParams tree := by
  obtain ⟨d, hlevel⟩ := (parseTree_level hparse 0).2.1
  have hok := mtNodes_of_accept haccept
  have hpass : passNodes slots defParams input tree 0 = some input.length :=
    passNodes_of_ok hlevel hok
  have hsound := passNodes_sound tree hpass
  have hwhole : slice input 0 input.length = input := by simp [slice]
  rwa [hwhole] at hsound

/-- An argument list that the tree matcher accepts for an arm of an accepted definition is a
sentence of the pattern of that arm. -/
theorem matcherTree_accepts_sentence (params params' defParams : List CMacroParam)
    (tokens : List CToken) (tree : List CzetRepNode) (input : List CToken) (caps : Captures)
    (hparse : cCzetParseTree params tokens true = .ok (tree, params'))
    (haccept : cCzetMatcherTree defParams tree input = some (some caps)) :
    input ∈ patternLanguage defParams tree :=
  growingTree_accepts_sentence 7 params params' defParams tokens tree input caps hparse haccept

/-- `M a , b` is a sentence of `M $($x),*`. -/
theorem listed_names_sentence :
    ∃ tree params, cCzetParseTree listParams starPattern true = .ok (tree, params) ∧
      [nameToken "M", nameToken "a", punctToken .comma, nameToken "b"] ∈
        patternLanguage params tree :=
  ⟨_, _, rfl, matcherTree_accepts_sentence listParams _ _ starPattern _ _ _ rfl rfl⟩

end CZet
