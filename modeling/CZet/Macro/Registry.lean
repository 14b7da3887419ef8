/- source: src/gcc/gcc/c/c-parser.cc (c_parser_czet_macro_definition, c_czet_macro_register)
   digest: The registry of macros: what a definition registers, and what holds of every macro behind
     any number of definitions. -/

import CZet.Macro.DefinitionParser

set_option autoImplicit false
set_option relaxedAutoImplicit false

namespace CZet

section Registry

theorem registered_iff_parsed (macros : CzetMacroMap) (ts : List CToken) (d : CMacroDef)
    (rest : List CToken) :
    cParserCzetMacroDefinition macros ts = (cCzetMacroRegister macros d, rest, none) ↔
      macroDefinition macros ts = .ok (d, rest) := by
  rw [cParserCzetMacroDefinition]
  cases macroDefinition macros ts with
  | error e =>
      constructor
      · intro h
        cases congrArg (fun r => r.2.2) h
      · intro h
        cases h
  | ok r =>
      obtain ⟨d', rest'⟩ := r
      constructor
      · intro h
        obtain rfl : d' = d := (Prod.mk.inj (List.cons.inj (Prod.mk.inj h).1).1).2
        obtain rfl : rest' = rest := (Prod.mk.inj (Prod.mk.inj h).2).1
        rfl
      · intro h
        cases h
        rfl

/-- The call finds the text of a definition, or the tokens start with none and there is a message. -/
theorem registered_or_refused (macros : CzetMacroMap) (ts : List CToken) :
    (∃ d w rest, DefinitionText macros d w ∧ ts = w ++ rest ∧
      cParserCzetMacroDefinition macros ts = (cCzetMacroRegister macros d, rest, none)) ∨
    ((¬ ∃ d w rest, DefinitionText macros d w ∧ ts = w ++ rest) ∧
      ∃ rest msg, cParserCzetMacroDefinition macros ts = (macros, rest, some msg)) := by
  cases hparse : macroDefinition macros ts with
  | ok r =>
      obtain ⟨w, hw, hts⟩ := (recognises_macroDefinition macros ts r.1 r.2).mp hparse
      exact .inl ⟨r.1, w, r.2, hw, hts, (registered_iff_parsed macros ts r.1 r.2).mpr hparse⟩
  | error e =>
      refine .inr ⟨?_, e.2, e.1, by rw [cParserCzetMacroDefinition, hparse]⟩
      rintro ⟨d, w, rest, hw, hts⟩
      have hfound := (recognises_macroDefinition macros ts d rest).mpr ⟨w, hw, hts⟩
      rw [hparse] at hfound
      cases hfound

/-- A definition is registered just when the tokens start with its text, which is taken then; on all
other tokens the registry stays as it is, and there is a message. -/
theorem definition_registered_iff (macros : CzetMacroMap) (ts : List CToken) :
    (∀ d rest, cParserCzetMacroDefinition macros ts = (cCzetMacroRegister macros d, rest, none) ↔
      ∃ w, DefinitionText macros d w ∧ ts = w ++ rest) ∧
    ((¬ ∃ d w rest, DefinitionText macros d w ∧ ts = w ++ rest) →
      ∃ rest msg, cParserCzetMacroDefinition macros ts = (macros, rest, some msg)) := by
  constructor
  · intro d rest
    rw [registered_iff_parsed]
    exact recognises_macroDefinition macros ts d rest
  · intro hnone
    obtain ⟨d, w, rest, hw, hts, -⟩ | ⟨-, hrefused⟩ := registered_or_refused macros ts
    · exact absurd ⟨d, w, rest, hw, hts⟩ hnone
    · exact hrefused

/-- The trees of an arm are those of its tokens, and every repeated parameter that the pattern names
stands in as many groups as the depth recorded for it says. -/
structure ConsistentArm (params : List CMacroParam) (arm : CMacroArm) : Prop where
  pattern : ∃ params₀ params₁ tree, cCzetParseTree params₀ arm.pattern true = .ok (tree, params₁) ∧
    SameDecls params₁ params ∧ arm.patternTree = some tree ∧
      ∀ p, isRepeated params p = true → mentions p tree = true →
        ∃ D, depthOf params p = some D ∧ level p D tree
  expansion : ∃ params₀ tree, cCzetParseTree params₀ arm.expansion false = .ok (tree, params₀) ∧
    SameDecls params₀ params ∧ arm.expansionTree = some tree

/-- Later depths agree with the recorded ones. -/
structure DepthsKept (params params' : List CMacroParam) : Prop where
  same : SameDecls params params'
  keep : ∀ p D, depthOf params p = some D → depthOf params' p = some D

theorem ConsistentArm.mono {params params' : List CMacroParam} {arm : CMacroArm}
    (h : ConsistentArm params arm) (hkept : DepthsKept params params') :
    ConsistentArm params' arm := by
  obtain ⟨⟨params₀, params₁, tree, hparse, hsame, htree, hdepths⟩,
    ⟨params₂, etree, hexp, hsame', hetree⟩⟩ := h
  refine ⟨⟨params₀, params₁, tree, hparse, hsame.trans hkept.same, htree, ?_⟩,
    ⟨params₂, etree, hexp, hsame'.trans hkept.same, hetree⟩⟩
  intro p hrep hmentions
  obtain ⟨D, hD, hlevel⟩ := hdepths p (by rw [isRepeated_of_sameDecls hkept.same, hrep]) hmentions
  exact ⟨D, hkept.keep p D hD, hlevel⟩

private theorem ArmText.consistent {params params' : List CMacroParam} {arm : CMacroArm}
    {w : List CToken} (h : ArmText params (arm, params') w) :
    DepthsKept params params' ∧ ConsistentArm params' arm := by
  cases h with
  | intro hu hpattern hv hexpansion =>
      obtain rfl := parseTree_expansion hexpansion
      have hparsed := parseTree_parsedAt hpattern
      refine ⟨⟨hparsed.same, hparsed.keep⟩,
        ⟨⟨_, _, _, hpattern, rfl, rfl, fun p hrep hmentions => ?_⟩, ⟨_, _, hexpansion, rfl, rfl⟩⟩⟩
      obtain ⟨D, hD, -, hlevel⟩ :=
        hparsed.repeated p (by rw [isRepeated_of_sameDecls hparsed.same, hrep]) hmentions
      exact ⟨D, hD, hlevel⟩

private theorem ArmsText.consistent {params params' : List CMacroParam} {arms : List CMacroArm}
    {w : List CToken} (h : ArmsText params (arms, params') w) :
    DepthsKept params params' ∧ ∀ arm ∈ arms, ConsistentArm params' arm := by
  generalize hr : (arms, params') = r at h
  induction h generalizing arms with
  | done _ =>
      cases hr
      exact ⟨⟨rfl, fun _ _ h => h⟩, fun arm harm => by cases harm⟩
  | more harm _ ih =>
      cases hr
      obtain ⟨hkept, hconsistent⟩ := harm.consistent
      obtain ⟨hmore, hall⟩ := ih rfl
      refine ⟨⟨hkept.same.trans hmore.same, fun p D hD => hmore.keep p D (hkept.keep p D hD)⟩, ?_⟩
      exact List.forall_mem_cons.mpr ⟨hconsistent.mono hmore, hall⟩

/-- The registry behind definitions that start at the given tokens. -/
def registryAfter : CzetMacroMap → List (List CToken) → CzetMacroMap
  | macros, [] => macros
  | macros, ts :: more => registryAfter (cParserCzetMacroDefinition macros ts).1 more

/-- Every macro is registered once, under its own name, and its arms are consistent. -/
structure SoundRegistry (macros : CzetMacroMap) : Prop where
  nodup : (macros.map Prod.fst).Nodup
  named : ∀ e ∈ macros, e.2.name = e.1
  consistent : ∀ e ∈ macros, ∀ arm ∈ e.2.arms, ConsistentArm e.2.params arm

/-- One definition keeps the registry sound, and every macro that is in it. -/
theorem SoundRegistry.step {macros : CzetMacroMap} (h : SoundRegistry macros) (ts : List CToken) :
    SoundRegistry (cParserCzetMacroDefinition macros ts).1 ∧
      ∀ name d, cCzetMacroLookup macros name = some d →
        cCzetMacroLookup (cParserCzetMacroDefinition macros ts).1 name = some d := by
  obtain ⟨d, w, rest, hw, hts, hresult⟩ | ⟨-, rest, msg, hresult⟩ := registered_or_refused macros ts
  · rw [hresult]
    cases hw with
    | @intro kw n l b sc params params' arms u v hn hid hfresh hl hu hb hv hs =>
        have hother : ∀ e ∈ macros, e.1 ≠ n.identifierPointer := by
          intro e he heq
          have hne := List.lookup_eq_none_iff.mp hfresh e he
          simp [heq] at hne
        refine ⟨⟨?_, ?_, ?_⟩, ?_⟩
        · refine List.nodup_cons.mpr ⟨?_, h.nodup⟩
          intro hmem
          obtain ⟨e, he, heq⟩ := List.mem_map.mp hmem
          exact hother e he heq
        · exact List.forall_mem_cons.mpr ⟨rfl, h.named⟩
        · exact List.forall_mem_cons.mpr ⟨hv.consistent.2, h.consistent⟩
        · intro name d hd
          have hne : (name == n.identifierPointer) = false := by
            rw [beq_eq_false_iff_ne]
            rintro rfl
            rw [hfresh] at hd
            cases hd
          rw [cCzetMacroLookup, cCzetMacroRegister, List.lookup_cons, hne]
          exact hd
  · rw [hresult]
    exact ⟨h, fun name d hd => hd⟩

theorem soundRegistry_after {macros : CzetMacroMap} (h : SoundRegistry macros)
    (streams : List (List CToken)) : SoundRegistry (registryAfter macros streams) ∧
      ∀ name d, cCzetMacroLookup macros name = some d →
        cCzetMacroLookup (registryAfter macros streams) name = some d := by
  induction streams generalizing macros with
  | nil => exact ⟨h, fun name d hd => hd⟩
  | cons ts streams ih =>
      obtain ⟨hstep, hkept⟩ := h.step ts
      obtain ⟨hsound, hlater⟩ := ih hstep
      exact ⟨hsound, fun name d hd => hlater name d (hkept name d hd)⟩

theorem registryAfter_append (macros : CzetMacroMap) (streams later : List (List CToken)) :
    registryAfter macros (streams ++ later) = registryAfter (registryAfter macros streams) later := by
  induction streams generalizing macros with
  | nil => rfl
  | cons ts streams ih => exact ih _

/-- Behind any definitions, well-formed or not, the macros have different names and consistent arms,
and no later definition changes one of them. -/
theorem registered_macros_consistent (streams later : List (List CToken)) :
    SoundRegistry (registryAfter [] streams) ∧
      ∀ name d, cCzetMacroLookup (registryAfter [] streams) name = some d →
        cCzetMacroLookup (registryAfter [] (streams ++ later)) name = some d := by
  have hempty : SoundRegistry [] := ⟨List.nodup_nil, by simp, by simp⟩
  obtain ⟨hsound, -⟩ := soundRegistry_after hempty streams
  refine ⟨hsound, ?_⟩
  rw [registryAfter_append]
  exact (soundRegistry_after hsound later).2

/-- `_Macro M < $x : expr , > { ( M $x ) { $x } } ; x` -/
private def shortDefinition : List CToken :=
  [{ type := .keyword }, nameToken "M", punctToken .less, nameToken "$x", punctToken .colon,
   nameToken "expr", punctToken .comma, punctToken .greater, punctToken .openBrace,
   punctToken .openParen, nameToken "M", nameToken "$x", punctToken .closeParen,
   punctToken .openBrace, nameToken "$x", punctToken .closeBrace, punctToken .closeBrace,
   punctToken .semicolon, nameToken "x"]

example : (cParserCzetMacroDefinition [] shortDefinition).2 = ([nameToken "x"], none) := by
  decide +kernel

end Registry

end CZet
