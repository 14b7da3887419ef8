/- source: src/gcc/gcc/c/c-decl.cc (czet_subst_walk, czet_deep_subst, czet_instantiate_type)
   digest: What an instantiation does to the type nodes and to the cache, if it comes to an end. -/

import CZet.Generic.TypeRefs

set_option autoImplicit false
set_option relaxedAutoImplicit false

namespace CZet.TypeNodes

open CZet.Lib.Cycles Relation

/-- The templates as the parser leaves them, before the first instantiation. -/
structure Declared (rules : GccRules) (s : TypeState) : Prop where
  empty : s.cache = []
  integer : Still rules s s.integerType
  copyable : ∀ tag tmpl, s.templates.lookup tag = some tmpl →
    ∃ fields, s.fields tmpl.type = some fields ∧ ∀ f ∈ fields, Copyable rules s f.type
  fresh : ∀ tag counter, s.templates.lookup (instanceTag tag counter) = none

/-- Every descent along the references from the template `tag` ends. -/
abbrev Grounded (rules : GccRules) (s₀ : TypeState) (tag : Ident) : Prop :=
  Ends (Refers rules s₀) tag

/-- The calls of `czet_instantiate_type` that are looked at: with each one the calls that its fields
lead to, and there is an argument for each parameter. -/
structure CallRule (rules : GccRules) (s₀ : TypeState) where
  holds : Ident → List Nat → Prop
  enough : ∀ {tag types}, holds tag types → Enough s₀ tag types
  closed : ∀ {tag types tmpl other tmpl'}, holds tag types →
    s₀.templates.lookup tag = some tmpl → Mentions rules s₀ tag types other →
    s₀.templates.lookup other = some tmpl' →
    holds other (referenceTypes s₀ (bindTypes tmpl.params types) tmpl')

/-- From the template `tag` no endless descent starts, and there are records of all templates that it
comes to. -/
structure Finished (rules : GccRules) (s₀ s : TypeState) (tag : Ident) : Prop where
  grounded : Grounded rules s₀ tag
  stocked : ∀ other tmpl, ReflTransGen (Refers rules s₀) tag other →
    s₀.templates.lookup other = some tmpl → ∃ e ∈ s.cache, e.1 = other

/-- A state `s` that instantiations have made of the state `s₀`: into a pointer or array of `s₀` only
an inert type was written, and only after every template was instantiated to which the walk on the
pointer or array came. -/
structure Working (rules : GccRules) (s₀ s : TypeState) : Prop where
  templates : s.templates = s₀.templates
  integerType : s.integerType = s₀.integerType
  integer : Still rules s s.integerType
  nodes : ∀ (t : Nat) (n : TypeNode), s₀.nodes[t]? = some n → s.nodes[t]? = some n ∨
    ∃ u, s.nodes[t]? = some (n.setTreeType u) ∧ Still rules s u ∧
      ∀ tag, WalkRef rules s₀ tag t → Finished rules s₀ s tag
  cached : ∀ e ∈ s.cache, Finished rules s₀ s e.1 ∧ Closed s e.2.2
  once : (s.cache.map fun e => (e.1, e.2.1)).Nodup
  records : (s.cache.map fun e => e.2.2).Nodup

/-- The arguments are types in which nothing is to be substituted. -/
def Concrete (rules : GccRules) (s : TypeState) (bound : Bound) : Prop :=
  ∀ p ∈ bound, Still rules s p.2

/-- From `s` to `s'` the nodes of `s` keep what the signature is made of. -/
def Kept (rules : GccRules) (s s' : TypeState) : Prop :=
  ∀ t, t < s.nodes.length → signaturePiece rules s'.nodes[t]? = signaturePiece rules s.nodes[t]?

/-- The entry has the key of one of the calls, at least if its arguments are types of `s₀`. -/
def EntryOf {rules : GccRules} {s₀ : TypeState} (calls : CallRule rules s₀)
    (e : Ident × List Char × Nat) : Prop :=
  ∃ types, calls.holds e.1 types ∧
    ((∀ t ∈ types, t < s₀.nodes.length) → e.2.1 = typeSignature rules s₀ types)

/-- From `s` to `s'` the templates of `refs` are instantiated, and those that they refer to; each
record that is built has a number and an entry of its own, and into the types in which nothing was
left to substitute nothing is written. -/
structure Effect {rules : GccRules} {s₀ : TypeState} (calls : CallRule rules s₀) (s s' : TypeState)
    (refs : Ident → Prop) : Prop where
  working : Working rules s₀ s'
  later : Later rules s s'
  kept : Kept rules s s'
  finished : ∀ tag, refs tag → Finished rules s₀ s' tag
  grown : ∀ e ∈ s.cache, e ∈ s'.cache
  counted : s'.counter + s.cache.length = s.counter + s'.cache.length
  frozen : ∀ t, Still rules s t → s'.nodes[t]? = s.nodes[t]?
  added : ∀ e ∈ s'.cache, e ∈ s.cache ∨ EntryOf calls e ∧
    s.nodes.length ≤ e.2.2 ∧ ∃ tag, refs tag ∧ ReflTransGen (Refers rules s₀) tag e.1

/-- From `s` to `s'` no template is instantiated. -/
structure Quiet (rules : GccRules) (s₀ s s' : TypeState) : Prop where
  working : Working rules s₀ s'
  later : Later rules s s'
  kept : Kept rules s s'
  cache : s'.cache = s.cache
  counter : s'.counter = s.counter

section States

variable {rules : GccRules} {s₀ s s' s'' : TypeState} {t u : Nat} {n : TypeNode}
  {bound : Bound} {refs refs' : Ident → Prop} {calls : CallRule rules s₀}

theorem referenceTypes_enough {tag : Ident} {tmpl : TypeTemplate}
    (htmpl : s.templates.lookup tag = some tmpl) : Enough s tag (referenceTypes s' bound tmpl) := by
  intro tmpl' htmpl'
  obtain rfl := Option.some.inj (htmpl.symm.trans htmpl')
  rw [referenceTypes, List.length_map]

/-- All calls with an argument for each parameter. -/
def enoughCalls (rules : GccRules) (s₀ : TypeState) : CallRule rules s₀ where
  holds := Enough s₀
  enough := id
  closed := fun _ _ _ htmpl' => referenceTypes_enough htmpl'

theorem Concrete.later (h : Concrete rules s bound) (hlater : Later rules s s') :
    Concrete rules s' bound :=
  fun p hp => (h p hp).later hlater

theorem Finished.grow {tag : Ident} (h : Finished rules s₀ s tag)
    (hgrown : ∀ e ∈ s.cache, e ∈ s'.cache) : Finished rules s₀ s' tag := by
  refine ⟨h.grounded, fun other tmpl hreach htmpl => ?_⟩
  obtain ⟨e, he, hother⟩ := h.stocked other tmpl hreach htmpl
  exact ⟨e, hgrown e he, hother⟩

theorem Declared.working (h : Declared rules s₀) : Working rules s₀ s₀ := by
  refine ⟨rfl, rfl, h.integer, fun _ _ hn => Or.inl hn, ?_, ?_, ?_⟩
  · intro e he
    rw [h.empty] at he
    cases he
  · rw [h.empty]
    exact List.nodup_nil
  · rw [h.empty]
    exact List.nodup_nil

/-- A step that writes nothing into the nodes of `s₀` but what may be written there. -/
theorem Working.grow (h : Working rules s₀ s) (hlater : Later rules s s')
    (hnodes : ∀ (t : Nat) (n : TypeNode), s₀.nodes[t]? = some n → s'.nodes[t]? = s.nodes[t]? ∨
      ∃ u, s'.nodes[t]? = some (n.setTreeType u) ∧ Still rules s' u ∧
        ∀ tag, WalkRef rules s₀ tag t → Finished rules s₀ s' tag)
    (hgrown : ∀ e ∈ s.cache, e ∈ s'.cache)
    (hcached : ∀ e ∈ s'.cache, e ∈ s.cache ∨ (Finished rules s₀ s' e.1 ∧ Closed s' e.2.2))
    (honce : (s'.cache.map fun e => (e.1, e.2.1)).Nodup)
    (hrecords : (s'.cache.map fun e => e.2.2).Nodup) : Working rules s₀ s' := by
  refine ⟨hlater.templates.trans h.templates, hlater.integerType.trans h.integerType, ?_, ?_, ?_,
    honce, hrecords⟩
  · rw [hlater.integerType]
    exact h.integer.later hlater
  · intro t n hn
    rcases hnodes t n hn with hsame | hwritten
    · rw [hsame]
      rcases h.nodes t n hn with hn' | ⟨u, hn', hstill, hfinished⟩
      · exact Or.inl hn'
      · exact Or.inr ⟨u, hn', hstill.later hlater, fun tag htag => (hfinished tag htag).grow hgrown⟩
    · exact Or.inr hwritten
  · intro e he
    rcases hcached e he with he | he
    · obtain ⟨hfinished, hclosed⟩ := h.cached e he
      exact ⟨hfinished.grow hgrown, hclosed.later hlater⟩
    · exact he

theorem Working.step (h : Working rules s₀ s) (hlater : Later rules s s')
    (hnodes : ∀ (t : Nat) (n : TypeNode), s₀.nodes[t]? = some n → s'.nodes[t]? = s.nodes[t]? ∨
      ∃ u, s'.nodes[t]? = some (n.setTreeType u) ∧ Still rules s' u ∧
        ∀ tag, WalkRef rules s₀ tag t → Finished rules s₀ s' tag)
    (hcache : s'.cache = s.cache) : Working rules s₀ s' := by
  apply h.grow hlater hnodes
  · intro e he
    exact hcache ▸ he
  · intro e he
    exact Or.inl (hcache ▸ he)
  · rw [hcache]
    exact h.once
  · rw [hcache]
    exact h.records

/-- A node of `s₀` is as it was, or it is inert by now. -/
theorem Working.node_cases (h : Working rules s₀ s) (hn : s₀.nodes[t]? = some n) :
    s.nodes[t]? = some n ∨
      (Still rules s t ∧ ∀ tag, WalkRef rules s₀ tag t → Finished rules s₀ s tag) := by
  rcases h.nodes t n hn with hn' | ⟨u, hn', hstill, hfinished⟩
  · exact Or.inl hn'
  · cases htree : n.treeType with
    | none =>
        left
        rw [hn', setTreeType_of_none n u htree]
    | some v =>
        have htree' := setTreeType_treeType n u htree
        refine Or.inr ⟨Still.intro hn' (hasParts_of_treeType _ htree')
          (not_isParam_of_treeType htree')
          (genericRef_of_treeType hn' htree') ?_, hfinished⟩
        intro w hw
        obtain rfl := Option.some.inj ((treeType_of_walkSlot hn' hw).symm.trans htree')
        exact hstill

theorem Working.referenceTypes (h : Working rules s₀ s) (bound : Bound) (tmpl : TypeTemplate) :
    referenceTypes s bound tmpl = referenceTypes s₀ bound tmpl := by
  rw [TypeNodes.referenceTypes, TypeNodes.referenceTypes, h.integerType]

theorem Working.node (h : Working rules s₀ s) (hn : s₀.nodes[t]? = some n) :
    ∃ n', s.nodes[t]? = some n' ∧ (n' = n ∨ ∃ u, n' = n.setTreeType u) := by
  rcases h.nodes t n hn with hn' | ⟨u, hn', -, -⟩
  · exact ⟨n, hn', Or.inl rfl⟩
  · exact ⟨_, hn', Or.inr ⟨u, rfl⟩⟩

theorem Working.fields (h : Working rules s₀ s) (hn : s₀.nodes[t]? = some n) :
    s.fields t = s₀.fields t := by
  obtain ⟨n', hn', rfl | ⟨u, rfl⟩⟩ := h.node hn <;> simp [TypeState.fields, hn, hn']

theorem Working.toSubst (h : Working rules s₀ s) {f : FieldDecl}
    (hn : s₀.nodes[f.type]? = some n) (bound : Bound) :
    fieldToSubst s bound f = fieldToSubst s₀ bound f := by
  unfold fieldToSubst
  obtain ⟨n', hn', rfl | ⟨u, rfl⟩⟩ := h.node hn
  · rw [hn, hn']
  · rw [hn, hn']
    obtain ⟨form, name, size⟩ := n
    cases form <;> rfl

theorem Working.genericRef (h : Working rules s₀ s) (hn : s₀.nodes[t]? = some n) :
    s.genericRef t = s₀.genericRef t := by
  obtain ⟨n', hn', hcases⟩ := h.node hn
  rw [genericRef_node hn, genericRef_node hn', h.templates]
  obtain rfl | ⟨u, rfl⟩ := hcases
  · rfl
  · rw [setTreeType_tag]

/-- A node that is as it was leads the walk where it led. -/
theorem Working.walkSlot (h : Working rules s₀ s) (ht : Walkable rules s₀ t)
    (hn : s₀.nodes[t]? = some n) (hn' : s.nodes[t]? = some n) :
    s.walkSlot rules t = s₀.walkSlot rules t := by
  rw [walkSlot_node hn, walkSlot_node hn']
  cases hu : n.treeType with
  | none => rfl
  | some u =>
      obtain ⟨-, -, hslot⟩ := ht
      obtain ⟨m, hm⟩ := target_node hn hu fun hu => (hslot u hu).node
      obtain ⟨m', hm', hcases⟩ := h.node hm
      have hsame : m'.isPointer = m.isPointer := by
        obtain rfl | ⟨v, rfl⟩ := hcases
        · rfl
        · exact setTreeType_isPointer m v
      rw [Option.filter_some, Option.filter_some, TypeState.isPointer, TypeState.isPointer, hm, hm',
        Option.map_some, Option.map_some, hsame]

theorem Kept.refl (s : TypeState) : Kept rules s s := fun _ _ => rfl

theorem Kept.of_node (hother : ∀ i, i < s.nodes.length → i ≠ t → s'.nodes[i]? = s.nodes[i]?)
    (hnode : ∀ n, s.nodes[t]? = some n →
      signaturePiece rules s'.nodes[t]? = signaturePiece rules (some n)) : Kept rules s s' := by
  intro i hi
  by_cases hit : i = t
  · obtain rfl := hit
    rw [hnode _ (List.getElem?_eq_getElem hi), List.getElem?_eq_getElem hi]
  · rw [hother i hi hit]

theorem Later.length_le (h : Later rules s s') : s.nodes.length ≤ s'.nodes.length := by
  by_contra hlt
  have hlast : s'.nodes.length < s.nodes.length := by omega
  obtain ⟨n', hn', -⟩ := h.nodes _ _ (List.getElem?_eq_getElem hlast)
  have hbound := (List.getElem?_eq_some_iff.mp hn').1
  omega

theorem Kept.trans (h : Kept rules s s') (h' : Kept rules s' s'')
    (hle : s.nodes.length ≤ s'.nodes.length) : Kept rules s s'' :=
  fun t ht => (h' t (by omega)).trans (h t ht)

theorem signaturePiece_setTreeType (rules : GccRules) (n : TypeNode) (u : Nat) :
    signaturePiece rules (some (n.setTreeType u)) = signaturePiece rules (some n) := by
  obtain ⟨form, name, size⟩ := n
  cases form <;> rfl

theorem Working.kept (h : Working rules s₀ s) : Kept rules s₀ s := by
  intro t ht
  have hn := List.getElem?_eq_getElem ht
  obtain ⟨n', hn', rfl | ⟨u, rfl⟩⟩ := h.node hn
  · rw [hn', hn]
  · rw [hn', hn, signaturePiece_setTreeType]

theorem Kept.typeSignature (h : Kept rules s s') {types : List Nat}
    (htypes : ∀ t ∈ types, t < s.nodes.length) :
    typeSignature rules s' types = typeSignature rules s types := by
  rw [TypeNodes.typeSignature, TypeNodes.typeSignature]
  congr 1
  exact List.map_congr_left fun t ht => h t (htypes t ht)

theorem Effect.none (h : Working rules s₀ s)
    (hfinished : ∀ tag, refs tag → Finished rules s₀ s tag) : Effect calls s s refs :=
  ⟨h, Later.refl s, Kept.refl s, hfinished, fun _ he => he, rfl, fun _ _ => rfl,
    fun _ he => Or.inl he⟩

theorem Effect.congr (h : Effect calls s s' refs) (hiff : ∀ tag, refs' tag ↔ refs tag) :
    Effect calls s s' refs' := by
  refine ⟨h.working, h.later, h.kept, fun tag htag => h.finished tag ((hiff tag).mp htag), h.grown,
    h.counted, h.frozen, ?_⟩
  intro e he
  rcases h.added e he with he | ⟨hentry, hnew, tag, htag, hreach⟩
  · exact Or.inl he
  · exact Or.inr ⟨hentry, hnew, tag, (hiff tag).mpr htag, hreach⟩

theorem Effect.trans (h : Effect calls s s' refs) (h' : Effect calls s' s'' refs') :
    Effect calls s s'' fun tag => refs tag ∨ refs' tag := by
  have hle := h.later.length_le
  refine ⟨h'.working, h.later.trans h'.later, h.kept.trans h'.kept hle, ?_,
    fun e he => h'.grown e (h.grown e he), ?_,
    fun t ht => (h'.frozen t (ht.later h.later)).trans (h.frozen t ht), ?_⟩
  · rintro tag (htag | htag)
    · exact (h.finished tag htag).grow h'.grown
    · exact h'.finished tag htag
  · have hfirst := h.counted
    have hsecond := h'.counted
    omega
  · intro e he
    rcases h'.added e he with he | ⟨hentry, hnew, tag, htag, hreach⟩
    · rcases h.added e he with he | ⟨hentry, hnew, tag, htag, hreach⟩
      · exact Or.inl he
      · exact Or.inr ⟨hentry, hnew, tag, Or.inl htag, hreach⟩
    · exact Or.inr ⟨hentry, by omega, tag, Or.inr htag, hreach⟩

theorem Quiet.refl (h : Working rules s₀ s) : Quiet rules s₀ s s :=
  ⟨h, Later.refl s, Kept.refl s, rfl, rfl⟩

theorem Effect.quiet (h : Effect calls s s' refs) (h' : Quiet rules s₀ s' s'')
    (hfrozen : ∀ t, Still rules s t → s''.nodes[t]? = s'.nodes[t]?) :
    Effect calls s s'' refs := by
  have hgrown : ∀ e ∈ s'.cache, e ∈ s''.cache := fun e he => h'.cache ▸ he
  refine ⟨h'.working, h.later.trans h'.later, h.kept.trans h'.kept h.later.length_le,
    fun tag htag => (h.finished tag htag).grow hgrown, fun e he => hgrown e (h.grown e he), ?_,
    fun t ht => (hfrozen t ht).trans (h.frozen t ht), ?_⟩
  · rw [h'.cache, h'.counter]
    exact h.counted
  · rw [h'.cache]
    exact h.added

/-- Before the instantiations, a node is copied. -/
theorem Effect.of_copyNode (h : Effect calls (s.copyNode n) s' refs) :
    Effect calls s s' refs := by
  have hlater : Later rules s (s.copyNode n) := copyNode_later s n
  have hle := hlater.length_le
  have hsame : ∀ t, t < s.nodes.length → (s.copyNode n).nodes[t]? = s.nodes[t]? := by
    intro t ht
    rw [TypeState.copyNode, List.getElem?_append_left ht]
  have hcopied : Kept rules s (s.copyNode n) := fun t ht => by rw [hsame t ht]
  refine ⟨h.working, hlater.trans h.later, hcopied.trans h.kept hle, h.finished, h.grown, h.counted,
    fun t ht => ?_, ?_⟩
  · exact (h.frozen t (ht.later hlater)).trans (hsame t ht.lt_length)
  · intro e he
    rcases h.added e he with he | ⟨hentry, hnew, hrefs⟩
    · exact Or.inl he
    · exact Or.inr ⟨hentry, by omega, hrefs⟩

theorem Working.copyNode (h : Working rules s₀ s) (n : TypeNode) :
    Working rules s₀ (s.copyNode n) := by
  apply h.step (copyNode_later s n) _ rfl
  intro t m hm
  left
  obtain ⟨m', hm', -⟩ := h.node hm
  rw [TypeState.copyNode, List.getElem?_append_left (List.getElem?_eq_some_iff.mp hm').1]

theorem Working.finishStruct (h : Working rules s₀ s) (fields : List FieldDecl)
    (ht : s₀.nodes[t]? = none) : Working rules s₀ (s.finishStruct rules t fields) := by
  apply h.step (finishStruct_later s t fields) _ rfl
  intro i n hn
  have hi : i ≠ t := by
    rintro rfl
    rw [ht] at hn
    cases hn
  exact Or.inl (finishStruct_ne rules s fields hi)

theorem Working.fresh (h : Working rules s₀ s) : s₀.nodes[s.nodes.length]? = none := by
  cases hn : s₀.nodes[s.nodes.length]? with
  | none => rfl
  | some n =>
      obtain ⟨n', hn', -⟩ := h.node hn
      have hlt := (List.getElem?_eq_some_iff.mp hn').1
      omega

end States

/-- What is known of the instantiation of a template with given arguments. -/
def InstantiateEffect {rules : GccRules} {s₀ : TypeState} (calls : CallRule rules s₀)
    (inst : Instantiate) : Prop :=
  ∀ tag types s r s', Working rules s₀ s → (∀ t ∈ types, Still rules s t) →
    calls.holds tag types → inst tag types s = some (r, s') →
    Effect calls s s' (fun other => other = tag) ∧
      (∀ i, r = some i → Closed s' i ∧ (tag, typeSignature rules s types, i) ∈ s'.cache) ∧
      (r = none → s.templates.lookup tag = none)

/-- The slot that the walk is at holds `t`, as it did in `s₀`. -/
def SlotHolds (rules : GccRules) (s₀ s : TypeState) (slot : Option Nat) (t : Nat) : Prop :=
  ∀ p, slot = some p → s₀.walkSlot rules p = some t ∧ s.walkSlot rules p = some t

section Walk

variable {rules : GccRules} {s₀ s s' : TypeState} {t t' : Nat} {n : TypeNode} {bound : Bound}
  {inst : Instantiate} {slot : Option Nat} {fuel : Nat} {calls : CallRule rules s₀}

theorem substPlaceholder_of_not_isParam (hn : s.nodes[t]? = some n) (hparam : ¬ n.IsParam) :
    substPlaceholder s bound t = t := by
  unfold substPlaceholder
  rw [hn]
  obtain ⟨form, name, size⟩ := n
  cases form with
  | tplType => exact absurd (Or.inl rfl) hparam
  | integer =>
      cases name with
      | none => rfl
      | some name => exact absurd (Or.inr ⟨name, rfl⟩) hparam
  | _ => rfl

theorem substPlaceholder_cases (hinteger : Still rules s s.integerType)
    (hbound : Concrete rules s bound) (hn : s.nodes[t]? = some n) :
    substPlaceholder s bound t = t ∨ (n.IsParam ∧ Still rules s (substPlaceholder s bound t)) := by
  have hlookup : ∀ name c, bound.lookup name = some c → Still rules s c := by
    intro name c hc
    obtain ⟨l₁, l₂, rfl, -⟩ := List.lookup_eq_some_iff.mp hc
    exact hbound (name, c) (by simp)
  unfold substPlaceholder
  rw [hn]
  obtain ⟨form, name, size⟩ := n
  cases form with
  | tplType =>
      refine Or.inr ⟨Or.inl rfl, ?_⟩
      cases name with
      | none => exact hinteger
      | some name =>
          cases hc : bound.lookup name with
          | none =>
              simp only [hc, Option.getD_none]
              exact hinteger
          | some c =>
              simp only [hc, Option.getD_some]
              exact hlookup name c hc
  | integer =>
      cases name with
      | none => exact Or.inl rfl
      | some name =>
          cases hc : bound.lookup name with
          | none => exact Or.inl (by simp only [hc, Option.getD_none])
          | some c =>
              refine Or.inr ⟨Or.inr ⟨name, rfl⟩, ?_⟩
              simp only [hc, Option.getD_some]
              exact hlookup name c hc
  | _ => exact Or.inl rfl

theorem store_same (s : TypeState) (slot : Option Nat) (t : Nat) : s.store slot t t = s := by
  cases slot with
  | none => rfl
  | some p => rw [TypeState.store, if_pos rfl]

theorem walkTree_reference {tag : Ident} {tmpl : TypeTemplate} {i : Nat} {s₁ : TypeState}
    (hgeneric : s.genericRef t = some (tag, tmpl))
    (hinst : inst tag (referenceTypes s bound tmpl) s = some (some i, s₁)) (k : Nat) :
    walkTree rules inst bound (k + 1) slot t s = some (i, s₁.store slot t i) := by
  rw [walkTree, czetSubstWalk, hgeneric]
  simp only [hinst, Option.bind_eq_bind, Option.bind_some]
  rfl

theorem walkTree_other (hgeneric : s.genericRef t = none) (k : Nat) :
    walkTree rules inst bound (k + 1) slot t s =
      match (s.store slot t (substPlaceholder s bound t)).walkSlot rules
        (substPlaceholder s bound t) with
      | none =>
          some (substPlaceholder s bound t, s.store slot t (substPlaceholder s bound t))
      | some u =>
          (walkTree rules inst bound k (some (substPlaceholder s bound t)) u
            (s.store slot t (substPlaceholder s bound t))).map
              fun r => (substPlaceholder s bound t, r.2) := by
  rw [walkTree, czetSubstWalk, hgeneric]
  simp only [Option.bind_eq_bind, Option.bind_some, if_true]
  cases (s.store slot t (substPlaceholder s bound t)).walkSlot rules
    (substPlaceholder s bound t) with
  | none => rfl
  | some u =>
      simp only
      cases walkTree rules inst bound k (some (substPlaceholder s bound t)) u
        (s.store slot t (substPlaceholder s bound t)) <;> rfl

theorem walkTree_plain (hgeneric : s.genericRef t = none) (hsame : substPlaceholder s bound t = t)
    (k : Nat) : walkTree rules inst bound (k + 1) slot t s =
      match s.walkSlot rules t with
      | none => some (t, s)
      | some u => (walkTree rules inst bound k (some t) u s).map fun r => (t, r.2) := by
  rw [walkTree_other hgeneric, hsame, store_same]

theorem walk_still (h : Still rules s t) (bound : Bound) :
    ∃ d, ∀ inst slot fuel, walkTree rules inst bound fuel slot t s =
      if d ≤ fuel then some (t, s) else none := by
  induction h with
  | @intro t n hn _ hparam hgeneric hslot ih =>
      have hsame : substPlaceholder s bound t = t := substPlaceholder_of_not_isParam hn hparam
      cases hu : s.walkSlot rules t with
      | none =>
          refine ⟨1, fun inst slot fuel => ?_⟩
          cases fuel with
          | zero => rfl
          | succ k => rw [walkTree_plain hgeneric hsame, hu, if_pos (by omega)]
      | some u =>
          obtain ⟨d, hd⟩ := ih u hu
          refine ⟨d + 1, fun inst slot fuel => ?_⟩
          cases fuel with
          | zero => rfl
          | succ k =>
              rw [walkTree_plain hgeneric hsame, hu]
              simp only [hd]
              by_cases hk : d ≤ k
              · rw [if_pos hk, if_pos (by omega)]
                rfl
              · rw [if_neg hk, if_neg (by omega)]
                rfl

/-- What takes the place of a parameter is walked through in its turn. -/
theorem walkTree_replaced (hgeneric : s.genericRef t = none)
    (hstill : Still rules (s.store slot t (substPlaceholder s bound t))
      (substPlaceholder s bound t))
    (k : Nat) : walkTree rules inst bound (k + 1) slot t s =
      walkTree rules inst bound (k + 1) slot (substPlaceholder s bound t)
        (s.store slot t (substPlaceholder s bound t)) := by
  obtain ⟨hn, -, hparam, hgeneric', -⟩ := hstill
  rw [walkTree_other hgeneric, walkTree_plain hgeneric'
    (substPlaceholder_of_not_isParam hn hparam)]

theorem still_of_walkTree (h : Still rules s t)
    (hrun : walkTree rules inst bound fuel slot t s = some (t', s')) : t' = t ∧ s' = s := by
  obtain ⟨d, hd⟩ := walk_still h bound
  rw [hd inst slot fuel] at hrun
  split at hrun
  · obtain ⟨rfl, rfl⟩ := Prod.mk.inj (Option.some.inj hrun)
    exact ⟨rfl, rfl⟩
  · cases hrun

theorem store_ne (s : TypeState) {slot : Option Nat} {i : Nat} (hi : slot ≠ some i) :
    (s.store slot t t').nodes[i]? = s.nodes[i]? := by
  cases slot with
  | none => rfl
  | some p =>
      rw [TypeState.store]
      split
      · rfl
      · apply setTreeType_ne
        rintro rfl
        exact hi rfl

theorem SlotHolds.open (h : SlotHolds rules s₀ s slot t) (ht : ¬ Still rules s t) {u : Nat}
    (hu : Still rules s u) : slot ≠ some u := by
  rintro rfl
  obtain ⟨-, -, -, -, hnext⟩ := hu
  exact ht (hnext t (h u rfl).2)

theorem not_still_of_param (hn : s.nodes[t]? = some n) (hparam : n.IsParam) : ¬ Still rules s t := by
  rintro ⟨hm, -, hnot, -, -⟩
  obtain rfl := Option.some.inj (hn.symm.trans hm)
  exact hnot hparam

theorem not_still_of_generic {g : Ident × TypeTemplate} (h : s.genericRef t = some g) :
    ¬ Still rules s t := by
  rintro ⟨-, -, -, hgeneric, -⟩
  rw [h] at hgeneric
  cases hgeneric

theorem store_quiet (hworking : Working rules s₀ s)
    (hslot : ∀ p, slot = some p → s₀.walkSlot rules p = some t)
    (hstill : ∀ p, slot = some p → Still rules (s.setTreeType p t') t')
    (hfinished : ∀ tag, WalkRef rules s₀ tag t → Finished rules s₀ s tag) :
    Quiet rules s₀ s (s.store slot t t') := by
  cases slot with
  | none => exact Quiet.refl hworking
  | some p =>
      rw [TypeState.store]
      split
      · exact Quiet.refl hworking
      · have hlater := setTreeType_later (hstill p rfl)
        refine ⟨hworking.step hlater ?_ rfl, hlater, ?_, rfl, rfl⟩
        · intro i n hn
          by_cases hi : i = p
          · obtain rfl := hi
            obtain ⟨n', hn', hcases⟩ := hworking.node hn
            refine Or.inr ⟨t', ?_, hstill i rfl, fun tag htag => ?_⟩
            · rw [setTreeType_node hn']
              obtain rfl | ⟨u, rfl⟩ := hcases
              · rfl
              · rw [setTreeType_twice]
            · exact (hfinished tag ((walkRef_of_walkSlot (hslot i rfl)).mp htag)).grow fun _ he => he
          · exact Or.inl (setTreeType_ne s t' hi)
        · apply Kept.of_node (fun i _ hi => setTreeType_ne s t' hi)
          intro n hn
          rw [setTreeType_node hn, signaturePiece_setTreeType]

theorem referenceTypes_still (hinteger : Still rules s s.integerType)
    (hbound : Concrete rules s bound) (tmpl : TypeTemplate) :
    ∀ c ∈ referenceTypes s bound tmpl, Still rules s c := by
  intro c hc
  obtain ⟨name, -, rfl⟩ := List.mem_map.mp hc
  cases hlookup : bound.lookup name with
  | none => exact hinteger
  | some c =>
      obtain ⟨l₁, l₂, rfl, -⟩ := List.lookup_eq_some_iff.mp hlookup
      exact hbound (name, c) (by simp)

theorem reference_store {i : Nat} {s₁ : TypeState} (hworking : Working rules s₀ s₁)
    (hclosed : Closed s₁ i) (hslot : ∀ p, slot = some p → s₀.walkSlot rules p = some t)
    (hfinished : ∀ tag, WalkRef rules s₀ tag t → Finished rules s₀ s₁ tag) :
    Quiet rules s₀ s₁ (s₁.store slot t i) :=
  store_quiet hworking hslot (fun _ _ => (hclosed.setTreeType i).still) hfinished

theorem not_walkRef_param {tag : Ident} (hn : s.nodes[t]? = some n) (hparam : n.IsParam) :
    ¬ WalkRef rules s tag t := by
  apply not_walkRef (genericRef_of_param hn hparam)
  cases hu : s.walkSlot rules t with
  | none => rfl
  | some u => exact absurd hparam (not_isParam_of_treeType (treeType_of_walkSlot hn hu))

theorem param_store (hworking : Working rules s₀ s) (hslot : SlotHolds rules s₀ s slot t)
    (hn : s₀.nodes[t]? = some n) (hn' : s.nodes[t]? = some n) (hparam : n.IsParam)
    (hstill : Still rules s t') : Quiet rules s₀ s (s.store slot t t') := by
  apply store_quiet hworking (fun p hp => (hslot p hp).1)
  · intro p hp
    -- the slot leads to a parameter
    exact hstill.setTreeType (fun h => hslot.open (not_still_of_param hn' hparam) h hp) _
  · exact fun tag htag => absurd htag (not_walkRef_param hn hparam)

theorem reference_effect {tag : Ident} {tmpl : TypeTemplate}
    (hinst : InstantiateEffect calls inst) (hworking : Working rules s₀ s)
    (hbound : Concrete rules s bound) (hslot : SlotHolds rules s₀ s slot t)
    (hgeneric₀ : s₀.genericRef t = some (tag, tmpl)) (hgeneric : s.genericRef t = some (tag, tmpl))
    (hcalls : calls.holds tag (referenceTypes s₀ bound tmpl))
    (hrun : walkTree rules inst bound (fuel + 1) slot t s = some (t', s')) :
    Effect calls s s' fun other => WalkRef rules s₀ other t := by
  cases hcall : inst tag (referenceTypes s bound tmpl) s with
  | none =>
      rw [walkTree, czetSubstWalk, hgeneric] at hrun
      simp only [hcall] at hrun
      cases hrun
  | some r =>
      obtain ⟨r, s₁⟩ := r
      obtain ⟨heffect, hclosed, hfound⟩ := hinst tag _ s r s₁ hworking
        (referenceTypes_still hworking.integer hbound tmpl)
        (hworking.referenceTypes bound tmpl ▸ hcalls) hcall
      cases r with
      | none =>
          have hnone := hfound rfl
          rw [template_of_genericRef hgeneric] at hnone
          cases hnone
      | some i =>
          rw [walkTree_reference hgeneric hcall] at hrun
          obtain ⟨rfl, rfl⟩ := Prod.mk.inj (Option.some.inj hrun)
          have hrefs : ∀ other, WalkRef rules s₀ other t ↔ other = tag :=
            fun other => walkRef_of_genericRef hgeneric₀
          have heffect' := heffect.congr hrefs
          exact heffect'.quiet (reference_store heffect.working (hclosed i rfl).1
            (fun p hp => (hslot p hp).1) heffect'.finished)
            fun u hu => store_ne s₁ (hslot.open (not_still_of_generic hgeneric) hu)

theorem walk_effect (hinst : InstantiateEffect calls inst) (ht : Walkable rules s₀ t)
    (hcalls : ∀ tag tmpl, WalkRef rules s₀ tag t → s₀.templates.lookup tag = some tmpl →
      calls.holds tag (referenceTypes s₀ bound tmpl)) :
    ∀ {fuel slot s t' s'}, Working rules s₀ s → Concrete rules s bound →
      SlotHolds rules s₀ s slot t → walkTree rules inst bound fuel slot t s = some (t', s') →
      Effect calls s s' fun tag => WalkRef rules s₀ tag t := by
  induction ht with
  | @intro t n hn hparts hslots ih =>
      intro fuel slot s t' s' hworking hbound hslot hrun
      -- the node is as it was parsed, or a type was written into it before
      rcases hworking.node_cases hn with hn' | ⟨hstill, hfinished⟩
      · cases fuel with
        | zero => cases hrun
        | succ k =>
            have hsame := hworking.genericRef hn
            cases hgeneric : s₀.genericRef t with
            | some g =>
                obtain ⟨tag, tmpl⟩ := g
                exact reference_effect hinst hworking hbound hslot hgeneric (hsame.trans hgeneric)
                  (hcalls tag tmpl (WalkRef.here hgeneric) (template_of_genericRef hgeneric)) hrun
            | none =>
                rw [hgeneric] at hsame
                rcases substPlaceholder_cases hworking.integer hbound hn' with
                  hkept | ⟨hparam, hstill⟩
                · rw [walkTree_plain hsame hkept] at hrun
                  have hslot' := hworking.walkSlot (Walkable.intro hn hparts hslots) hn hn'
                  cases hu : s₀.walkSlot rules t with
                  | none =>
                      rw [hslot', hu] at hrun
                      obtain ⟨rfl, rfl⟩ := Prod.mk.inj (Option.some.inj hrun)
                      exact Effect.none hworking fun tag htag =>
                        absurd htag (not_walkRef hgeneric hu)
                  | some u =>
                      rw [hslot', hu] at hrun
                      obtain ⟨⟨u', s₁⟩, hnext, hr⟩ := Option.map_eq_some_iff.mp hrun
                      obtain ⟨rfl, rfl⟩ := Prod.mk.inj hr
                      have hholds : SlotHolds rules s₀ s (some t) u := by
                        rintro p ⟨rfl⟩
                        exact ⟨hu, hslot'.trans hu⟩
                      exact (ih u hu (fun tag tmpl htag => hcalls tag tmpl (WalkRef.slot hu htag))
                        hworking hbound hholds hnext).congr fun tag => walkRef_of_walkSlot hu
                · have hquiet := param_store hworking hslot hn hn' hparam hstill
                  have hstill' := hstill.later hquiet.later
                  rw [walkTree_replaced hsame hstill'] at hrun
                  obtain ⟨-, rfl⟩ := still_of_walkTree hstill' hrun
                  exact (Effect.none hworking fun tag htag =>
                    absurd htag (not_walkRef_param hn hparam)).quiet hquiet
                      fun u hu => store_ne s (hslot.open (not_still_of_param hn' hparam) hu)
      · obtain ⟨-, rfl⟩ := still_of_walkTree hstill hrun
        exact Effect.none hworking hfinished

end Walk

section Copy

variable {rules : GccRules} {s₀ s s' : TypeState} {t : Nat} {bound : Bound} {inst : Instantiate}
  {tag : Ident} {types : List Nat} {calls : CallRule rules s₀}

theorem copyFields_effect {subst : Nat → TypeState → Option (Nat × TypeState)}
    {refs : FieldDecl → Ident → Prop} (fields : List FieldDecl)
    (h : ∀ f ∈ fields, ∀ {s t' s'}, Working rules s₀ s → Concrete rules s bound →
      subst f.type s = some (t', s') → Effect calls s s' (refs f)) :
    ∀ {s newfields s'}, Working rules s₀ s → Concrete rules s bound →
      copyFields subst fields s = some (newfields, s') →
      Effect calls s s' fun tag => ∃ f ∈ fields, refs f tag := by
  induction fields with
  | nil =>
      intro s newfields s' hworking _ hrun
      obtain ⟨rfl, rfl⟩ := Prod.mk.inj (Option.some.inj hrun)
      apply Effect.none hworking
      rintro tag ⟨f, hf, -⟩
      cases hf
  | cons f fields ih =>
      intro s newfields s' hworking hbound hrun
      rw [copyFields] at hrun
      obtain ⟨⟨nf, s₁⟩, hfield, hrun⟩ := Option.bind_eq_some_iff.mp hrun
      obtain ⟨⟨ft, s₁'⟩, hsubst, hnf⟩ := Option.bind_eq_some_iff.mp hfield
      obtain ⟨rfl, rfl⟩ := Prod.mk.inj (Option.some.inj hnf)
      obtain ⟨⟨rest, s₂⟩, hrest, hr⟩ := Option.bind_eq_some_iff.mp hrun
      obtain ⟨rfl, rfl⟩ := Prod.mk.inj (Option.some.inj hr)
      have hfirst := h f List.mem_cons_self hworking hbound hsubst
      have hothers := ih (fun g hg => h g (List.mem_cons_of_mem _ hg)) hfirst.working
        (hbound.later hfirst.later) hrest
      apply (hfirst.trans hothers).congr
      intro tag
      simp only [List.mem_cons, exists_eq_or_imp]

theorem Working.fields_any (h : Working rules s₀ s) {fields : List FieldDecl}
    (hfields : ∀ f ∈ fields, Copyable rules s₀ f.type) (bound : Bound) :
    fields.any (fieldToSubst s bound) = fields.any (fieldToSubst s₀ bound) := by
  have hsame : ∀ f ∈ fields, fieldToSubst s bound f = fieldToSubst s₀ bound f := by
    intro f hf
    obtain ⟨n, hn⟩ := (hfields f hf).node
    exact h.toSubst hn bound
  rw [Bool.eq_iff_iff, List.any_eq_true, List.any_eq_true]
  exact exists_congr fun f => and_congr_right fun hf => by rw [hsame f hf]

theorem Working.aggregate (h : Working rules s₀ s) {n : TypeNode} {isUnion : Bool}
    {fields : List FieldDecl} (hn : s₀.nodes[t]? = some n)
    (hform : n.form = .aggregate isUnion fields) : s.nodes[t]? = some n := by
  obtain ⟨n', hn', rfl | ⟨u, rfl⟩⟩ := h.node hn
  · exact hn'
  · rw [hn', setTreeType_of_none n u]
    rw [TypeNode.treeType, hform]

theorem copy_effect (hinst : InstantiateEffect calls inst) (ht : Copyable rules s₀ t)
    (hcalls : ∀ tag tmpl, CopyRef rules s₀ bound tag t → s₀.templates.lookup tag = some tmpl →
      calls.holds tag (referenceTypes s₀ bound tmpl)) :
    ∀ {fuel s t' s'}, Working rules s₀ s → Concrete rules s bound →
      czetDeepSubst rules inst bound fuel t s = some (t', s') →
      Effect calls s s' fun tag => CopyRef rules s₀ bound tag t := by
  induction ht with
  | @walk t hfields hwalk =>
      intro fuel s t' s' hworking hbound hrun
      obtain ⟨n, hn⟩ := hwalk.node
      cases fuel with
      | zero => cases hrun
      | succ k =>
          rw [deepSubst_walk ((hworking.fields hn).trans hfields)] at hrun
          have hholds : SlotHolds rules s₀ s none t := by
            intro p hp
            cases hp
          exact (walk_effect hinst hwalk
            (fun tag tmpl htag => hcalls tag tmpl (CopyRef.walk hfields htag)) hworking hbound
            hholds hrun).congr fun tag => copyRef_of_walk hfields
  | @aggregate t fields hfields hcopyable ih =>
      intro fuel s t' s' hworking hbound hrun
      obtain ⟨n, isUnion, hn, hform⟩ := node_of_fields hfields
      cases fuel with
      | zero => cases hrun
      | succ k =>
          rw [deepSubst_aggregate (hworking.aggregate hn hform) hform,
            hworking.fields_any hcopyable] at hrun
          split at hrun
          next hcopied =>
              obtain ⟨⟨newfields, s₁⟩, hcopy, hr⟩ := Option.map_eq_some_iff.mp hrun
              obtain ⟨rfl, rfl⟩ := Prod.mk.inj hr
              have heffect := (copyFields_effect fields
                (fun f hf => ih f hf fun tag tmpl htag =>
                  hcalls tag tmpl (CopyRef.field hfields hcopied hf htag))
                (hworking.copyNode n) (hbound.later (copyNode_later s n)) hcopy).of_copyNode
              have hrefs : ∀ tag, CopyRef rules s₀ bound tag t ↔
                  ∃ f ∈ fields, CopyRef rules s₀ bound tag f.type := by
                intro tag
                rw [copyRef_of_aggregate hfields]
                exact and_iff_right hcopied
              have hkept : Kept rules s (s₁.finishStruct rules s.nodes.length newfields) := by
                intro i hi
                rw [finishStruct_ne rules s₁ newfields (Nat.ne_of_lt hi)]
                exact heffect.kept i hi
              have hfrozen : ∀ i, Still rules s i →
                  (s₁.finishStruct rules s.nodes.length newfields).nodes[i]? = s.nodes[i]? := by
                intro i hi
                rw [finishStruct_ne rules s₁ newfields (Nat.ne_of_lt hi.lt_length)]
                exact heffect.frozen i hi
              have hworking' := heffect.working.finishStruct newfields hworking.fresh
              exact (⟨hworking', heffect.later.trans
                (finishStruct_later s₁ s.nodes.length newfields), hkept,
                fun tag htag => (heffect.finished tag htag).grow fun _ he => he, heffect.grown,
                heffect.counted, hfrozen, heffect.added⟩ : Effect calls s _ _).congr hrefs
          next hkept =>
              obtain ⟨rfl, rfl⟩ := Prod.mk.inj (Option.some.inj hrun)
              apply Effect.none hworking
              intro tag htag
              exact absurd ((copyRef_of_aggregate hfields).mp htag).1 hkept

theorem built_later {n : TypeNode} {fields : List FieldDecl} {s₂ : TypeState} (types : List Nat)
    (newfields : List FieldDecl) (hfields : n.fields = some fields)
    (hcopied : Later rules (s.copyNode n) s₂)
    (hfresh : s₂.templates.lookup (instanceTag tag s₂.counter) = none) :
    Later rules s₂ (builtState rules s s₂ tag types newfields) ∧
      Closed (builtState rules s s₂ tag types newfields) s.nodes.length := by
  obtain ⟨n', hn', hnode⟩ := hcopied.nodes s.nodes.length { n with size := 0 }
    List.getElem?_concat_length
  have hsome := hnode.fields
  rw [show ({ n with size := 0 } : TypeNode).fields = some fields from hfields] at hsome
  let counted : TypeState := { s₂ with counter := s₂.counter + 1 }
  let named := counted.setTypeName s.nodes.length (instanceTag tag s₂.counter)
  let finished := named.finishStruct rules s.nodes.length newfields
  have hcounted : Later rules s₂ counted := Later.of_nodes (fun _ _ h => h) rfl rfl
  obtain ⟨hnamed, hclosed⟩ : Later rules counted named ∧ Closed named s.nodes.length :=
    setTypeName_later (Option.isSome_iff_exists.mp hsome) hn' hfresh
  have hfinished : Later rules named finished := finishStruct_later named s.nodes.length newfields
  have hcached : Later rules finished (builtState rules s s₂ tag types newfields) :=
    Later.of_nodes (fun _ _ h => h) rfl rfl
  have hrest := hfinished.trans hcached
  exact ⟨(hcounted.trans hnamed).trans hrest, hclosed.later hrest⟩

theorem built_working {newfields : List FieldDecl} {s₂ : TypeState}
    (hworking : Working rules s₀ s₂)
    (hlater : Later rules s₂ (builtState rules s s₂ tag types newfields))
    (hclosed : Closed (builtState rules s s₂ tag types newfields) s.nodes.length)
    (hnew : s₀.nodes[s.nodes.length]? = none)
    (hfinished : Finished rules s₀ (builtState rules s s₂ tag types newfields) tag)
    (honce : (tag, typeSignature rules s types) ∉ s₂.cache.map fun e => (e.1, e.2.1))
    (hrecord : s.nodes.length ∉ s₂.cache.map fun e => e.2.2) :
    Working rules s₀ (builtState rules s s₂ tag types newfields) := by
  apply hworking.grow hlater
  · intro t n hn
    have ht : t ≠ s.nodes.length := by
      rintro rfl
      rw [hnew] at hn
      cases hn
    exact Or.inl ((finishStruct_ne rules _ newfields ht).trans (setTypeName_ne _ _ ht))
  · intro e he
    exact List.mem_cons_of_mem _ he
  · intro e he
    rcases List.mem_cons.mp he with rfl | he
    · exact Or.inr ⟨hfinished, hclosed⟩
    · exact Or.inl he
  · exact List.nodup_cons.mpr ⟨honce, hworking.once⟩
  · exact List.nodup_cons.mpr ⟨hrecord, hworking.records⟩

theorem bindTypes_mem {params : List Ident} {p : Ident × Nat} (h : p ∈ bindTypes params types) :
    p.2 ∈ types :=
  (List.of_mem_zip (List.mem_reverse.mp h)).2

theorem not_cached {sig : List Char} (hmiss : s.cached tag sig = none) :
    (tag, sig) ∉ s.cache.map fun e => (e.1, e.2.1) := by
  rintro hmem
  obtain ⟨e, he, hkey⟩ := List.mem_map.mp hmem
  obtain ⟨rfl, rfl⟩ := Prod.mk.inj hkey
  have hnone := List.find?_eq_none.mp (Option.map_eq_none_iff.mp hmiss) e he
  simp at hnone

theorem mem_of_cached {sig : List Char} {i : Nat} (h : s.cached tag sig = some i) :
    ∃ e ∈ s.cache, (e.1, e.2.1) = (tag, sig) ∧ e.2.2 = i := by
  obtain ⟨e, hfind, hi⟩ := Option.map_eq_some_iff.mp h
  have hkey := List.find?_some hfind
  simp only [decide_eq_true_eq] at hkey
  exact ⟨e, List.mem_of_find?_eq_some hfind, Prod.ext hkey.1 hkey.2, hi⟩

theorem finished_of_not_template (h : s₀.templates.lookup tag = none) :
    Finished rules s₀ s tag := by
  have hrefers : ∀ other, ¬ Refers rules s₀ tag other := by
    rintro other ⟨-, -, tmpl, -, -, htmpl, -⟩
    rw [h] at htmpl
    cases htmpl
  refine ⟨Ends.intro fun other href => absurd href (hrefers other), ?_⟩
  intro other tmpl hreach htmpl
  rcases ReflTransGen.cases_head hreach with rfl | ⟨next, href, -⟩
  · rw [h] at htmpl
    cases htmpl
  · exact absurd href (hrefers next)

theorem Finished.of_refers (h : ∀ other, Refers rules s₀ tag other → Finished rules s₀ s other)
    (hself : ∃ e ∈ s.cache, e.1 = tag) : Finished rules s₀ s tag := by
  refine ⟨Ends.intro fun other href => (h other href).grounded, ?_⟩
  intro other tmpl hreach htmpl
  rcases ReflTransGen.cases_head hreach with rfl | ⟨next, href, hrest⟩
  · exact hself
  · exact (h next href).stocked other tmpl hrest htmpl

theorem key_not_built {n : TypeNode} {s₂ : TypeState} {refs : Ident → Prop}
    (hmiss : s.cached tag (typeSignature rules s types) = none)
    (heffect : Effect calls (s.copyNode n) s₂ refs)
    (hrefs : ∀ other, refs other → Refers rules s₀ tag other) :
    (tag, typeSignature rules s types) ∉ s₂.cache.map fun e => (e.1, e.2.1) := by
  intro hmem
  obtain ⟨e, he, hkey⟩ := List.mem_map.mp hmem
  rcases heffect.added e he with he | ⟨-, -, other, href, hreach⟩
  · exact not_cached hmiss (List.mem_map.mpr ⟨e, he, hkey⟩)
  · obtain rfl : e.1 = tag := congrArg Prod.fst hkey
    exact (heffect.finished other href).grounded.acyclic _ hreach
      (TransGen.head' (hrefs other href) hreach)

/-- A record is built: the fields have been copied from `s` to `s₂`. -/
theorem built_effect {n : TypeNode} {fields : List FieldDecl} {s₂ : TypeState}
    (newfields : List FieldDecl) (hdeclared : Declared rules s₀) (hworking : Working rules s₀ s)
    (hcall : calls.holds tag types)
    (hmiss : s.cached tag (typeSignature rules s types) = none) (hfields : n.fields = some fields)
    (heffect : Effect calls (s.copyNode n) s₂ (Refers rules s₀ tag)) :
    Effect calls s (builtState rules s s₂ tag types newfields) (fun other => other = tag) ∧
      Closed (builtState rules s s₂ tag types newfields) s.nodes.length := by
  have hfinished : Finished rules s₀ (builtState rules s s₂ tag types newfields) tag :=
    Finished.of_refers (fun other href => (heffect.finished other href).grow fun _ he =>
      List.mem_cons_of_mem _ he) ⟨_, List.mem_cons_self, rfl⟩
  obtain ⟨hlater, hclosed⟩ := built_later types newfields hfields heffect.later
    (heffect.working.templates ▸ hdeclared.fresh tag s₂.counter)
  have honce := key_not_built hmiss heffect fun _ => id
  have hrecord : s.nodes.length ∉ s₂.cache.map fun e => e.2.2 := by
    intro hmem
    obtain ⟨e, he, hkey⟩ := List.mem_map.mp hmem
    rcases heffect.added e he with he | ⟨-, hnew, -⟩
    · obtain ⟨⟨m, -, hm, -⟩, -⟩ := (hworking.cached e he).2
      have hlt := (List.getElem?_eq_some_iff.mp hm).1
      omega
    · rw [hkey, TypeState.copyNode, List.length_append, List.length_singleton] at hnew
      omega
  have hcopied := heffect.of_copyNode
  have hsame : ∀ t, t < s.nodes.length →
      (builtState rules s s₂ tag types newfields).nodes[t]? = s₂.nodes[t]? := fun t ht =>
    (finishStruct_ne rules _ newfields (Nat.ne_of_lt ht)).trans
      (setTypeName_ne _ _ (Nat.ne_of_lt ht))
  have hkept : Kept rules s (builtState rules s s₂ tag types newfields) := by
    intro t ht
    rw [hsame t ht]
    exact hcopied.kept t ht
  refine ⟨⟨built_working heffect.working hlater hclosed hworking.fresh hfinished honce hrecord,
    hcopied.later.trans hlater, hkept, ?_, fun e he => List.mem_cons_of_mem _ (hcopied.grown e he),
    ?_, fun t ht => (hsame t ht.lt_length).trans (hcopied.frozen t ht), ?_⟩, hclosed⟩
  · rintro other rfl
    exact hfinished
  · have hcounted := hcopied.counted
    show s₂.counter + 1 + s.cache.length = s.counter + (s₂.cache.length + 1)
    omega
  · intro e he
    rcases List.mem_cons.mp he with rfl | he
    · refine Or.inr ⟨⟨types, hcall, fun htypes => ?_⟩, Nat.le_refl s.nodes.length, tag, rfl, .refl⟩
      exact hworking.kept.typeSignature htypes
    · rcases hcopied.added e he with he | ⟨hentry, hnew, other, href, hreach⟩
      · exact Or.inl he
      · exact Or.inr ⟨hentry, hnew, tag, rfl, ReflTransGen.head href hreach⟩

theorem instantiate_effect (hdeclared : Declared rules s₀) (calls : CallRule rules s₀) (fuel : Nat) :
    InstantiateEffect calls (czetInstantiateType rules fuel) := by
  induction fuel with
  | zero =>
      intro tag types s r s' _ _ _ hrun
      cases hrun
  | succ k ih =>
      intro tag types s r s' hworking htypes hcall hrun
      cases htmpl : s.templates.lookup tag with
      | none =>
          rw [czetInstantiateType, htmpl] at hrun
          obtain ⟨rfl, rfl⟩ := Prod.mk.inj (Option.some.inj hrun)
          refine ⟨Effect.none hworking ?_, ?_, fun _ => rfl⟩
          · rintro other rfl
            exact finished_of_not_template (hworking.templates ▸ htmpl)
          · intro i hi
            cases hi
      | some tmpl =>
          have htmpl₀ : s₀.templates.lookup tag = some tmpl := hworking.templates ▸ htmpl
          cases hcached : s.cached tag (typeSignature rules s types) with
          | some i =>
              rw [czetInstantiateType, htmpl] at hrun
              simp only [hcached] at hrun
              obtain ⟨rfl, rfl⟩ := Prod.mk.inj (Option.some.inj hrun)
              obtain ⟨e, he, hkey, rfl⟩ := mem_of_cached hcached
              obtain ⟨hfinished, hclosed⟩ := hworking.cached e he
              obtain ⟨htag, hsig⟩ := Prod.mk.inj hkey
              refine ⟨Effect.none hworking ?_, ?_, fun h => by cases h⟩
              · rintro other rfl
                exact htag ▸ hfinished
              · rintro j ⟨rfl⟩
                refine ⟨hclosed, ?_⟩
                rw [← htag, ← hsig]
                exact he
          | none =>
              obtain ⟨fields, hfields, hcopyable⟩ := hdeclared.copyable tag tmpl htmpl₀
              obtain ⟨n, isUnion, hn, hform⟩ := node_of_fields hfields
              have hnode : n.fields = some fields := by rw [TypeNode.fields, hform]
              rw [instantiate_miss htmpl hcached (hworking.aggregate hn hform), hnode,
                Option.getD_some] at hrun
              obtain ⟨⟨newfields, s₂⟩, hcopy, hr⟩ := Option.map_eq_some_iff.mp hrun
              obtain ⟨rfl, rfl⟩ := Prod.mk.inj hr
              have heffect := (copyFields_effect fields
                (fun f hf => copy_effect ih (hcopyable f hf) fun other tmpl' href =>
                  calls.closed hcall htmpl₀ ((mentions_iff htmpl₀ hfields).mpr ⟨f, hf, href⟩))
                (hworking.copyNode n)
                (fun p hp => (htypes p.2 (bindTypes_mem hp)).later (copyNode_later s n))
                hcopy).congr fun other =>
                  (refers_iff (calls.enough hcall)).trans (mentions_iff htmpl₀ hfields)
              obtain ⟨hbuilt, hclosed⟩ := built_effect newfields hdeclared hworking hcall hcached
                hnode heffect
              refine ⟨hbuilt, ?_, fun h => by cases h⟩
              rintro i ⟨rfl⟩
              exact ⟨hclosed, List.mem_cons_self⟩

end Copy

end CZet.TypeNodes
