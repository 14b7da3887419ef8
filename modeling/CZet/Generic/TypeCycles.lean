/- source: src/gcc/gcc/c/c-decl.cc (czet_subst_walk, czet_deep_subst, czet_instantiate_type)
   digest: When an instantiation comes to an end, what a run of them writes into the declared types,
     and which uses share one record. -/

import CZet.Generic.TypeEffects
import CZet.Lib.Settling

set_option autoImplicit false
set_option relaxedAutoImplicit false

namespace CZet.TypeNodes

open CZet.Lib.Cycles CZet.Lib.Settling CZet.Names Filter Relation

/-- The instantiations of the template `tag` come to an end, in every state that others have made. -/
def CallSettles (rules : GccRules) (s₀ : TypeState) (inst : ℕ → Instantiate) (tag : Ident) : Prop :=
  ∀ s types, Working rules s₀ s → (∀ t ∈ types, Still rules s t) → Enough s₀ tag types →
    Settles atTop fun k => inst k tag types s

section Endings

variable {rules : GccRules} {s₀ s : TypeState} {t : Nat} {bound : Bound} {inst : ℕ → Instantiate}
  {slot : Option Nat} {tag : Ident} {calls : CallRule rules s₀}

theorem still_settles (h : Still rules s t) (bound : Bound) (inst : ℕ → Instantiate)
    (slot : Option Nat) :
    Settles atTop fun p : ℕ × ℕ => walkTree rules (inst p.1) bound p.2 slot t s := by
  obtain ⟨d, hd⟩ := walk_still h bound
  refine ⟨(t, s), eventually_atTop.mpr ⟨(0, d), ?_⟩⟩
  intro p hp
  show walkTree rules (inst p.1) bound p.2 slot t s = some (t, s)
  rw [hd, if_pos hp.2]

theorem reference_settles {tmpl : TypeTemplate}
    (hinst : ∀ k, InstantiateEffect (enoughCalls rules s₀) (inst k))
    (hcalls : CallSettles rules s₀ inst tag) (hworking : Working rules s₀ s)
    (hbound : Concrete rules s bound) (hgeneric₀ : s₀.genericRef t = some (tag, tmpl))
    (hgeneric : s.genericRef t = some (tag, tmpl)) :
    Settles atTop fun p : ℕ × ℕ => walkTree rules (inst p.1) bound (p.2 + 1) slot t s := by
  have htypes := referenceTypes_still hworking.integer hbound tmpl
  have henough : Enough s₀ tag (referenceTypes s bound tmpl) :=
    referenceTypes_enough (template_of_genericRef hgeneric₀)
  obtain ⟨⟨r, s₁⟩, hsettles⟩ := hcalls s _ hworking htypes henough
  obtain ⟨k, hk⟩ := hsettles.exists
  obtain ⟨-, -, hfound⟩ := hinst k tag _ s r s₁ hworking htypes henough hk
  cases r with
  | none =>
      have hnone := hfound rfl
      rw [template_of_genericRef hgeneric] at hnone
      cases hnone
  | some i =>
      refine ⟨(i, s₁.store slot t i), ?_⟩
      filter_upwards [tendsto_fst_atTop.eventually hsettles] with p hp
      exact walkTree_reference hgeneric hp p.2

theorem walk_settles (hinst : ∀ k, InstantiateEffect (enoughCalls rules s₀) (inst k))
    (ht : Walkable rules s₀ t) (hcalls : ∀ tag, WalkRef rules s₀ tag t →
      CallSettles rules s₀ inst tag) :
    ∀ {slot s}, Working rules s₀ s → Concrete rules s bound → SlotHolds rules s₀ s slot t →
      Settles atTop fun p : ℕ × ℕ => walkTree rules (inst p.1) bound p.2 slot t s := by
  induction ht with
  | @intro t n hn hparts hslots ih =>
      intro slot s hworking hbound hslot
      rcases hworking.node_cases hn with hn' | ⟨hstill, -⟩
      · apply Settles.of_spend
        have hsame := hworking.genericRef hn
        cases hgeneric : s₀.genericRef t with
        | some g =>
            obtain ⟨tag, tmpl⟩ := g
            exact reference_settles hinst (hcalls tag (WalkRef.here hgeneric)) hworking hbound
              hgeneric (hsame.trans hgeneric)
        | none =>
            rw [hgeneric] at hsame
            rcases substPlaceholder_cases hworking.integer hbound hn' with
              hkept | ⟨hparam, hstill⟩
            · simp only [walkTree_plain hsame hkept]
              have hslot' := hworking.walkSlot (Walkable.intro hn hparts hslots) hn hn'
              cases hu : s₀.walkSlot rules t with
              | none =>
                  rw [hslot', hu]
                  exact settles_some (t, s)
              | some u =>
                  rw [hslot', hu]
                  have hholds : SlotHolds rules s₀ s (some t) u := by
                    rintro p ⟨rfl⟩
                    exact ⟨hu, hslot'.trans hu⟩
                  exact (ih u hu (fun tag htag => hcalls tag (WalkRef.slot hu htag)) hworking
                    hbound hholds).map fun r => (t, r.2)
            · have hquiet := param_store hworking hslot hn hn' hparam hstill
              have hstill' := hstill.later hquiet.later
              simp only [walkTree_replaced hsame hstill']
              obtain ⟨d, hd⟩ := walk_still hstill' bound
              refine ⟨(substPlaceholder s bound t, s.store slot t (substPlaceholder s bound t)),
                eventually_atTop.mpr ⟨(0, d), ?_⟩⟩
              intro p hp
              have hbudget : d ≤ p.2 := hp.2
              show walkTree rules (inst p.1) bound (p.2 + 1) slot _ _ = some _
              rw [hd, if_pos (by omega)]
      · exact still_settles hstill bound inst slot

theorem copyFields_cons (subst : Nat → TypeState → Option (Nat × TypeState)) (f : FieldDecl)
    (fields : List FieldDecl) (s : TypeState) : copyFields subst (f :: fields) s =
      (subst f.type s).bind fun r => (copyFields subst fields r.2).map fun rest =>
        (⟨f.name, r.1⟩ :: rest.1, rest.2) := by
  rw [copyFields, czetCopyField]
  cases subst f.type s with
  | none => rfl
  | some r =>
      simp only [Option.bind_eq_bind, Option.bind_some]
      cases copyFields subst fields r.2 <;> rfl

theorem copyFields_settles {subst : ℕ × ℕ → Nat → TypeState → Option (Nat × TypeState)}
    {refs : FieldDecl → Ident → Prop} (fields : List FieldDecl)
    (heffect : ∀ f ∈ fields, ∀ {p s t' s'}, Working rules s₀ s → Concrete rules s bound →
      subst p f.type s = some (t', s') → Effect calls s s' (refs f))
    (h : ∀ f ∈ fields, ∀ {s}, Working rules s₀ s → Concrete rules s bound →
      Settles atTop fun p => subst p f.type s) :
    ∀ {s}, Working rules s₀ s → Concrete rules s bound →
      Settles atTop fun p => copyFields (subst p) fields s := by
  induction fields with
  | nil =>
      intro s _ _
      exact settles_some ([], s)
  | cons f fields ih =>
      intro s hworking hbound
      simp only [copyFields_cons]
      apply (h f List.mem_cons_self hworking hbound).bind
      rintro ⟨t', s₁⟩ hsettles
      obtain ⟨p, hp⟩ := hsettles.exists
      have hfirst := heffect f List.mem_cons_self hworking hbound hp
      exact (ih (fun g hg => heffect g (List.mem_cons_of_mem _ hg))
        (fun g hg => h g (List.mem_cons_of_mem _ hg)) hfirst.working
        (hbound.later hfirst.later)).map fun rest => (⟨f.name, t'⟩ :: rest.1, rest.2)

theorem copy_settles (hinst : ∀ k, InstantiateEffect (enoughCalls rules s₀) (inst k))
    (ht : Copyable rules s₀ t) (hcalls : ∀ tag, CopyRef rules s₀ bound tag t →
      CallSettles rules s₀ inst tag) :
    ∀ {s}, Working rules s₀ s → Concrete rules s bound →
      Settles atTop fun p : ℕ × ℕ => czetDeepSubst rules (inst p.1) bound p.2 t s := by
  induction ht with
  | @walk t hfields hwalk =>
      intro s hworking hbound
      obtain ⟨n, hn⟩ := hwalk.node
      have hholds : SlotHolds rules s₀ s none t := by
        intro p hp
        cases hp
      apply Settles.of_spend
      simp only [deepSubst_walk ((hworking.fields hn).trans hfields)]
      exact walk_settles hinst hwalk (fun tag htag => hcalls tag (CopyRef.walk hfields htag))
        hworking hbound hholds
  | @aggregate t fields hfields hcopyable ih =>
      intro s hworking hbound
      obtain ⟨n, isUnion, hn, hform⟩ := node_of_fields hfields
      apply Settles.of_spend
      simp only [deepSubst_aggregate (hworking.aggregate hn hform) hform,
        hworking.fields_any hcopyable]
      split
      next hcopied =>
          refine (copyFields_settles fields
            (fun f hf => copy_effect (hinst _) (hcopyable f hf)
              fun _ _ _ htmpl => referenceTypes_enough htmpl)
            (fun f hf => ih f hf fun tag htag =>
              hcalls tag (CopyRef.field hfields hcopied hf htag))
            (hworking.copyNode n) (hbound.later (copyNode_later s n))).map
              fun r => (s.nodes.length, r.2.finishStruct rules s.nodes.length r.1)
      next => exact settles_some (t, s)

theorem use_settles {types : List Nat} (hdeclared : Declared rules s₀) (hworking : Working rules s₀ s)
    (htypes : ∀ t ∈ types, Still rules s t)
    (hcalls : ∀ other, Mentions rules s₀ tag types other →
      CallSettles rules s₀ (czetInstantiateType rules) other) :
    Settles atTop fun fuel => czetInstantiateType rules fuel tag types s := by
  have hfound : ∀ r, (∀ k, czetInstantiateType rules (k + 1) tag types s = some (r, s)) →
      Settles atTop fun fuel => czetInstantiateType rules fuel tag types s := by
    intro r hr
    refine ⟨(r, s), eventually_atTop.mpr ⟨1, fun fuel hfuel => ?_⟩⟩
    obtain ⟨k, rfl⟩ : ∃ k, fuel = k + 1 := ⟨fuel - 1, by omega⟩
    exact hr k
  cases htmpl : s.templates.lookup tag with
  | none =>
      apply hfound none
      intro k
      rw [czetInstantiateType, htmpl]
  | some tmpl =>
      have htmpl₀ : s₀.templates.lookup tag = some tmpl := hworking.templates ▸ htmpl
      cases hcached : s.cached tag (typeSignature rules s types) with
      | some i =>
          apply hfound (some i)
          intro k
          rw [czetInstantiateType, htmpl]
          simp only [hcached]
      | none =>
          obtain ⟨fields, hfields, hcopyable⟩ := hdeclared.copyable tag tmpl htmpl₀
          obtain ⟨n, isUnion, hn, hform⟩ := node_of_fields hfields
          have hnode : n.fields = some fields := by rw [TypeNode.fields, hform]
          have hcopy := copyFields_settles fields
            (fun f hf => copy_effect (instantiate_effect hdeclared (enoughCalls rules s₀) _)
              (hcopyable f hf) fun _ _ _ htmpl => referenceTypes_enough htmpl)
            (fun f hf => copy_settles (instantiate_effect hdeclared _) (hcopyable f hf)
              fun other href => hcalls other ((mentions_iff htmpl₀ hfields).mpr ⟨f, hf, href⟩))
            (hworking.copyNode n)
            (fun p hp => (htypes p.2 (bindTypes_mem hp)).later (copyNode_later s n))
          obtain ⟨r, hr⟩ := hcopy.map fun r =>
            (some s.nodes.length, builtState rules s r.2 tag types r.1)
          refine ⟨r, hr.of_diagonal fun k => ?_⟩
          rw [instantiate_miss htmpl hcached (hworking.aggregate hn hform), hnode,
            Option.getD_some]

/-- An instantiation from which no endless descent starts comes to an end. -/
theorem instantiate_settles (hdeclared : Declared rules s₀) (hgrounded : Grounded rules s₀ tag) :
    CallSettles rules s₀ (czetInstantiateType rules) tag := by
  induction hgrounded with
  | intro tag _ ih =>
      intro s types hworking htypes henough
      exact use_settles hdeclared hworking htypes fun other href =>
        ih other ((refers_iff henough).mpr href)

end Endings

theorem grounded_iff {rules : GccRules} {s : TypeState} {tag : Ident} :
    Grounded rules s tag ↔ Acyclic (Refers rules s) tag :=
  ends_iff_acyclic (s.templates.map Prod.fst) fun _ _ => Refers.template

/-- What goes on once the generic types are declared: the parser makes further nodes, and generic
types are used, with types for their parameters in which nothing is left to substitute. -/
inductive UseStep (rules : GccRules) : TypeState → TypeState → Prop
  | parse (s : TypeState) (nodes : List TypeNode) :
      UseStep rules s { s with nodes := s.nodes ++ nodes }
  | instantiate {s s' : TypeState} {tag : Ident} {types : List Nat} {fuel : Nat} {r : Option Nat}
      (htypes : ∀ t ∈ types, Still rules s t) (henough : Enough s tag types)
      (h : czetInstantiateType rules fuel tag types s = some (r, s')) : UseStep rules s s'

section Runs

variable {rules : GccRules} {s₀ s s' : TypeState} {tag : Ident} {types : List Nat}

theorem Enough.of_templates (h : Enough s tag types) (htemplates : s.templates = s'.templates) :
    Enough s' tag types := by
  intro tmpl htmpl
  exact h tmpl (htemplates ▸ htmpl)

/-- What a later state of a run has of an earlier one. -/
structure Onward (rules : GccRules) (s₀ s s' : TypeState) : Prop where
  working : Working rules s₀ s'
  later : Later rules s s'
  kept : Kept rules s s'
  grown : ∀ e ∈ s.cache, e ∈ s'.cache
  frozen : ∀ t, Still rules s t → s'.nodes[t]? = s.nodes[t]?

theorem step_onward (hdeclared : Declared rules s₀) (hworking : Working rules s₀ s)
    (h : UseStep rules s s') : Onward rules s₀ s s' := by
  cases h with
  | parse nodes =>
      have hkept : ∀ (t : Nat) (n : TypeNode), s.nodes[t]? = some n →
          (s.nodes ++ nodes)[t]? = some n := by
        intro t n hn
        rw [List.getElem?_append_left (List.getElem?_eq_some_iff.mp hn).1, hn]
      have hlater : Later rules s { s with nodes := s.nodes ++ nodes } :=
        Later.of_nodes hkept rfl rfl
      refine ⟨hworking.step hlater ?_ rfl, hlater, ?_, fun e he => he, ?_⟩
      · intro t n hn
        obtain ⟨n', hn', -⟩ := hworking.node hn
        exact Or.inl ((hkept t n' hn').trans hn'.symm)
      · intro t ht
        rw [List.getElem?_append_left ht]
      · intro t ht
        rw [List.getElem?_append_left ht.lt_length]
  | instantiate htypes henough h =>
      obtain ⟨heffect, -⟩ := instantiate_effect hdeclared (enoughCalls rules s₀) _ _ _ s _ s'
        hworking htypes
        (henough.of_templates hworking.templates) h
      exact ⟨heffect.working, heffect.later, heffect.kept, heffect.grown, heffect.frozen⟩

theorem run_onward (hdeclared : Declared rules s₀) (hworking : Working rules s₀ s)
    (h : ReflTransGen (UseStep rules) s s') : Onward rules s₀ s s' := by
  induction h with
  | refl => exact ⟨hworking, Later.refl s, Kept.refl s, fun e he => he, fun _ _ => rfl⟩
  | tail _ hstep ih =>
      have hnext := step_onward hdeclared ih.working hstep
      exact ⟨hnext.working, ih.later.trans hnext.later, ih.kept.trans hnext.kept ih.later.length_le,
        fun e he => hnext.grown e (ih.grown e he),
        fun t ht => (hnext.frozen t (ht.later ih.later)).trans (ih.frozen t ht)⟩

/-- A node of the declared types is as it was parsed, or it is a pointer or array into which a
concrete type was written; then no use of a generic type, however many follow, changes it again. -/
theorem slot_written_once (hdeclared : Declared rules s₀) (hrun : ReflTransGen (UseStep rules) s₀ s)
    (hrun' : ReflTransGen (UseStep rules) s s') {t : Nat} {n : TypeNode}
    (hn : s₀.nodes[t]? = some n) : s.nodes[t]? = some n ∨
      (∃ u, s.nodes[t]? = some (n.setTreeType u) ∧ n.treeType.isSome ∧ Still rules s u) ∧
        s'.nodes[t]? = s.nodes[t]? := by
  have hworking := (run_onward hdeclared hdeclared.working hrun).working
  rcases hworking.nodes t n hn with hn' | ⟨u, hn', hstill, -⟩
  · exact Or.inl hn'
  · rcases hworking.node_cases hn with hsame | ⟨hself, -⟩
    · exact Or.inl hsame
    · cases htree : n.treeType with
      | none => exact Or.inl (by rw [hn', setTreeType_of_none n u htree])
      | some v =>
          exact Or.inr ⟨⟨u, hn', rfl, hstill⟩, (run_onward hdeclared hworking hrun').frozen t hself⟩

theorem Working.entry_iff (h : Working rules s₀ s) {tag' : Ident} {sig sig' : List Char}
    {i i' : Nat} (he : (tag, sig, i) ∈ s.cache) (he' : (tag', sig', i') ∈ s.cache) :
    i' = i ↔ tag' = tag ∧ sig' = sig := by
  constructor
  · intro hi
    have hsame := List.inj_on_of_nodup_map h.records he' he hi
    exact ⟨congrArg Prod.fst hsame, congrArg (fun e => e.2.1) hsame⟩
  · rintro ⟨rfl, rfl⟩
    have hsame := List.inj_on_of_nodup_map h.once he' he rfl
    exact congrArg (fun e => e.2.2) hsame

theorem Working.cached_of_entry (h : Working rules s₀ s) {sig : List Char} {i : Nat}
    (he : (tag, sig, i) ∈ s.cache) : s.cached tag sig = some i := by
  cases hcached : s.cached tag sig with
  | none => exact absurd (List.mem_map.mpr ⟨_, he, rfl⟩) (not_cached hcached)
  | some j =>
      obtain ⟨e, hmem, hkey, rfl⟩ := mem_of_cached hcached
      rw [congrArg (fun e => e.2.2) (List.inj_on_of_nodup_map h.once hmem he hkey)]

end Runs

section Lists

def flatRules : GccRules := ⟨fun _ _ fields => 64 * fields.length, 500, false⟩

def nameE : Ident := ⟨"E", by decide⟩

def tagCell : Ident := ⟨"cell", by decide⟩

def tagPair : Ident := ⟨"pair", by decide⟩

def tagNode : Ident := ⟨"node", by decide⟩

/-- `struct cell<E> { E v; };`, `struct pair<E> { struct cell<E> *p; E v; };` and
`struct node<E> { E v; struct node<E> *next; };`, after `int` and `double`. -/
def lists : TypeState where
  nodes := [{ form := .integer, size := 32 }, { form := .other 10, size := 64 },
    { form := .integer, name := some nameE, size := 32 },
    { form := .aggregate false [⟨none, 2⟩], name := some tagCell },
    { form := .pointer 3, size := 64 },
    { form := .aggregate false [⟨none, 4⟩, ⟨none, 2⟩], name := some tagPair },
    { form := .pointer 7, size := 64 },
    { form := .aggregate false [⟨none, 2⟩, ⟨none, 6⟩], name := some tagNode }]
  templates := [(tagCell, ⟨[nameE], 3⟩), (tagPair, ⟨[nameE], 5⟩), (tagNode, ⟨[nameE], 7⟩)]
  cache := []
  counter := 0
  integerType := 0

private theorem lists_fresh (tag : Ident) (counter : Nat) :
    lists.templates.lookup (instanceTag tag counter) = none := by
  have hlong : 6 ≤ (instanceTag tag counter).name.toList.length := by
    rw [instanceTag, String.toList_ofList, GenName.inBuffer, GenName.text]
    simp
    omega
  apply List.lookup_eq_none_iff.mpr
  intro p hp
  simp only [lists, List.mem_cons, List.not_mem_nil, or_false] at hp
  apply bne_iff_ne.mpr
  intro hname
  rw [hname] at hlong
  rcases hp with rfl | rfl | rfl <;> exact absurd hlong (by decide)

private theorem lists_inert {t : Nat} {n : TypeNode} (hn : lists.nodes[t]? = some n)
    (htree : n.treeType = none) : lists.walkSlot flatRules t = none := by
  rw [walkSlot_node hn, htree]
  rfl

private theorem lists_leaf {t : Nat} {n : TypeNode} (hn : lists.nodes[t]? = some n)
    (htree : n.treeType = none) (hparts : n.hasParts = false) : Walkable flatRules lists t := by
  refine Walkable.intro hn hparts fun u hu => ?_
  rw [lists_inert hn htree] at hu
  cases hu

private theorem lists_pointer {t u : Nat} {n m : TypeNode} (hn : lists.nodes[t]? = some n)
    (htree : n.treeType = some u) (hm : lists.nodes[u]? = some m) (hleaf : m.treeType = none)
    (hparts : m.hasParts = false) : Walkable flatRules lists t := by
  refine Walkable.intro hn (hasParts_of_treeType n htree) fun v hv => ?_
  obtain rfl := Option.some.inj ((treeType_of_walkSlot hn hv).symm.trans htree)
  exact lists_leaf hm hleaf hparts

theorem lists_int {s : TypeState}
    (hn : s.nodes[0]? = some { form := .integer, size := 32 }) : ∀ t ∈ [0], Still flatRules s t := by
  intro t ht
  obtain rfl := List.mem_singleton.mp ht
  refine Still.intro hn rfl ?_ ?_ ?_
  · rintro (h | ⟨name, h⟩) <;> cases h
  · rw [genericRef_node hn]
    rfl
  · intro u hu
    have htree := treeType_of_walkSlot hn hu
    cases htree

theorem lists_double : Still flatRules lists 1 := by
  refine Still.intro (t := 1) rfl rfl ?_ rfl ?_
  · rintro (h | ⟨name, h⟩) <;> cases h
  · intro u hu
    cases hu

theorem lists_declared : Declared flatRules lists := by
  refine ⟨rfl, lists_int rfl 0 List.mem_cons_self, ?_, lists_fresh⟩
  have hparam : Copyable flatRules lists 2 := Copyable.walk rfl (lists_leaf (t := 2) rfl rfl rfl)
  have hcell : Copyable flatRules lists 4 :=
    Copyable.walk rfl (lists_pointer (t := 4) rfl rfl rfl rfl rfl)
  have hnode : Copyable flatRules lists 6 :=
    Copyable.walk rfl (lists_pointer (t := 6) rfl rfl rfl rfl rfl)
  intro tag tmpl htmpl
  obtain ⟨l₁, l₂, hsplit, -⟩ := List.lookup_eq_some_iff.mp htmpl
  have hmem : (tag, tmpl) ∈ lists.templates := by
    rw [hsplit]
    simp
  simp only [lists, List.mem_cons, List.not_mem_nil, or_false, Prod.mk.injEq] at hmem
  rcases hmem with ⟨-, rfl⟩ | ⟨-, rfl⟩ | ⟨-, rfl⟩
  · refine ⟨[⟨none, 2⟩], rfl, ?_⟩
    simpa using hparam
  · refine ⟨[⟨none, 4⟩, ⟨none, 2⟩], rfl, ?_⟩
    simpa using ⟨hcell, hparam⟩
  · refine ⟨[⟨none, 2⟩, ⟨none, 6⟩], rfl, ?_⟩
    simpa using ⟨hparam, hnode⟩

theorem lists_params {tag : Ident} {tmpl : TypeTemplate}
    (h : lists.templates.lookup tag = some tmpl) : tmpl.params = [nameE] := by
  obtain ⟨l₁, l₂, hsplit, -⟩ := List.lookup_eq_some_iff.mp h
  have hmem : (tag, tmpl) ∈ lists.templates := by
    rw [hsplit]
    simp
  simp only [lists, List.mem_cons, List.not_mem_nil, or_false, Prod.mk.injEq] at hmem
  rcases hmem with ⟨-, rfl⟩ | ⟨-, rfl⟩ | ⟨-, rfl⟩ <;> rfl

theorem lists_enough {s : TypeState} (h : s.templates = lists.templates) (tag : Ident) (t : Nat) :
    Enough s tag [t] := by
  intro tmpl htmpl
  rw [h] at htmpl
  rw [lists_params htmpl]
  exact Nat.le_refl 1

/-- The pointer of `struct pair<E>` points to `struct cell<double>` once `struct pair<double>` is
used, and `struct pair<int>` leaves it there. -/
theorem pair_pointer_fixed :
    ∃ s s', ReflTransGen (UseStep flatRules) lists s ∧
      czetInstantiateType flatRules 5 tagPair [0] s = some (some 10, s') ∧
      s.nodes[4]? = some { form := .pointer 9, size := 64 } ∧ s'.nodes[4]? = s.nodes[4]? := by
  have hruns : ∃ s s', czetInstantiateType flatRules 5 tagPair [1] lists = some (some 8, s) ∧
      s.nodes[0]? = some { form := .integer, size := 32 } ∧ s.templates = lists.templates ∧
      s.nodes[4]? = some { form := .pointer 9, size := 64 } ∧
      czetInstantiateType flatRules 5 tagPair [0] s = some (some 10, s') :=
    ⟨_, _, rfl, rfl, rfl, rfl, rfl⟩
  obtain ⟨s, s', hfirst, hint, htemplates, hnode, hsecond⟩ := hruns
  have hrun := ReflTransGen.single
    (UseStep.instantiate (by simpa using lists_double) (lists_enough rfl tagPair 1) hfirst)
  have hnext := ReflTransGen.single
    (UseStep.instantiate (lists_int hint) (lists_enough htemplates tagPair 0) hsecond)
  refine ⟨s, s', hrun, hsecond, hnode, ?_⟩
  rcases slot_written_once lists_declared hrun hnext (t := 4) rfl with hsame | ⟨-, hkept⟩
  · rw [hnode] at hsame
    cases hsame
  · exact hkept

end Lists

end CZet.TypeNodes
