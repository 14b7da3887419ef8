/- source: src/gcc/gcc/c/c-decl.cc (czet_instantiate_type, czet_subst_walk, czet_deep_subst)
   digest: Generic types that refer to each other: the first use of one comes to an end, and builds
     each record once, exactly when no template that it comes to refers back to itself. -/

import CZet.Generic.TypeCycles

set_option autoImplicit false
set_option relaxedAutoImplicit false

namespace CZet.TypeNodes

open CZet.Lib.Cycles CZet.Lib.Settling Filter Relation

/-- The use `p` of a generic type, which is a tag and a list of arguments, leads to the use `q` for a
reference in one of its fields. -/
def LeadsTo (rules : GccRules) (s : TypeState) (p q : Ident × List Nat) : Prop :=
  ∃ tmpl tmpl', s.templates.lookup p.1 = some tmpl ∧ Mentions rules s p.1 p.2 q.1 ∧
    s.templates.lookup q.1 = some tmpl' ∧ q.2 = referenceTypes s (bindTypes tmpl.params p.2) tmpl'

/-- Where a field of the template `tag` is a pointer to the template itself, this field of the
record `i` is a pointer to the record. -/
def PointsBack (rules : GccRules) (s s' : TypeState) (tag : Ident) (i : Nat) : Prop :=
  ∀ tmpl fields (k : Nat) (f : FieldDecl) u, s.templates.lookup tag = some tmpl →
    s.fields tmpl.type = some fields → fields[k]? = some f → s.isPointer f.type = true →
    s.walkSlot rules f.type = some u → s.genericRef u = some (tag, tmpl) →
    ∃ (fields' : List FieldDecl) (f' : FieldDecl), s'.fields i = some fields' ∧
      fields'[k]? = some f' ∧ s'.isPointer f'.type = true ∧ s'.walkSlot rules f'.type = some i

/-- The first use of generic types comes to an end in the state `s'`, with the record `i`: one record
is built, and put into the cache, for each of the uses that it leads to. -/
structure BuildsOnce (rules : GccRules) (s : TypeState) (tag : Ident) (types : List Nat) (i : Nat)
    (s' : TypeState) : Prop where
  ends : SettlesTo atTop (fun fuel => czetInstantiateType rules fuel tag types s) (some i, s')
  entry : (tag, typeSignature rules s types, i) ∈ s'.cache
  built : ∃ uses : List (Ident × List Nat), uses.Nodup ∧
    (∀ q, q ∈ uses ↔ ReflTransGen (LeadsTo rules s) (tag, types) q) ∧
    s'.cache.map (fun e => (e.1, e.2.1)) = uses.map (fun q => (q.1, typeSignature rules s q.2)) ∧
    s'.counter = s.counter + uses.length
  pointsBack : PointsBack rules s s' tag i

/-- A reference passes the type parameters on, under their names: the template that it is to has no
others than the template it stands in. -/
def PassesParameters (rules : GccRules) (s : TypeState) : Prop :=
  ∀ tag tmpl other tmpl', s.templates.lookup tag = some tmpl → Refers rules s tag other →
    s.templates.lookup other = some tmpl' → ∀ p ∈ tmpl'.params, p ∈ tmpl.params

section Parameters

variable {rules : GccRules} {s : TypeState} {tag other : Ident} {bound : Bound}
  {tmpl tmpl' : TypeTemplate}

theorem bindTypes_map {params : List Ident} (g : Ident → Nat) {p : Ident} (hp : p ∈ params) :
    (bindTypes params (params.map g)).lookup p = some (g p) := by
  have hlength : params.length ≤ (params.map g).length := by rw [List.length_map]
  obtain ⟨c, hc⟩ := Option.isSome_iff_exists.mp (bindTypes_isSome hlength hp)
  obtain ⟨l₁, l₂, hsplit, -⟩ := List.lookup_eq_some_iff.mp hc
  have hmem : (p, c) ∈ bindTypes params (params.map g) := by
    rw [hsplit]
    simp
  rw [bindTypes, List.mem_reverse, ← List.map_prod_left_eq_zip] at hmem
  obtain ⟨q, -, hq⟩ := List.mem_map.mp hmem
  obtain ⟨rfl, rfl⟩ := Prod.mk.inj hq
  exact hc

theorem referenceTypes_passed (h : ∀ p ∈ tmpl'.params, p ∈ tmpl.params) :
    referenceTypes s (bindTypes tmpl.params (referenceTypes s bound tmpl)) tmpl' =
      referenceTypes s bound tmpl' := by
  apply List.map_congr_left
  intro p hp
  rw [referenceTypes, bindTypes_map _ (h p hp), Option.getD_some]

/-- The calls for the references behind a use with the arguments `bound`. -/
def passedCalls (hpasses : PassesParameters rules s) (bound : Bound) : CallRule rules s where
  holds other args := ∃ tmpl', s.templates.lookup other = some tmpl' ∧
    args = referenceTypes s bound tmpl'
  enough := by
    rintro tag types ⟨tmpl, htmpl, rfl⟩
    exact referenceTypes_enough htmpl
  closed := by
    rintro tag types tmpl other tmpl' ⟨tmpl₁, htmpl₁, rfl⟩ htmpl href htmpl'
    obtain rfl := Option.some.inj (htmpl₁.symm.trans htmpl)
    exact ⟨tmpl', htmpl', referenceTypes_passed (hpasses tag tmpl₁ other tmpl' htmpl href.refers
      htmpl')⟩

theorem Refers.lookup (h : Refers rules s tag other) :
    ∃ tmpl, s.templates.lookup other = some tmpl := by
  obtain ⟨p, hp, rfl⟩ := List.mem_map.mp h.template
  exact Option.isSome_iff_exists.mp (List.lookup_isSome_iff.mpr ⟨p, hp, beq_self_eq_true p.1⟩)

end Parameters

section Uses

variable {rules : GccRules} {s : TypeState} {tag : Ident} {types : List Nat} {tmpl : TypeTemplate}

/-- The arguments of the references behind a use. -/
def passedTypes (s : TypeState) (bound : Bound) (other : Ident) : List Nat :=
  ((s.templates.lookup other).map (referenceTypes s bound)).getD []

theorem passedTypes_of_lookup {other : Ident} {tmpl' : TypeTemplate} (bound : Bound)
    (h : s.templates.lookup other = some tmpl') :
    passedTypes s bound other = referenceTypes s bound tmpl' := by
  rw [passedTypes, h]
  rfl

/-- The uses that a use leads to are the templates that its fields come to, with the arguments passed
on. -/
theorem leadsTo_iff (hpasses : PassesParameters rules s)
    (htmpl : s.templates.lookup tag = some tmpl) (q : Ident × List Nat) :
    ReflTransGen (LeadsTo rules s) (tag, types) q ↔ q = (tag, types) ∨
      q.2 = passedTypes s (bindTypes tmpl.params types) q.1 ∧
        ∃ next, Mentions rules s tag types next ∧ ReflTransGen (Refers rules s) next q.1 := by
  constructor
  · intro hreach
    induction hreach with
    | refl => exact Or.inl rfl
    | @tail q r _ hstep ih =>
        obtain ⟨tmpl₁, tmpl₂, htmpl₁, href, htmpl₂, hargs⟩ := hstep
        right
        rcases ih with rfl | ⟨hpassed, next, hnext, hreach⟩
        · obtain rfl := Option.some.inj (htmpl.symm.trans htmpl₁)
          exact ⟨hargs.trans (passedTypes_of_lookup _ htmpl₂).symm, r.1, href, .refl⟩
        · refine ⟨?_, next, hnext, hreach.tail href.refers⟩
          rw [hargs, hpassed, passedTypes_of_lookup _ htmpl₁, passedTypes_of_lookup _ htmpl₂]
          exact referenceTypes_passed (hpasses q.1 tmpl₁ r.1 tmpl₂ htmpl₁ href.refers htmpl₂)
  · rintro (rfl | ⟨hpassed, next, hnext, hreach⟩)
    · exact .refl
    · obtain ⟨other, args⟩ := q
      simp only at hpassed hreach
      subst hpassed
      induction hreach with
      | refl =>
          obtain ⟨tmpl', htmpl'⟩ := hnext.refers.lookup
          exact .single ⟨tmpl, tmpl', htmpl, hnext, htmpl', passedTypes_of_lookup _ htmpl'⟩
      | @tail other last _ hstep ih =>
          obtain ⟨tmpl₂, htmpl₂⟩ := hstep.lookup
          obtain ⟨tmpl₁, -, -, htmpl₁, -⟩ := hstep.choose_spec.2
          refine ih.tail ⟨tmpl₁, tmpl₂, htmpl₁, ?_, htmpl₂, ?_⟩
          · apply (refers_iff _).mp hstep
            rw [passedTypes_of_lookup _ htmpl₁]
            exact referenceTypes_enough htmpl₁
          · show passedTypes s _ last = referenceTypes s (bindTypes _ (passedTypes s _ other)) _
            rw [passedTypes_of_lookup _ htmpl₁, passedTypes_of_lookup _ htmpl₂]
            exact (referenceTypes_passed (hpasses other tmpl₁ last tmpl₂ htmpl₁ hstep htmpl₂)).symm

theorem mentions_itself {fields : List FieldDecl} {k : Nat} {f : FieldDecl} {u : Nat}
    (htmpl : s.templates.lookup tag = some tmpl) (hfields : s.fields tmpl.type = some fields)
    (hf : fields[k]? = some f) (hslot : s.walkSlot rules f.type = some u)
    (hgeneric : s.genericRef u = some (tag, tmpl)) : Mentions rules s tag types tag := by
  refine (mentions_iff htmpl hfields).mpr ⟨f, List.mem_of_getElem? hf, CopyRef.walk ?_ ?_⟩
  · obtain ⟨n, hn, htree⟩ := node_of_walkSlot hslot
    rw [TypeState.fields, hn, Option.bind_some]
    cases hnone : n.fields with
    | none => rfl
    | some fields' =>
        rw [treeType_of_fields n hnone] at htree
        cases htree
  · exact WalkRef.slot hslot (WalkRef.here hgeneric)

theorem Declared.not_cached (hdeclared : Declared rules s) (sig : List Char) :
    s.cached tag sig = none := by
  rw [TypeState.cached, hdeclared.empty]
  rfl

/-- The first use of generic types, if it comes to an end: what is done for its fields, from which the
record is made. -/
theorem first_use_effect {fuel : Nat} {r : Option Nat} {s' : TypeState} (calls : CallRule rules s)
    (hdeclared : Declared rules s) (htypes : ∀ t ∈ types, Still rules s t)
    (htmpl : s.templates.lookup tag = some tmpl)
    (hcalls : ∀ other tmpl', Mentions rules s tag types other →
      s.templates.lookup other = some tmpl' →
      calls.holds other (referenceTypes s (bindTypes tmpl.params types) tmpl'))
    (hrun : czetInstantiateType rules fuel tag types s = some (r, s')) :
    ∃ n s₂ newfields, Effect calls (s.copyNode n) s₂ (Mentions rules s tag types) ∧
      r = some s.nodes.length ∧ s' = builtState rules s s₂ tag types newfields := by
  cases fuel with
  | zero => cases hrun
  | succ k =>
      obtain ⟨fields, hfields, hcopyable⟩ := hdeclared.copyable tag tmpl htmpl
      obtain ⟨n, isUnion, hn, hform⟩ := node_of_fields hfields
      have hnode : n.fields = some fields := by rw [TypeNode.fields, hform]
      rw [instantiate_miss htmpl (hdeclared.not_cached _) hn, hnode, Option.getD_some] at hrun
      obtain ⟨⟨newfields, s₂⟩, hcopy, hr⟩ := Option.map_eq_some_iff.mp hrun
      obtain ⟨rfl, rfl⟩ := Prod.mk.inj hr
      have heffect := (copyFields_effect fields
        (fun f hf => copy_effect (instantiate_effect hdeclared calls k) (hcopyable f hf)
          fun other tmpl' href => hcalls other tmpl'
            ((mentions_iff htmpl hfields).mpr ⟨f, hf, href⟩))
        (hdeclared.working.copyNode n)
        (fun p hp => (htypes p.2 (bindTypes_mem hp)).later (copyNode_later s n))
        hcopy).congr fun other => mentions_iff htmpl hfields
      exact ⟨n, s₂, newfields, heffect, rfl, rfl⟩

theorem first_use_built {n : TypeNode} {s₂ : TypeState} (hpasses : PassesParameters rules s)
    (hdeclared : Declared rules s) (htypes : ∀ t ∈ types, Still rules s t)
    (heffect : Effect (passedCalls hpasses (bindTypes tmpl.params types)) (s.copyNode n) s₂
      (Mentions rules s tag types)) :
    let passed := s₂.cache.map fun e =>
      (e.1, passedTypes s (bindTypes tmpl.params types) e.1)
    (passed.Nodup ∧ s₂.cache.map (fun e => (e.1, e.2.1)) =
        passed.map (fun q => (q.1, typeSignature rules s q.2))) ∧
      (∀ q ∈ passed, q.1 ≠ tag) ∧
      ∀ q, q ∈ passed ↔ q.2 = passedTypes s (bindTypes tmpl.params types) q.1 ∧
        ∃ next, Mentions rules s tag types next ∧ ReflTransGen (Refers rules s) next q.1 := by
  intro passed
  have hnew : ∀ e ∈ s₂.cache, EntryOf (passedCalls hpasses (bindTypes tmpl.params types)) e ∧
      ∃ next, Mentions rules s tag types next ∧ ReflTransGen (Refers rules s) next e.1 := by
    intro e he
    rcases heffect.added e he with he | ⟨hentry, -, hreach⟩
    · rw [show (s.copyNode n).cache = [] from hdeclared.empty] at he
      cases he
    · exact ⟨hentry, hreach⟩
  have hkey : ∀ e ∈ s₂.cache, e.2.1 =
      typeSignature rules s (passedTypes s (bindTypes tmpl.params types) e.1) := by
    intro e he
    obtain ⟨⟨args, ⟨tmpl', htmpl', rfl⟩, hsig⟩, -⟩ := hnew e he
    rw [passedTypes_of_lookup _ htmpl']
    apply hsig
    intro t ht
    exact (referenceTypes_still hdeclared.integer
      (fun p hp => htypes p.2 (bindTypes_mem hp)) tmpl' t ht).lt_length
  refine ⟨⟨?_, ?_⟩, ?_, ?_⟩
  · refine List.Nodup.map_on ?_ heffect.working.once.of_map
    intro e he e' he' hsame
    have htag : e.1 = e'.1 := (Prod.mk.inj hsame).1
    apply List.inj_on_of_nodup_map heffect.working.once he he'
    rw [hkey e he, hkey e' he', htag]
  · rw [List.map_map]
    exact List.map_congr_left fun e he => Prod.ext rfl (hkey e he)
  · intro q hq htag
    obtain ⟨e, he, rfl⟩ := List.mem_map.mp hq
    obtain ⟨-, next, hnext, hreach⟩ := hnew e he
    exact (heffect.finished next hnext).grounded.acyclic e.1 hreach
      (TransGen.head' (htag ▸ hnext.refers) hreach)
  · rintro ⟨other, args⟩
    constructor
    · intro hq
      obtain ⟨e, he, hsame⟩ := List.mem_map.mp hq
      obtain ⟨rfl, rfl⟩ := Prod.mk.inj hsame
      exact ⟨rfl, (hnew e he).2⟩
    · rintro ⟨hpassed, next, hnext, hreach⟩
      simp only at hpassed hreach
      subst hpassed
      obtain ⟨tmpl', htmpl'⟩ : ∃ tmpl', s.templates.lookup other = some tmpl' := by
        rcases ReflTransGen.cases_tail hreach with rfl | ⟨last, -, href⟩
        · exact hnext.refers.lookup
        · exact href.lookup
      obtain ⟨e, he, rfl⟩ := (heffect.finished next hnext).stocked other tmpl' hreach htmpl'
      exact List.mem_map.mpr ⟨e, he, rfl⟩

end Uses

section Lists

private theorem lists_param_free (bound : Bound) (other : Ident) :
    ¬ CopyRef flatRules lists bound other 2 := by
  intro href
  exact not_walkRef (t := 2) rfl rfl ((copyRef_of_walk rfl).mp href)

private theorem cell_mentions (types : List Nat) (other : Ident) :
    ¬ Mentions flatRules lists tagCell types other := by
  intro href
  obtain ⟨f, hf, href⟩ := (mentions_iff rfl rfl).mp href
  obtain rfl := List.mem_singleton.mp hf
  exact lists_param_free _ other href

private theorem pair_mentions {types : List Nat} {other : Ident}
    (href : Mentions flatRules lists tagPair types other) : other = tagCell := by
  obtain ⟨f, hf, href⟩ := (mentions_iff rfl rfl).mp href
  rcases List.mem_cons.mp hf with rfl | hf
  · have hwalk := (copyRef_of_walk rfl).mp href
    exact (walkRef_of_genericRef (t := 3) rfl).mp ((walkRef_of_walkSlot (u := 3) rfl).mp hwalk)
  · obtain rfl := List.mem_singleton.mp hf
    exact absurd href (lists_param_free _ other)

private theorem lists_passes : PassesParameters flatRules lists := by
  intro tag tmpl other tmpl' htmpl _ htmpl' p hp
  have hparams := lists_params htmpl
  rw [lists_params htmpl'] at hp
  rwa [hparams]

end Lists

end CZet.TypeNodes
