/- source: src/gcc/gcc/c/c-decl.cc (czet_subst_walk, czet_deep_subst, czet_instantiate_type)
   digest: The references between templates, as the parsed type nodes have them, and what an
     instantiation leaves of those nodes. -/

import CZet.Generic.TypeNodes
import CZet.Lib.Cycles

set_option autoImplicit false
set_option relaxedAutoImplicit false

namespace CZet.TypeNodes

/-- A node that stands for a type parameter. -/
def TypeNode.IsParam (n : TypeNode) : Prop := n.form = .tplType ∨ ∃ name, n.paramName = some name

/-- An offset, reference, vector, function or method type. `walk_type_fields` goes into these too:
the references behind them are not followed here. -/
def TypeNode.hasParts (n : TypeNode) : Bool :=
  match n.form with
  | .other code => [5, 12, 16, 22, 23].contains code
  | _ => false

section Rewriting

variable (n : TypeNode) (u : Nat)

@[simp] theorem setTreeType_fields : (n.setTreeType u).fields = n.fields := by
  obtain ⟨form, name, size⟩ := n
  cases form <;> rfl

@[simp] theorem setTreeType_tag : (n.setTreeType u).tag = n.tag := by
  obtain ⟨form, name, size⟩ := n
  cases form <;> rfl

@[simp] theorem setTreeType_isPointer : (n.setTreeType u).isPointer = n.isPointer := by
  obtain ⟨form, name, size⟩ := n
  cases form <;> rfl

@[simp] theorem setTreeType_isParam : (n.setTreeType u).IsParam ↔ n.IsParam := by
  obtain ⟨form, name, size⟩ := n
  cases form <;> simp [TypeNode.IsParam, TypeNode.setTreeType, TypeNode.paramName]

@[simp] theorem setTreeType_hasParts : (n.setTreeType u).hasParts = n.hasParts := by
  obtain ⟨form, name, size⟩ := n
  cases form <;> rfl

@[simp] theorem setTreeType_twice (v : Nat) :
    (n.setTreeType u).setTreeType v = n.setTreeType v := by
  obtain ⟨form, name, size⟩ := n
  cases form <;> rfl

theorem setTreeType_of_none (h : n.treeType = none) : n.setTreeType u = n := by
  obtain ⟨form, name, size⟩ := n
  cases form <;> first | rfl | cases h

theorem setTreeType_treeType {v : Nat} (h : n.treeType = some v) :
    (n.setTreeType u).treeType = some u := by
  obtain ⟨form, name, size⟩ := n
  cases form <;> first | rfl | cases h

theorem treeType_of_fields {fields : List FieldDecl} (h : n.fields = some fields) :
    n.treeType = none := by
  obtain ⟨form, name, size⟩ := n
  cases form <;> first | rfl | cases h

theorem hasParts_of_fields {fields : List FieldDecl} (h : n.fields = some fields) :
    n.hasParts = false := by
  obtain ⟨form, name, size⟩ := n
  cases form <;> first | rfl | cases h

theorem hasParts_of_treeType {v : Nat} (h : n.treeType = some v) : n.hasParts = false := by
  obtain ⟨form, name, size⟩ := n
  cases form <;> first | rfl | cases h

theorem not_isParam_of_fields {fields : List FieldDecl} (h : n.fields = some fields) :
    ¬ n.IsParam := by
  obtain ⟨form, name, size⟩ := n
  rintro (hparam | ⟨name, hparam⟩) <;> cases form <;> cases h <;> cases hparam

end Rewriting

section Nodes

variable {rules : GccRules} {s : TypeState} {t u : Nat} {n : TypeNode}

theorem walkSlot_node (hn : s.nodes[t]? = some n) : s.walkSlot rules t =
    n.treeType.filter fun u => n.isPointer || rules.pointerArrays || !s.isPointer u := by
  unfold TypeState.walkSlot
  rw [hn]
  obtain ⟨form, name, size⟩ := n
  cases form <;> rfl

theorem treeType_of_walkSlot (hn : s.nodes[t]? = some n) (hu : s.walkSlot rules t = some u) :
    n.treeType = some u := by
  rw [walkSlot_node hn] at hu
  exact (Option.filter_eq_some_iff.mp hu).1

theorem node_of_walkSlot (hu : s.walkSlot rules t = some u) :
    ∃ n, s.nodes[t]? = some n ∧ n.treeType = some u := by
  cases hn : s.nodes[t]? with
  | none =>
      rw [TypeState.walkSlot, hn] at hu
      cases hu
  | some n => exact ⟨n, rfl, treeType_of_walkSlot hn hu⟩

theorem genericRef_node (hn : s.nodes[t]? = some n) :
    s.genericRef t = n.tag.bind fun tag => (s.templates.lookup tag).map (tag, ·) := by
  rw [TypeState.genericRef, hn, Option.bind_some]

theorem template_of_genericRef {tag : Ident} {tmpl : TypeTemplate}
    (h : s.genericRef t = some (tag, tmpl)) : s.templates.lookup tag = some tmpl := by
  obtain ⟨name, -, hname⟩ := Option.bind_eq_some_iff.mp h
  obtain ⟨tmpl', hlookup, heq⟩ := Option.map_eq_some_iff.mp hname
  obtain ⟨rfl, rfl⟩ := Prod.mk.inj heq
  exact hlookup

theorem fields_of_genericRef {g : Ident × TypeTemplate} (h : s.genericRef t = some g) :
    ∃ n fields, s.nodes[t]? = some n ∧ n.fields = some fields := by
  obtain ⟨tag, htag, -⟩ := Option.bind_eq_some_iff.mp h
  obtain ⟨n, hn, hnode⟩ := Option.bind_eq_some_iff.mp htag
  obtain ⟨form, name, size⟩ := n
  cases form with
  | aggregate isUnion fields => exact ⟨_, fields, hn, rfl⟩
  | _ => cases hnode

theorem genericRef_of_treeType (hn : s.nodes[t]? = some n) (hu : n.treeType = some u) :
    s.genericRef t = none := by
  rw [genericRef_node hn]
  obtain ⟨form, name, size⟩ := n
  cases form <;> first | rfl | cases hu

theorem not_isParam_of_treeType (hu : n.treeType = some u) : ¬ n.IsParam := by
  obtain ⟨form, name, size⟩ := n
  rintro (hparam | ⟨name, hparam⟩) <;> cases form <;> cases hu <;> cases hparam

theorem genericRef_of_param (hn : s.nodes[t]? = some n) (hparam : n.IsParam) :
    s.genericRef t = none := by
  rw [genericRef_node hn]
  obtain ⟨form, name, size⟩ := n
  cases form with
  | aggregate isUnion fields => exact absurd hparam (not_isParam_of_fields _ rfl)
  | _ => rfl

end Nodes

/-- A type in which the walk finds nothing, whatever the arguments. -/
inductive Still (rules : GccRules) (s : TypeState) : Nat → Prop
  | intro {t : Nat} {n : TypeNode} (hn : s.nodes[t]? = some n) (hparts : n.hasParts = false)
      (hparam : ¬ n.IsParam) (hgeneric : s.genericRef t = none)
      (hslot : ∀ u, s.walkSlot rules t = some u → Still rules s u) : Still rules s t

/-- A struct or union that is no reference to a template. -/
structure Closed (s : TypeState) (t : Nat) : Prop where
  aggregate : ∃ n fields, s.nodes[t]? = some n ∧ n.fields = some fields
  generic : s.genericRef t = none

/-- What a node of the state `s` is in the state `s'`: a reference may have become a type of its
own, and a type in which there is nothing left to substitute may have been written into a pointer or
an array. -/
structure NodeLater (rules : GccRules) (s s' : TypeState) (t : Nat) (n n' : TypeNode) : Prop where
  isPointer : n'.isPointer = n.isPointer
  fields : n'.fields.isSome = n.fields.isSome
  hasParts : n'.hasParts = n.hasParts
  isParam : n'.IsParam → n.IsParam
  generic : s'.genericRef t = none ∨ s'.genericRef t = s.genericRef t
  treeType : n'.treeType = n.treeType ∨ ∃ u, n'.treeType = some u ∧ Still rules s' u

/-- A later state: there may be more nodes. -/
structure Later (rules : GccRules) (s s' : TypeState) : Prop where
  templates : s'.templates = s.templates
  integerType : s'.integerType = s.integerType
  nodes : ∀ (t : Nat) (n : TypeNode), s.nodes[t]? = some n →
    ∃ n', s'.nodes[t]? = some n' ∧ NodeLater rules s s' t n n'

section Lateness

variable {rules : GccRules} {s s' s'' : TypeState} {t u : Nat} {n : TypeNode}

theorem Closed.still (h : Closed s t) : Still rules s t := by
  obtain ⟨⟨n, fields, hn, hfields⟩, hgeneric⟩ := h
  refine Still.intro hn (hasParts_of_fields n hfields) (not_isParam_of_fields n hfields) hgeneric ?_
  intro u hu
  have htree := treeType_of_walkSlot hn hu
  rw [treeType_of_fields n hfields] at htree
  cases htree

theorem Still.node (h : Still rules s t) : ∃ n, s.nodes[t]? = some n := by
  obtain ⟨hn, -⟩ := h
  exact ⟨_, hn⟩

theorem Still.lt_length (h : Still rules s t) : t < s.nodes.length := by
  obtain ⟨n, hn⟩ := h.node
  exact (List.getElem?_eq_some_iff.mp hn).1

theorem target_node (hn : s.nodes[t]? = some n) (hu : n.treeType = some u)
    (hslot : s.walkSlot rules t = some u → ∃ m, s.nodes[u]? = some m) :
    ∃ m, s.nodes[u]? = some m := by
  cases hm : s.nodes[u]? with
  | some m => exact ⟨m, rfl⟩
  | none =>
      have hnot : s.isPointer u = false := by
        rw [TypeState.isPointer, hm]
        rfl
      rw [hm] at hslot
      apply hslot
      rw [walkSlot_node hn, hu]
      simp [hnot]

theorem Later.isPointer (h : Later rules s s') (hn : s.nodes[t]? = some n) :
    s'.isPointer t = s.isPointer t := by
  obtain ⟨n', hn', hlater⟩ := h.nodes t n hn
  rw [TypeState.isPointer, TypeState.isPointer, hn, hn', Option.map_some, Option.map_some,
    hlater.isPointer]

theorem Later.walkSlot_cases (h : Later rules s s') {n' : TypeNode} (hn : s.nodes[t]? = some n)
    (hn' : s'.nodes[t]? = some n') (hlater : NodeLater rules s s' t n n')
    (hslot : ∀ u, s.walkSlot rules t = some u → ∃ m, s.nodes[u]? = some m)
    (hu : s'.walkSlot rules t = some u) : s.walkSlot rules t = some u ∨ Still rules s' u := by
  have htree' := treeType_of_walkSlot hn' hu
  rcases hlater.treeType with hsame | ⟨v, hv, hstill⟩
  · have htree : n.treeType = some u := hsame ▸ htree'
    obtain ⟨m, hm⟩ := target_node hn htree (hslot u)
    left
    rw [walkSlot_node hn', htree', hlater.isPointer, Option.filter_some, h.isPointer hm] at hu
    rw [walkSlot_node hn, htree, Option.filter_some]
    exact hu
  · right
    obtain rfl := Option.some.inj (hv.symm.trans htree')
    exact hstill

theorem Still.later (h : Still rules s t) (hlater : Later rules s s') : Still rules s' t := by
  induction h with
  | @intro t n hn hparts hparam hgeneric hslot ih =>
      obtain ⟨n', hn', hnode⟩ := hlater.nodes t n hn
      refine Still.intro hn' (hnode.hasParts.trans hparts) (fun h => hparam (hnode.isParam h)) ?_ ?_
      · rcases hnode.generic with h | h
        · exact h
        · exact h.trans hgeneric
      · intro u hu
        rcases hlater.walkSlot_cases hn hn' hnode (fun u hu => (hslot u hu).node) hu with hu | hu
        · exact ih u hu
        · exact hu

theorem Closed.later (h : Closed s t) (hlater : Later rules s s') : Closed s' t := by
  obtain ⟨⟨n, fields, hn, hfields⟩, hgeneric⟩ := h
  obtain ⟨n', hn', hnode⟩ := hlater.nodes t n hn
  have hsome := hnode.fields
  rw [hfields] at hsome
  obtain ⟨fields', hfields'⟩ := Option.isSome_iff_exists.mp hsome
  refine ⟨⟨n', fields', hn', hfields'⟩, ?_⟩
  rcases hnode.generic with h | h
  · exact h
  · exact h.trans hgeneric

theorem NodeLater.same (h : s'.genericRef t = s.genericRef t) : NodeLater rules s s' t n n :=
  ⟨rfl, rfl, rfl, id, Or.inr h, Or.inl rfl⟩

theorem Later.of_nodes
    (hnodes : ∀ (t : Nat) (n : TypeNode), s.nodes[t]? = some n → s'.nodes[t]? = some n)
    (htemplates : s'.templates = s.templates) (hinteger : s'.integerType = s.integerType) :
    Later rules s s' := by
  refine ⟨htemplates, hinteger, fun t n hn => ⟨n, hnodes t n hn, NodeLater.same ?_⟩⟩
  rw [genericRef_node hn, genericRef_node (hnodes t n hn), htemplates]

theorem Later.refl (s : TypeState) : Later rules s s := Later.of_nodes (fun _ _ h => h) rfl rfl

theorem Later.trans (h : Later rules s s') (h' : Later rules s' s'') : Later rules s s'' := by
  refine ⟨h'.templates.trans h.templates, h'.integerType.trans h.integerType, ?_⟩
  intro t n hn
  obtain ⟨n', hn', hnode⟩ := h.nodes t n hn
  obtain ⟨n'', hn'', hnode'⟩ := h'.nodes t n' hn'
  refine ⟨n'', hn'', hnode'.isPointer.trans hnode.isPointer, hnode'.fields.trans hnode.fields,
    hnode'.hasParts.trans hnode.hasParts, fun h => hnode.isParam (hnode'.isParam h), ?_, ?_⟩
  · rcases hnode'.generic with hg | hg
    · exact Or.inl hg
    · rw [hg]
      exact hnode.generic
  · rcases hnode'.treeType with ht | ht
    · rw [ht]
      rcases hnode.treeType with ht' | ⟨u, hu, hstill⟩
      · exact Or.inl ht'
      · exact Or.inr ⟨u, hu, hstill.later h'⟩
    · exact Or.inr ht

theorem copyNode_later (s : TypeState) (n : TypeNode) : Later rules s (s.copyNode n) := by
  apply Later.of_nodes
  · intro t m hm
    rw [TypeState.copyNode, List.getElem?_append_left (List.getElem?_eq_some_iff.mp hm).1]
    exact hm
  · rfl
  · rfl

theorem Later.of_node (hother : ∀ i, i ≠ t → s'.nodes[i]? = s.nodes[i]?)
    (hnode : ∀ n, s.nodes[t]? = some n → ∃ n', s'.nodes[t]? = some n' ∧ NodeLater rules s s' t n n')
    (htemplates : s'.templates = s.templates) (hinteger : s'.integerType = s.integerType) :
    Later rules s s' := by
  refine ⟨htemplates, hinteger, fun i n hn => ?_⟩
  by_cases hi : i = t
  · obtain rfl := hi
    exact hnode n hn
  · have hn' : s'.nodes[i]? = some n := (hother i hi).trans hn
    refine ⟨n, hn', NodeLater.same ?_⟩
    rw [genericRef_node hn, genericRef_node hn', htemplates]

theorem finishStruct_later (s : TypeState) (t : Nat) (fields : List FieldDecl) :
    Later rules s (s.finishStruct rules t fields) := by
  apply Later.of_node (t := t) (fun i hi => finishStruct_ne rules s fields hi) _ rfl rfl
  intro n hn
  have hn' := finishStruct_node rules s fields hn
  refine ⟨_, hn', ?_⟩
  obtain ⟨form, name, size⟩ := n
  cases form with
  | aggregate isUnion old =>
      refine ⟨rfl, rfl, rfl, fun h => absurd h (not_isParam_of_fields _ rfl), Or.inr ?_,
        Or.inl rfl⟩
      rw [genericRef_node hn, genericRef_node hn']
      rfl
  | _ =>
      refine ⟨rfl, rfl, rfl, id, Or.inr ?_, Or.inl rfl⟩
      rw [genericRef_node hn, genericRef_node hn']
      rfl

theorem setTypeName_later {name : Ident} (hfields : ∃ fields, n.fields = some fields)
    (hn : s.nodes[t]? = some n) (hname : s.templates.lookup name = none) :
    Later rules s (s.setTypeName t name) ∧ Closed (s.setTypeName t name) t := by
  obtain ⟨fields, hfields⟩ := hfields
  have hn' := setTypeName_node s name hn
  obtain ⟨form, oldName, size⟩ := n
  cases form with
  | aggregate isUnion old =>
      have hgeneric : (s.setTypeName t name).genericRef t = none := by
        rw [genericRef_node hn']
        show ((s.setTypeName t name).templates.lookup name).map _ = none
        rw [show (s.setTypeName t name).templates = s.templates from rfl, hname]
        rfl
      refine ⟨?_, ⟨_, old, hn', rfl⟩, hgeneric⟩
      apply Later.of_node (fun i hi => setTypeName_ne s name hi) _ rfl rfl
      intro m hm
      obtain rfl := Option.some.inj (hn.symm.trans hm)
      exact ⟨_, hn', rfl, rfl, rfl, fun h => absurd h (not_isParam_of_fields _ rfl),
        Or.inl hgeneric, Or.inl rfl⟩
  | _ => cases hfields

theorem setTreeType_node (hn : s.nodes[t]? = some n) (u : Nat) :
    (s.setTreeType t u).nodes[t]? = some (n.setTreeType u) := by
  simp only [TypeState.setTreeType, List.getElem?_modify, hn, if_true]
  rfl

theorem setTreeType_ne (s : TypeState) (u : Nat) {i : Nat} (hi : i ≠ t) :
    (s.setTreeType t u).nodes[i]? = s.nodes[i]? := by
  simp only [TypeState.setTreeType, List.getElem?_modify, if_neg (Ne.symm hi)]
  exact Option.map_id'

theorem setTreeType_nodeLater (hn : s.nodes[t]? = some n)
    (hstill : Still rules (s.setTreeType t u) u) :
    NodeLater rules s (s.setTreeType t u) t n (n.setTreeType u) := by
  refine ⟨by simp, by simp, by simp, by simp, Or.inr ?_, ?_⟩
  · rw [genericRef_node hn, genericRef_node (setTreeType_node hn u), setTreeType_tag]
    rfl
  · cases htree : n.treeType with
    | none => exact Or.inl (by rw [setTreeType_of_none n u htree, htree])
    | some v => exact Or.inr ⟨u, setTreeType_treeType n u htree, hstill⟩

theorem setTreeType_later (hstill : Still rules (s.setTreeType t u) u) :
    Later rules s (s.setTreeType t u) := by
  apply Later.of_node (fun i hi => setTreeType_ne s u hi) _ rfl rfl
  intro n hn
  exact ⟨_, setTreeType_node hn u, setTreeType_nodeLater hn hstill⟩

theorem setTreeType_isPointer_eq (s : TypeState) (t u v : Nat) :
    (s.setTreeType t u).isPointer v = s.isPointer v := by
  by_cases hv : v = t
  · obtain rfl := hv
    rw [TypeState.isPointer, TypeState.isPointer]
    cases hn : s.nodes[v]? with
    | none =>
        rw [TypeState.setTreeType, List.getElem?_modify, hn]
        rfl
    | some n =>
        rw [setTreeType_node hn, Option.map_some, Option.map_some, TypeNodes.setTreeType_isPointer]
  · rw [TypeState.isPointer, TypeState.isPointer, setTreeType_ne s u hv]

theorem Still.setTreeType (h : Still rules s u) (ht : ¬ Still rules s t) (v : Nat) :
    Still rules (s.setTreeType t v) u := by
  induction h with
  | @intro u n hn hparts hparam hgeneric hslot ih =>
      have hu : u ≠ t := by
        rintro rfl
        exact ht (Still.intro hn hparts hparam hgeneric hslot)
      have hn' := (setTreeType_ne s v hu).trans hn
      refine Still.intro hn' hparts hparam ?_ ?_
      · rw [genericRef_node hn', ← hgeneric, genericRef_node hn]
        rfl
      · intro w hw
        apply ih
        rw [walkSlot_node hn]
        rw [walkSlot_node hn'] at hw
        simpa only [setTreeType_isPointer_eq] using hw

theorem Closed.setTreeType (h : Closed s u) (v : Nat) : Closed (s.setTreeType t v) u := by
  obtain ⟨⟨n, fields, hn, hfields⟩, hgeneric⟩ := h
  have hn' : (s.setTreeType t v).nodes[u]? = some n := by
    by_cases hu : u = t
    · obtain rfl := hu
      rw [setTreeType_node hn, setTreeType_of_none n v (treeType_of_fields n hfields)]
    · rw [setTreeType_ne s v hu, hn]
  refine ⟨⟨n, fields, hn', hfields⟩, ?_⟩
  rw [genericRef_node hn', ← hgeneric, genericRef_node hn]
  rfl

end Lateness

/-- A type that the walk comes through, up to the references to templates. -/
inductive Walkable (rules : GccRules) (s : TypeState) : Nat → Prop
  | intro {t : Nat} {n : TypeNode} (hn : s.nodes[t]? = some n) (hparts : n.hasParts = false)
      (hslot : ∀ u, s.walkSlot rules t = some u → Walkable rules s u) : Walkable rules s t

/-- The type of a field: the structs and unions in it come down to types that the walk comes
through. -/
inductive Copyable (rules : GccRules) (s : TypeState) : Nat → Prop
  | walk {t : Nat} (hfields : s.fields t = none) (h : Walkable rules s t) : Copyable rules s t
  | aggregate {t : Nat} {fields : List FieldDecl} (hfields : s.fields t = some fields)
      (h : ∀ f ∈ fields, Copyable rules s f.type) : Copyable rules s t

/-- The walk on a type comes to a reference to the template `tag`. -/
inductive WalkRef (rules : GccRules) (s : TypeState) (tag : Ident) : Nat → Prop
  | here {t : Nat} {tmpl : TypeTemplate} (h : s.genericRef t = some (tag, tmpl)) :
      WalkRef rules s tag t
  | slot {t u : Nat} (hu : s.walkSlot rules t = some u) (h : WalkRef rules s tag u) :
      WalkRef rules s tag t

/-- The same for the substitution in a type, which goes into the structs and unions that it copies. -/
inductive CopyRef (rules : GccRules) (s : TypeState) (bound : Bound) (tag : Ident) : Nat → Prop
  | walk {t : Nat} (hfields : s.fields t = none) (h : WalkRef rules s tag t) :
      CopyRef rules s bound tag t
  | field {t : Nat} {fields : List FieldDecl} {f : FieldDecl} (hfields : s.fields t = some fields)
      (hcopied : fields.any (fieldToSubst s bound) = true) (hf : f ∈ fields)
      (h : CopyRef rules s bound tag f.type) : CopyRef rules s bound tag t

/-- There is an argument for each parameter. -/
def Enough (s : TypeState) (tag : Ident) (types : List Nat) : Prop :=
  ∀ tmpl, s.templates.lookup tag = some tmpl → tmpl.params.length ≤ types.length

/-- The substitution of these arguments in the fields of the template `tag` comes to a reference to
the template `other`. -/
def Mentions (rules : GccRules) (s : TypeState) (tag : Ident) (types : List Nat) (other : Ident) :
    Prop :=
  ∃ tmpl fields f, s.templates.lookup tag = some tmpl ∧ s.fields tmpl.type = some fields ∧
    f ∈ fields ∧ CopyRef rules s (bindTypes tmpl.params types) other f.type

/-- In a field of the template `tag` there is a reference to the template `other`. -/
def Refers (rules : GccRules) (s : TypeState) (tag other : Ident) : Prop :=
  ∃ types, Enough s tag types ∧ Mentions rules s tag types other

section References

variable {rules : GccRules} {s : TypeState} {t u : Nat} {n : TypeNode} {tag other : Ident}

theorem Walkable.node (h : Walkable rules s t) : ∃ n, s.nodes[t]? = some n := by
  obtain ⟨hn, -⟩ := h
  exact ⟨_, hn⟩

theorem node_of_fields {fields : List FieldDecl} (h : s.fields t = some fields) :
    ∃ n isUnion, s.nodes[t]? = some n ∧ n.form = .aggregate isUnion fields := by
  obtain ⟨n, hn, hnode⟩ := Option.bind_eq_some_iff.mp h
  obtain ⟨form, name, size⟩ := n
  cases form with
  | aggregate isUnion fields' =>
      obtain rfl := Option.some.inj hnode
      exact ⟨_, isUnion, hn, rfl⟩
  | _ => cases hnode

theorem Copyable.node (h : Copyable rules s t) : ∃ n, s.nodes[t]? = some n := by
  cases h with
  | walk hfields h => exact h.node
  | aggregate hfields h =>
      obtain ⟨n, -, hn, -⟩ := node_of_fields hfields
      exact ⟨n, hn⟩

theorem walkRef_of_genericRef {tmpl : TypeTemplate} (h : s.genericRef t = some (tag, tmpl)) :
    WalkRef rules s other t ↔ other = tag := by
  constructor
  · intro href
    cases href with
    | here h' =>
        obtain ⟨rfl, -⟩ := Prod.mk.inj (Option.some.inj (h'.symm.trans h))
        rfl
    | slot hu _ =>
        obtain ⟨n, fields, hn, hfields⟩ := fields_of_genericRef h
        have htree := treeType_of_walkSlot hn hu
        rw [treeType_of_fields n hfields] at htree
        cases htree
  · rintro rfl
    exact WalkRef.here h

theorem walkRef_of_walkSlot (hu : s.walkSlot rules t = some u) :
    WalkRef rules s tag t ↔ WalkRef rules s tag u := by
  constructor
  · intro href
    cases href with
    | here h =>
        obtain ⟨n, hn, htree⟩ := node_of_walkSlot hu
        rw [genericRef_of_treeType hn htree] at h
        cases h
    | slot hu' h =>
        obtain rfl := Option.some.inj (hu.symm.trans hu')
        exact h
  · exact WalkRef.slot hu

theorem not_walkRef (hgeneric : s.genericRef t = none) (hslot : s.walkSlot rules t = none) :
    ¬ WalkRef rules s tag t := by
  intro href
  cases href with
  | here h =>
      rw [hgeneric] at h
      cases h
  | slot hu _ =>
      rw [hslot] at hu
      cases hu

theorem copyRef_of_walk (hfields : s.fields t = none) {bound : Bound} :
    CopyRef rules s bound tag t ↔ WalkRef rules s tag t := by
  constructor
  · intro href
    cases href with
    | walk _ h => exact h
    | field hfields' _ _ _ =>
        rw [hfields] at hfields'
        cases hfields'
  · exact CopyRef.walk hfields

theorem copyRef_of_aggregate {fields : List FieldDecl} {bound : Bound}
    (hfields : s.fields t = some fields) : CopyRef rules s bound tag t ↔
      fields.any (fieldToSubst s bound) = true ∧
        ∃ f ∈ fields, CopyRef rules s bound tag f.type := by
  constructor
  · intro href
    cases href with
    | walk hfields' _ =>
        rw [hfields] at hfields'
        cases hfields'
    | field hfields' hcopied hf h =>
        obtain rfl := Option.some.inj (hfields.symm.trans hfields')
        exact ⟨hcopied, _, hf, h⟩
  · rintro ⟨hcopied, f, hf, h⟩
    exact CopyRef.field hfields hcopied hf h

/-- With more parameters bound, the substitution goes where it went, and further. -/
theorem CopyRef.of_bound {bound bound' : Bound} (h : CopyRef rules s bound tag t)
    (hbound : ∀ name, (bound.lookup name).isSome → (bound'.lookup name).isSome) :
    CopyRef rules s bound' tag t := by
  induction h with
  | walk hfields h => exact CopyRef.walk hfields h
  | field hfields hcopied hf _ ih =>
      refine CopyRef.field hfields ?_ hf ih
      obtain ⟨g, hg, htest⟩ := List.any_eq_true.mp hcopied
      refine List.any_eq_true.mpr ⟨g, hg, ?_⟩
      unfold fieldToSubst at htest ⊢
      split at htest
      next => rfl
      next => rfl
      next => exact hbound _ htest
      next => cases htest

theorem mem_of_bindTypes {params : List Ident} {types : List Nat} {name : Ident}
    (h : ((bindTypes params types).lookup name).isSome) : name ∈ params := by
  obtain ⟨p, hp, hname⟩ := List.lookup_isSome_iff.mp h
  rw [eq_of_beq hname]
  exact (List.of_mem_zip (List.mem_reverse.mp hp)).1

theorem bindTypes_isSome {params : List Ident} {types : List Nat}
    (h : params.length ≤ types.length) {name : Ident} (hname : name ∈ params) :
    ((bindTypes params types).lookup name).isSome := by
  have hnames : (params.zip types).map Prod.fst = params := List.map_fst_zip h
  rw [← hnames] at hname
  obtain ⟨p, hp, rfl⟩ := List.mem_map.mp hname
  exact List.lookup_isSome_iff.mpr ⟨p, List.mem_reverse.mpr hp, beq_self_eq_true p.1⟩

theorem mentions_iff {tmpl : TypeTemplate} {types : List Nat} {fields : List FieldDecl}
    (htmpl : s.templates.lookup tag = some tmpl) (hfields : s.fields tmpl.type = some fields) :
    Mentions rules s tag types other ↔
      ∃ f ∈ fields, CopyRef rules s (bindTypes tmpl.params types) other f.type := by
  constructor
  · rintro ⟨tmpl', fields', f, htmpl', hfields', hf, href⟩
    obtain rfl := Option.some.inj (htmpl.symm.trans htmpl')
    obtain rfl := Option.some.inj (hfields.symm.trans hfields')
    exact ⟨f, hf, href⟩
  · rintro ⟨f, hf, href⟩
    exact ⟨tmpl, fields, f, htmpl, hfields, hf, href⟩

theorem Mentions.of_enough {types types' : List Nat} (h : Mentions rules s tag types other)
    (henough : Enough s tag types') : Mentions rules s tag types' other := by
  obtain ⟨tmpl, fields, f, htmpl, hfields, hf, href⟩ := h
  exact ⟨tmpl, fields, f, htmpl, hfields, hf,
    href.of_bound fun _ hname => bindTypes_isSome (henough tmpl htmpl) (mem_of_bindTypes hname)⟩

theorem Mentions.refers {types : List Nat} (h : Mentions rules s tag types other) :
    Refers rules s tag other := by
  obtain ⟨tmpl, -, -, htmpl, -⟩ := id h
  refine ⟨tmpl.params.map fun _ => s.integerType, ?_⟩
  have henough : Enough s tag (tmpl.params.map fun _ => s.integerType) := by
    intro tmpl' htmpl'
    obtain rfl := Option.some.inj (htmpl.symm.trans htmpl')
    rw [List.length_map]
  exact ⟨henough, h.of_enough henough⟩

/-- The references of a template, by any arguments. -/
theorem refers_iff {types : List Nat} (henough : Enough s tag types) :
    Refers rules s tag other ↔ Mentions rules s tag types other := by
  constructor
  · rintro ⟨types', -, href⟩
    exact href.of_enough henough
  · exact Mentions.refers

theorem Refers.template (h : Refers rules s tag other) :
    other ∈ s.templates.map Prod.fst := by
  have hwalk : ∀ t, WalkRef rules s other t → other ∈ s.templates.map Prod.fst := by
    intro t href
    induction href with
    | here h =>
        obtain ⟨p, hp, hname⟩ := List.lookup_isSome_iff.mp
          (Option.isSome_iff_exists.mpr ⟨_, template_of_genericRef h⟩)
        exact List.mem_map.mpr ⟨p, hp, (eq_of_beq hname).symm⟩
    | slot _ _ ih => exact ih
  obtain ⟨types, -, tmpl, -, f, -, -, -, href⟩ := h
  generalize f.type = t at href
  induction href with
  | walk _ h => exact hwalk _ h
  | field _ _ _ _ ih => exact ih

end References

end CZet.TypeNodes
