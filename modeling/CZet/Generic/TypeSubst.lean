/- source: src/gcc/gcc/c/c-decl.cc (czet_subst_walk, czet_copy_field, czet_deep_subst,
     czet_instantiate_type)
   digest: Instantiation as substitution in the template: where nothing is to be substituted behind
     a pointer or an array, no node changes and the fields of an instance are the substituted ones. -/

import CZet.Generic.TypeNodes
import CZet.Lib.Settling

set_option autoImplicit false
set_option relaxedAutoImplicit false

namespace CZet.TypeNodes

open CZet.Lib.Settling Filter

/-- The type `t` of the nodes `ns` with the arguments in place of the parameters is the type `t'` of
the nodes `out`. A type in which no parameter occurs stands for itself. -/
inductive SubstOf (ns out : List TypeNode) (bound : Bound) : Nat → Nat → Prop
  | param {t : Nat} {n : TypeNode} {name : Ident} {c : Nat} (ht : ns[t]? = some n)
      (hname : n.paramName = some name) (hc : bound.lookup name = some c) : SubstOf ns out bound t c
  | closed {t : Nat} (h : ∀ u n name, Relation.ReflTransGen (Child ns) t u → ns[u]? = some n →
      n.paramName = some name → bound.lookup name = none) : SubstOf ns out bound t t
  | pointer {t t' u u' : Nat} {n n' : TypeNode} (ht : ns[t]? = some n) (hform : n.form = .pointer u)
      (ht' : out[t']? = some n') (hform' : n'.form = .pointer u') (h : SubstOf ns out bound u u') :
      SubstOf ns out bound t t'
  | array {t t' u u' : Nat} {n n' : TypeNode} {len : Option Nat} (ht : ns[t]? = some n)
      (hform : n.form = .array u len) (ht' : out[t']? = some n') (hform' : n'.form = .array u' len)
      (h : SubstOf ns out bound u u') : SubstOf ns out bound t t'
  | aggregate {t t' : Nat} {n n' : TypeNode} {isUnion : Bool} {fields fields' : List FieldDecl}
      (ht : ns[t]? = some n) (hform : n.form = .aggregate isUnion fields)
      (ht' : out[t']? = some n') (hform' : n'.form = .aggregate isUnion fields')
      (hnames : fields'.map FieldDecl.name = fields.map FieldDecl.name)
      (h : ∀ (i : Nat) (f f' : FieldDecl), fields[i]? = some f → fields'[i]? = some f' →
        SubstOf ns out bound f.type f'.type) : SubstOf ns out bound t t'

/-- A later state: there may be more nodes, and the old ones are as they were. -/
structure Grows (s s' : TypeState) : Prop where
  nodes : ∀ i, i < s.nodes.length → s'.nodes[i]? = s.nodes[i]?
  templates : s'.templates = s.templates
  integerType : s'.integerType = s.integerType

namespace Grows

variable {s s' s'' : TypeState}

theorem refl (s : TypeState) : Grows s s := ⟨fun _ _ => rfl, rfl, rfl⟩

theorem length_le (h : Grows s s') : s.nodes.length ≤ s'.nodes.length := by
  by_cases hzero : s.nodes.length = 0
  · omega
  · have hlast : s.nodes.length - 1 < s.nodes.length := by omega
    have hsome := h.nodes _ hlast
    rw [List.getElem?_eq_getElem hlast] at hsome
    have := (List.getElem?_eq_some_iff.mp hsome).1
    omega

theorem trans (h : Grows s s') (h' : Grows s' s'') : Grows s s'' := by
  refine ⟨?_, h'.templates.trans h.templates, h'.integerType.trans h.integerType⟩
  intro i hi
  rw [h'.nodes i (Nat.lt_of_lt_of_le hi h.length_le), h.nodes i hi]

theorem genericRef (h : Grows s s') {t : Nat} (ht : t < s.nodes.length) :
    s'.genericRef t = s.genericRef t := by
  rw [TypeState.genericRef, TypeState.genericRef, h.nodes t ht, h.templates]

end Grows

/-- A node that the walk passes. -/
structure Plain (s : TypeState) (bound : Bound) (t : Nat) : Prop where
  found : t < s.nodes.length
  form : ∀ n, s.nodes[t]? = some n → n.form ≠ .tplType
  param : ∀ n name, s.nodes[t]? = some n → n.paramName = some name → bound.lookup name = none
  generic : s.genericRef t = none

/-- A type that the walk passes, to its end. -/
inductive Inert (rules : GccRules) (s : TypeState) (bound : Bound) : Nat → Prop
  | intro {t : Nat} (h : Plain s bound t)
      (hslot : ∀ u, s.walkSlot rules t = some u → Inert rules s bound u) : Inert rules s bound t

/-- The type of a field in which the substitution reaches every occurrence of a parameter: the
parameter itself, a type with none, or a struct or union of such fields. -/
inductive Supported (rules : GccRules) (s : TypeState) (bound : Bound) : Nat → Prop
  | param {t : Nat} {n : TypeNode} {name : Ident} {c : Nat} (ht : s.nodes[t]? = some n)
      (hname : n.paramName = some name) (hc : bound.lookup name = some c)
      (h : Inert rules s bound c) : Supported rules s bound t
  | closed {t : Nat} (hfields : s.fields t = none)
      (h : ∀ u, Relation.ReflTransGen (Child s.nodes) t u → Plain s bound u)
      (hends : Inert rules s bound t) : Supported rules s bound t
  | aggregate {t : Nat} {n : TypeNode} {isUnion : Bool} {fields : List FieldDecl}
      (ht : s.nodes[t]? = some n) (hform : n.form = .aggregate isUnion fields)
      (h : ∀ f ∈ fields, Supported rules s bound f.type) : Supported rules s bound t

section Walk

variable {rules : GccRules} {s s' : TypeState} {bound : Bound} {t : Nat}

private theorem plain_node (h : Plain s bound t) (hgrows : Grows s s') :
    ∃ n, s.nodes[t]? = some n ∧ s'.nodes[t]? = some n := by
  have hnode := List.getElem?_eq_getElem h.found
  exact ⟨_, hnode, (hgrows.nodes t h.found).trans hnode⟩

theorem substWalk_plain (h : Plain s bound t) (hgrows : Grows s s') (inst : Instantiate) :
    czetSubstWalk inst bound t s' = some (t, true, s') := by
  obtain ⟨n, hn, hn'⟩ := plain_node h hgrows
  have hgeneric : s'.genericRef t = none := (hgrows.genericRef h.found).trans h.generic
  have hsame : substPlaceholder s' bound t = t := by
    unfold substPlaceholder
    rw [hn']
    obtain ⟨form, name, size⟩ := n
    cases form with
    | tplType => exact absurd rfl (h.form _ hn)
    | integer =>
        cases name with
        | none => rfl
        | some name =>
            have hfree := h.param _ name hn rfl
            simp only [hfree, Option.getD_none]
    | pointer u => rfl
    | array u len => rfl
    | aggregate isUnion fields => rfl
    | other code => rfl
  unfold czetSubstWalk
  rw [hgeneric]
  simp only [hsame]

theorem walkSlot_inert (h : Inert rules s bound t) (hgrows : Grows s s') :
    s'.walkSlot rules t = s.walkSlot rules t := by
  obtain ⟨hplain, hslot⟩ := h
  obtain ⟨n, hn, hn'⟩ := plain_node hplain hgrows
  unfold TypeState.walkSlot at hslot ⊢
  rw [hn] at hslot ⊢
  rw [hn']
  simp only [Option.map_some] at hslot ⊢
  cases hform : n.form with
  | array u len =>
      simp only [hform] at hslot ⊢
      have hu : rules.pointerArrays = false → u < s.nodes.length := by
        intro hrules
        cases hcase : s.nodes[u]? with
        | none =>
            have hnot : s.isPointer u = false := by rw [TypeState.isPointer, hcase]; rfl
            obtain ⟨hfound, -⟩ := hslot u (by simp [hnot])
            exact hfound.found
        | some m => exact (List.getElem?_eq_some_iff.mp hcase).1
      cases hrules : rules.pointerArrays with
      | true => rfl
      | false => rw [TypeState.isPointer, TypeState.isPointer, hgrows.nodes u (hu hrules)]
  | _ => rfl

theorem walk_inert (h : Inert rules s bound t) :
    ∃ d, ∀ inst fuel slot s', d ≤ fuel → Grows s s' →
      walkTree rules inst bound fuel slot t s' = some (t, s') := by
  induction h with
  | @intro t hplain hslot ih =>
      have hstore : ∀ (s' : TypeState) slot, s'.store slot t t = s' := by
        intro s' slot
        cases slot with
        | none => rfl
        | some p => rw [TypeState.store, if_pos rfl]
      cases hu : s.walkSlot rules t with
      | none =>
          refine ⟨1, fun inst fuel slot s' hfuel hgrows => ?_⟩
          obtain ⟨k, rfl⟩ : ∃ k, fuel = k + 1 := ⟨fuel - 1, by omega⟩
          rw [walkTree, substWalk_plain hplain hgrows]
          simp only [Option.bind_eq_bind, Option.bind_some, hstore, if_true,
            walkSlot_inert ⟨hplain, hslot⟩ hgrows, hu]
      | some u =>
          obtain ⟨d, hd⟩ := ih u hu
          refine ⟨d + 1, fun inst fuel slot s' hfuel hgrows => ?_⟩
          obtain ⟨k, rfl⟩ : ∃ k, fuel = k + 1 := ⟨fuel - 1, by omega⟩
          rw [walkTree, substWalk_plain hplain hgrows]
          simp only [Option.bind_eq_bind, Option.bind_some, hstore, if_true,
            walkSlot_inert ⟨hplain, hslot⟩ hgrows, hu]
          rw [hd inst k (some t) s' (by omega) hgrows]
          rfl

private theorem walk_param {n : TypeNode} {name : Ident} {c : Nat} (ht : s.nodes[t]? = some n)
    (hname : n.paramName = some name) (hc : bound.lookup name = some c)
    (h : Inert rules s bound c) :
    ∃ d, ∀ inst fuel s', d ≤ fuel → Grows s s' →
      walkTree rules inst bound fuel none t s' = some (c, s') := by
  have hwalk : ∀ inst s', Grows s s' → czetSubstWalk inst bound t s' = some (c, true, s') := by
    intro inst s' hgrows
    have hlt := (List.getElem?_eq_some_iff.mp ht).1
    have ht' := (hgrows.nodes t hlt).trans ht
    obtain ⟨form, nodeName, size⟩ := n
    unfold czetSubstWalk TypeState.genericRef substPlaceholder
    cases form <;> simp_all [TypeNode.paramName, TypeNode.tag]
  cases hu : s.walkSlot rules c with
  | none =>
      refine ⟨1, fun inst fuel s' hfuel hgrows => ?_⟩
      obtain ⟨k, rfl⟩ : ∃ k, fuel = k + 1 := ⟨fuel - 1, by omega⟩
      rw [walkTree, hwalk inst s' hgrows]
      simp only [Option.bind_eq_bind, Option.bind_some, TypeState.store, if_true,
        walkSlot_inert h hgrows, hu]
  | some u =>
      have hnext : Inert rules s bound u := by
        obtain ⟨-, hslot⟩ := h
        exact hslot u hu
      obtain ⟨d, hd⟩ := walk_inert hnext
      refine ⟨d + 1, fun inst fuel s' hfuel hgrows => ?_⟩
      obtain ⟨k, rfl⟩ : ∃ k, fuel = k + 1 := ⟨fuel - 1, by omega⟩
      rw [walkTree, hwalk inst s' hgrows]
      simp only [Option.bind_eq_bind, Option.bind_some, TypeState.store, if_true,
        walkSlot_inert h hgrows, hu]
      rw [hd inst k (some c) s' (by omega) hgrows]
      rfl

end Walk

/-- The nodes `ns` of an earlier state, which refer to each other only. -/
structure Parsed (ns : List TypeNode) (s : TypeState) : Prop where
  nodes : ∀ i, i < ns.length → s.nodes[i]? = ns[i]?
  inside : ∀ t u, Child ns t u → u < ns.length

/-- From `s'` to `s''` only nodes are added, and `P` holds of all nodes that agree with the added
ones, and with those of the state `s` before. -/
structure Builds (s s' s'' : TypeState) (P : List TypeNode → Prop) : Prop where
  grows : Grows s' s''
  cache : s''.cache = s'.cache
  counter : s''.counter = s'.counter
  holds : ∀ out : List TypeNode, (∀ i, i < s.nodes.length → out[i]? = s.nodes[i]?) →
    (∀ i, s'.nodes.length ≤ i → i < s''.nodes.length → out[i]? = s''.nodes[i]?) → P out

/-- The fields `fields'` of `out` are those of `ns` with the arguments in place of the parameters. -/
structure FieldsSubst (ns out : List TypeNode) (bound : Bound) (fields fields' : List FieldDecl) :
    Prop where
  names : fields'.map FieldDecl.name = fields.map FieldDecl.name
  types : ∀ (i : Nat) (f f' : FieldDecl), fields[i]? = some f → fields'[i]? = some f' →
    SubstOf ns out bound f.type f'.type

section Copy

variable {rules : GccRules} {s : TypeState} {bound : Bound} {t : Nat}

/-- The substitution in `t` comes to an end, with the fuel `d`, from every later state. -/
def CopiesTo (rules : GccRules) (s : TypeState) (bound : Bound) (t : Nat) : Prop :=
  ∃ d, ∀ s', Grows s s' → ∃ t' s'',
    (∀ inst fuel, d ≤ fuel → czetDeepSubst rules inst bound fuel t s' = some (t', s'')) ∧
      Builds s s' s'' fun out => ∀ ns, Parsed ns s → t < ns.length → SubstOf ns out bound t t'

/-- The same for the fields of a struct or union. -/
def FieldsTo (s : TypeState) (bound : Bound) (fields newfields : List FieldDecl)
    (out : List TypeNode) : Prop :=
  ∀ ns, Parsed ns s → (∀ f ∈ fields, f.type < ns.length) → FieldsSubst ns out bound fields newfields

theorem Builds.none (s s' : TypeState) {P : List TypeNode → Prop}
    (h : ∀ out : List TypeNode, (∀ i, i < s.nodes.length → out[i]? = s.nodes[i]?) → P out) :
    Builds s s' s' P :=
  ⟨Grows.refl s', rfl, rfl, fun out hbase _ => h out hbase⟩

theorem Builds.trans {s' s₁ s₂ : TypeState} {P Q R : List TypeNode → Prop}
    (h : Builds s s' s₁ P) (h' : Builds s s₁ s₂ Q) (hboth : ∀ out, P out → Q out → R out) :
    Builds s s' s₂ R := by
  refine ⟨h.grows.trans h'.grows, h'.cache.trans h.cache, h'.counter.trans h.counter, ?_⟩
  intro out hbase hnew
  have hlast := h'.grows.length_le
  have hfirst := h.grows.length_le
  apply hboth out
  · apply h.holds out hbase
    intro i hlow hhigh
    rw [hnew i hlow (by omega), h'.grows.nodes i hhigh]
  · exact h'.holds out hbase (fun i hlow hhigh => hnew i (by omega) hhigh)

private theorem copyFields_copies (fields : List FieldDecl)
    (h : ∀ f ∈ fields, CopiesTo rules s bound f.type) :
    ∃ d, ∀ s', Grows s s' → ∃ newfields s'',
      (∀ inst fuel, d ≤ fuel →
        copyFields (czetDeepSubst rules inst bound fuel) fields s' = some (newfields, s'')) ∧
      Builds s s' s'' (FieldsTo s bound fields newfields) := by
  induction fields with
  | nil =>
      refine ⟨0, fun s' _ => ⟨[], s', fun _ _ _ => rfl, Builds.none s s' fun out _ => ?_⟩⟩
      refine fun ns _ _ => ⟨rfl, ?_⟩
      intro i f f' hf
      cases hf
  | cons f fields ih =>
      obtain ⟨d₁, h₁⟩ := h f List.mem_cons_self
      obtain ⟨d₂, h₂⟩ := ih fun f' hf' => h f' (List.mem_cons_of_mem _ hf')
      refine ⟨max d₁ d₂, fun s' hgrows => ?_⟩
      obtain ⟨t', s₁, hsubst, hbuilds⟩ := h₁ s' hgrows
      obtain ⟨newfields, s₂, hcopy, hrest⟩ := h₂ s₁ (hgrows.trans hbuilds.grows)
      refine ⟨⟨f.name, t'⟩ :: newfields, s₂, ?_, hbuilds.trans hrest ?_⟩
      · intro inst fuel hfuel
        have hone := hsubst inst fuel (by omega)
        have hmany := hcopy inst fuel (by omega)
        simp only [copyFields, czetCopyField, hone, hmany, Option.bind_eq_bind, Option.bind_some]
      · intro out hfirst hothers ns hparsed hin
        have hrest' := hothers ns hparsed fun g hg => hin g (List.mem_cons_of_mem _ hg)
        refine ⟨by rw [List.map_cons, List.map_cons, hrest'.names], ?_⟩
        intro i g g' hg hg'
        cases i with
        | zero =>
            obtain rfl := Option.some.inj hg
            obtain rfl := Option.some.inj hg'
            exact hfirst ns hparsed (hin f List.mem_cons_self)
        | succ i => exact hrest'.types i g g' hg hg'

private theorem closed_substOf {ns : List TypeNode} (hparsed : Parsed ns s)
    (h : ∀ u, Relation.ReflTransGen (Child s.nodes) t u → Plain s bound u) (out : List TypeNode) :
    SubstOf ns out bound t t := by
  apply SubstOf.closed
  intro u n name hreach hu hname
  have hgrown : Relation.ReflTransGen (Child s.nodes) t u := by
    refine Relation.ReflTransGen.mono ?_ t u hreach
    rintro a b ⟨m, hm, hb⟩
    have ha := (List.getElem?_eq_some_iff.mp hm).1
    exact ⟨m, (hparsed.nodes a ha).trans hm, hb⟩
  have hlt := (List.getElem?_eq_some_iff.mp hu).1
  exact (h u hgrown).param n name ((hparsed.nodes u hlt).trans hu) hname

private theorem record_builds {fields newfields : List FieldDecl} {n m : TypeNode}
    {s' s₂ : TypeState} (s₃ : TypeState)
    (hcopied : Builds s (s'.copyNode n) s₂ (FieldsTo s bound fields newfields))
    (hlen : s₃.nodes.length = s₂.nodes.length)
    (hother : ∀ i, i ≠ s'.nodes.length → s₃.nodes[i]? = s₂.nodes[i]?)
    (hself : s₃.nodes[s'.nodes.length]? = some m)
    (htemplates : s₃.templates = s₂.templates) (hinteger : s₃.integerType = s₂.integerType) :
    Grows s' s₃ ∧ ∀ out : List TypeNode, (∀ i, i < s.nodes.length → out[i]? = s.nodes[i]?) →
      (∀ i, s'.nodes.length ≤ i → i < s₃.nodes.length → out[i]? = s₃.nodes[i]?) →
      out[s'.nodes.length]? = some m ∧ FieldsTo s bound fields newfields out := by
  have hcopyLen : (s'.copyNode n).nodes.length = s'.nodes.length + 1 := by
    simp [TypeState.copyNode]
  have hlow := hcopied.grows.length_le
  refine ⟨⟨?_, ?_, ?_⟩, ?_⟩
  · intro i hi
    rw [hother i (by omega), hcopied.grows.nodes i (by omega), TypeState.copyNode]
    exact List.getElem?_append_left hi
  · rw [htemplates, hcopied.grows.templates, TypeState.copyNode]
  · rw [hinteger, hcopied.grows.integerType, TypeState.copyNode]
  · intro out hbase hnew
    constructor
    · rw [hnew _ (Nat.le_refl _) (by omega), hself]
    · refine hcopied.holds out hbase ?_
      intro i hi hi'
      rw [hnew i (by omega) (by omega), hother i (by omega)]

private theorem copyNode_grows {s' : TypeState} (h : Grows s s') (n : TypeNode) :
    Grows s (s'.copyNode n) := by
  refine h.trans ⟨fun i hi => ?_, rfl, rfl⟩
  exact List.getElem?_append_left hi

private theorem copyNode_node {s' s₂ : TypeState} {n : TypeNode} (h : Grows (s'.copyNode n) s₂) :
    s₂.nodes[s'.nodes.length]? = some { n with size := 0 } := by
  rw [h.nodes _ (by simp [TypeState.copyNode]), TypeState.copyNode]
  exact List.getElem?_concat_length

/-- A supported type that is no reason to copy the struct it is in has no parameters. -/
private theorem supported_closed (hsupported : Supported rules s bound t)
    (h : ∀ n, s.nodes[t]? = some n → n.fields = none ∧
      ∀ name, n.paramName = some name → bound.lookup name = none) :
    ∀ u, Relation.ReflTransGen (Child s.nodes) t u → Plain s bound u := by
  cases hsupported with
  | param hn hname hc _ =>
      have hfree := (h _ hn).2 _ hname
      rw [hc] at hfree
      cases hfree
  | closed _ hclosed _ => exact hclosed
  | aggregate hn hform _ =>
      have hnone := (h _ hn).1
      rw [TypeNode.fields, hform] at hnone
      cases hnone

private theorem closed_of_not_fieldToSubst {s' : TypeState} {f : FieldDecl} (hgrows : Grows s s')
    (hsupported : Supported rules s bound f.type) (h : fieldToSubst s' bound f = false) :
    ∀ u, Relation.ReflTransGen (Child s.nodes) f.type u → Plain s bound u := by
  refine supported_closed hsupported ?_
  intro n hn
  have hn' : s'.nodes[f.type]? = some n :=
    (hgrows.nodes _ (List.getElem?_eq_some_iff.mp hn).1).trans hn
  rw [fieldToSubst, hn'] at h
  obtain ⟨form, nodeName, size⟩ := n
  cases form with
  | tplType => cases h
  | aggregate => cases h
  | integer =>
      refine ⟨rfl, ?_⟩
      rintro name ⟨rfl⟩
      exact Option.not_isSome_iff_eq_none.mp (Bool.eq_false_iff.mp h)
  | _ => exact ⟨rfl, fun name hname => by cases hname⟩

theorem supported_copies (h : Supported rules s bound t) : CopiesTo rules s bound t := by
  induction h with
  | @param t n name c hn hname hc hinert =>
      obtain ⟨d, hd⟩ := walk_param hn hname hc hinert
      refine ⟨d + 1, fun s' hgrows => ⟨c, s', ?_, Builds.none s s' fun out _ ns hparsed ht =>
        SubstOf.param ((hparsed.nodes t ht).symm.trans hn) hname hc⟩⟩
      intro inst fuel hfuel
      obtain ⟨k, rfl⟩ : ∃ k, fuel = k + 1 := ⟨fuel - 1, by omega⟩
      have hn' : s'.nodes[t]? = some n :=
        (hgrows.nodes t (List.getElem?_eq_some_iff.mp hn).1).trans hn
      have hfields : s'.fields t = none := by
        rw [TypeState.fields, hn', Option.bind_some]
        obtain ⟨form, nodeName, size⟩ := n
        cases form with
        | aggregate isUnion fields => cases hname
        | _ => rfl
      rw [deepSubst_walk hfields]
      exact hd inst k s' (by omega) hgrows
  | @closed t hfields hclosed hinert =>
      obtain ⟨d, hd⟩ := walk_inert hinert
      refine ⟨d + 1, fun s' hgrows => ⟨t, s', ?_, Builds.none s s' fun out _ ns hparsed _ =>
        closed_substOf hparsed hclosed out⟩⟩
      intro inst fuel hfuel
      obtain ⟨k, rfl⟩ : ∃ k, fuel = k + 1 := ⟨fuel - 1, by omega⟩
      have hfields' : s'.fields t = none := by
        rw [TypeState.fields, hgrows.nodes t (hclosed t .refl).found]
        exact hfields
      rw [deepSubst_walk hfields']
      exact hd inst k none s' (by omega) hgrows
  | @aggregate t n isUnion fields hn hform hsupported ih =>
      have hin : ∀ ns, Parsed ns s → t < ns.length → ∀ f ∈ fields, f.type < ns.length := by
        intro ns hparsed ht f hf
        refine hparsed.inside t f.type ⟨n, (hparsed.nodes t ht).symm.trans hn, ?_⟩
        rw [TypeNode.children, hform]
        exact List.mem_map_of_mem hf
      obtain ⟨d, hd⟩ := copyFields_copies fields ih
      refine ⟨d + 1, fun s' hgrows => ?_⟩
      have htLen := (List.getElem?_eq_some_iff.mp hn).1
      have hn' : s'.nodes[t]? = some n := (hgrows.nodes t htLen).trans hn
      by_cases hany : fields.any (fieldToSubst s' bound) = true
      · obtain ⟨newfields, s₂, hcopy, hbuilds⟩ := hd (s'.copyNode n) (copyNode_grows hgrows n)
        have hself := finishStruct_node rules s₂ newfields (copyNode_node hbuilds.grows)
        obtain ⟨hgrown, hholds⟩ := record_builds (s₂.finishStruct rules s'.nodes.length newfields)
          hbuilds (by rw [TypeState.finishStruct, List.length_modify])
          (fun i hi => finishStruct_ne rules s₂ newfields hi) hself rfl rfl
        refine ⟨s'.nodes.length, s₂.finishStruct rules s'.nodes.length newfields, ?_, hgrown,
          hbuilds.cache, hbuilds.counter, ?_⟩
        · intro inst fuel hfuel
          obtain ⟨k, rfl⟩ : ∃ k, fuel = k + 1 := ⟨fuel - 1, by omega⟩
          rw [deepSubst_aggregate hn' hform, if_pos hany, hcopy inst k (by omega)]
          rfl
        · intro out hbase hnew ns hparsed ht
          obtain ⟨hout, hfields⟩ := hholds out hbase hnew
          have hsubst := hfields ns hparsed (hin ns hparsed ht)
          exact SubstOf.aggregate ((hparsed.nodes t ht).symm.trans hn) hform hout
            (by rw [TypeNode.setFields, hform]) hsubst.names hsubst.types
      · have hnone : ∀ f ∈ fields, fieldToSubst s' bound f = false := by
          simpa using hany
        refine ⟨t, s', ?_, Builds.none s s' fun out hbase ns hparsed ht => ?_⟩
        · intro inst fuel hfuel
          obtain ⟨k, rfl⟩ : ∃ k, fuel = k + 1 := ⟨fuel - 1, by omega⟩
          rw [deepSubst_aggregate hn' hform, if_neg hany]
        · refine SubstOf.aggregate ((hparsed.nodes t ht).symm.trans hn) hform
            ((hbase t htLen).trans hn) hform rfl ?_
          intro i f f' hf hf'
          obtain rfl := Option.some.inj (hf.symm.trans hf')
          have hmem := List.mem_of_getElem? hf
          exact closed_substOf hparsed
            (closed_of_not_fieldToSubst hgrows (hsupported f hmem) (hnone f hmem)) out

end Copy

/-- Nothing is to be substituted behind a pointer or an array, in an instance that is not found in
the cache. -/
def Supports (rules : GccRules) (s : TypeState) (tag : Ident) (types : List Nat) : Prop :=
  ∀ tmpl, s.templates.lookup tag = some tmpl →
    s.cached tag (typeSignature rules s types) = none →
      ∃ fields, s.fields tmpl.type = some fields ∧
        ∀ f ∈ fields, Supported rules s (bindTypes tmpl.params types) f.type

section Instances

variable {rules : GccRules} {s : TypeState} {tag : Ident} {types : List Nat} {tmpl : TypeTemplate}

theorem supported_instance {fields : List FieldDecl} (htmpl : s.templates.lookup tag = some tmpl)
    (hmiss : s.cached tag (typeSignature rules s types) = none)
    (hfields : s.fields tmpl.type = some fields)
    (h : ∀ f ∈ fields, Supported rules s (bindTypes tmpl.params types) f.type) :
    ∃ s' fields', SettlesTo atTop (fun fuel => czetInstantiateType rules fuel tag types s)
        (some s.nodes.length, s') ∧ Grows s s' ∧ s'.fields s.nodes.length = some fields' ∧
      FieldsTo s (bindTypes tmpl.params types) fields fields' s'.nodes := by
  obtain ⟨n, hn, hnode⟩ := Option.bind_eq_some_iff.mp hfields
  obtain ⟨d, hd⟩ := copyFields_copies fields fun f hf => supported_copies (h f hf)
  obtain ⟨newfields, s₂, hcopy, hbuilds⟩ := hd (s.copyNode n) (copyNode_grows (Grows.refl s) n)
  have hcopied := copyNode_node hbuilds.grows
  have hnamed := setTypeName_node { s₂ with counter := s₂.counter + 1 }
    (instanceTag tag s₂.counter) hcopied
  have hself := finishStruct_node rules _ newfields hnamed
  obtain ⟨hgrown, hholds⟩ := record_builds (builtState rules s s₂ tag types newfields) hbuilds
    (by simp only [builtState, TypeState.finishStruct, TypeState.setTypeName, List.length_modify])
    (fun i hi => (finishStruct_ne rules _ newfields hi).trans (setTypeName_ne _ _ hi)) hself rfl rfl
  obtain ⟨hout, hsubst⟩ := hholds _ (fun i hi => hgrown.nodes i hi) (fun _ _ _ => rfl)
  refine ⟨builtState rules s s₂ tag types newfields, newfields, ?_, hgrown, ?_, hsubst⟩
  · refine eventually_atTop.mpr ⟨d + 1, fun fuel hfuel => ?_⟩
    obtain ⟨k, rfl⟩ : ∃ k, fuel = k + 1 := ⟨fuel - 1, by omega⟩
    show czetInstantiateType rules (k + 1) tag types s = some (some s.nodes.length, _)
    rw [instantiate_miss htmpl hmiss hn, hnode, Option.getD_some,
      hcopy (czetInstantiateType rules k) k (by omega)]
    rfl
  · rw [TypeState.fields, hout, Option.bind_some]
    obtain ⟨form, name, size⟩ := n
    cases form <;> first | (cases hnode; done) | rfl

private theorem instantiate_found {r : Option Nat} {s' : TypeState}
    (hsettles : SettlesTo atTop (fun fuel => czetInstantiateType rules fuel tag types s) (r, s'))
    (h : s.templates.lookup tag = none ∨
      (s.cached tag (typeSignature rules s types)).isSome = true) : s' = s := by
  have hsame : ∃ r', SettlesTo atTop (fun fuel => czetInstantiateType rules fuel tag types s)
      (r', s) := by
    cases htmpl : s.templates.lookup tag with
    | none =>
        refine ⟨none, eventually_atTop.mpr ⟨1, fun fuel hfuel => ?_⟩⟩
        obtain ⟨k, rfl⟩ : ∃ k, fuel = k + 1 := ⟨fuel - 1, by omega⟩
        show czetInstantiateType rules (k + 1) tag types s = some (none, s)
        rw [czetInstantiateType, htmpl]
    | some tmpl =>
        rw [htmpl] at h
        obtain ⟨r', hr'⟩ := Option.isSome_iff_exists.mp (h.resolve_left (by simp))
        refine ⟨some r', eventually_atTop.mpr ⟨1, fun fuel hfuel => ?_⟩⟩
        obtain ⟨k, rfl⟩ : ∃ k, fuel = k + 1 := ⟨fuel - 1, by omega⟩
        show czetInstantiateType rules (k + 1) tag types s = some (some r', s)
        rw [czetInstantiateType, htmpl]
        simp only [hr']
  obtain ⟨r', hr'⟩ := hsame
  exact (Prod.mk.inj (hsettles.unique hr')).2

end Instances

/-- The parser makes nodes, registers a template, or instantiates one. -/
inductive TypeStep (rules : GccRules) (Meets : TypeState → Ident → List Nat → Prop) :
    TypeState → TypeState → Prop
  | parse (s : TypeState) (nodes : List TypeNode) :
      TypeStep rules Meets s { s with nodes := s.nodes ++ nodes }
  | register (s : TypeState) (tag : Ident) (tmpl : TypeTemplate) :
      TypeStep rules Meets s { s with templates := (tag, tmpl) :: s.templates }
  | instantiate {s s' : TypeState} {tag : Ident} {types : List Nat} {r : Option Nat}
      (hmeets : Meets s tag types)
      (h : SettlesTo atTop (fun fuel => czetInstantiateType rules fuel tag types s) (r, s')) :
      TypeStep rules Meets s s'

section Runs

variable {rules : GccRules} {parsed s s' : TypeState}

private theorem step_keeps (h : TypeStep rules (Supports rules) s s') :
    s.nodes.length ≤ s'.nodes.length ∧ ∀ i, i < s.nodes.length → s'.nodes[i]? = s.nodes[i]? := by
  cases h with
  | parse nodes =>
      refine ⟨by simp, fun i hi => ?_⟩
      exact List.getElem?_append_left hi
  | register tag tmpl => exact ⟨Nat.le_refl _, fun _ _ => rfl⟩
  | @instantiate _ tag types r hmeets hsettles =>
      cases htmpl : s.templates.lookup tag with
      | none =>
          obtain rfl := instantiate_found hsettles (Or.inl htmpl)
          exact ⟨Nat.le_refl _, fun _ _ => rfl⟩
      | some tmpl =>
          cases hcached : s.cached tag (typeSignature rules s types) with
          | some r' =>
              obtain rfl := instantiate_found hsettles (Or.inr (by rw [hcached]; rfl))
              exact ⟨Nat.le_refl _, fun _ _ => rfl⟩
          | none =>
              obtain ⟨fields, hfields, hsupported⟩ := hmeets tmpl htmpl hcached
              obtain ⟨s₁, -, hbuilt, hgrows, -, -⟩ :=
                supported_instance htmpl hcached hfields hsupported
              obtain ⟨-, rfl⟩ := Prod.mk.inj (hsettles.unique hbuilt)
              exact ⟨hgrows.length_le, hgrows.nodes⟩

private theorem run_keeps (h : Relation.ReflTransGen (TypeStep rules (Supports rules)) parsed s) :
    parsed.nodes.length ≤ s.nodes.length ∧
      ∀ i, i < parsed.nodes.length → s.nodes[i]? = parsed.nodes[i]? := by
  induction h with
  | refl => exact ⟨Nat.le_refl _, fun _ _ => rfl⟩
  | tail _ hstep ih =>
      obtain ⟨hlen, hnodes⟩ := step_keeps hstep
      refine ⟨by omega, fun i hi => ?_⟩
      rw [hnodes i (by omega), ih.2 i hi]

/-- In a run in which nothing is to be substituted behind a pointer or an array, no node changes, and
the fields of an instance are those of the template as it was parsed, with the arguments in place of
the parameters. -/
theorem instantiation_keeps_templates (rules : GccRules) (parsed s : TypeState)
    (hinside : ∀ t u, Child parsed.nodes t u → u < parsed.nodes.length)
    (hrun : Relation.ReflTransGen (TypeStep rules (Supports rules)) parsed s) :
    (∀ i, i < parsed.nodes.length → s.nodes[i]? = parsed.nodes[i]?) ∧
      ∀ tag types tmpl fields, s.templates.lookup tag = some tmpl →
        parsed.fields tmpl.type = some fields → Supports rules s tag types →
        s.cached tag (typeSignature rules s types) = none →
        ∃ r s' fields', SettlesTo atTop (fun fuel => czetInstantiateType rules fuel tag types s)
            (some r, s') ∧ s'.fields r = some fields' ∧
          FieldsSubst parsed.nodes s'.nodes (bindTypes tmpl.params types) fields fields' ∧
          ∀ i, i < s.nodes.length → s'.nodes[i]? = s.nodes[i]? := by
  obtain ⟨-, hkept⟩ := run_keeps hrun
  refine ⟨hkept, fun tag types tmpl fields htmpl hfields hsupports hmiss => ?_⟩
  obtain ⟨n, hn, hnode⟩ := Option.bind_eq_some_iff.mp hfields
  have hlt := (List.getElem?_eq_some_iff.mp hn).1
  obtain ⟨fields₀, hfields₀, hsupported⟩ := hsupports tmpl htmpl hmiss
  have hsame : s.fields tmpl.type = some fields := by
    rw [TypeState.fields, hkept _ hlt]
    exact hfields
  obtain rfl := Option.some.inj (hfields₀.symm.trans hsame)
  obtain ⟨s', fields', hsettles, hgrows, hbuilt, hsubst⟩ :=
    supported_instance htmpl hmiss hsame hsupported
  refine ⟨_, s', fields', hsettles, hbuilt, hsubst parsed.nodes ⟨hkept, hinside⟩ ?_, hgrows.nodes⟩
  intro f hf
  refine hinside tmpl.type f.type ⟨n, hn, ?_⟩
  obtain ⟨form, name, size⟩ := n
  cases form with
  | aggregate isUnion fields =>
      obtain rfl := Option.some.inj hnode
      exact List.mem_map_of_mem hf
  | _ => cases hnode

end Runs

section Boxes

private def wordRules : GccRules := ⟨fun _ _ fields => 64 * fields.length, 500, false⟩

private def parT : Ident := ⟨"T", by decide⟩

private def tagBox : Ident := ⟨"box", by decide⟩

private def intNode : TypeNode := { form := .integer, size := 32 }

private def doubleNode : TypeNode := { form := .other 10, size := 64 }

private def parNode : TypeNode := { form := .integer, name := some parT, size := 32 }

/-- `struct box<T> { T v; int n; };`, after `int` and `double`. -/
private def valueBox : TypeState where
  nodes := [intNode, doubleNode, parNode,
    { form := .aggregate false [⟨none, 2⟩, ⟨none, 0⟩], name := some tagBox }]
  templates := [(tagBox, ⟨[parT], 3⟩)]
  cache := []
  counter := 0
  integerType := 0

private theorem plain_leaf {s : TypeState} {bound : Bound} {t : Nat} {n : TypeNode}
    (hn : s.nodes[t]? = some n) (hname : n.name = none) (hform : n.form ≠ .tplType) :
    Plain s bound t := by
  obtain ⟨form, name, size⟩ := n
  obtain rfl : name = none := hname
  refine ⟨(List.getElem?_eq_some_iff.mp hn).1, ?_, ?_, ?_⟩
  · intro m hm
    obtain rfl := Option.some.inj (hn.symm.trans hm)
    exact hform
  · intro m p hm hp
    obtain rfl := Option.some.inj (hn.symm.trans hm)
    cases form <;> cases hp
  · rw [TypeState.genericRef, hn, Option.bind_some]
    cases form <;> rfl

private theorem inert_leaf {s : TypeState} {bound : Bound} {t : Nat} {n : TypeNode}
    (hn : s.nodes[t]? = some n) (hname : n.name = none) (hform : n.form = .integer ∨
      ∃ code, n.form = .other code) : Inert wordRules s bound t := by
  refine ⟨plain_leaf hn hname (by rcases hform with h | ⟨code, h⟩ <;> rw [h] <;> simp), ?_⟩
  intro u hu
  rw [TypeState.walkSlot, hn] at hu
  rcases hform with h | ⟨code, h⟩ <;> simp [h] at hu

private theorem valueBox_supports {s : TypeState} {c : Nat} {n : TypeNode}
    (htemplates : s.templates = valueBox.templates)
    (hnodes : ∀ i, i < 4 → s.nodes[i]? = valueBox.nodes[i]?) (hc : s.nodes[c]? = some n)
    (hname : n.name = none) (hform : n.form = .integer ∨ ∃ code, n.form = .other code) :
    Supports wordRules s tagBox [c] := by
  intro tmpl htmpl _
  rw [htemplates] at htmpl
  obtain rfl := Option.some.inj htmpl
  refine ⟨[⟨none, 2⟩, ⟨none, 0⟩], by rw [TypeState.fields, hnodes 3 (by decide)]; rfl, ?_⟩
  intro f hf
  simp only [List.mem_cons, List.not_mem_nil, or_false] at hf
  rcases hf with rfl | rfl
  · exact Supported.param (hnodes 2 (by decide)) rfl rfl (inert_leaf hc hname hform)
  · have hint : s.nodes[0]? = some intNode := hnodes 0 (by decide)
    refine Supported.closed (by rw [TypeState.fields, hint]; rfl) ?_
      (inert_leaf hint rfl (Or.inl rfl))
    intro u hu
    obtain rfl | ⟨v, ⟨m, hm, hv⟩, -⟩ := Relation.ReflTransGen.cases_head hu
    · exact plain_leaf hint rfl (by simp [intNode])
    · obtain rfl := Option.some.inj (hint.symm.trans hm)
      cases hv

private theorem settles_of_five {tag : Ident} {types : List Nat} {s : TypeState}
    {r : Option Nat × TypeState}
    (h : ∀ k, czetInstantiateType wordRules (k + 5) tag types s = some r) :
    SettlesTo atTop (fun fuel => czetInstantiateType wordRules fuel tag types s) r := by
  refine eventually_atTop.mpr ⟨5, fun fuel hfuel => ?_⟩
  obtain ⟨k, rfl⟩ : ∃ k, fuel = k + 5 := ⟨fuel - 5, by omega⟩
  exact h k

/-- `struct box<double>` after `struct box<int>`. -/
theorem value_box_instances :
    ∃ s, Relation.ReflTransGen (TypeStep wordRules (Supports wordRules)) valueBox s ∧
      s.nodes.length = 5 ∧ (∀ i, i < 4 → s.nodes[i]? = valueBox.nodes[i]?) ∧
      ∃ r s' fields', SettlesTo atTop
          (fun fuel => czetInstantiateType wordRules fuel tagBox [1] s) (some r, s') ∧
        s'.fields r = some fields' ∧
        FieldsSubst valueBox.nodes s'.nodes [(parT, 1)] [⟨none, 2⟩, ⟨none, 0⟩] fields' ∧
        ∀ i, i < s.nodes.length → s'.nodes[i]? = s.nodes[i]? := by
  have hint := valueBox_supports (s := valueBox) (c := 0) rfl (fun _ _ => rfl) rfl rfl (Or.inl rfl)
  have hrun := Relation.ReflTransGen.single (TypeStep.instantiate hint (settles_of_five fun k => rfl))
  refine ⟨_, hrun, rfl, ?_⟩
  have hinside : ∀ t u, Child valueBox.nodes t u → u < valueBox.nodes.length := by
    rintro t u ⟨n, hn, hu⟩
    have hall : ∀ t < 4, ∀ n ∈ valueBox.nodes[t]?, ∀ u ∈ n.children, u < 4 := by decide
    exact hall t (List.getElem?_eq_some_iff.mp hn).1 n hn u hu
  obtain ⟨hkept, hnext⟩ := instantiation_keeps_templates wordRules valueBox _ hinside hrun
  refine ⟨hkept, hnext tagBox [1] ⟨[parT], 3⟩ _ rfl rfl ?_ ?_⟩
  · exact valueBox_supports rfl hkept rfl rfl (Or.inr ⟨10, rfl⟩)
  · rfl

/-- `struct box<T> { T *p; };` -/
private def pointerBox : TypeState where
  nodes := [intNode, doubleNode, parNode, { form := .pointer 2, size := 64 },
    { form := .aggregate false [⟨none, 3⟩], name := some tagBox }]
  templates := [(tagBox, ⟨[parT], 4⟩)]
  cache := []
  counter := 0
  integerType := 0

private theorem par_not_int (out : List TypeNode) :
    ¬ SubstOf pointerBox.nodes out [(parT, 1)] 2 0 := by
  intro h
  cases h with
  | param ht hname hc =>
      obtain rfl := Option.some.inj ht
      obtain rfl := Option.some.inj hname
      cases hc
  | pointer ht hform =>
      obtain rfl := Option.some.inj ht
      cases hform
  | array ht hform =>
      obtain rfl := Option.some.inj ht
      cases hform
  | aggregate ht hform =>
      obtain rfl := Option.some.inj ht
      cases hform

private theorem pointer_to_int_not_subst {out : List TypeNode} {n : TypeNode}
    (hn : out[3]? = some n) (hform : n.form = .pointer 0) :
    ¬ SubstOf pointerBox.nodes out [(parT, 1)] 3 3 := by
  intro h
  cases h with
  | param ht hname =>
      obtain rfl := Option.some.inj ht
      cases hname
  | closed hclosed =>
      have hfree := hclosed 2 parNode parT (.single ⟨_, rfl, List.mem_cons_self⟩) rfl rfl
      cases hfree
  | pointer ht hpointer ht' hpointer' hsubst =>
      obtain rfl := Option.some.inj ht
      obtain rfl := TypeForm.pointer.inj hpointer
      obtain rfl := Option.some.inj (hn.symm.trans ht')
      obtain rfl := TypeForm.pointer.inj (hform.symm.trans hpointer')
      exact par_not_int out hsubst
  | array ht harray =>
      obtain rfl := Option.some.inj ht
      cases harray
  | aggregate ht hrecord =>
      obtain rfl := Option.some.inj ht
      cases hrecord

/-- The walk for `struct box<int>` writes `int` into the pointer node of the template, so that
`struct box<double>` has a pointer to `int`. -/
theorem pointer_box_keeps_int :
    ¬ ∀ s, Relation.ReflTransGen (TypeStep wordRules fun _ _ _ => True) pointerBox s →
      (∀ i, i < pointerBox.nodes.length → s.nodes[i]? = pointerBox.nodes[i]?) ∧
        ∀ tag types tmpl fields r s', s.templates.lookup tag = some tmpl →
          pointerBox.fields tmpl.type = some fields →
          s.cached tag (typeSignature wordRules s types) = none →
          SettlesTo atTop (fun fuel => czetInstantiateType wordRules fuel tag types s) (some r, s') →
          ∃ fields', s'.fields r = some fields' ∧
            FieldsSubst pointerBox.nodes s'.nodes (bindTypes tmpl.params types) fields fields' := by
  intro h
  have hrun : Relation.ReflTransGen (TypeStep wordRules fun _ _ _ => True) pointerBox _ :=
    Relation.ReflTransGen.single (@TypeStep.instantiate _ _ _ _ tagBox [0] _ trivial
      (settles_of_five fun k => rfl))
  obtain ⟨fields', hfields', hsubst⟩ := (h _ hrun).2 tagBox [1] ⟨[parT], 4⟩ _ _ _ rfl rfl rfl
    (settles_of_five fun k => rfl)
  obtain rfl := Option.some.inj hfields'
  have hfield := hsubst.types 0 _ _ rfl rfl
  exact pointer_to_int_not_subst rfl rfl hfield

end Boxes

end CZet.TypeNodes
