/- source: src/gcc/gcc/c/c-decl.cc (czet_subst_walk, czet_copy_field, czet_deep_subst,
     czet_instantiate_type), src/gcc/gcc/tree.cc (walk_type_fields)
   digest: The type nodes of a translation unit and the instantiation of generic structs and unions,
     which copies some of the nodes and writes into others. -/

import CZet.Generic.Names
import Mathlib.Logic.Relation

set_option autoImplicit false
set_option relaxedAutoImplicit false

namespace CZet.TypeNodes

open CZet.Names (GenName)

/-- A `FIELD_DECL`: its name, if it has one, and the node of its type. -/
structure FieldDecl where
  name : Option Ident
  type : Nat
  deriving DecidableEq

/-- What a type node holds besides its name and size.  A type of any other code, function types
among them, is a leaf. -/
inductive TypeForm
  | tplType
  | integer
  | pointer (target : Nat)
  | array (elt : Nat) (len : Option Nat)
  | aggregate (isUnion : Bool) (fields : List FieldDecl)
  | other (code : Nat)
  deriving DecidableEq

/-- A type node: `name` is its `TYPE_NAME` where that is an `IDENTIFIER_NODE`, `size` is its
`TYPE_SIZE` in bits, zero where it has none. -/
structure TypeNode where
  form : TypeForm
  name : Option Ident := none
  size : Nat := 0
  deriving DecidableEq

/-- The rest of the compiler: the size that `finish_struct` lays out, the number of
`CZET_TPL_TYPE`, and whether `walk_tree` goes on into an array whose elements are pointers. -/
structure GccRules where
  layout : List TypeNode → Bool → List FieldDecl → Nat
  tplCode : Nat
  pointerArrays : Bool

/-- A registered generic struct or union. -/
structure TypeTemplate where
  params : List Ident
  type : Nat

structure TypeState where
  nodes : List TypeNode
  templates : List (Ident × TypeTemplate)
  /-- `czet_type_inst_cache`: tag, signature and record, the newest first. -/
  cache : List (Ident × List Char × Nat)
  counter : Nat
  integerType : Nat

/-- `TREE_TYPE` of a pointer or array. -/
def TypeNode.treeType (n : TypeNode) : Option Nat :=
  match n.form with
  | .pointer u | .array u _ => some u
  | _ => none

def TypeNode.setTreeType (n : TypeNode) (u : Nat) : TypeNode :=
  match n.form with
  | .pointer _ => { n with form := .pointer u }
  | .array _ len => { n with form := .array u len }
  | _ => n

/-- `TYPE_FIELDS` of a struct or union. -/
def TypeNode.fields (n : TypeNode) : Option (List FieldDecl) :=
  match n.form with
  | .aggregate _ fields => some fields
  | _ => none

def TypeNode.setFields (n : TypeNode) (fields : List FieldDecl) : TypeNode :=
  match n.form with
  | .aggregate isUnion _ => { n with form := .aggregate isUnion fields }
  | _ => n

def TypeNode.isUnion (n : TypeNode) : Bool :=
  match n.form with
  | .aggregate isUnion _ => isUnion
  | _ => false

def TypeNode.isPointer (n : TypeNode) : Bool :=
  match n.form with
  | .pointer _ => true
  | _ => false

/-- The name of a type parameter: that of a `CZET_TPL_TYPE`, or of an integer type that is named
by an identifier. -/
def TypeNode.paramName (n : TypeNode) : Option Ident :=
  match n.form with
  | .tplType | .integer => n.name
  | _ => none

/-- The tag of a struct or union. -/
def TypeNode.tag (n : TypeNode) : Option Ident :=
  match n.form with
  | .aggregate _ _ => n.name
  | _ => none

def TypeNode.treeCode (rules : GccRules) (n : TypeNode) : Nat :=
  match n.form with
  | .tplType => rules.tplCode
  | .integer => 8
  | .pointer _ => 11
  | .array _ _ => 17
  | .aggregate false _ => 18
  | .aggregate true _ => 19
  | .other code => code

/-- The nodes that a node refers to. -/
def TypeNode.children (n : TypeNode) : List Nat :=
  match n.form with
  | .pointer u | .array u _ => [u]
  | .aggregate _ fields => fields.map FieldDecl.type
  | _ => []

/-- One node refers to another. -/
def Child (ns : List TypeNode) (t u : Nat) : Prop := ∃ n, ns[t]? = some n ∧ u ∈ n.children

namespace TypeState

def fields (s : TypeState) (t : Nat) : Option (List FieldDecl) := s.nodes[t]?.bind TypeNode.fields

def isPointer (s : TypeState) (t : Nat) : Bool := (s.nodes[t]?.map TypeNode.isPointer).getD false

/-- The template that a struct or union node is a reference to. -/
def genericRef (s : TypeState) (t : Nat) : Option (Ident × TypeTemplate) :=
  (s.nodes[t]?.bind TypeNode.tag).bind fun tag => (s.templates.lookup tag).map (tag, ·)

/-- The `TREE_TYPE` slot that `walk_type_fields` goes on to. -/
def walkSlot (rules : GccRules) (s : TypeState) (t : Nat) : Option Nat :=
  match s.nodes[t]?.map TypeNode.form with
  | some (.pointer u) => some u
  | some (.array u _) => if rules.pointerArrays || !s.isPointer u then some u else none
  | _ => none

def setTreeType (s : TypeState) (t u : Nat) : TypeState :=
  { s with nodes := s.nodes.modify t (·.setTreeType u) }

/-- `*tp = t'`, where `tp` is the address of a variable or of the `TREE_TYPE` slot of a node, which
holds `t`. -/
def store (s : TypeState) (slot : Option Nat) (t t' : Nat) : TypeState :=
  match slot with
  | some p => if t' = t then s else s.setTreeType p t'
  | none => s

/-- `copy_node`, with `TYPE_SIZE` cleared. -/
def copyNode (s : TypeState) (n : TypeNode) : TypeState :=
  { s with nodes := s.nodes ++ [{ n with size := 0 }] }

/-- `finish_struct`. -/
def finishStruct (rules : GccRules) (s : TypeState) (t : Nat) (fields : List FieldDecl) :
    TypeState :=
  { s with nodes := s.nodes.modify t fun n =>
      { n.setFields fields with size := rules.layout s.nodes n.isUnion fields } }

def setTypeName (s : TypeState) (t : Nat) (name : Ident) : TypeState :=
  { s with nodes := s.nodes.modify t fun n => { n with name := some name } }

end TypeState

/-- The map from the names of type parameters to concrete types. -/
abbrev Bound := List (Ident × Nat)

/-- `put` for each parameter in turn: of two equal names the last one counts. -/
def bindTypes (params : List Ident) (types : List Nat) : Bound := (params.zip types).reverse

/-- The type that takes the place of the type `t`. -/
def substPlaceholder (s : TypeState) (bound : Bound) (t : Nat) : Nat :=
  match s.nodes[t]? with
  | some ⟨.tplType, some name, _⟩ => (bound.lookup name).getD s.integerType
  | some ⟨.tplType, none, _⟩ => s.integerType
  | some ⟨.integer, some name, _⟩ => (bound.lookup name).getD t
  | _ => t

/-- A call of `czet_instantiate_type`, which gives a node or `NULL_TREE`. -/
abbrev Instantiate := Ident → List Nat → TypeState → Option (Option Nat × TypeState)

/-- The arguments for the template `tmpl`, by the names of its own parameters. -/
def referenceTypes (s : TypeState) (bound : Bound) (tmpl : TypeTemplate) : List Nat :=
  tmpl.params.map fun p => (bound.lookup p).getD s.integerType

/-- The callback of the walk on a slot that holds `t`: what the slot holds then, and
`*walk_subtrees`. -/
def czetSubstWalk (inst : Instantiate) (bound : Bound) (t : Nat) (s : TypeState) :
    Option (Nat × Bool × TypeState) :=
  match s.genericRef t with
  | some (tag, tmpl) => do
      match ← inst tag (referenceTypes s bound tmpl) s with
      | (some i, s') => some (i, false, s')
      | (none, s') => some (substPlaceholder s' bound t, true, s')
  | none => some (substPlaceholder s bound t, true, s)

/-- `walk_tree` with `czet_subst_walk`, on a slot that holds `t`: what the slot holds then. -/
def walkTree (rules : GccRules) (inst : Instantiate) (bound : Bound) :
    Nat → Option Nat → Nat → TypeState → Option (Nat × TypeState)
  | 0, _, _, _ => none
  | fuel + 1, slot, t, s => do
      let (t', subtrees, s₁) ← czetSubstWalk inst bound t s
      let s₂ := s₁.store slot t t'
      if subtrees then
        match s₂.walkSlot rules t' with
        | none => some (t', s₂)
        | some u => do
            let (_, s₃) ← walkTree rules inst bound fuel (some t') u s₂
            some (t', s₃)
      else some (t', s₂)

/-- The test for a field whose type is a type parameter or a struct or union. -/
def fieldToSubst (s : TypeState) (bound : Bound) (f : FieldDecl) : Bool :=
  match s.nodes[f.type]? with
  | some ⟨.tplType, _, _⟩ | some ⟨.aggregate _ _, _, _⟩ => true
  | some ⟨.integer, some name, _⟩ => (bound.lookup name).isSome
  | _ => false

/-- `czet_copy_field`, with the substitution in its type as a parameter. -/
def czetCopyField (subst : Nat → TypeState → Option (Nat × TypeState)) (f : FieldDecl)
    (s : TypeState) : Option (FieldDecl × TypeState) := do
  let (ft, s') ← subst f.type s
  some ({ f with type := ft }, s')

def copyFields (subst : Nat → TypeState → Option (Nat × TypeState)) :
    List FieldDecl → TypeState → Option (List FieldDecl × TypeState)
  | [], s => some ([], s)
  | f :: fields, s => do
      let (nf, s') ← czetCopyField subst f s
      let (newfields, s'') ← copyFields subst fields s'
      some (nf :: newfields, s'')

def czetDeepSubst (rules : GccRules) (inst : Instantiate) (bound : Bound) :
    Nat → Nat → TypeState → Option (Nat × TypeState)
  | 0, _, _ => none
  | fuel + 1, t, s =>
      match s.nodes[t]? with
      | some ⟨.aggregate isUnion fields, name, size⟩ =>
          if fields.any (fieldToSubst s bound) then do
            let (newfields, s') ← copyFields (czetDeepSubst rules inst bound fuel) fields
              (s.copyNode ⟨.aggregate isUnion fields, name, size⟩)
            some (s.nodes.length, s'.finishStruct rules s.nodes.length newfields)
          else some (t, s)
      | _ => walkTree rules inst bound fuel none t s

/-- The text `"%d|%s|%lu;"` of one type argument, cut at the length of its buffer. -/
def signaturePiece (rules : GccRules) (n : Option TypeNode) : List Char :=
  ((toString ((n.map (TypeNode.treeCode rules)).getD 0)).toList ++
    '|' :: (((n.bind TypeNode.name).map Ident.name).getD "").toList ++
    '|' :: (toString ((n.map TypeNode.size).getD 0 % 2 ^ 64)).toList ++ [';']).take 127

/-- The loop that fills `sig[1024]`; it stops at the first piece that does not fit. -/
def fillSignature : List Char → List (List Char) → List Char
  | sig, [] => sig
  | sig, piece :: pieces =>
      if 1024 ≤ sig.length + piece.length then sig else fillSignature (sig ++ piece) pieces

def typeSignature (rules : GccRules) (s : TypeState) (types : List Nat) : List Char :=
  fillSignature [] (types.map fun t => signaturePiece rules s.nodes[t]?)

def TypeState.cached (s : TypeState) (tag : Ident) (sig : List Char) : Option Nat :=
  (s.cache.find? fun e => e.1 = tag ∧ e.2.1 = sig).map fun e => e.2.2

theorem genName_chars (tag : Ident) (n : Nat) :
    (String.ofList (GenName.mk tag.name n).inBuffer).toList.all identChar = true := by
  rw [String.toList_ofList, GenName.inBuffer, GenName.text, List.all_eq_true]
  intro c hc
  rcases List.mem_append.mp (List.mem_of_mem_take hc) with hc | hc
  · rcases List.mem_append.mp hc with hc | hc
    · exact List.all_eq_true.mp tag.chars c hc
    · exact List.all_eq_true.mp (by decide : "__czet".toList.all identChar = true) c hc
  · by_contra hident
    refine not_mem_decimal (c := c) ?_ n hc
    rw [Bool.eq_false_iff]
    intro hdigit
    exact hident (by simp [identChar, Char.isAlphanum, hdigit])

/-- The name of an instance; the counter is an `unsigned long`. -/
def instanceTag (tag : Ident) (counter : Nat) : Ident :=
  ⟨String.ofList (GenName.mk tag.name (counter % 2 ^ 64)).inBuffer, genName_chars tag _⟩

/-- `fuel` bounds the depth of nested instantiations. -/
def czetInstantiateType (rules : GccRules) :
    Nat → Ident → List Nat → TypeState → Option (Option Nat × TypeState)
  | 0, _, _, _ => none
  | fuel + 1, tag, types, s =>
      match s.templates.lookup tag with
      | none => some (none, s)
      | some tmpl =>
          match s.cached tag (typeSignature rules s types) with
          | some r => some (some r, s)
          | none => do
              let n ← s.nodes[tmpl.type]?
              let nt := s.nodes.length
              let (newfields, s') ← copyFields
                (czetDeepSubst rules (czetInstantiateType rules fuel)
                  (bindTypes tmpl.params types) fuel) (n.fields.getD []) (s.copyNode n)
              let s'' := (({ s' with counter := s'.counter + 1 } : TypeState).setTypeName nt
                (instanceTag tag s'.counter)).finishStruct rules nt newfields
              some (some nt,
                { s'' with cache := (tag, typeSignature rules s types, nt) :: s''.cache })

section Steps

variable {rules : GccRules} {s : TypeState} {bound : Bound} {t : Nat} {tag : Ident}
  {types : List Nat} {tmpl : TypeTemplate}

theorem finishStruct_node (rules : GccRules) (s : TypeState) {n : TypeNode}
    (fields : List FieldDecl) (ht : s.nodes[t]? = some n) :
    (s.finishStruct rules t fields).nodes[t]? =
      some { n.setFields fields with size := rules.layout s.nodes n.isUnion fields } := by
  simp only [TypeState.finishStruct, List.getElem?_modify, ht, if_true]
  rfl

theorem finishStruct_ne (rules : GccRules) (s : TypeState) (fields : List FieldDecl)
    {i : Nat} (hi : i ≠ t) : (s.finishStruct rules t fields).nodes[i]? = s.nodes[i]? := by
  simp only [TypeState.finishStruct, List.getElem?_modify, if_neg (Ne.symm hi)]
  exact Option.map_id'

theorem setTypeName_node {n : TypeNode} (s : TypeState) (name : Ident)
    (ht : s.nodes[t]? = some n) :
    (s.setTypeName t name).nodes[t]? = some { n with name := some name } := by
  simp only [TypeState.setTypeName, List.getElem?_modify, ht, if_true]
  rfl

theorem setTypeName_ne (s : TypeState) (name : Ident) {i : Nat} (hi : i ≠ t) :
    (s.setTypeName t name).nodes[i]? = s.nodes[i]? := by
  simp only [TypeState.setTypeName, List.getElem?_modify, if_neg (Ne.symm hi)]
  exact Option.map_id'

theorem deepSubst_walk {s' : TypeState} (h : s'.fields t = none) (inst : Instantiate)
    (k : Nat) : czetDeepSubst rules inst bound (k + 1) t s' =
      walkTree rules inst bound k none t s' := by
  rw [czetDeepSubst]
  split
  next isUnion fields name size hnode =>
    rw [TypeState.fields, hnode] at h
    cases h
  next => rfl

theorem deepSubst_aggregate {s' : TypeState} {n : TypeNode} {isUnion : Bool}
    {fields : List FieldDecl} (hn : s'.nodes[t]? = some n)
    (hform : n.form = .aggregate isUnion fields)
    (inst : Instantiate) (k : Nat) : czetDeepSubst rules inst bound (k + 1) t s' =
      if fields.any (fieldToSubst s' bound) then
        (copyFields (czetDeepSubst rules inst bound k) fields (s'.copyNode n)).map fun r =>
          (s'.nodes.length, r.2.finishStruct rules s'.nodes.length r.1)
      else some (t, s') := by
  obtain ⟨form, name, size⟩ := n
  obtain rfl : form = _ := hform
  rw [czetDeepSubst, hn]
  simp only
  congr 1
  cases copyFields (czetDeepSubst rules inst bound k) fields
    (s'.copyNode ⟨.aggregate isUnion fields, name, size⟩) <;> rfl

/-- The state after an instance whose fields are copied. -/
def builtState (rules : GccRules) (s s₂ : TypeState) (tag : Ident) (types : List Nat)
    (newfields : List FieldDecl) : TypeState :=
  let s₃ := (({ s₂ with counter := s₂.counter + 1 } : TypeState).setTypeName s.nodes.length
    (instanceTag tag s₂.counter)).finishStruct rules s.nodes.length newfields
  { s₃ with cache := (tag, typeSignature rules s types, s.nodes.length) :: s₃.cache }

theorem instantiate_miss {n : TypeNode} (htmpl : s.templates.lookup tag = some tmpl)
    (hmiss : s.cached tag (typeSignature rules s types) = none) (hn : s.nodes[tmpl.type]? = some n)
    (fuel : Nat) : czetInstantiateType rules (fuel + 1) tag types s =
      (copyFields (czetDeepSubst rules (czetInstantiateType rules fuel)
        (bindTypes tmpl.params types) fuel) (n.fields.getD []) (s.copyNode n)).map fun r =>
          (some s.nodes.length, builtState rules s r.2 tag types r.1) := by
  rw [czetInstantiateType, htmpl]
  simp only [hmiss, hn, Option.bind_eq_bind, Option.bind_some]
  cases copyFields (czetDeepSubst rules (czetInstantiateType rules fuel)
    (bindTypes tmpl.params types) fuel) (n.fields.getD []) (s.copyNode n) <;> rfl

end Steps

end CZet.TypeNodes
