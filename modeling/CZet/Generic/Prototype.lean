/- source: src/gcc/gcc/c/c-decl.cc (czet_materialize, czet_subst_type, czet_param_placeholder,
     czet_set_instantiation_bindings), src/gcc/gcc/c/c-parser.cc
     (c_parser_struct_or_union_specifier, czet_replay)
   digest: The prototype of a generic function computed at a call and by parsing its signature again
     with the parameters bound, and when the two are the same type. -/

import CZet.Generic.TypeInstance

set_option autoImplicit false
set_option relaxedAutoImplicit false

namespace CZet.Prototype

open CZet.TypeInstance CZet.Lib.KeyedMemo

/-- A type as it is written in a signature. -/
inductive Spelled
  | param (name : String)
  | concrete (type : TypeArg)
  | pointer (quals : Quals) (pointee : Spelled)
  | array (len : Option Nat) (elt : Spelled)
  | ref (tag : String) (args : List String)

/-- A type node: a placeholder, the record of a generic struct as it was parsed, or the record that
is cached for a generic struct under a signature. -/
inductive TypeNode
  | placeholder (name : String)
  | concrete (type : TypeArg)
  | pointer (quals : Quals) (pointee : TypeNode)
  | array (len : Option Nat) (elt : TypeNode)
  | template (tag : String)
  | cached (tag : String) (signature : List Char)

/-- The `hash_map` from parameter names to types; a later `put` replaces an earlier one. -/
def bindings (params : List String) (types : List TypeArg) (name : String) : Option TypeArg :=
  (params.zip types).reverse.lookup name

section Parse

variable (target : Target)

/-- `czet_param_placeholder` for a name that is a parameter. -/
def czetParamPlaceholder (bound : String → Option TypeArg) (name : String) : TypeNode :=
  match bound name with
  | some type => .concrete type
  | none => .placeholder name

/-- `czet_instantiate_type`, by the cache entry that it finds or makes. -/
def instantiated (tag : String) (types : List TypeArg) : TypeNode :=
  .cached tag (typeSignature target types)

/-- The parser on a spelled type: `active` while an instantiation is replayed. A use of a generic
struct with a placeholder among its arguments is left to the template when none is. -/
def parseType (active : Bool) (bound : String → Option TypeArg) : Spelled → TypeNode
  | .param name => czetParamPlaceholder bound name
  | .concrete type => .concrete type
  | .pointer quals t => .pointer quals (parseType active bound t)
  | .array len t => .array len (parseType active bound t)
  | .ref tag args =>
      if !active && args.any fun p => (bound p).isNone then .template tag
      else instantiated target tag (args.filterMap bound)

/-- The concrete arguments of a generic struct by its own parameter names, if all are bound. -/
def ownArguments (bound : String → Option TypeArg) : List String → Option (List TypeArg)
  | [] => some []
  | p :: ps =>
      match bound p with
      | none => none
      | some type => (ownArguments bound ps).map (type :: ·)

/-- `czet_subst_type`; `structParams tag` are the parameters of the generic struct `tag`. -/
def czetSubstType (structParams : String → List String) (bound : String → Option TypeArg) :
    TypeNode → TypeNode
  | .pointer quals t => .pointer quals (czetSubstType structParams bound t)
  | .array len t => .array len (czetSubstType structParams bound t)
  | .template tag =>
      match ownArguments bound (structParams tag) with
      | none | some [] => .template tag
      | some types => instantiated target tag types
  | .placeholder name =>
      match bound name with
      | some type => .concrete type
      | none => .placeholder name
  | t => t

end Parse

def Spelled.names : Spelled → List String
  | .param name => [name]
  | .concrete _ => []
  | .pointer _ t | .array _ t => t.names
  | .ref _ args => args

/-- The references to generic structs in a spelled type. -/
def Spelled.refs : Spelled → List (String × List String)
  | .param _ | .concrete _ => []
  | .pointer _ t | .array _ t => t.refs
  | .ref tag args => [(tag, args)]

/-- A generic function: its parameters and its signature, which names no other parameter. -/
structure GenericFn where
  params : List String
  ret : Spelled
  args : List Spelled
  variadic : Bool
  inScope : ∀ t ∈ ret :: args, ∀ p ∈ t.names, p ∈ params

/-- One concrete type for each parameter. -/
structure TypeList (fn : GenericFn) where
  types : List TypeArg
  arity : types.length = fn.params.length

structure FunctionType where
  ret : TypeNode
  args : List TypeNode
  variadic : Bool

variable (target : Target) (structParams : String → List String)

/-- The type of the template: its signature parsed without bindings. -/
def templateType (fn : GenericFn) : FunctionType :=
  ⟨parseType target false (fun _ => none) fn.ret,
    fn.args.map (parseType target false fun _ => none), fn.variadic⟩

/-- `czet_materialize`; the argument types it builds end in `void_list_node`. -/
def czetMaterialize (fn : GenericFn) (ts : TypeList fn) : FunctionType :=
  let bound := bindings fn.params ts.types
  let proto := templateType target fn
  ⟨czetSubstType target structParams bound proto.ret,
    proto.args.map (czetSubstType target structParams bound), false⟩

/-- The type of the definition that `czet_replay` parses. -/
def replayedType (fn : GenericFn) (ts : TypeList fn) : FunctionType :=
  let bound := bindings fn.params ts.types
  ⟨parseType target true bound fn.ret, fn.args.map (parseType target true bound), fn.variadic⟩

/-- The struct's own parameter names are bound, and the types bound to them have the cache signature
of the types bound to the arguments of the reference. -/
def RefAgrees (bound : String → Option TypeArg) (ref : String × List String) : Prop :=
  ref.2 = [] ∨ (structParams ref.1 ≠ [] ∧ (∀ p ∈ structParams ref.1, (bound p).isSome) ∧
    ¬ Distinguishes target 0 ((structParams ref.1).filterMap bound) (ref.2.filterMap bound))

theorem bindings_isSome (fn : GenericFn) (ts : TypeList fn) {p : String} (hp : p ∈ fn.params) :
    (bindings fn.params ts.types p).isSome := by
  have hmem : p ∈ ((fn.params.zip ts.types).reverse).map Prod.fst := by
    rw [List.map_reverse, List.mem_reverse, List.map_fst_zip (Nat.le_of_eq ts.arity.symm)]
    exact hp
  rw [bindings, Option.isSome_iff_ne_none, ne_eq, List.lookup_eq_none_iff]
  intro h
  obtain ⟨e, he, rfl⟩ := List.mem_map.mp hmem
  simpa using h e he

theorem ownArguments_eq (bound : String → Option TypeArg) (ps : List String) :
    ownArguments bound ps =
      if ∀ p ∈ ps, (bound p).isSome then some (ps.filterMap bound) else none := by
  induction ps with
  | nil => simp [ownArguments]
  | cons p ps ih =>
      rw [ownArguments]
      cases hp : bound p with
      | none => simp [hp]
      | some type =>
          rw [ih]
          split <;> simp_all

private theorem instantiated_eq_iff (tag : String) (as bs : List TypeArg) :
    instantiated target tag as = instantiated target tag bs ↔ ¬ Distinguishes target 0 as bs := by
  rw [← signaturePieces_eq_iff, ← typeSignature_eq_iff]
  simp [instantiated]

private theorem substRef_eq_iff {bound : String → Option TypeArg} (tag : String)
    {args : List String} (hne : args ≠ []) :
    czetSubstType target structParams bound (.template tag) =
        instantiated target tag (args.filterMap bound) ↔
      RefAgrees target structParams bound (tag, args) := by
  simp only [czetSubstType, ownArguments_eq, RefAgrees, hne, false_or]
  by_cases hall : ∀ p ∈ structParams tag, (bound p).isSome
  · rw [if_pos hall]
    cases hps : structParams tag with
    | nil => simp [instantiated]
    | cons p ps =>
        obtain ⟨type, htype⟩ := Option.isSome_iff_exists.mp (hall p (hps ▸ List.mem_cons_self))
        rw [hps] at hall
        rw [List.filterMap_cons_some htype]
        simp only [ne_eq, reduceCtorEq, not_false_eq_true, true_and]
        rw [instantiated_eq_iff]
        exact ⟨fun h => ⟨hall, h⟩, fun h => h.2⟩
  · rw [if_neg hall]
    simp [hall, instantiated]

theorem subst_eq_parse_iff {bound : String → Option TypeArg} (t : Spelled)
    (hnames : ∀ p ∈ t.names, (bound p).isSome) :
    czetSubstType target structParams bound (parseType target false (fun _ => none) t) =
        parseType target true bound t ↔
      ∀ ref ∈ t.refs, RefAgrees target structParams bound ref := by
  induction t with
  | param name =>
      obtain ⟨type, htype⟩ := Option.isSome_iff_exists.mp (hnames name (by simp [Spelled.names]))
      simp [parseType, czetParamPlaceholder, czetSubstType, Spelled.refs, htype]
  | concrete type => simp [parseType, czetSubstType, Spelled.refs]
  | pointer quals t ih => simpa [parseType, czetSubstType, Spelled.refs] using ih hnames
  | array len t ih => simpa [parseType, czetSubstType, Spelled.refs] using ih hnames
  | ref tag args =>
      cases args with
      | nil => simp [parseType, czetSubstType, Spelled.refs, RefAgrees, instantiated]
      | cons p ps =>
          rw [Spelled.refs, List.forall_mem_singleton,
            ← substRef_eq_iff target structParams tag (List.cons_ne_nil p ps)]
          simp [parseType]

theorem instantiated_eq_iff_record (uses : List (Request TypeUse))
    (hnest : allNotSelfNested (typeKey target) [] uses) {p q : TypeUse × Nat}
    (hp : p ∈ (instantiateTypes target uses).log) (hq : q ∈ (instantiateTypes target uses).log) :
    instantiated target p.1.tag p.1.types = instantiated target q.1.tag q.1.types ↔ p.2 = q.2 := by
  rw [typeInstance_eq_iff_key target uses hnest hp hq, ← signaturePieces_eq_iff,
    ← typeSignature_eq_iff]
  simp [instantiated]

section Signatures

private def boxParams : String → List String := fun _ => ["T", "U"]

/-- `A first<A, B>(struct box<A, B> *p)`. -/
private def first : GenericFn where
  params := ["A", "B"]
  ret := .param "A"
  args := [.pointer {} (.ref "box" ["A", "B"])]
  variadic := false
  inScope := by simp [Spelled.names]

end Signatures

end CZet.Prototype
