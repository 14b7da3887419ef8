/- source: src/gcc/gcc/c/c-parser.cc (czet_reflect_emit_chain, czet_reflect_record_fields),
     stdlib/utils/save_memory.h (sm_write_value)
   digest: The emission of metadata ends on every type graph, its records have all of their fields
     or none, and saving along metadata that was cut off fails. -/

import CZet.Reflect.Metadata
import CZet.Stdlib.SaveMemory

set_option autoImplicit false
set_option relaxedAutoImplicit false

namespace CZet.Reflect

open CZet.Lib.StreamCodec CZet.Stdlib

/-- The codes whose `TREE_TYPE` is emitted as `elem`. -/
def TypeNode.hasElem (n : TypeNode) : Bool :=
  n.code.isChained || n.code.isFunction

/-- The members are emitted at this depth. -/
def TypeNode.expands (n : TypeNode) (depth : Nat) : Bool :=
  n.code.isRecord && decide (depth < 2) && n.complete

/-- The calls of `czet_reflect_emit_chain` with their depth: the emission of `t` at `depth` ends with
the object `r`. -/
inductive EmitChain (types : Types) : Nat → TypeId → ReflectT → Prop
  | tooDeep (depth : Nat) (t : TypeId) (h : 8 < depth) : EmitChain types depth t .null
  | node (depth : Nat) (t : TypeId) (elem : ReflectT)
      (members : Fin (types t).fields.length → ReflectT) (h : depth ≤ 8)
      (inner : (types t).hasElem = true → EmitChain types (depth + 1) (types t).inner elem)
      (leaf : (types t).hasElem = false → elem = .null)
      (expanded : (types t).expands depth = true →
        ∀ i, EmitChain types (depth + 1) ((types t).fields.get i).type (members i)) :
      EmitChain types depth t
        (ReflectT.ofFields (czetReflectKind (types t).code) (reflectedSize (types t))
          (reflectedAlign (types t)) (czetReflectName (types t)) (czetReflectCount types (types t))
          elem
          (if (types t).expands depth = true then
            List.ofFn fun i =>
              { name := ((types t).fields.get i).name.getD ""
                offset := bytePosition ((types t).fields.get i)
                type := members i }
          else []))

section Termination

variable {types : Types}

private theorem emitChain_succ {depth left : Nat} (hdepth : depth + left = 8) (t : TypeId) :
    czetReflectEmitChain types (left + 1) t =
      ReflectT.ofFields (czetReflectKind (types t).code) (reflectedSize (types t))
        (reflectedAlign (types t)) (czetReflectName (types t)) (czetReflectCount types (types t))
        (if (types t).hasElem = true then czetReflectEmitChain types left (types t).inner else .null)
        (if (types t).expands depth = true then
          (types t).fields.map fun f =>
            { name := f.name.getD "", offset := bytePosition f,
              type := czetReflectEmitChain types left f.type }
        else []) := by
  have hleft : 8 - left = depth := by omega
  rw [czetReflectEmitChain, hleft]
  have hfields : (if (types t).expands depth = true then
      czetReflectRecordFields (czetReflectEmitChain types left) (types t) else []) =
      (if (types t).expands depth = true then
        (types t).fields.map fun f =>
          { name := f.name.getD "", offset := bytePosition f,
            type := czetReflectEmitChain types left f.type }
      else [] : List ReflectField) := by
    split
    next hexpands =>
      simp only [TypeNode.expands, Bool.and_eq_true] at hexpands
      rw [czetReflectRecordFields, if_pos hexpands.1.1]
    next => rfl
  rw [← hfields]
  rfl

private theorem ofFn_members {fields : List FieldDecl} (emit : TypeId → ReflectT) :
    (List.ofFn fun i : Fin fields.length =>
      ({ name := (fields.get i).name.getD "", offset := bytePosition (fields.get i),
         type := emit (fields.get i).type } : ReflectField)) =
      fields.map fun f =>
        { name := f.name.getD "", offset := bytePosition f, type := emit f.type } := by
  apply List.ext_getElem
  · simp
  · intro i h₁ h₂
    simp

theorem emitChain_iff (depth : Nat) (t : TypeId) (r : ReflectT) :
    EmitChain types depth t r ↔ r = czetReflectEmitChain types (9 - depth) t := by
  constructor
  · intro h
    induction h with
    | tooDeep depth t h =>
        have hzero : 9 - depth = 0 := by omega
        rw [hzero, czetReflectEmitChain]
    | node depth t elem members h inner leaf expanded ihInner ihExpanded =>
        have hleft : 9 - depth = (8 - depth) + 1 := by omega
        have hnext : 9 - (depth + 1) = 8 - depth := by omega
        rw [hleft, emitChain_succ (show depth + (8 - depth) = 8 by omega)]
        rw [hnext] at ihInner
        have helem : elem = if (types t).hasElem = true then
            czetReflectEmitChain types (8 - depth) (types t).inner else .null := by
          split
          next hhas => exact ihInner hhas
          next hhas => exact leaf (by simpa using hhas)
        rw [← helem]
        congr 1
        by_cases hexpands : (types t).expands depth = true
        · rw [if_pos hexpands, if_pos hexpands, ← ofFn_members]
          congr 1
          funext i
          rw [ihExpanded hexpands i, hnext]
        · rw [if_neg hexpands, if_neg hexpands]
  · rintro rfl
    generalize hleft : 9 - depth = left
    induction left generalizing depth t with
    | zero => exact EmitChain.tooDeep depth t (by omega)
    | succ left ih =>
        rw [emitChain_succ (show depth + left = 8 by omega), ← ofFn_members]
        apply EmitChain.node
        · omega
        · intro hhas
          rw [if_pos hhas]
          exact ih (depth + 1) _ (by omega)
        · intro hhas
          rw [hhas]
          rfl
        · intro hexpands i
          exact ih (depth + 1) _ (by omega)

end Termination

/-- The numbers of a struct or union node that is emitted at `depth`: `count` is the number of
`FIELD_DECL`s and the `fields` array has that many entries or is `NULL`. -/
structure RecordNode (n : TypeNode) (depth count entries : Nat) : Prop where
  counts : count = n.fields.length
  wholeOrNull : entries = count ∨ entries = 0
  whole : depth < 2 → n.complete = true → entries = count
  cut : 2 ≤ depth → entries = 0

/-- The metadata is that of `t` at `depth`, in every node. -/
def Describes (types : Types) : ReflectT → Nat → TypeId → Prop
  | .null, depth, _ => 8 < depth
  | .obj kind _ _ _ count elem entries fieldName fieldOffset fieldType, depth, t =>
      depth ≤ 8 ∧ kind = czetReflectKind (types t).code ∧
      (kind = 6 ∨ kind = 7 → RecordNode (types t) depth count entries) ∧
      (∀ i : Fin entries, ∃ f, (types t).fields[i.val]? = some f ∧ fieldName i = f.name.getD "" ∧
        fieldOffset i = bytePosition f ∧ Describes types (fieldType i) (depth + 1) f.type) ∧
      if (types t).hasElem = true then Describes types elem (depth + 1) (types t).inner
      else elem = .null

/-- The same for the value of `_Reflect`, whose parts are emitted at depth 0. -/
def DescribesTop (types : Types) (t : TypeId) : ReflectT → Prop
  | .null => False
  | .obj kind _ _ _ count elem entries fieldName fieldOffset fieldType =>
      (kind = 6 ∨ kind = 7 → RecordNode (types t) 0 count entries ∧ entries = count) ∧
      (∀ i : Fin entries,
        if (types t).code.isFunction = true then
          ∃ a, (reflectedParams types (types t))[i.val]? = some a ∧
            Describes types (fieldType i) 0 a
        else ∃ f, (types t).fields[i.val]? = some f ∧ fieldName i = f.name.getD "" ∧
          fieldOffset i = bytePosition f ∧ Describes types (fieldType i) 0 f.type) ∧
      (elem = .null ∨ Describes types elem 0 (types t).inner ∨
        kind = 10 ∧ Describes types elem 0 t)

section Nodes

variable {types : Types}

private theorem record_of_kind {c : TypeCode} (h : czetReflectKind c = 6 ∨ czetReflectKind c = 7) :
    c.isRecord = true := by
  cases c <;> simp_all [TypeCode.isRecord, czetReflectKind]

private theorem emittedKind_of_record {c : TypeCode} (h : c.isRecord = true) :
    czetReflectKind c = 6 ∨ czetReflectKind c = 7 := by
  cases c <;> simp_all [TypeCode.isRecord, czetReflectKind]

private theorem function_of_record {c : TypeCode} (h : c.isRecord = true) : c.isFunction = false := by
  cases c <;> simp_all [TypeCode.isRecord, TypeCode.isFunction]

private theorem count_of_record {n : TypeNode} (h : n.code.isRecord = true) :
    czetReflectCount types n = n.fields.length := by
  unfold czetReflectCount
  cases hcode : n.code <;> simp_all [TypeCode.isRecord]

private theorem describes_ofFields {kind : Int} {size align depth : Nat} {name : String}
    {count : Nat} {elem : ReflectT} {fields : List ReflectField} {t : TypeId} (hdepth : depth ≤ 8)
    (hkind : kind = czetReflectKind (types t).code)
    (hrecord : kind = 6 ∨ kind = 7 → RecordNode (types t) depth count fields.length)
    (hfields : ∀ (i : Nat) (x : ReflectField), fields[i]? = some x →
      ∃ f, (types t).fields[i]? = some f ∧
      x.name = f.name.getD "" ∧ x.offset = bytePosition f ∧
      Describes types x.type (depth + 1) f.type)
    (helem : if (types t).hasElem = true then Describes types elem (depth + 1) (types t).inner
      else elem = .null) :
    Describes types (ReflectT.ofFields kind size align name count elem fields) depth t := by
  rw [ReflectT.ofFields, Describes]
  refine ⟨hdepth, hkind, hrecord, ?_, helem⟩
  intro i
  exact hfields i.val _ (List.getElem?_eq_getElem i.isLt)

/-- Every node of an emission describes its type at its depth. -/
theorem emitChain_describes (left depth : Nat) (t : TypeId) (hleft : 9 - depth = left) :
    Describes types (czetReflectEmitChain types left t) depth t := by
  induction left generalizing depth t with
  | zero =>
      rw [czetReflectEmitChain, Describes]
      omega
  | succ left ih =>
      rw [emitChain_succ (show depth + left = 8 by omega)]
      apply describes_ofFields
      · omega
      · rfl
      · intro hkind
        have hrecord := record_of_kind hkind
        have hcount := @count_of_record types _ hrecord
        by_cases hexpands : (types t).expands depth = true
        · have hdepth : depth < 2 := by
            simp only [TypeNode.expands, Bool.and_eq_true, decide_eq_true_eq] at hexpands
            exact hexpands.1.2
          rw [if_pos hexpands, List.length_map]
          exact ⟨hcount, Or.inl hcount.symm, fun _ _ => hcount.symm, fun hcut => by omega⟩
        · rw [if_neg hexpands]
          refine ⟨hcount, Or.inr rfl, ?_, fun _ => rfl⟩
          intro hdepth hcomplete
          exact absurd (by simp [TypeNode.expands, hrecord, hdepth, hcomplete]) hexpands
      · intro i x hx
        split at hx
        next =>
          rw [List.getElem?_map, Option.map_eq_some_iff] at hx
          obtain ⟨f, hf, rfl⟩ := hx
          exact ⟨f, hf, rfl, rfl, ih (depth + 1) _ (by omega)⟩
        next => cases hx
      · split
        next => exact ih (depth + 1) _ (by omega)
        next => rfl

private theorem describesTop_ofFields {kind : Int} {size align : Nat} {name : String}
    {count : Nat} {elem : ReflectT} {fields : List ReflectField} {t : TypeId}
    (hrecord : kind = 6 ∨ kind = 7 →
      RecordNode (types t) 0 count fields.length ∧ fields.length = count)
    (hfields : ∀ (i : Nat) (x : ReflectField), fields[i]? = some x →
      if (types t).code.isFunction = true then
        ∃ a, (reflectedParams types (types t))[i]? = some a ∧ Describes types x.type 0 a
      else ∃ f, (types t).fields[i]? = some f ∧ x.name = f.name.getD "" ∧
        x.offset = bytePosition f ∧ Describes types x.type 0 f.type)
    (helem : elem = .null ∨ Describes types elem 0 (types t).inner ∨
      kind = 10 ∧ Describes types elem 0 t) :
    DescribesTop types t (ReflectT.ofFields kind size align name count elem fields) := by
  rw [ReflectT.ofFields, DescribesTop]
  refine ⟨hrecord, ?_, helem⟩
  intro i
  exact hfields i.val _ (List.getElem?_eq_getElem i.isLt)

end Nodes

section Expression

variable (types : Types)

def reflectsTypedef (spelling : Option (String × TypeId)) : Bool :=
  match spelling with
  | some (name, underlying) => decide (czetReflectName (types underlying) ≠ name)
  | none => false

/-- The type whose node `_Reflect` reads. -/
def reflectedType (target : TypeId) (spelling : Option (String × TypeId)) : TypeId :=
  match spelling with
  | some (_, underlying) => if reflectsTypedef types spelling then underlying else target
  | none => target

variable {types}

private theorem expression_shape (target : TypeId) (spelling : Option (String × TypeId)) :
    let t := reflectedType types target spelling
    let n := types t
    ∃ size align name, czetReflectExpression types target spelling =
      if n.code ≠ .voidType ∧ n.code.isFunction = false ∧ n.complete = false then
        .error (.incompleteType t)
      else .ok (ReflectT.ofFields
        (if reflectsTypedef types spelling = true then 10 else czetReflectKind n.code)
        size align name
        (if reflectsTypedef types spelling = true then 0 else czetReflectCount types n)
        (if n.code.isChained = true then czetReflectEmitChain types 9 n.inner
          else if reflectsTypedef types spelling = true then czetReflectEmitChain types 9 t
          else if n.code.isFunction = true then czetReflectEmitChain types 9 n.inner
          else .null)
        (if n.code.isFunction = true then
          (reflectedParams types n).mapIdx fun i a =>
            { name := "", offset := i, type := czetReflectEmitChain types 9 a }
        else czetReflectRecordFields (czetReflectEmitChain types 9) n)) :=
  ⟨_, _, _, rfl⟩

theorem expression_describes {target : TypeId} {spelling : Option (String × TypeId)}
    {r : ReflectT} (h : czetReflectExpression types target spelling = .ok r) :
    DescribesTop types (reflectedType types target spelling) r := by
  have hemit : ∀ t, Describes types (czetReflectEmitChain types 9 t) 0 t :=
    fun t => emitChain_describes 9 0 t rfl
  obtain ⟨size, align, name, hshape⟩ := @expression_shape types target spelling
  rw [hshape] at h
  split at h
  · cases h
  obtain rfl := Except.ok.inj h
  apply describesTop_ofFields
  · intro hkind
    split at hkind
    next => simp at hkind
    next hplain =>
      have hrecord := record_of_kind hkind
      have hfunction : (types (reflectedType types target spelling)).code.isFunction = false :=
        function_of_record hrecord
      have hcount := @count_of_record types _ hrecord
      rw [if_neg hplain, hcount, hfunction, if_neg Bool.false_ne_true, czetReflectRecordFields,
        if_pos hrecord, List.length_map]
      exact ⟨⟨rfl, Or.inl rfl, fun _ _ => rfl, fun hcut => by omega⟩, rfl⟩
  · intro i x hx
    split at hx
    next hfunction =>
      rw [if_pos hfunction]
      rw [List.getElem?_mapIdx, Option.map_eq_some_iff] at hx
      obtain ⟨a, ha, rfl⟩ := hx
      exact ⟨a, ha, hemit a⟩
    next hfunction =>
      rw [if_neg hfunction]
      rw [czetReflectRecordFields] at hx
      split at hx
      next =>
        rw [List.getElem?_map, Option.map_eq_some_iff] at hx
        obtain ⟨f, hf, rfl⟩ := hx
        exact ⟨f, hf, rfl, rfl, hemit f.type⟩
      next => cases hx
  · split
    next => exact Or.inr (Or.inl (hemit _))
    next =>
      split
      next => exact Or.inr (Or.inr ⟨rfl, hemit _⟩)
      next =>
        split
        next => exact Or.inr (Or.inl (hemit _))
        next => exact Or.inl rfl

end Expression

/-- The metadata of a part is missing: the node itself, or all of its fields. -/
def CutNode : ReflectT → Prop
  | .null => True
  | .obj kind _ _ _ count _ entries _ _ _ => (kind = 6 ∨ kind = 7) ∧ entries = 0 ∧ 0 < count

/-- The nodes of the metadata `r` on the paths that serialization takes. -/
inductive Serialized : ReflectT → ReflectT → Prop
  | here (r : ReflectT) : Serialized r r
  | element {kind : Int} {size align : Nat} {name : String} {count : Nat} {elem x : ReflectT}
      {entries : Nat} {fieldName : Fin entries → String} {fieldOffset : Fin entries → Nat}
      {fieldType : Fin entries → ReflectT} (hkind : kind = 5) (hcount : 0 < count)
      (h : Serialized elem x) :
      Serialized (.obj kind size align name count elem entries fieldName fieldOffset fieldType) x
  | member {kind : Int} {size align : Nat} {name : String} {count : Nat} {elem x : ReflectT}
      {entries : Nat} {fieldName : Fin entries → String} {fieldOffset : Fin entries → Nat}
      {fieldType : Fin entries → ReflectT} (hkind : kind = 6) (i : Fin entries)
      (h : Serialized (fieldType i) x) :
      Serialized (.obj kind size align name count elem entries fieldName fieldOffset fieldType) x
  | largest {kind : Int} {size align : Nat} {name : String} {count : Nat} {elem x : ReflectT}
      {entries : Nat} {fieldName : Fin entries → String} {fieldOffset : Fin entries → Nat}
      {fieldType : Fin entries → ReflectT} (hkind : kind = 7) (i : Fin entries)
      (hlargest : largestField fieldType = some i) (h : Serialized (fieldType i) x) :
      Serialized (.obj kind size align name count elem entries fieldName fieldOffset fieldType) x
  | underlying {kind : Int} {size align : Nat} {name : String} {count : Nat} {elem x : ReflectT}
      {entries : Nat} {fieldName : Fin entries → String} {fieldOffset : Fin entries → Nat}
      {fieldType : Fin entries → ReflectT} (hkind : kind = 10) (h : Serialized elem x) :
      Serialized (.obj kind size align name count elem entries fieldName fieldOffset fieldType) x

section Saving

variable (host : Host) (m : Image)

private theorem write_cut {x : ReflectT} (h : CutNode x) (p : Nat) (out : List UInt8) :
    smWriteValue host m x p out = none := by
  cases x with
  | null => rfl
  | obj kind size align name count elem entries fieldName fieldOffset fieldType =>
      obtain ⟨hkind, hentries, hcount⟩ := h
      have hscalar : ¬ (kind = 2 ∨ kind = 8 ∨ kind = 3) := by omega
      have harray : ¬ kind = 5 := by omega
      have hnonzero : ¬ count = 0 := by omega
      simp only [smWriteValue, if_neg hscalar, if_neg harray, if_pos hkind, if_pos hentries,
        if_neg hnonzero]

theorem write_serialized {r x : ReflectT} (h : Serialized r x)
    (hx : ∀ p out, smWriteValue host m x p out = none) (p : Nat) (out : List UInt8) :
    smWriteValue host m r p out = none := by
  induction h generalizing p out with
  | here r => exact hx p out
  | @element kind _ _ _ _ _ _ _ _ _ _ hkind hcount _ ih =>
      have hscalar : ¬ (kind = 2 ∨ kind = 8 ∨ kind = 3) := by omega
      simp only [smWriteValue, if_neg hscalar, if_pos hkind]
      split
      · rfl
      · refine writeAll_refuse (i := 0) (List.mem_range.mpr hcount) ?_ out
        intro out
        exact ih hx _ out
  | @member kind _ _ _ _ _ _ entries _ _ _ hkind i _ ih =>
      have hscalar : ¬ (kind = 2 ∨ kind = 8 ∨ kind = 3) := by omega
      have harray : ¬ kind = 5 := by omega
      have hunion : ¬ kind = 7 := by omega
      have hentries : ¬ entries = 0 := by
        rintro rfl
        exact i.elim0
      simp only [smWriteValue, if_neg hscalar, if_neg harray, if_pos (Or.inl hkind : kind = 6 ∨ _),
        if_neg hentries, if_neg hunion]
      exact writeAll_refuse (List.mem_finRange i) (fun out => ih hx _ out) out
  | @largest kind _ _ _ _ _ _ entries _ _ _ hkind i hlargest _ ih =>
      have hscalar : ¬ (kind = 2 ∨ kind = 8 ∨ kind = 3) := by omega
      have harray : ¬ kind = 5 := by omega
      have hentries : ¬ entries = 0 := by
        rintro rfl
        exact i.elim0
      simp only [smWriteValue, if_neg hscalar, if_neg harray, if_pos (Or.inr hkind : _ ∨ kind = 7),
        if_neg hentries, if_pos hkind, hlargest]
      exact ih hx _ out
  | @underlying kind _ _ _ _ _ _ _ _ _ _ hkind _ ih =>
      have hscalar : ¬ (kind = 2 ∨ kind = 8 ∨ kind = 3) := by omega
      have harray : ¬ kind = 5 := by omega
      have hrecord : ¬ (kind = 6 ∨ kind = 7) := by omega
      simp only [smWriteValue, if_neg hscalar, if_neg harray, if_neg hrecord, if_pos hkind]
      exact ih hx p out

end Saving

private theorem emitChain_cut {types : Types} {depth : Nat} {t : TypeId} {x : ReflectT}
    (h : EmitChain types depth t x) (hdepth : 2 ≤ depth) (hrecord : (types t).code.isRecord = true)
    (hfields : (types t).fields ≠ []) : CutNode x := by
  obtain rfl := (emitChain_iff depth t x).mp h
  have hdescribes := @emitChain_describes types (9 - depth) depth t rfl
  generalize czetReflectEmitChain types (9 - depth) t = x at hdescribes
  cases x with
  | null => trivial
  | obj kind size align name count elem entries fieldName fieldOffset fieldType =>
      obtain ⟨-, hkind, hnode, -⟩ := hdescribes
      have hrecordKind : kind = 6 ∨ kind = 7 := by
        rw [hkind]
        exact emittedKind_of_record hrecord
      have hcounts := hnode hrecordKind
      refine ⟨hrecordKind, hcounts.cut hdepth, ?_⟩
      rw [hcounts.counts]
      exact List.length_pos_iff.mpr hfields

/-- On every type graph the emission of metadata ends with one result; a struct or union that the
depth limit cuts off has a count and no fields; every other node of the value of `_Reflect`
describes its type, a struct or union with all of its fields in order or with none; and saving
along metadata that is cut anywhere on a path it takes fails. -/
theorem reflect_truncation_detected (types : Types) (target : TypeId)
    (spelling : Option (String × TypeId)) :
    (∀ depth t, ∃! x, EmitChain types depth t x) ∧
    (∀ depth t x, EmitChain types depth t x → 2 ≤ depth → (types t).code.isRecord = true →
      (types t).fields ≠ [] → CutNode x) ∧
    ∀ r, czetReflectExpression types target spelling = .ok r →
      DescribesTop types (reflectedType types target spelling) r ∧
      ∀ host m x, Serialized r x → CutNode x → smSaveR host m r = none := by
  refine ⟨?_, fun depth t x => emitChain_cut, ?_⟩
  · intro depth t
    refine ⟨_, (emitChain_iff depth t _).mpr rfl, ?_⟩
    intro x hx
    exact (emitChain_iff depth t x).mp hx
  · intro r hr
    refine ⟨expression_describes hr, ?_⟩
    intro host m x hpath hcut
    exact write_serialized host m hpath (write_cut host m hcut) 0 []

/-- `struct { struct { struct { struct { int x; } c; } b; } a; }`, outermost last. -/
def nestedStructs : Types := fun t =>
  if t = 0 then ⟨.integerType, true, 4, 4, some "int", 0, none, [], 0, []⟩
  else ⟨.recordType, true, 4, 4, none, 0, none, [⟨some "m", some 0, t - 1, none⟩], 0, []⟩

theorem nested_structs_refused :
    ∃ r, czetReflectExpression nestedStructs 4 none = .ok r ∧
      ∀ host m, smSaveR host m r = none := by
  refine ⟨_, rfl, ?_⟩
  intro host m
  refine ((reflect_truncation_detected nestedStructs 4 none).2.2 _ rfl).2 host m
    (czetReflectEmitChain nestedStructs 7 1) ?_ ⟨Or.inl rfl, rfl, by decide⟩
  refine Serialized.member rfl ⟨0, by decide⟩ ?_
  refine Serialized.member rfl ⟨0, by decide⟩ ?_
  refine Serialized.member rfl ⟨0, by decide⟩ ?_
  exact Serialized.here _

end CZet.Reflect
