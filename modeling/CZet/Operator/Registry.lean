/- source: src/gcc/gcc/c/c-decl.cc (czet_operator_defs .. czet_lookup_operator),
     src/gcc/gcc/c/c-parser.cc (c_parser_operator_definition)
   digest: Overloads are registered under the type node that the definition spells and looked up
     under the main variant: the two agree exactly when every definition spells the tag. -/

import CZet.Operator.Rewrite
import Mathlib.Data.List.Induction
import Mathlib.Data.Option.Basic

set_option autoImplicit false
set_option relaxedAutoImplicit false

namespace CZet.Operator

/-- Type nodes: a main variant, the copy that a typedef names, and a qualified variant. -/
inductive TypeNode
  | main (type : CType)
  | typedefName (uid : Nat) (original : TypeNode)
  | qualified (quals : Nat) (unqualified : TypeNode)
  deriving DecidableEq, Repr

def TypeNode.mainVariant : TypeNode → CType
  | .main type => type
  | .typedefName _ original => original.mainVariant
  | .qualified _ unqualified => unqualified.mainVariant

structure OperatorDef where
  op : String
  mangle : String
  unary : Bool
  mutate : Bool
  bin : Option String
  deriving DecidableEq, Repr

def czetOperatorDefs : List OperatorDef :=
  [⟨"+", "plus", false, false, none⟩, ⟨"-", "minus", false, false, none⟩,
    ⟨"*", "mul", false, false, none⟩, ⟨"/", "div", false, false, none⟩,
    ⟨"%", "mod", false, false, none⟩, ⟨"==", "eq", false, false, none⟩,
    ⟨"!=", "ne", false, false, none⟩, ⟨"<", "lt", false, false, none⟩,
    ⟨">", "gt", false, false, none⟩, ⟨"<=", "le", false, false, none⟩,
    ⟨">=", "ge", false, false, none⟩, ⟨"&", "bitand", false, false, none⟩,
    ⟨"|", "bitor", false, false, none⟩, ⟨"^", "xor", false, false, none⟩,
    ⟨"<<", "lshift", false, false, none⟩, ⟨">>", "rshift", false, false, none⟩,
    ⟨"+=", "plus_assign", false, false, some "+"⟩, ⟨"-=", "minus_assign", false, false, some "-"⟩,
    ⟨"*=", "mul_assign", false, false, some "*"⟩, ⟨"/=", "div_assign", false, false, some "/"⟩,
    ⟨"%=", "mod_assign", false, false, some "%"⟩, ⟨"&=", "bitand_assign", false, false, some "&"⟩,
    ⟨"|=", "bitor_assign", false, false, some "|"⟩, ⟨"^=", "xor_assign", false, false, some "^"⟩,
    ⟨"<<=", "lshift_assign", false, false, some "<<"⟩,
    ⟨">>=", "rshift_assign", false, false, some ">>"⟩, ⟨"-", "uminus", true, false, none⟩,
    ⟨"!", "lnot", true, false, none⟩, ⟨"~", "bitnot", true, false, none⟩,
    ⟨"++", "pp", true, true, none⟩, ⟨"--", "mm", true, true, none⟩,
    ⟨"=", "assign", false, true, none⟩]

/-- The first entry of the table for an operator string. -/
def findOperatorDef (op : String) : Option OperatorDef :=
  czetOperatorDefs.find? fun d => d.op == op

def czetOperatorIsUnary (op : String) : Bool :=
  ((findOperatorDef op).map OperatorDef.unary).getD false

def czetOperatorIsUnaryMutating (op : String) : Bool :=
  ((findOperatorDef op).map OperatorDef.mutate).getD false

def czetOperatorIsAssign (op : String) : Bool :=
  op == "="

def czetOperatorBinForAssign (op : String) : Option String :=
  (czetOperatorDefs.find? fun d => d.op == op && d.bin.isSome).bind OperatorDef.bin

def czetOperatorMangleSuffix (op : String) (isUnary : Bool) : String :=
  match findOperatorDef op with
  | some d => if isUnary && d.op == "-" then "uminus" else d.mangle
  | none => op

inductive OperatorError
  | notUserDefined
  | emptyOperator
  | unsupported (op : String)
  | returnsValue (op : String)
  | alreadyDefined (op : String) (type : TypeNode)
  | invalidDefinition (type : TypeNode)
  deriving DecidableEq, Repr

/-- The text of the diagnostic, before its arguments are put in. -/
def OperatorError.text : OperatorError → String
  | .notUserDefined => "operator overloading is only supported for user-defined types"
  | .emptyOperator => "empty operator string"
  | .unsupported _ => "unsupported operator %<%s%>"
  | .returnsValue _ =>
      "operator %<%s%> cannot return a value; it modifies its operand in place"
  | .alreadyDefined _ _ => "operator %<%s%> already defined for type %qT"
  | .invalidDefinition _ => "invalid operator definition for type %qT"

/-- `return-type _Operator (Type, "op") { body }`.  The qualifiers of `Type` stay in its specifiers
and `type` is `specs->type`; `raw` is the string token with its quotes; `starts` says whether
`start_function` takes the declarator. -/
structure OperatorDefinition where
  returnSpecs : CType
  nptr : Nat
  quals : Nat
  type : TypeNode
  raw : String
  starts : Bool

/-- The operator string without its quotes, in a buffer of 16 bytes. -/
def opText (raw : String) : String :=
  let chars := raw.toList
  let op := if decide (2 ≤ chars.length) && chars.head? == some '"' then
    (chars.drop 1).take (chars.length - 2) else chars
  String.ofList (op.take 15)

def OperatorDefinition.op (d : OperatorDefinition) : String :=
  opText d.raw

def OperatorDefinition.suffix (d : OperatorDefinition) : String :=
  czetOperatorMangleSuffix d.op (czetOperatorIsUnary d.op)

def supportedOperator (op : String) : Bool :=
  (czetOperatorBinForAssign op).isSome || czetOperatorIsUnary op ||
    czetOperatorIsUnaryMutating op || czetOperatorIsAssign op ||
    czetOperatorMangleSuffix op (czetOperatorIsUnary op) != op

/-- The overloads registered so far, the next free uid and the diagnostics. -/
structure OperatorState where
  map : TypeNode → String → Option FnDecl
  nextUid : Nat
  errors : List OperatorError

def OperatorState.initial : OperatorState := ⟨fun _ _ => none, 0, []⟩

def OperatorState.errorAt (s : OperatorState) (e : OperatorError) : OperatorState :=
  { s with errors := s.errors ++ [e] }

def czetRegisterOperator (s : OperatorState) (type : TypeNode) (suffix : String) (fn : FnDecl) :
    OperatorState :=
  { s with map := fun n x => if n = type ∧ x = suffix then some fn else s.map n x }

def czetLookupOperator (s : OperatorState) (type : TypeNode) (suffix : String) : Option FnDecl :=
  s.map type suffix

def cParserOperatorDefinition (s : OperatorState) (d : OperatorDefinition) :
    Option FnDecl × OperatorState :=
  if czetOperableType d.type.mainVariant = false then (none, s.errorAt .notUserDefined)
  else if d.op = "" then (none, s.errorAt .emptyOperator)
  else if supportedOperator d.op = false then (none, s.errorAt (.unsupported d.op))
  else
    -- the diagnostic of a mutating operator with a value does not end the definition
    let s := if (czetOperatorIsUnaryMutating d.op || czetOperatorIsAssign d.op) &&
      decide (d.returnSpecs ≠ .void) then s.errorAt (.returnsValue d.op) else s
    match czetLookupOperator s d.type d.suffix with
    | some _ => (none, s.errorAt (.alreadyDefined d.op d.type))
    | none =>
        if d.starts then
          let fndecl : FnDecl := ⟨s.nextUid, pointers d.nptr d.returnSpecs⟩
          (some fndecl, czetRegisterOperator { s with nextUid := s.nextUid + 1 } d.type d.suffix
            fndecl)
        else (none, s.errorAt (.invalidDefinition d.type))

/-- The state after the definitions of a translation unit, in order. -/
def runDefinitions (ds : List OperatorDefinition) : OperatorState :=
  ds.foldl (fun s d => (cParserOperatorDefinition s d).2) .initial

/-- The definition is one that the parser takes unless its type has the operator already. -/
def OperatorDefinition.valid (d : OperatorDefinition) : Bool :=
  czetOperableType d.type.mainVariant && decide (d.op ≠ "") && supportedOperator d.op && d.starts

/-- A use of an operator in an expression. -/
inductive OperatorUse
  | binary (code : TreeCode)
  | unary (code : TreeCode)
  | modify (code : TreeCode)

def OperatorUse.suffix : OperatorUse → Option String
  | .binary code => czetBinaryOpSuffix code
  | .unary code => czetUnaryOpSuffix code
  | .modify code => modifySuffix code

/-- The overload that the rewriter finds for operands of a type. -/
def OperatorUse.overload (s : OperatorState) (use : OperatorUse) (type : TypeNode) :
    Option FnDecl :=
  use.suffix.bind (czetLookupOperator s (.main type.mainVariant))

/-- Registration and lookup agree on the types of the definitions `ds`: once a definition is taken,
every later use of its operator on operands of its type finds it, whatever their spelling, and a
second definition for its type is rejected as a duplicate. -/
structure SpellingsAgree (ds : List OperatorDefinition) : Prop where
  found : ∀ pre d mid post fn, ds = pre ++ d :: mid ++ post →
    (cParserOperatorDefinition (runDefinitions pre) d).1 = some fn →
    ∀ use : OperatorUse, use.suffix = some d.suffix →
    ∀ type : TypeNode, type.mainVariant = d.type.mainVariant →
      use.overload (runDefinitions (pre ++ d :: mid)) type = some fn
  duplicate : ∀ pre d mid d' post fn, ds = pre ++ d :: mid ++ d' :: post →
    (cParserOperatorDefinition (runDefinitions pre) d).1 = some fn →
    d'.valid = true → d'.suffix = d.suffix → d'.type.mainVariant = d.type.mainVariant →
      (cParserOperatorDefinition (runDefinitions (pre ++ d :: mid)) d').1 = none ∧
      .alreadyDefined d'.op d'.type ∈
        (cParserOperatorDefinition (runDefinitions (pre ++ d :: mid)) d').2.errors

section Definition

variable (s : OperatorState) (d : OperatorDefinition)

/-- What a definition does: it is taken and registered under the node it spells, or it changes no
overload. -/
theorem definition_cases :
    (∃ fn, (cParserOperatorDefinition s d).1 = some fn ∧ d.valid = true ∧
      fn.uid = s.nextUid ∧ fn.ret = pointers d.nptr d.returnSpecs ∧
      czetLookupOperator s d.type d.suffix = none ∧
      (cParserOperatorDefinition s d).2.nextUid = s.nextUid + 1 ∧
      ∀ n x, (cParserOperatorDefinition s d).2.map n x =
        if n = d.type ∧ x = d.suffix then some fn else s.map n x) ∨
    ((cParserOperatorDefinition s d).1 = none ∧
      (cParserOperatorDefinition s d).2.nextUid = s.nextUid ∧
      (cParserOperatorDefinition s d).2.map = s.map ∧
      (d.valid = true → (czetLookupOperator s d.type d.suffix).isSome = true ∧
        .alreadyDefined d.op d.type ∈ (cParserOperatorDefinition s d).2.errors)) := by
  unfold cParserOperatorDefinition
  by_cases hoper : czetOperableType d.type.mainVariant = false
  · rw [if_pos hoper]
    exact Or.inr ⟨rfl, rfl, rfl, fun hv => by simp [OperatorDefinition.valid, hoper] at hv⟩
  rw [if_neg hoper]
  by_cases hempty : d.op = ""
  · rw [if_pos hempty]
    exact Or.inr ⟨rfl, rfl, rfl, fun hv => by simp [OperatorDefinition.valid, hempty] at hv⟩
  rw [if_neg hempty]
  by_cases hsupp : supportedOperator d.op = false
  · rw [if_pos hsupp]
    exact Or.inr ⟨rfl, rfl, rfl, fun hv => by simp [OperatorDefinition.valid, hsupp] at hv⟩
  rw [if_neg hsupp]
  generalize hs' : (if (czetOperatorIsUnaryMutating d.op || czetOperatorIsAssign d.op) &&
    decide (d.returnSpecs ≠ .void) then s.errorAt (.returnsValue d.op) else s) = s'
  dsimp only
  have hmap : s'.map = s.map := by
    rw [← hs']
    split <;> rfl
  have huid : s'.nextUid = s.nextUid := by
    rw [← hs']
    split <;> rfl
  have hlookup : czetLookupOperator s' d.type d.suffix = czetLookupOperator s d.type d.suffix := by
    rw [czetLookupOperator, hmap]
    rfl
  cases hfound : czetLookupOperator s d.type d.suffix with
  | some old =>
      rw [hlookup, hfound]
      refine Or.inr ⟨rfl, huid, hmap, fun _ => ⟨rfl, ?_⟩⟩
      exact List.mem_append_right _ List.mem_cons_self
  | none =>
      rw [hlookup, hfound]
      cases hstarts : d.starts with
      | false =>
          refine Or.inr ⟨rfl, huid, hmap, fun hv => ?_⟩
          simp [OperatorDefinition.valid, hstarts] at hv
      | true =>
          refine Or.inl ⟨⟨s'.nextUid, pointers d.nptr d.returnSpecs⟩, rfl, ?_, huid, rfl, rfl, ?_, ?_⟩
          · simp only [OperatorDefinition.valid, hstarts, Bool.and_true, Bool.and_eq_true,
              decide_eq_true_eq]
            exact ⟨⟨by simpa using hoper, hempty⟩, by simpa using hsupp⟩
          · show s'.nextUid + 1 = s.nextUid + 1
            rw [huid]
          · intro n x
            show (if n = d.type ∧ x = d.suffix then _ else s'.map n x) = _
            rw [hmap]

variable {s d}

private theorem definition_keeps {n : TypeNode} {x : String} {fn : FnDecl}
    (h : s.map n x = some fn) : (cParserOperatorDefinition s d).2.map n x = some fn := by
  rcases definition_cases s d with ⟨fn', -, -, -, -, hnone, -, hmap⟩ | ⟨-, -, hmap, -⟩
  · rw [hmap]
    split
    next hkey =>
      obtain ⟨rfl, rfl⟩ := hkey
      rw [czetLookupOperator, h] at hnone
      cases hnone
    next => exact h
  · rw [hmap]
    exact h

end Definition

section Runs

variable {ds pre mid : List OperatorDefinition} {d : OperatorDefinition}

private theorem runDefinitions_append :
    runDefinitions (pre ++ mid) =
      mid.foldl (fun s d => (cParserOperatorDefinition s d).2) (runDefinitions pre) := by
  rw [runDefinitions, List.foldl_append]
  rfl

private theorem runDefinitions_concat :
    runDefinitions (pre ++ [d]) = (cParserOperatorDefinition (runDefinitions pre) d).2 := by
  rw [runDefinitions_append]
  rfl

private theorem run_keeps {n : TypeNode} {x : String} {fn : FnDecl}
    (h : (runDefinitions pre).map n x = some fn) :
    (runDefinitions (pre ++ mid)).map n x = some fn := by
  induction mid using List.reverseRecOn with
  | nil =>
      rw [List.append_nil]
      exact h
  | append_singleton mid d ih =>
      rw [← List.append_assoc, runDefinitions_concat]
      exact definition_keeps ih

private theorem run_uid_lt {n : TypeNode} {x : String} {fn : FnDecl}
    (h : (runDefinitions ds).map n x = some fn) : fn.uid < (runDefinitions ds).nextUid := by
  induction ds using List.reverseRecOn with
  | nil => cases h
  | append_singleton pre d ih =>
      rw [runDefinitions_concat] at h ⊢
      rcases definition_cases (runDefinitions pre) d with
        ⟨fn', -, -, huid, -, -, hnext, hmap⟩ | ⟨-, hnext, hmap, -⟩
      · rw [hmap] at h
        split at h
        next =>
          obtain rfl := Option.some.inj h
          omega
        next =>
          have hlt := ih h
          omega
      · rw [hmap] at h
        rw [hnext]
        exact ih h

private theorem run_registered {n : TypeNode} {x : String} {fn : FnDecl}
    (h : (runDefinitions ds).map n x = some fn) :
    ∃ pre d post, ds = pre ++ d :: post ∧ d.type = n ∧ d.suffix = x ∧ d.valid = true ∧
      (cParserOperatorDefinition (runDefinitions pre) d).1 = some fn := by
  induction ds using List.reverseRecOn with
  | nil => cases h
  | append_singleton pre d ih =>
      have hearlier : (runDefinitions pre).map n x = some fn →
          ∃ pre' d' post, pre ++ [d] = pre' ++ d' :: post ∧ d'.type = n ∧ d'.suffix = x ∧
            d'.valid = true ∧ (cParserOperatorDefinition (runDefinitions pre') d').1 = some fn := by
        intro hpre
        obtain ⟨pre', d', post, rfl, hrest⟩ := ih hpre
        exact ⟨pre', d', post ++ [d], by simp, hrest⟩
      rw [runDefinitions_concat] at h
      rcases definition_cases (runDefinitions pre) d with
        ⟨fn', htaken, hvalid, -, -, -, -, hmap⟩ | ⟨-, -, hmap, -⟩
      · rw [hmap] at h
        split at h
        next hkey =>
          obtain rfl := Option.some.inj h
          exact ⟨pre, d, [], rfl, hkey.1.symm, hkey.2.symm, hvalid, htaken⟩
        next => exact hearlier h
      · rw [hmap] at h
        exact hearlier h

private theorem taken_registered {fn : FnDecl}
    (h : (cParserOperatorDefinition (runDefinitions pre) d).1 = some fn) :
    (runDefinitions (pre ++ d :: mid)).map d.type d.suffix = some fn := by
  have hsplit : pre ++ d :: mid = (pre ++ [d]) ++ mid := by simp
  rw [hsplit]
  apply run_keeps
  rw [runDefinitions_concat]
  rcases definition_cases (runDefinitions pre) d with
    ⟨fn', htaken, -, -, -, -, -, hmap⟩ | ⟨hrejected, -⟩
  · rw [hmap, if_pos ⟨rfl, rfl⟩, ← htaken]
    exact h
  · rw [hrejected] at h
    cases h

end Runs

section Table

private theorem mangle_used : ∀ e ∈ czetOperatorDefs, ∃ use : OperatorUse,
    use.suffix = some e.mangle := by
  have hcodes : ∀ e ∈ czetOperatorDefs, e.mangle ∈
      [TreeCode.plus, .minus, .mult, .truncDiv, .truncMod, .eq, .ne, .lt, .gt, .le, .ge, .bitAnd,
        .bitIor, .bitXor, .lshift, .rshift].filterMap czetBinaryOpSuffix ++
      [TreeCode.negate, .truthNot, .bitNot, .preIncrement, .preDecrement].filterMap
        czetUnaryOpSuffix ++
      [TreeCode.nop, .plus, .minus, .mult, .truncDiv, .truncMod, .bitAnd, .bitIor, .bitXor,
        .lshift, .rshift].filterMap modifySuffix := by
    decide
  intro e he
  have hmem := hcodes e he
  simp only [List.mem_append, List.mem_filterMap] at hmem
  rcases hmem with (⟨code, -, hcode⟩ | ⟨code, -, hcode⟩) | ⟨code, -, hcode⟩
  · exact ⟨.binary code, hcode⟩
  · exact ⟨.unary code, hcode⟩
  · exact ⟨.modify code, hcode⟩

private theorem supported_in_table {op : String} (h : supportedOperator op = true) :
    ∃ e, findOperatorDef op = some e := by
  cases hfind : findOperatorDef op with
  | some e => exact ⟨e, rfl⟩
  | none =>
      have habsent : ∀ e ∈ czetOperatorDefs, ¬ e.op = op := by
        simpa [findOperatorDef] using hfind
      have hbin : czetOperatorBinForAssign op = none := by
        have hnone : (czetOperatorDefs.find? fun e => e.op == op && e.bin.isSome) = none := by
          rw [List.find?_eq_none]
          intro e he
          simp [habsent e he]
        rw [czetOperatorBinForAssign, hnone]
        rfl
      have hassign : czetOperatorIsAssign op = false := by
        have hne : ¬ "=" = op := habsent ⟨"=", "assign", false, true, none⟩ (by decide)
        rw [czetOperatorIsAssign, beq_eq_false_iff_ne]
        exact fun heq => hne heq.symm
      simp [supportedOperator, hbin, hassign, czetOperatorIsUnary, czetOperatorIsUnaryMutating,
        czetOperatorMangleSuffix, hfind] at h

/-- Every operator that can be defined has uses that look up its suffix. -/
theorem supported_used {op : String} (h : supportedOperator op = true) :
    ∃ use : OperatorUse, use.suffix = some (czetOperatorMangleSuffix op
      (czetOperatorIsUnary op)) := by
  obtain ⟨e, he⟩ := supported_in_table h
  rw [czetOperatorMangleSuffix, he]
  dsimp only
  split
  · exact ⟨.unary .negate, rfl⟩
  · exact mangle_used e (List.mem_of_find?_eq_some he)

end Table

private theorem taken_valid {s : OperatorState} {d : OperatorDefinition} {fn : FnDecl}
    (h : (cParserOperatorDefinition s d).1 = some fn) : d.valid = true := by
  rcases definition_cases s d with ⟨fn', -, hvalid, -⟩ | ⟨hrejected, -⟩
  · exact hvalid
  · rw [hrejected] at h
    cases h

private theorem taken_spells_tag {pre : List OperatorDefinition} {d : OperatorDefinition}
    {fn : FnDecl} (htaken : (cParserOperatorDefinition (runDefinitions pre) d).1 = some fn)
    (hfound : (runDefinitions (pre ++ [d])).map (.main d.type.mainVariant) d.suffix = some fn) :
    d.type = .main d.type.mainVariant := by
  rcases definition_cases (runDefinitions pre) d with
    ⟨fn', htaken', -, huid, -, -, -, hmap⟩ | ⟨hrejected, -⟩
  · obtain rfl : fn' = fn := Option.some.inj (htaken'.symm.trans htaken)
    rw [runDefinitions_concat, hmap] at hfound
    split at hfound
    next hkey => exact hkey.1.symm
    next =>
      -- the overload is new, so no earlier definition registered it
      have hlt := run_uid_lt hfound
      omega
  · rw [hrejected] at htaken
    cases htaken

/-- Overloads are found for every spelling of their type, and second definitions rejected, exactly
when every definition that the parser can take spells its type by the tag. -/
theorem spellings_agree_iff (ds : List OperatorDefinition) :
    SpellingsAgree ds ↔ ∀ d ∈ ds, d.valid = true → d.type = .main d.type.mainVariant := by
  constructor
  · intro h d hd hvalid
    -- some definition under the node of `d` is taken: `d` itself, or the one it repeats
    have htaken : ∃ pre d₀ post fn, ds = pre ++ d₀ :: post ∧ d₀.type = d.type ∧
        d₀.valid = true ∧ (cParserOperatorDefinition (runDefinitions pre) d₀).1 = some fn := by
      obtain ⟨pre, post, rfl⟩ := List.append_of_mem hd
      rcases definition_cases (runDefinitions pre) d with ⟨fn, htaken, -⟩ | ⟨-, -, -, hdup⟩
      · exact ⟨pre, d, post, fn, rfl, rfl, hvalid, htaken⟩
      · obtain ⟨fn, hfn⟩ := Option.isSome_iff_exists.mp (hdup hvalid).1
        obtain ⟨pre₀, d₀, mid, rfl, htype, -, hvalid₀, htaken⟩ := run_registered hfn
        exact ⟨pre₀, d₀, mid ++ d :: post, fn, by simp, htype, hvalid₀, htaken⟩
    obtain ⟨pre, d₀, post, fn, rfl, htype, hvalid₀, htaken⟩ := htaken
    rw [← htype]
    apply taken_spells_tag htaken
    have hsupp : supportedOperator d₀.op = true := by
      simp only [OperatorDefinition.valid, Bool.and_eq_true] at hvalid₀
      exact hvalid₀.1.2
    obtain ⟨use, huse⟩ := supported_used hsupp
    have hfound := h.found pre d₀ [] post fn (by simp) htaken use huse d₀.type rfl
    rw [OperatorUse.overload, huse] at hfound
    exact hfound
  · intro h
    constructor
    · intro pre d mid post fn hds htaken use huse type htype
      have htag := h d (by simp [hds]) (taken_valid htaken)
      have hreg := @taken_registered _ mid _ _ htaken
      rw [htag] at hreg
      rw [OperatorUse.overload, huse, htype]
      exact hreg
    · intro pre d mid d' post fn hds htaken hvalid hsuffix htype
      have htag := h d (by simp [hds]) (taken_valid htaken)
      have htag' := h d' (by simp [hds]) hvalid
      have hreg := @taken_registered _ mid _ _ htaken
      rw [htag, ← htype, ← htag', ← hsuffix] at hreg
      rcases definition_cases (runDefinitions (pre ++ d :: mid)) d' with
        ⟨fn', -, -, -, -, hnone, -⟩ | ⟨hrejected, -, -, hdup⟩
      · rw [czetLookupOperator, hreg] at hnone
        cases hnone
      · exact ⟨hrejected, (hdup hvalid).2⟩

/-- `typedef struct S V; V _Operator (V, "+") { … }`, then the same for `struct S`. -/
def typedefDefinitions : List OperatorDefinition :=
  [⟨.record 0, 0, 0, .typedefName 0 (.main (.record 0)), "\"+\"", true⟩,
    ⟨.record 0, 0, 0, .main (.record 0), "\"+\"", true⟩]

/-- The overload of the typedef is not found for its own type, and the second definition is taken. -/
theorem typedef_overload_lost :
    ¬ SpellingsAgree typedefDefinitions ∧
      OperatorUse.overload (runDefinitions (typedefDefinitions.take 1)) (.binary .plus)
        (.typedefName 0 (.main (.record 0))) = none ∧
      (cParserOperatorDefinition (runDefinitions (typedefDefinitions.take 1))
        ⟨.record 0, 0, 0, .main (.record 0), "\"+\"", true⟩).1 = some ⟨1, .record 0⟩ := by
  refine ⟨?_, by decide, by decide⟩
  intro h
  have hfound := h.found [] _ [] _ ⟨0, .record 0⟩ rfl (by decide) (.binary .plus) (by decide)
    (.main (.record 0)) rfl
  exact absurd hfound (by decide)

section Rewriter

/-- The registered overloads of `++`, `--` and `=` return nothing. -/
def OperatorState.ReturnsNoValue (s : OperatorState) : Prop :=
  ∀ n suffix fn, s.map n suffix = some fn → suffix ∈ ["pp", "mm", "assign"] →
    ∃ nptr, fn.ret = pointers nptr .void

private theorem mutating_of_suffix {op : String} (hsupp : supportedOperator op = true)
    (h : czetOperatorMangleSuffix op (czetOperatorIsUnary op) ∈ ["pp", "mm", "assign"]) :
    czetOperatorIsUnaryMutating op = true := by
  obtain ⟨e, he⟩ := supported_in_table hsupp
  have htable : ∀ e ∈ czetOperatorDefs, e.mangle ∈ ["pp", "mm", "assign"] → e.mutate = true := by
    decide
  have hmutate : czetOperatorIsUnaryMutating op = e.mutate := by
    simp [czetOperatorIsUnaryMutating, he]
  rw [hmutate]
  rw [czetOperatorMangleSuffix, he] at h
  dsimp only at h
  split at h
  · exact absurd h (by decide)
  · exact htable e (List.mem_of_find?_eq_some he) h

private theorem definition_silent {s : OperatorState} {d : OperatorDefinition}
    (h : (cParserOperatorDefinition s d).2.errors = []) :
    s.errors = [] ∧ (czetOperatorIsUnaryMutating d.op = true → d.returnSpecs = .void) := by
  have hgrow : ∀ (s : OperatorState) (e : OperatorError), (s.errorAt e).errors ≠ [] := by
    intro s e
    simp [OperatorState.errorAt]
  unfold cParserOperatorDefinition at h
  split at h
  · exact absurd h (hgrow s _)
  split at h
  · exact absurd h (hgrow s _)
  split at h
  · exact absurd h (hgrow s _)
  by_cases hvalue : ((czetOperatorIsUnaryMutating d.op || czetOperatorIsAssign d.op) &&
      decide (d.returnSpecs ≠ .void)) = true
  · rw [if_pos hvalue] at h
    dsimp only at h
    split at h
    · exact absurd h (hgrow _ _)
    · split at h
      · exact absurd h (hgrow s _)
      · exact absurd h (hgrow _ _)
  · refine ⟨?_, fun hmut => by simpa [hmut] using hvalue⟩
    rw [if_neg hvalue] at h
    dsimp only at h
    split at h
    · exact absurd h (hgrow s _)
    · split at h
      · exact h
      · exact absurd h (hgrow s _)

private theorem definition_returnsNoValue {s : OperatorState} {d : OperatorDefinition}
    (h : (cParserOperatorDefinition s d).2.errors = []) (hs : s.ReturnsNoValue) :
    (cParserOperatorDefinition s d).2.ReturnsNoValue := by
  intro n suffix fn hfn hmem
  rcases definition_cases s d with ⟨fn', -, hvalid, -, hret, -, -, hmap⟩ | ⟨-, -, hmap, -⟩
  · rw [hmap] at hfn
    split at hfn
    next hkey =>
      obtain rfl := Option.some.inj hfn
      have hsupp : supportedOperator d.op = true := by
        simp only [OperatorDefinition.valid, Bool.and_eq_true] at hvalid
        exact hvalid.1.2
      rw [hkey.2, OperatorDefinition.suffix] at hmem
      have hvoid := (definition_silent h).2 (mutating_of_suffix hsupp hmem)
      exact ⟨d.nptr, by rw [hret, hvoid]⟩
    next => exact hs n suffix fn hfn hmem
  · rw [hmap] at hfn
    exact hs n suffix fn hfn hmem

theorem run_returnsNoValue {ds : List OperatorDefinition} (h : (runDefinitions ds).errors = []) :
    (runDefinitions ds).ReturnsNoValue := by
  induction ds using List.reverseRecOn with
  | nil =>
      intro n suffix fn hfn
      cases hfn
  | append_singleton pre d ih =>
      rw [runDefinitions_concat] at h ⊢
      exact definition_returnsNoValue h (ih (definition_silent h).1)

/-- What the rewriter consults after a translation unit without diagnostics. -/
def registryEnv (ds : List OperatorDefinition) (h : (runDefinitions ds).errors = [])
    (completeType : CType → Bool) (cfun : Bool) : OpEnv where
  czetLookupOperator type suffix := czetLookupOperator (runDefinitions ds) (.main type) suffix
  completeType := completeType
  cfun := cfun
  returns_no_value hfn hmem := run_returnsNoValue h _ _ _ hfn hmem

theorem rewriter_calls_registered {pre mid : List OperatorDefinition} {d : OperatorDefinition}
    {fn : FnDecl} (htaken : (cParserOperatorDefinition (runDefinitions pre) d).1 = some fn)
    (htag : d.type = .main d.type.mainVariant)
    (herrors : (runDefinitions (pre ++ d :: mid)).errors = [])
    {completeType : CType → Bool} {cfun : Bool} {loc : Nat} {code : TreeCode} {op0 op1 t : Tree}
    (hcode : czetBinaryOpSuffix code = some d.suffix) (hop0 : op0.type = d.type.mainVariant)
    (hbuild : czetRewriteBinaryOp (registryEnv (pre ++ d :: mid) herrors completeType cfun) loc
      code op0 op1 = some t) :
    ∃ a0 a1, t = .callExpr loc fn [a0, a1] := by
  simp only [czetRewriteBinaryOp, Option.bind_eq_bind, Option.bind_eq_some_iff] at hbuild
  obtain ⟨suffix, hsuffix, -, -, -, -, fn', hfn', m0, -, m1, -, a0, -, a1, -, ht⟩ := hbuild
  obtain rfl : d.suffix = suffix := Option.some.inj (hcode.symm.trans hsuffix)
  have hreg := @taken_registered _ mid _ _ htaken
  rw [htag, ← hop0] at hreg
  obtain rfl : fn = fn' := Option.some.inj (hreg.symm.trans hfn')
  exact ⟨a0, a1, (Option.some.inj ht).symm⟩

end Rewriter

end CZet.Operator
