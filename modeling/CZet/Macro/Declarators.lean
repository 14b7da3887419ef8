/- source: src/gcc/gcc/c/c-parser.cc (c_czet_hygienize, c_czet_hyg_type_kw,
     c_czet_hyg_qualifier)
   digest: The block-scope declarations of an expansion and the names that hygiene makes fresh: the
     later declarators of a list are recognised only through a namesake. -/

import CZet.Macro.Hygiene
import CZet.Macro.SplitLanguage

set_option autoImplicit false
set_option relaxedAutoImplicit false

namespace CZet

/-- The qualifiers that the code lists, `_Atomic`, and the other spellings of these. -/
def isQualifier (t : CToken) : Bool :=
  cCzetHygQualifier t ||
    cCzetHygKw t ["_Atomic", "__const", "__const__", "__volatile", "__volatile__", "__restrict",
      "__restrict__", "__inline", "__inline__"]

/-- The keywords of the type specifiers: those that the code lists, and the others that need no
operand. -/
def isTypeKw (t : CToken) : Bool :=
  cCzetHygTypeKw t ||
    cCzetHygKw t ["__signed", "__signed__", "__complex", "__complex__", "__int128", "_Float16",
      "_Float32", "_Float64", "_Float128", "_Float32x", "_Float64x", "_Float128x", "_Decimal32",
      "_Decimal64", "_Decimal128", "_Decimal64x", "_Fract", "_Accum", "_Sat", "__auto_type"]

def isPointerPart (t : CToken) : Bool := decide (t.type = .mult) || isQualifier t

/-- A plain name with `*` and qualifiers in front of it, and an optional initializer. -/
structure InitDeclarator where
  pointers : List MarkedToken
  name : MarkedToken
  init : List MarkedToken

def InitDeclarator.tokens (d : InitDeclarator) : List MarkedToken := d.pointers ++ d.name :: d.init

structure InitDeclarator.WellFormed (d : InitDeclarator) : Prop where
  pointers : ∀ m ∈ d.pointers, isPointerPart m.1 = true
  name : d.name.1.type = .name
  init : d.init = [] ∨ ∃ e seg, d.init = e :: seg ∧ e.1.type = .eq ∧
    RunSegment true (seg.map Prod.fst)

/-- A declaration seen from one of its declarators; the others stand with their commas. -/
structure Declaration where
  specs : List MarkedToken
  earlier : List (InitDeclarator × MarkedToken)
  declarator : InitDeclarator
  later : List (MarkedToken × InitDeclarator)
  stop : MarkedToken

/-- The tokens in front of the name. -/
def Declaration.before (d : Declaration) : List MarkedToken :=
  d.specs ++ d.earlier.flatMap (fun e => e.1.tokens ++ [e.2]) ++ d.declarator.pointers

/-- The tokens behind the name. -/
def Declaration.after (d : Declaration) : List MarkedToken :=
  d.declarator.init ++ d.later.flatMap (fun e => e.1 :: e.2.tokens) ++ [d.stop]

structure Declaration.WellFormed (d : Declaration) : Prop where
  specs : ∀ m ∈ d.specs, isTypeKw m.1 = true ∨ isQualifier m.1 = true
  typed : ∃ m ∈ d.specs, isTypeKw m.1 = true
  earlier : ∀ e ∈ d.earlier, e.1.WellFormed ∧ e.2.1.type = .comma
  declarator : d.declarator.WellFormed
  later : ∀ e ∈ d.later, e.1.1.type = .comma ∧ e.2.WellFormed
  stop : d.stop.1.type = .semicolon

/-- The nearest tokens of `before` open the member list of a struct or union. -/
def opensMembers (before : List CToken) : Bool :=
  match before with
  | k :: rest =>
      cCzetHygKw k ["struct", "union"] ||
        (decide (k.type = .name) && (rest.head?.any fun k => cCzetHygKw k ["struct", "union"]))
  | [] => false

/-- For every open brace, the innermost first, whether it opens a member list. -/
def openBraces : List CToken → List CToken → List Bool → List Bool
  | _, [], stack => stack
  | before, t :: ts, stack =>
      openBraces (t :: before) ts
        (match t.type with
        | .openBrace => opensMembers before :: stack
        | .closeBrace => stack.tail
        | _ => stack)

/-- A declaration may start behind `pre`, and it declares no members there. -/
structure StartsBlockDeclaration (pre : List CToken) : Prop where
  boundary : ∀ t, pre.getLast? = some t →
    t.type ∈ [.semicolon, .openBrace, .closeBrace, .openParen, .colon] ∨
      cCzetHygKw t ["static", "register", "auto", "_Thread_local", "__thread", "thread_local"] = true
  block : (openBraces [] pre []).head? ≠ some true

/-- The body declares the name `t`. -/
def Declares (out before : List MarkedToken) (t : CToken) (after : List MarkedToken) : Prop :=
  out = before ++ (t, false) :: after ∧
    ∃ (pre : List MarkedToken) (d : Declaration) (post : List MarkedToken),
      StartsBlockDeclaration (pre.map Prod.fst) ∧ d.WellFormed ∧ d.declarator.name = (t, false) ∧
        before = pre ++ d.before ∧ after = d.after ++ post

/-- Every declared name that does not stand behind a known type keyword, up to `*` and qualifiers,
has the spelling of a recognised one. -/
def NamesakesRecognised (out : List MarkedToken) : Prop :=
  ∀ before t after, Declares out before t after →
    behindTypeKw (before.map Prod.fst).reverse = false → Binds out t.identifierPointer

/-- The `k`-th expansion declares `s` at its position `i`. -/
def DeclaredIn (outs : List (List MarkedToken)) (k i : Nat) (s : String) : Prop :=
  ∃ out before t after, outs[k]? = some out ∧ Declares out before t after ∧ before.length = i ∧
    t.identifierPointer = s

/-- The name at position `i` of the `k`-th expansion after hygiene. -/
def emittedName (gen : Nat) (outs : List (List MarkedToken)) (k i : Nat) : Option String :=
  ((hygienizeAll gen outs)[k]?.bind fun toks => toks[i]?).map CToken.identifierPointer

section Recognition

variable {out before after : List MarkedToken} {t : CToken}

private theorem endsDeclarator_after {d : Declaration} (h : d.WellFormed)
    (post : List MarkedToken) : endsDeclarator ((d.after ++ post).map Prod.fst) = true := by
  have hstop := h.stop
  rcases h.declarator.init with hinit | ⟨e, seg, hinit, he, -⟩
  · cases hlater : d.later with
    | nil => simp [Declaration.after, hinit, hlater, endsDeclarator, hstop]
    | cons e rest =>
        have hcomma := (h.later e (by simp [hlater])).1
        simp [Declaration.after, hinit, hlater, endsDeclarator, hcomma]
  · simp [Declaration.after, hinit, endsDeclarator, he]

private theorem binds_of_behind (h : Declares out before t after)
    (hkw : behindTypeKw (before.map Prod.fst).reverse = true) : Binds out t.identifierPointer := by
  obtain ⟨hout, pre, d, post, -, hd, hname, -, hafter⟩ := h
  have htype := hd.declarator.name
  rw [hname] at htype
  refine ⟨before, t, after, hout, htype, rfl, ?_⟩
  rw [isBinder_iff, hafter]
  exact ⟨hkw, endsDeclarator_after hd post⟩

private theorem binds_of_declares (hout : NamesakesRecognised out)
    (h : Declares out before t after) : Binds out t.identifierPointer := by
  cases hkw : behindTypeKw (before.map Prod.fst).reverse with
  | true => exact binds_of_behind h hkw
  | false => exact hout before t after h hkw

private theorem dropWhile_known {l rest : List CToken}
    (h : ∀ t ∈ l, t.type = .mult ∨ cCzetHygQualifier t = true) :
    (l ++ rest).dropWhile (fun b => decide (b.type = .mult) || cCzetHygQualifier b) =
      rest.dropWhile fun b => decide (b.type = .mult) || cCzetHygQualifier b := by
  induction l with
  | nil => rfl
  | cons t l ih =>
      have ht := h t List.mem_cons_self
      rw [List.cons_append, List.dropWhile_cons_of_pos]
      · exact ih fun u hu => h u (List.mem_cons_of_mem _ hu)
      · simpa using ht

theorem first_declarator_behind {pre : List MarkedToken} {d : Declaration} {kw : MarkedToken}
    {quals front : List MarkedToken} (hfirst : d.earlier = [])
    (hspecs : d.specs = front ++ kw :: quals) (hkw : cCzetHygTypeKw kw.1 = true)
    (hquals : ∀ m ∈ quals, cCzetHygQualifier m.1 = true)
    (hpointers : ∀ m ∈ d.declarator.pointers, m.1.type = .mult ∨ cCzetHygQualifier m.1 = true) :
    behindTypeKw ((pre ++ d.before).map Prod.fst).reverse = true := by
  have htokens : ((pre ++ d.before).map Prod.fst).reverse =
      ((quals ++ d.declarator.pointers).map Prod.fst).reverse ++
        (kw.1 :: ((pre ++ front).map Prod.fst).reverse) := by
    simp [Declaration.before, hfirst, hspecs]
  have hskip : ∀ t ∈ ((quals ++ d.declarator.pointers).map Prod.fst).reverse,
      t.type = .mult ∨ cCzetHygQualifier t = true := by
    intro t ht
    rw [List.mem_reverse, List.mem_map] at ht
    obtain ⟨m, hm, rfl⟩ := ht
    rcases List.mem_append.mp hm with hm | hm
    · exact Or.inr (hquals m hm)
    · exact hpointers m hm
  rw [behindTypeKw, htokens, dropWhile_known hskip]
  have hstay : (decide (kw.1.type = .mult) || cCzetHygQualifier kw.1) = false := by
    simp only [cCzetHygTypeKw, cCzetHygKw, Bool.and_eq_true, List.contains_eq_mem, List.mem_cons,
      List.not_mem_nil, or_false, decide_eq_true_eq] at hkw
    obtain ⟨htype, hspelling⟩ := hkw
    simp only [htype, cCzetHygQualifier, cCzetHygKw, reduceCtorEq, decide_false, decide_true,
      Bool.true_and, Bool.false_or]
    rcases hspelling with hs | hs | hs | hs | hs | hs | hs | hs | hs | hs | hs | hs | hs <;>
      · rw [hs]
        decide
  rw [List.dropWhile_cons_of_neg (by simp [hstay])]
  exact hkw

theorem later_declarator_not_behind {pre : List MarkedToken} {d : Declaration}
    (h : d.WellFormed) (hlater : d.earlier ≠ [])
    (hpointers : ∀ m ∈ d.declarator.pointers, m.1.type = .mult ∨ cCzetHygQualifier m.1 = true) :
    behindTypeKw ((pre ++ d.before).map Prod.fst).reverse = false := by
  obtain ⟨front, e, hearlier⟩ : ∃ front e, d.earlier = front ++ [e] :=
    ⟨_, _, (List.dropLast_append_getLast hlater).symm⟩
  have hcomma : e.2.1.type = .comma := (h.earlier e (by simp [hearlier])).2
  have htokens : ∃ rest, ((pre ++ d.before).map Prod.fst).reverse =
      (d.declarator.pointers.map Prod.fst).reverse ++ e.2.1 :: rest := by
    simp [Declaration.before, hearlier]
  obtain ⟨rest, htokens⟩ := htokens
  have hskip : ∀ t ∈ (d.declarator.pointers.map Prod.fst).reverse,
      t.type = .mult ∨ cCzetHygQualifier t = true := by
    intro t ht
    rw [List.mem_reverse, List.mem_map] at ht
    obtain ⟨m, hm, rfl⟩ := ht
    exact hpointers m hm
  rw [behindTypeKw, htokens, dropWhile_known hskip, List.dropWhile_cons_of_neg]
  · simp [cCzetHygTypeKw, cCzetHygKw, hcomma]
  · simp [cCzetHygQualifier, cCzetHygKw, hcomma]

end Recognition

section Runs

variable {gen : Nat} {outs : List (List MarkedToken)}

private theorem emittedName_of_binds {out before after : List MarkedToken} {t : CToken} {k : Nat}
    (hk : outs[k]? = some out) (h : Declares out before t after)
    (hs : Binds out t.identifierPointer) :
    emittedName gen outs k before.length =
      some (freshName (genAfter gen (outs.take k)) t.identifierPointer) := by
  have hat : out[before.length]? = some (t, false) := by
    rw [h.1]
    simp
  have hname : t.type = .name := by
    obtain ⟨-, -, d, -, -, hd, hname, -⟩ := h
    have := hd.declarator.name
    rwa [hname] at this
  rw [emittedName, hygienizeAll_getElem?, hk, Option.map_some, Option.bind_some,
    hygienize_renamed hat hname hs, Option.map_some, freshToken_identifierPointer]

private theorem emittedName_of_not_binds {out before after : List MarkedToken} {t : CToken}
    {k : Nat} (hk : outs[k]? = some out) (h : Declares out before t after)
    (hs : ¬ Binds out t.identifierPointer) :
    emittedName gen outs k before.length = some t.identifierPointer := by
  have hat : out[before.length]? = some (t, false) := by
    rw [h.1]
    simp
  rw [emittedName, hygienizeAll_getElem?, hk, Option.map_some, Option.bind_some,
    hygienize_kept hat (fun hren => hs hren.2.2), Option.map_some]

/-- Over every sequence of expansions: each declared name is renamed, and no two expansions of one
scope declare the same name, exactly when every declared name away from a known type keyword has a
recognised namesake, and the counter does not come round between two declarations of one name. -/
theorem declared_names_fresh_iff (gen : Nat) (hgen : gen < 2 ^ 32)
    (outs : List (List MarkedToken)) (oneScope : Nat → Nat → Prop) :
    ((∀ k i s, DeclaredIn outs k i s → emittedName gen outs k i ≠ some s) ∧
      ∀ k l i j s s', k < l → oneScope k l → DeclaredIn outs k i s → DeclaredIn outs l j s' →
        emittedName gen outs k i ≠ emittedName gen outs l j) ↔
    (∀ out ∈ outs, NamesakesRecognised out) ∧
      ∀ k l i j s, k < l → oneScope k l → DeclaredIn outs k i s → DeclaredIn outs l j s →
        renamingsBetween outs k l % 2 ^ 32 ≠ 0 := by
  have hfresh : (∀ out ∈ outs, NamesakesRecognised out) → ∀ {k i : Nat} {s : String},
      DeclaredIn outs k i s →
        emittedName gen outs k i = some (freshName (genAfter gen (outs.take k)) s) := by
    rintro hrec k i s ⟨out, before, t, after, hk, hdecl, rfl, rfl⟩
    have hout := hrec out (List.mem_of_getElem? hk)
    exact emittedName_of_binds hk hdecl (binds_of_declares hout hdecl)
  constructor
  · rintro ⟨hrenamed, hdiffer⟩
    have hrec : ∀ out ∈ outs, NamesakesRecognised out := by
      intro out hmem before t after hdecl hkw
      by_contra hs
      obtain ⟨k, hk⟩ := List.mem_iff_getElem?.mp hmem
      exact hrenamed k _ _ ⟨out, before, t, after, hk, hdecl, rfl, rfl⟩
        (emittedName_of_not_binds hk hdecl hs)
    refine ⟨hrec, ?_⟩
    intro k l i j s hkl hscope hi hj hround
    refine hdiffer k l i j s s hkl hscope hi hj ?_
    rw [hfresh hrec hi, hfresh hrec hj,
      (genAfter_take_eq_iff hgen outs (le_of_lt hkl)).mpr hround]
  · rintro ⟨hrec, hround⟩
    constructor
    · intro k i s hi heq
      rw [hfresh hrec hi] at heq
      exact freshName_ne _ _ (Option.some.inj heq)
    · intro k l i j s s' hkl hscope hi hj heq
      rw [hfresh hrec hi, hfresh hrec hj] at heq
      obtain ⟨hgens, rfl⟩ := freshName_inj.mp (Option.some.inj heq)
      exact hround k l i j s hkl hscope hi hj
        ((genAfter_take_eq_iff hgen outs (le_of_lt hkl)).mp hgens)

end Runs

section DeclaratorLists

/-- `static int steps ;` -/
def stepBody : List MarkedToken :=
  [(kwToken "static", false), (kwToken "int", false), (nameToken "steps", false),
    (punctToken .semicolon, false)]

/-- `int a , b ;` -/
def pairBody : List MarkedToken :=
  [(kwToken "int", false), (nameToken "a", false), (punctToken .comma, false),
    (nameToken "b", false), (punctToken .semicolon, false)]

private theorem stepBody_declares {before after : List MarkedToken} {t : CToken}
    (h : Declares stepBody before t after) :
    before = [(kwToken "static", false), (kwToken "int", false)] := by
  obtain ⟨hout, -, d, -, -, hd, hname, -⟩ := h
  have htype := hd.declarator.name
  rw [hname] at htype
  match before, hout with
  | [], hout =>
      obtain ⟨rfl, -⟩ : t = kwToken "static" ∧ _ := by simpa [stepBody, eq_comm] using hout
      cases htype
  | [_], hout =>
      obtain ⟨-, rfl, -⟩ : _ ∧ t = kwToken "int" ∧ _ := by
        simpa [stepBody, eq_comm] using hout
      cases htype
  | [a, b], hout =>
      obtain ⟨rfl, rfl, -⟩ : (kwToken "static", false) = a ∧
          (kwToken "int", false) = b ∧ _ := by
        simpa [stepBody] using hout
      rfl
  | [_, _, _], hout =>
      obtain ⟨-, -, -, rfl, -⟩ : _ ∧ _ ∧ _ ∧ t = punctToken .semicolon ∧ _ := by
        simpa [stepBody, eq_comm] using hout
      cases htype
  | _ :: _ :: _ :: _ :: _, hout =>
      have := congrArg List.length hout
      simp [stepBody] at this

/-- Two expansions with `static int steps ;`. -/
theorem steps_declared_fresh :
    (∀ k i s, DeclaredIn [stepBody, stepBody] k i s →
      emittedName 0 [stepBody, stepBody] k i ≠ some s) ∧
    ∀ k l i j s s', k < l → True → DeclaredIn [stepBody, stepBody] k i s →
      DeclaredIn [stepBody, stepBody] l j s' →
        emittedName 0 [stepBody, stepBody] k i ≠ emittedName 0 [stepBody, stepBody] l j := by
  refine (declared_names_fresh_iff 0 (by decide) [stepBody, stepBody] fun _ _ => True).mpr ⟨?_, ?_⟩
  · intro out hout before t after h hkw
    obtain rfl : out = stepBody := by simpa using hout
    rw [stepBody_declares h] at hkw
    exact absurd hkw (by decide)
  · rintro k l i j s hkl - - ⟨out, before, t, after, hl, -⟩
    have hbound : l < 2 := (List.getElem?_eq_some_iff.mp hl).1
    obtain ⟨rfl, rfl⟩ : k = 0 ∧ l = 1 := by omega
    decide

/-- `b` is not recognised behind the comma: both expansions declare it under its own name. -/
theorem later_declarator_shared :
    DeclaredIn [pairBody, pairBody] 0 3 "b" ∧ DeclaredIn [pairBody, pairBody] 1 3 "b" ∧
      emittedName 0 [pairBody, pairBody] 0 3 = some "b" ∧
        emittedName 0 [pairBody, pairBody] 1 3 = some "b" := by
  have hdecl : Declares pairBody (pairBody.take 3) (nameToken "b") (pairBody.drop 4) := by
    refine ⟨rfl, [], ⟨[(kwToken "int", false)],
      [(⟨[], (nameToken "a", false), []⟩, (punctToken .comma, false))],
      ⟨[], (nameToken "b", false), []⟩, [], (punctToken .semicolon, false)⟩, [], ?_, ?_, rfl, rfl,
      rfl⟩
    · exact ⟨fun t ht => (nomatch ht), by decide⟩
    · refine ⟨?_, ⟨_, List.mem_singleton_self _, by decide⟩, ?_, ⟨?_, rfl, Or.inl rfl⟩, ?_, rfl⟩
      · intro m hm
        rw [List.mem_singleton.mp hm]
        decide
      · intro e he
        rw [List.mem_singleton.mp he]
        exact ⟨⟨fun m hm => (nomatch hm), rfl, Or.inl rfl⟩, rfl⟩
      · exact fun m hm => nomatch hm
      · exact fun e he => nomatch he
  refine ⟨⟨pairBody, _, _, _, rfl, hdecl, rfl, rfl⟩, ⟨pairBody, _, _, _, rfl, hdecl, rfl, rfl⟩,
    ?_, ?_⟩
  · decide
  · decide

end DeclaratorLists

end CZet
