/- source: src/gcc/gcc/c/c-parser.cc (c_czet_hygienize and the comment in front of it)
   digest: The names that hygiene should leave to the caller: tags, and the name, the parameters and
     their uses in the functions that a body defines. -/

import CZet.Macro.Declarators

set_option autoImplicit false
set_option relaxedAutoImplicit false

namespace CZet

/-- No prefix closes more than it opens, and the whole is even. -/
structure BalancedTokens (l : List MarkedToken) : Prop where
  nonneg : ∀ k, 0 ≤ deltaSum ((l.take k).map Prod.fst)
  even : deltaSum (l.map Prod.fst) = 0

/-- Balanced tokens between brackets of the given types. -/
def Enclosed (opening closing : CppTtype) (g : List MarkedToken) : Prop :=
  ∃ o inner c, g = o :: inner ++ [c] ∧ o.1.type = opening ∧ c.1.type = closing ∧
    BalancedTokens inner

def isTagIntro (t : CToken) : Bool := cCzetHygKw t ["struct", "union", "enum"]

/-- The specifiers of a declaration. -/
inductive Specifiers : List MarkedToken → Prop
  | keyword {m : MarkedToken} :
      (isTypeKw m.1 || isQualifier m.1 || cCzetHygKw m.1 ["static", "extern", "register"]) = true →
      Specifiers [m]
  | alias {m : MarkedToken} : m.1.type = .name → Specifiers [m]
  | operand {k : MarkedToken} {g : List MarkedToken} :
      cCzetHygKw k.1 ["typeof", "__typeof", "__typeof__", "_BitInt", "_Alignas", "_Atomic",
        "__attribute__"] = true →
      Enclosed .openParen .closeParen g → Specifiers (k :: g)
  | tagged {k m : MarkedToken} : isTagIntro k.1 = true → m.1.type = .name → Specifiers [k, m]
  | members {k : MarkedToken} {tag g : List MarkedToken} : isTagIntro k.1 = true →
      (tag = [] ∨ ∃ m : MarkedToken, tag = [m] ∧ m.1.type = .name) →
      Enclosed .openBrace .closeBrace g → Specifiers (k :: (tag ++ g))
  | append {l r : List MarkedToken} : Specifiers l → Specifiers r → Specifiers (l ++ r)

/-- What stands to the left and to the right of the name in its declarator. -/
inductive Declarator : List MarkedToken → List MarkedToken → Prop
  | name : Declarator [] []
  | pointer {m : MarkedToken} {l r : List MarkedToken} : isPointerPart m.1 = true →
      Declarator l r → Declarator (m :: l) r
  | paren {o c : MarkedToken} {l r : List MarkedToken} : o.1.type = .openParen →
      c.1.type = .closeParen → Declarator l r → Declarator (o :: l) (r ++ [c])
  | array {l r g : List MarkedToken} : Declarator l r → Enclosed .openSquare .closeSquare g →
      Declarator l (r ++ g)
  | function {l r g : List MarkedToken} : Declarator l r → Enclosed .openParen .closeParen g →
      Declarator l (r ++ g)

/-- A function definition; `params` is what stands between the parentheses behind the name. -/
structure FunctionDef where
  specs : List MarkedToken
  left : List MarkedToken
  name : MarkedToken
  opening : MarkedToken
  params : List MarkedToken
  closing : MarkedToken
  right : List MarkedToken
  body : List MarkedToken

/-- The tokens behind the name. -/
def FunctionDef.after (f : FunctionDef) : List MarkedToken :=
  f.opening :: f.params ++ f.closing :: f.right ++ f.body

structure FunctionDef.WellFormed (f : FunctionDef) : Prop where
  specs : Specifiers f.specs
  name : f.name.1.type = .name
  opening : f.opening.1.type = .openParen
  closing : f.closing.1.type = .closeParen
  params : BalancedTokens f.params
  declarator : Declarator f.left (f.opening :: f.params ++ f.closing :: f.right)
  body : Enclosed .openBrace .closeBrace f.body

/-- A parameter with its name, in front of and behind the other parameters of the list. -/
structure Parameter where
  earlier : List MarkedToken
  specs : List MarkedToken
  left : List MarkedToken
  name : MarkedToken
  right : List MarkedToken
  later : List MarkedToken

/-- The tokens of the list in front of the name. -/
def Parameter.before (p : Parameter) : List MarkedToken := p.earlier ++ p.specs ++ p.left

def Parameter.tokens (p : Parameter) : List MarkedToken :=
  p.before ++ p.name :: (p.right ++ p.later)

structure Parameter.WellFormed (p : Parameter) : Prop where
  earlier : p.earlier = [] ∨ ∃ (l : List MarkedToken) (comma : MarkedToken),
    p.earlier = l ++ [comma] ∧ comma.1.type = .comma ∧ BalancedTokens l
  specs : Specifiers p.specs
  declarator : Declarator p.left p.right
  name : p.name.1.type = .name
  later : p.later = [] ∨ ∃ (comma : MarkedToken) (l : List MarkedToken),
    p.later = comma :: l ∧ comma.1.type = .comma ∧ BalancedTokens l

/-- `out` defines the function `f` behind `pre`. -/
structure Defines (out pre : List MarkedToken) (f : FunctionDef) (post : List MarkedToken) :
    Prop where
  tokens : out = pre ++ (f.specs ++ f.left) ++ f.name :: (f.after ++ post)
  function : f.WellFormed

/-- The function that `out` defines behind `pre` has the parameter `p`. -/
structure DefinesWith (out pre : List MarkedToken) (f : FunctionDef) (p : Parameter)
    (post : List MarkedToken) : Prop where
  defines : Defines out pre f post
  params : f.params = p.tokens
  parameter : p.WellFormed

/-- The tokens of the expansion in front of the name of a parameter. -/
def beforeParameter (pre : List MarkedToken) (f : FunctionDef) (p : Parameter) :
    List MarkedToken :=
  pre ++ (f.specs ++ f.left) ++ f.name :: f.opening :: p.before

/-- The tokens that belong to the contract between the macro and its caller. -/
inductive ContractAt (out : List MarkedToken) : Nat → Prop
  | tag {before after : List MarkedToken} {k m : MarkedToken} : out = before ++ k :: m :: after →
      isTagIntro k.1 = true → m.1.type = .name → ContractAt out (before ++ [k]).length
  | function {pre post : List MarkedToken} {f : FunctionDef} : Defines out pre f post →
      ContractAt out (pre ++ (f.specs ++ f.left)).length
  | parameter {pre post : List MarkedToken} {f : FunctionDef} {p : Parameter} :
      DefinesWith out pre f p post → ContractAt out (beforeParameter pre f p).length
  | use {pre post inside outside : List MarkedToken} {f : FunctionDef} {p : Parameter}
      {m : MarkedToken} : DefinesWith out pre f p post → p.name.2 = false →
      f.body = inside ++ m :: outside → m.1.type = .name →
      m.1.identifierPointer = p.name.1.identifierPointer →
      ContractAt out (pre ++ (f.specs ++ f.left) ++
        f.name :: (f.opening :: f.params ++ f.closing :: f.right ++ inside)).length

/-- The name of a parameter stands at position `i`. -/
def ParameterAt (out : List MarkedToken) (i : Nat) : Prop :=
  ∃ (pre : List MarkedToken) (f : FunctionDef) (p : Parameter) (post : List MarkedToken),
    DefinesWith out pre f p post ∧ (beforeParameter pre f p).length = i

/-- No plain parameter with another one behind it has a type that ends in a type keyword, up to `*`
and qualifiers. -/
def NoKeywordParameterBeforeComma (out : List MarkedToken) : Prop :=
  ∀ (pre : List MarkedToken) (f : FunctionDef) (p : Parameter) (post : List MarkedToken),
    DefinesWith out pre f p post → p.name.2 = false → p.right = [] → p.later ≠ [] →
      behindTypeKw (p.before.map Prod.fst).reverse = false

/-- The body declares a variable or a member `s`: the name is recognised where no parameter is. -/
def DeclaresApart (out : List MarkedToken) (s : String) : Prop :=
  ∃ before t after, out = before ++ (t, false) :: after ∧ t.type = .name ∧
    t.identifierPointer = s ∧
    isBinder (before.map Prod.fst).reverse (after.map Prod.fst) = true ∧
    ¬ ParameterAt out before.length

section Positions

variable {out pre post : List MarkedToken} {f : FunctionDef} {p : Parameter}

private theorem Declarator.right_head {l r : List MarkedToken} (h : Declarator l r) :
    r = [] ∨ ∃ m rest, r = m :: rest ∧
      (m.1.type = .openSquare ∨ m.1.type = .openParen ∨ m.1.type = .closeParen) := by
  induction h with
  | name => exact Or.inl rfl
  | pointer _ _ ih => exact ih
  | @paren o c l r _ hc _ ih =>
      right
      rcases ih with rfl | ⟨m, rest, rfl, hm⟩
      · exact ⟨c, [], rfl, Or.inr (Or.inr hc)⟩
      · exact ⟨m, rest ++ [c], rfl, hm⟩
  | @array l r g _ hg ih =>
      right
      obtain ⟨o, inner, c, rfl, ho, -, -⟩ := hg
      rcases ih with rfl | ⟨m, rest, rfl, hm⟩
      · exact ⟨o, inner ++ [c], rfl, Or.inl ho⟩
      · exact ⟨m, _, rfl, hm⟩
  | @function l r g _ hg ih =>
      right
      obtain ⟨o, inner, c, rfl, ho, -, -⟩ := hg
      rcases ih with rfl | ⟨m, rest, rfl, hm⟩
      · exact ⟨o, inner ++ [c], rfl, Or.inr (Or.inl ho)⟩
      · exact ⟨m, _, rfl, hm⟩

private theorem behindTypeKw_stop {l rest : List CToken} {o : CToken}
    (ho : o.type = .openParen) : behindTypeKw (l ++ o :: rest) = behindTypeKw l := by
  unfold behindTypeKw
  induction l with
  | nil =>
      rw [List.nil_append, List.dropWhile_cons_of_neg]
      · simp [cCzetHygTypeKw, cCzetHygKw, ho]
      · simp [cCzetHygQualifier, cCzetHygKw, ho]
  | cons t l ih =>
      by_cases ht : (decide (t.type = .mult) || cCzetHygQualifier t) = true
      · simp only [List.cons_append, List.dropWhile_cons, ht, if_true]
        exact ih
      · simp only [List.cons_append, List.dropWhile_cons, ht, Bool.false_eq_true, if_false]

private theorem DefinesWith.split (h : DefinesWith out pre f p post) :
    out = beforeParameter pre f p ++
      p.name :: (p.right ++ p.later ++ (f.closing :: f.right ++ f.body ++ post)) := by
  rw [h.defines.tokens, FunctionDef.after, h.params, Parameter.tokens, beforeParameter]
  simp

private theorem behindTypeKw_beforeParameter (h : DefinesWith out pre f p post) :
    behindTypeKw ((beforeParameter pre f p).map Prod.fst).reverse =
      behindTypeKw (p.before.map Prod.fst).reverse := by
  have hsplit : ((beforeParameter pre f p).map Prod.fst).reverse =
      (p.before.map Prod.fst).reverse ++
        f.opening.1 :: ((pre ++ (f.specs ++ f.left) ++ [f.name]).map Prod.fst).reverse := by
    simp [beforeParameter]
  rw [hsplit, behindTypeKw_stop h.defines.function.opening]

private theorem endsDeclarator_parameter (h : DefinesWith out pre f p post) :
    endsDeclarator ((p.right ++ p.later ++ (f.closing :: f.right ++ f.body ++ post)).map Prod.fst) =
      true ↔ p.right = [] ∧ p.later ≠ [] := by
  rcases h.parameter.declarator.right_head with hright | ⟨m, rest, hright, hm⟩
  · rw [hright]
    rcases h.parameter.later with hlater | ⟨comma, l, hlater, hcomma, -⟩
    · simp [hlater, endsDeclarator, h.defines.function.closing]
    · simp [hlater, endsDeclarator, hcomma]
  · rcases hm with hm | hm | hm <;> simp [hright, endsDeclarator, hm]

private theorem renamedAt_of_binds {gen : Nat} {before after : List MarkedToken} {t : CToken}
    (hout : out = before ++ (t, false) :: after) (hname : t.type = .name)
    (hs : Binds out t.identifierPointer) : RenamedAt gen out before.length := by
  rw [renamedAt_iff]
  exact ⟨t, by rw [hout]; simp, hname, hs⟩

private theorem binder_at_parameter (h : DefinesWith out pre f p post)
    {before after : List MarkedToken} {t : CToken} (hout : out = before ++ (t, false) :: after)
    (hat : (beforeParameter pre f p).length = before.length)
    (hbinder : isBinder (before.map Prod.fst).reverse (after.map Prod.fst) = true) :
    p.name.2 = false ∧ p.right = [] ∧ p.later ≠ [] ∧
      behindTypeKw (p.before.map Prod.fst).reverse = true := by
  have hsplit := h.split
  rw [hout] at hsplit
  obtain ⟨rfl, hrest⟩ := List.append_inj hsplit hat.symm
  obtain ⟨hname, rfl⟩ := List.cons.inj hrest
  rw [isBinder_iff, behindTypeKw_beforeParameter h, endsDeclarator_parameter h] at hbinder
  refine ⟨?_, hbinder.2.1, hbinder.2.2, hbinder.1⟩
  rw [← hname]

end Positions

/-- For every expansion: hygiene leaves the contract alone exactly when no parameter is taken for a
variable in front of its comma, and no contract name is also declared as a variable or member. -/
theorem contract_kept_iff (gen : Nat) (out : List MarkedToken) :
    (∀ i, ContractAt out i → ¬ RenamedAt gen out i) ↔
      NoKeywordParameterBeforeComma out ∧
        ∀ i t, ContractAt out i → out[i]? = some (t, false) → t.type = .name →
          ¬ DeclaresApart out t.identifierPointer := by
  constructor
  · intro hkept
    constructor
    · intro pre f p post h hmark hright hlater
      by_contra hbehind
      rw [Bool.not_eq_false] at hbehind
      have hsplit := h.split
      obtain ⟨t, ht⟩ : ∃ t, p.name = (t, false) := ⟨p.name.1, by rw [← hmark]⟩
      have hname : t.type = .name := by
        have := h.parameter.name
        rwa [ht] at this
      rw [ht] at hsplit
      refine hkept _ (.parameter h) (renamedAt_of_binds hsplit hname ?_)
      refine ⟨_, t, _, hsplit, hname, rfl, ?_⟩
      rw [isBinder_iff, behindTypeKw_beforeParameter h, endsDeclarator_parameter h]
      exact ⟨hbehind, hright, hlater⟩
    · rintro i t hi hat hname ⟨before, u, after, hout, hu, hs, hbinder, -⟩
      refine hkept i hi ?_
      rw [renamedAt_iff]
      exact ⟨t, hat, hname, before, u, after, hout, hu, hs, hbinder⟩
  · rintro ⟨hparams, hapart⟩ i hi hren
    rw [renamedAt_iff] at hren
    obtain ⟨t, hat, hname, before, u, after, hout, hu, hs, hbinder⟩ := hren
    by_cases hparam : ParameterAt out before.length
    · obtain ⟨pre, f, p, post, h, hlen⟩ := hparam
      obtain ⟨hmark, hright, hlater, hbehind⟩ := binder_at_parameter h hout hlen hbinder
      rw [hparams pre f p post h hmark hright hlater] at hbehind
      cases hbehind
    · exact hapart i t hi hat hname ⟨before, u, after, hout, hu, hs, hbinder, hparam⟩

section FirstParameter

/-- `int f ( int a , int b ) { return a ; }` -/
def addBody : List MarkedToken :=
  [(kwToken "int", false), (nameToken "f", false), (punctToken .openParen, false),
    (kwToken "int", false), (nameToken "a", false), (punctToken .comma, false),
    (kwToken "int", false), (nameToken "b", false), (punctToken .closeParen, false),
    (punctToken .openBrace, false), (kwToken "return", false), (nameToken "a", false),
    (punctToken .semicolon, false), (punctToken .closeBrace, false)]

private def addFunction : FunctionDef where
  specs := [(kwToken "int", false)]
  left := []
  name := (nameToken "f", false)
  opening := (punctToken .openParen, false)
  params := (addBody.drop 3).take 5
  closing := (punctToken .closeParen, false)
  right := []
  body := addBody.drop 9

private def addFirst : Parameter where
  earlier := []
  specs := [(kwToken "int", false)]
  left := []
  name := (nameToken "a", false)
  right := []
  later := (addBody.drop 5).take 3

private theorem deltaSum_of_flat {l : List MarkedToken} (h : ∀ m ∈ l, cCzetDelta m.1 = 0) :
    deltaSum (l.map Prod.fst) = 0 := by
  induction l with
  | nil => rfl
  | cons m l ih =>
      rw [List.map_cons, deltaSum_cons, h m List.mem_cons_self,
        ih fun m' hm' => h m' (List.mem_cons_of_mem _ hm'), Int.zero_add]

private theorem balanced_of_flat {l : List MarkedToken} (h : ∀ m ∈ l, cCzetDelta m.1 = 0) :
    BalancedTokens l :=
  ⟨fun _ => (deltaSum_of_flat fun m hm => h m (List.mem_of_mem_take hm)).ge, deltaSum_of_flat h⟩

private theorem addFirst_defined : DefinesWith addBody [] addFunction addFirst [] := by
  refine ⟨⟨rfl, ?_⟩, rfl, ?_⟩
  · refine ⟨.keyword rfl, rfl, rfl, rfl, balanced_of_flat (by decide), ?_, ?_⟩
    · show Declarator [] ([] ++ (addBody.drop 2).take 7)
      exact .function .name ⟨_, addFunction.params, _, rfl, rfl, rfl, balanced_of_flat (by decide)⟩
    · exact ⟨_, (addBody.drop 10).take 3, _, rfl, rfl, rfl, balanced_of_flat (by decide)⟩
  · exact ⟨Or.inl rfl, .keyword rfl, .name, rfl,
      Or.inr ⟨_, (addBody.drop 6).take 2, rfl, rfl, balanced_of_flat (by decide)⟩⟩

/-- The first parameter of `f` stands between `int` and a comma. -/
theorem first_parameter_renamed : ContractAt addBody 4 ∧ RenamedAt 0 addBody 4 := by
  refine ⟨.parameter addFirst_defined, ?_⟩
  unfold RenamedAt
  decide

end FirstParameter

end CZet
