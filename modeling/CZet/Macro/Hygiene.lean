/- source: src/gcc/gcc/c/c-parser.cc (c_czet_hygienize, czet_macro_hygiene_gen)
   digest: Which tokens hygiene renames, what it makes of them, and the generations of the
     expansions of a translation unit. -/

import CZet.Generic.Names

set_option autoImplicit false
set_option relaxedAutoImplicit false

namespace CZet

open CZet.Names

/-- The token of a keyword, known to hygiene by its spelling. -/
def kwToken (spelling : String) : CToken := { type := .keyword, value := .identifier spelling }

/-- An unmarked name of the expansion with spelling `s` stands behind a type keyword, up to `*` and
qualifiers, and in front of `;`, `,` or `=`. -/
def Binds (out : List MarkedToken) (s : String) : Prop :=
  ∃ before t after, out = before ++ (t, false) :: after ∧ t.type = .name ∧
    t.identifierPointer = s ∧ isBinder (before.map Prod.fst).reverse (after.map Prod.fst) = true

/-- The name that a binder gets in generation `gen`. -/
def freshName (gen : Nat) (s : String) : String := s ++ "__czet" ++ toString gen

def freshToken (gen : Nat) (t : CToken) : CToken :=
  { t with value := .identifier (freshName gen t.identifierPointer) }

/-- Hygiene changes the token at position `i`. -/
def RenamedAt (gen : Nat) (out : List MarkedToken) (i : Nat) : Prop :=
  (cCzetHygienize gen out).1[i]? ≠ (out.map Prod.fst)[i]?

/-- The expansion is a renaming one: it advances the counter. -/
def renames (out : List MarkedToken) : Bool := !(collectBinders [] out []).isEmpty

/-- The counter behind the expansions `outs`. -/
def genAfter (gen : Nat) (outs : List (List MarkedToken)) : Nat :=
  outs.foldl (fun g out => (cCzetHygienize g out).2) gen

/-- The expansions `outs` made one after the other. -/
def hygienizeAll : Nat → List (List MarkedToken) → List (List CToken)
  | _, [] => []
  | gen, out :: outs =>
      (cCzetHygienize gen out).1 :: hygienizeAll (cCzetHygienize gen out).2 outs

/-- A type keyword precedes, up to `*` and qualifiers; nearest token first. -/
def behindTypeKw (before : List CToken) : Bool :=
  match before.dropWhile fun b => decide (b.type = .mult) || cCzetHygQualifier b with
  | prev :: _ => cCzetHygTypeKw prev
  | [] => false

/-- The next token is `;`, `,` or `=`. -/
def endsDeclarator (after : List CToken) : Bool :=
  match after with
  | next :: _ =>
      decide (next.type = .semicolon) || decide (next.type = .comma) || decide (next.type = .eq)
  | [] => false

section Binders

private theorem not_tagKw_of_typeKw {t : CToken} (h : cCzetHygTypeKw t = true) :
    cCzetHygTagKw t = false := by
  simp only [cCzetHygTypeKw, cCzetHygKw, Bool.and_eq_true, List.contains_eq_mem, List.mem_cons,
    List.not_mem_nil, or_false, decide_eq_true_eq] at h
  simp only [cCzetHygTagKw, cCzetHygKw, Bool.and_eq_false_iff, List.contains_eq_mem]
  right
  rcases h.2 with hs | hs | hs | hs | hs | hs | hs | hs | hs | hs | hs | hs | hs <;>
    · rw [hs]
      decide

/-- A position declares by what stands in front of it and what follows. -/
theorem isBinder_iff (before after : List CToken) :
    isBinder before after = true ↔ behindTypeKw before = true ∧ endsDeclarator after = true := by
  unfold isBinder behindTypeKw endsDeclarator
  cases before.dropWhile (fun b => decide (b.type = .mult) || cCzetHygQualifier b) with
  | nil => simp
  | cons prev rest =>
      cases after with
      | nil => simp
      | cons next after =>
          constructor
          · intro h
            simp only [Bool.and_eq_true] at h
            exact ⟨h.1.2, h.2⟩
          · rintro ⟨hkw, hnext⟩
            simp only [not_tagKw_of_typeKw hkw, Bool.not_false, Bool.true_and, Bool.and_eq_true]
            exact ⟨hkw, hnext⟩

private theorem mem_collectBinders (s : String) (rest : List MarkedToken) (before : List CToken)
    (binders : List String) :
    s ∈ collectBinders before rest binders ↔
      s ∈ binders ∨ ∃ mid t after, rest = mid ++ (t, false) :: after ∧ t.type = .name ∧
        t.identifierPointer = s ∧
        isBinder ((mid.map Prod.fst).reverse ++ before) (after.map Prod.fst) = true := by
  induction rest generalizing before binders with
  | nil => simp [collectBinders]
  | cons m rest ih =>
      obtain ⟨t, mark⟩ := m
      rw [collectBinders, ih]
      constructor
      · rintro (hs | ⟨mid, u, after, rfl, hname, hsp, hbinder⟩)
        · split at hs
          · rename_i hcond
            obtain ⟨hname, rfl, hbinder, -⟩ := hcond
            rcases List.mem_append.mp hs with hs | hs
            · exact Or.inl hs
            · exact Or.inr ⟨[], t, rest, rfl, hname, (List.mem_singleton.mp hs).symm, hbinder⟩
          · exact Or.inl hs
        · refine Or.inr ⟨(t, mark) :: mid, u, after, rfl, hname, hsp, ?_⟩
          simpa using hbinder
      · rintro (hs | ⟨mid, u, after, hrest, hname, hsp, hbinder⟩)
        · left
          split
          · exact List.mem_append_left _ hs
          · exact hs
        · cases mid with
          | nil =>
              obtain ⟨⟨rfl, rfl⟩, rfl⟩ : (t = u ∧ mark = false) ∧ rest = after := by
                simpa using hrest
              left
              by_cases hseen : s ∈ binders
              · split
                · exact List.mem_append_left _ hseen
                · exact hseen
              · rw [if_pos ⟨hname, rfl, hbinder, hsp ▸ hseen⟩, hsp]
                exact List.mem_append_right _ (List.mem_singleton_self s)
          | cons m mid =>
              obtain ⟨rfl, rfl⟩ := List.cons.inj hrest
              right
              refine ⟨mid, u, after, rfl, hname, hsp, ?_⟩
              simpa using hbinder

theorem mem_collectBinders_iff (s : String) (out : List MarkedToken) :
    s ∈ collectBinders [] out [] ↔ Binds out s := by
  rw [mem_collectBinders]
  simp [Binds]

theorem hygienize_eq_map (gen : Nat) (out : List MarkedToken) :
    (cCzetHygienize gen out).1 = out.map fun m =>
      if m.2 = false ∧ m.1.type = .name ∧ m.1.identifierPointer ∈ collectBinders [] out []
      then freshToken gen m.1 else m.1 := by
  unfold cCzetHygienize
  cases collectBinders [] out [] with
  | nil => simp
  | cons b bs => rfl

theorem hygienize_length (gen : Nat) (out : List MarkedToken) :
    (cCzetHygienize gen out).1.length = out.length := by
  rw [hygienize_eq_map, List.length_map]

theorem hygienize_renamed {gen : Nat} {out : List MarkedToken} {i : Nat} {t : CToken}
    (ht : out[i]? = some (t, false)) (hname : t.type = .name) (hs : Binds out t.identifierPointer) :
    (cCzetHygienize gen out).1[i]? = some (freshToken gen t) := by
  rw [hygienize_eq_map, List.getElem?_map, ht]
  simp [hname, (mem_collectBinders_iff _ _).mpr hs]

theorem hygienize_kept {gen : Nat} {out : List MarkedToken} {i : Nat} {m : MarkedToken}
    (hm : out[i]? = some m)
    (h : ¬ (m.2 = false ∧ m.1.type = .name ∧ Binds out m.1.identifierPointer)) :
    (cCzetHygienize gen out).1[i]? = some m.1 := by
  rw [hygienize_eq_map, List.getElem?_map, hm]
  simp only [← mem_collectBinders_iff] at h
  simp only [Option.map_some, if_neg h]

end Binders

section Fresh

private theorem freshName_toList (gen : Nat) (s : String) :
    (freshName gen s).toList = GenName.text ⟨s, gen⟩ := by
  simp [freshName, GenName.text]

theorem freshName_inj {g h : Nat} {s t : String} :
    freshName g s = freshName h t ↔ g = h ∧ s = t := by
  constructor
  · intro heq
    have htext := congrArg String.toList heq
    rw [freshName_toList, freshName_toList] at htext
    have hgen := text_injective htext
    rw [GenName.mk.injEq] at hgen
    exact ⟨hgen.2, hgen.1⟩
  · rintro ⟨rfl, rfl⟩
    rfl

theorem freshName_ne (gen : Nat) (s : String) : freshName gen s ≠ s := by
  intro heq
  have hlength := congrArg (fun s => s.toList.length) heq
  simp [freshName] at hlength

@[simp] theorem freshToken_type (gen : Nat) (t : CToken) : (freshToken gen t).type = t.type := rfl

@[simp] theorem freshToken_identifierPointer (gen : Nat) (t : CToken) :
    (freshToken gen t).identifierPointer = freshName gen t.identifierPointer := rfl

theorem freshToken_ne (gen : Nat) (t : CToken) : freshToken gen t ≠ t := by
  intro heq
  refine freshName_ne gen t.identifierPointer ?_
  rw [← freshToken_identifierPointer, heq]

/-- The renamed tokens are the unmarked names with the spelling of a binder. -/
theorem renamedAt_iff (gen : Nat) (out : List MarkedToken) (i : Nat) :
    RenamedAt gen out i ↔
      ∃ t, out[i]? = some (t, false) ∧ t.type = .name ∧ Binds out t.identifierPointer := by
  unfold RenamedAt
  rw [List.getElem?_map]
  constructor
  · intro h
    cases hm : out[i]? with
    | none =>
        rw [hygienize_eq_map, List.getElem?_map, hm] at h
        exact absurd rfl h
    | some m =>
        by_contra hnone
        refine h ?_
        rw [hygienize_kept hm, hm]
        · rfl
        · rintro ⟨hmark, hname, hs⟩
          obtain ⟨t, mark⟩ := m
          obtain rfl : mark = false := hmark
          exact hnone ⟨t, rfl, hname, hs⟩
  · rintro ⟨t, ht, hname, hs⟩ heq
    rw [hygienize_renamed ht hname hs, ht] at heq
    exact freshToken_ne gen t (Option.some.inj heq)

end Fresh

section Generations

theorem renames_iff (out : List MarkedToken) : renames out = true ↔ ∃ s, Binds out s := by
  rw [renames, Bool.not_eq_true', List.isEmpty_eq_false_iff_exists_mem]
  simp only [mem_collectBinders_iff]

theorem hygienize_gen (gen : Nat) (out : List MarkedToken) :
    (cCzetHygienize gen out).2 = if renames out = true then nextGen gen else gen := by
  unfold cCzetHygienize renames
  cases collectBinders [] out [] with
  | nil => rfl
  | cons b bs => rfl

/-- The counter counts the renaming expansions, modulo 2^32. -/
theorem genAfter_eq {gen : Nat} (hgen : gen < 2 ^ 32) (outs : List (List MarkedToken)) :
    genAfter gen outs = (gen + outs.countP renames) % 2 ^ 32 := by
  induction outs generalizing gen with
  | nil => exact (Nat.mod_eq_of_lt hgen).symm
  | cons out outs ih =>
      rw [genAfter, List.foldl_cons, ← genAfter, hygienize_gen, List.countP_cons]
      split
      · rw [nextGen, ih (Nat.mod_lt _ (by decide))]
        omega
      · rw [ih hgen]
        rfl

theorem hygienizeAll_getElem? (gen : Nat) (outs : List (List MarkedToken)) (k : Nat) :
    (hygienizeAll gen outs)[k]? =
      (outs[k]?).map fun out => (cCzetHygienize (genAfter gen (outs.take k)) out).1 := by
  induction outs generalizing gen k with
  | nil => rfl
  | cons out outs ih =>
      cases k with
      | zero => rfl
      | succ k => exact ih _ k

/-- How many renaming expansions there are from the `k`-th to the one before the `l`-th. -/
def renamingsBetween (outs : List (List MarkedToken)) (k l : Nat) : Nat :=
  ((outs.drop k).take (l - k)).countP renames

private theorem countP_take (outs : List (List MarkedToken)) {k l : Nat} (hkl : k ≤ l) :
    (outs.take l).countP renames =
      (outs.take k).countP renames + renamingsBetween outs k l := by
  obtain ⟨d, rfl⟩ := Nat.exists_eq_add_of_le hkl
  rw [List.take_add, List.countP_append, renamingsBetween, Nat.add_sub_cancel_left]

theorem genAfter_take_eq_iff {gen : Nat} (hgen : gen < 2 ^ 32) (outs : List (List MarkedToken))
    {k l : Nat} (hkl : k ≤ l) :
    genAfter gen (outs.take k) = genAfter gen (outs.take l) ↔
      renamingsBetween outs k l % 2 ^ 32 = 0 := by
  rw [genAfter_eq hgen, genAfter_eq hgen, countP_take outs hkl]
  omega

theorem renamingsBetween_pos {outs : List (List MarkedToken)} {k l : Nat} {out : List MarkedToken}
    (hout : outs[k]? = some out) (hren : renames out = true) (hkl : k < l) :
    0 < renamingsBetween outs k l := by
  rw [renamingsBetween, List.countP_pos_iff]
  refine ⟨out, ?_, hren⟩
  rw [List.mem_iff_getElem?]
  refine ⟨0, ?_⟩
  rw [List.getElem?_take_of_lt (by omega), List.getElem?_drop]
  exact hout

theorem renamingsBetween_le (outs : List (List MarkedToken)) (k l : Nat) :
    renamingsBetween outs k l ≤ outs.countP renames := by
  apply List.Sublist.countP_le
  exact (List.take_sublist _ _).trans (List.drop_sublist _ _)

theorem generations_differ {gen : Nat} (hgen : gen < 2 ^ 32) {outs : List (List MarkedToken)}
    (hfew : outs.countP renames < 2 ^ 32) {k l : Nat} {out : List MarkedToken}
    (hout : outs[k]? = some out) (hren : renames out = true) (hkl : k < l) :
    genAfter gen (outs.take k) ≠ genAfter gen (outs.take l) := by
  rw [ne_eq, genAfter_take_eq_iff hgen outs (le_of_lt hkl)]
  have hpos := renamingsBetween_pos hout hren hkl
  have hle := renamingsBetween_le outs k l
  rw [Nat.mod_eq_of_lt (by omega)]
  omega

end Generations

end CZet
