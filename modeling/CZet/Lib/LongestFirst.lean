/- digest: Search for consecutive segments that tries the longest candidate first and stops at
     the first success; an exchange condition makes it find every full split. -/

import Mathlib.Data.List.Lex
import Mathlib.Order.Lattice

set_option autoImplicit false
set_option relaxedAutoImplicit false

namespace CZet.Lib.LongestFirst

variable {α δ : Type} [LinearOrder α]

/-- `Path cs i js k`: starting at `i`, each `c ∈ cs` in turn accepts a segment; the segments
end at the positions `js` and the last one at `k`. -/
inductive Path : List (α → List α) → α → List α → α → Prop
  | nil (i : α) : Path [] i [] i
  | cons {c : α → List α} {cs : List (α → List α)} {i j k : α} {js : List α} :
      j ∈ c i → Path cs j js k → Path (c :: cs) i (j :: js) k

/-- The first path in the order of the candidate lists, wherever it ends. -/
def search : List (α → List α) → α → Option (List α × α)
  | [], i => some ([], i)
  | c :: cs, i => (c i).findSome? fun j => (search cs j).map fun r => (j :: r.1, r.2)

/-- Candidates are listed longest first, two segments between positions of equal level end at
positions of equal level, and of two overlapping segments the later one may be extended to the
end of the earlier one. -/
structure Exchangeable (level : α → δ) (c : α → List α) : Prop where
  descending : ∀ i, (c i).Pairwise (· > ·)
  level_eq : ∀ {i i' j j'}, level i = level i' → j ∈ c i → j' ∈ c i' → level j = level j'
  exchange : ∀ {i i' j j'}, i ≤ i' → level i = level i' → j ∈ c i → j' ∈ c i' → j' ≤ j →
    j ∈ c i'

omit [LinearOrder α] in
theorem search_sound {cs : List (α → List α)} {i k : α} {js : List α}
    (h : search cs i = some (js, k)) : Path cs i js k := by
  induction cs generalizing i js with
  | nil =>
      simp only [search, Option.some.injEq, Prod.mk.injEq] at h
      obtain ⟨rfl, rfl⟩ := h
      exact .nil i
  | cons c cs ih =>
      simp only [search] at h
      obtain ⟨j, hj, hsome⟩ := List.exists_of_findSome?_eq_some h
      simp only [Option.map_eq_some_iff, Prod.mk.injEq] at hsome
      obtain ⟨⟨js', k'⟩, hrest, rfl, rfl⟩ := hsome
      exact .cons hj (ih hrest)

theorem path_cross {level : α → δ} {cs : List (α → List α)}
    (hcs : ∀ c ∈ cs, Exchangeable level c) {i i' e k : α} {js js' : List α}
    (hfull : Path cs i js e) (hpre : Path cs i' js' k) (hi : i ≤ i')
    (hlevel : level i = level i') (hk : k ≤ e) : ∃ js'', Path cs i' js'' e := by
  induction hfull generalizing i' js' k with
  | nil i =>
      cases hpre
      have : i = i' := le_antisymm hi hk
      exact ⟨[], this ▸ Path.nil i⟩
  | @cons c cs i j e js hj hrest ih =>
      cases hpre with
      | @cons _ _ _ j' _ js' hj' hrest' =>
          have hc := hcs c List.mem_cons_self
          by_cases hjj : j' ≤ j
          · exact ⟨j :: js, .cons (hc.exchange hi hlevel hj hj' hjj) hrest⟩
          · obtain ⟨js'', hjoin⟩ := ih (fun d hd => hcs d (List.mem_cons_of_mem _ hd)) hrest'
              (le_of_not_ge hjj) (hc.level_eq hlevel hj hj') hk
            exact ⟨j' :: js'', .cons hj' hjoin⟩

private theorem findSome_of_descending {β : Type} {l : List α} {f : α → Option β} {j : α}
    (hl : l.Pairwise (· > ·)) (hj : j ∈ l) (hf : (f j).isSome) :
    ∃ j' ∈ l, j ≤ j' ∧ (f j').isSome ∧ l.findSome? f = f j' := by
  induction l with
  | nil => cases hj
  | cons a l ih =>
      cases ha : f a with
      | some b =>
          refine ⟨a, List.mem_cons_self, ?_, by simp [ha], by simp [ha]⟩
          rcases List.mem_cons.mp hj with rfl | hmem
          · exact le_refl _
          · exact le_of_lt (List.rel_of_pairwise_cons hl hmem)
      | none =>
          have hmem : j ∈ l := by
            rcases List.mem_cons.mp hj with rfl | hmem
            · rw [ha] at hf
              cases hf
            · exact hmem
          obtain ⟨j', hj', hle, hsome, heq⟩ := ih hl.of_cons hmem
          exact ⟨j', List.mem_cons_of_mem _ hj', hle, hsome, by simp [ha, heq]⟩

private theorem path_end_le {cs : List (α → List α)} {e : α}
    (hle : ∀ c ∈ cs, ∀ i j, j ∈ c i → j ≤ e) {i k : α} {js : List α} (h : Path cs i js k)
    (hi : i ≤ e) : k ≤ e := by
  induction h with
  | nil => exact hi
  | cons hj _ ih =>
      exact ih (fun c hc => hle c (List.mem_cons_of_mem _ hc)) (hle _ List.mem_cons_self _ _ hj)

/-- When a path to `e` exists and no candidate lies beyond `e`, the search ends at `e` as well,
and its segments are, from left to right, at least as long. -/
theorem search_full (level : α → δ) {cs : List (α → List α)}
    (hcs : ∀ c ∈ cs, Exchangeable level c) {e : α} (hle : ∀ c ∈ cs, ∀ i j, j ∈ c i → j ≤ e)
    {i : α} {js : List α} (hfull : Path cs i js e) :
    ∃ js', search cs i = some (js', e) ∧ js ≤ js' := by
  induction cs generalizing i js with
  | nil =>
      cases hfull
      exact ⟨[], rfl, le_refl _⟩
  | cons c cs ih =>
      have hcs' : ∀ d ∈ cs, Exchangeable level d := fun d hd => hcs d (List.mem_cons_of_mem _ hd)
      have hle' : ∀ d ∈ cs, ∀ i j, j ∈ d i → j ≤ e :=
        fun d hd => hle d (List.mem_cons_of_mem _ hd)
      have hc := hcs c List.mem_cons_self
      cases hfull with
      | @cons _ _ _ j _ js hj hrest =>
          obtain ⟨js', hsearch, hjs⟩ := ih hcs' hle' hrest
          obtain ⟨j₁, hj₁, hjj₁, hsome, hfirst⟩ := findSome_of_descending
            (f := fun j => (search cs j).map fun r => (j :: r.1, r.2)) (hc.descending i) hj
            (by simp [hsearch])
          rcases eq_or_lt_of_le hjj₁ with rfl | hlt
          · refine ⟨j :: js', ?_, ?_⟩
            · simp only [search, hfirst, hsearch, Option.map_some]
            · exact List.cons_le_cons j hjs
          · -- The longer candidate was taken: its own path crosses the full one.
            simp only [Option.isSome_map] at hsome
            obtain ⟨⟨js₁, k₁⟩, hsearch₁⟩ := Option.isSome_iff_exists.mp hsome
            have hk₁ : k₁ ≤ e := path_end_le hle' (search_sound hsearch₁)
              (hle c List.mem_cons_self i j₁ hj₁)
            obtain ⟨js₂, hjoin⟩ := path_cross hcs' hrest (search_sound hsearch₁) hjj₁
              (hc.level_eq rfl hj hj₁) hk₁
            obtain ⟨js₃, hsearch₃, -⟩ := ih hcs' hle' hjoin
            refine ⟨j₁ :: js₃, ?_, ?_⟩
            · simp only [search, hfirst, hsearch₃, Option.map_some]
            · exact le_of_lt (List.Lex.rel hlt)

/-- The first path to `e` in the order of the candidate lists. -/
def searchTo (e : α) : List (α → List α) → α → Option (List α)
  | [], i => if i = e then some [] else none
  | c :: cs, i => (c i).findSome? fun j => (searchTo e cs j).map fun js => j :: js

private theorem searchTo_sound {e : α} {cs : List (α → List α)} {i : α} {js : List α}
    (h : searchTo e cs i = some js) : Path cs i js e := by
  induction cs generalizing i js with
  | nil =>
      simp only [searchTo] at h
      split at h
      · rename_i hi
        cases h
        exact hi ▸ Path.nil i
      · cases h
  | cons c cs ih =>
      simp only [searchTo] at h
      obtain ⟨j, hj, hsome⟩ := List.exists_of_findSome?_eq_some h
      obtain ⟨js', hrest, rfl⟩ := Option.map_eq_some_iff.mp hsome
      exact .cons hj (ih hrest)

/-- With candidates listed longest first, the first path to `e` is the longest one from left
to right. -/
private theorem searchTo_longest {e : α} {cs : List (α → List α)}
    (hdesc : ∀ c ∈ cs, ∀ i, (c i).Pairwise (· > ·)) {i : α} {js : List α}
    (hfull : Path cs i js e) : ∃ js', searchTo e cs i = some js' ∧ js ≤ js' := by
  induction cs generalizing i js with
  | nil =>
      cases hfull
      exact ⟨[], by simp [searchTo], le_refl _⟩
  | cons c cs ih =>
      have hdesc' : ∀ d ∈ cs, ∀ i, (d i).Pairwise (· > ·) :=
        fun d hd => hdesc d (List.mem_cons_of_mem _ hd)
      cases hfull with
      | @cons _ _ _ j _ js hj hrest =>
          obtain ⟨js', hsearch, hjs⟩ := ih hdesc' hrest
          obtain ⟨j₁, hj₁, hjj₁, hsome, hfirst⟩ := findSome_of_descending
            (f := fun j => (searchTo e cs j).map fun js => j :: js)
            (hdesc c List.mem_cons_self i) hj (by simp [hsearch])
          simp only [Option.isSome_map] at hsome
          obtain ⟨js₁, hjs₁⟩ := Option.isSome_iff_exists.mp hsome
          refine ⟨j₁ :: js₁, by simp only [searchTo, hfirst, hjs₁, Option.map_some], ?_⟩
          rcases eq_or_lt_of_le hjj₁ with rfl | hlt
          · obtain rfl : js' = js₁ := by simpa [hsearch] using hjs₁
            exact List.cons_le_cons j hjs
          · exact le_of_lt (List.Lex.rel hlt)

theorem searchTo_eq_search (level : α → δ) {cs : List (α → List α)}
    (hcs : ∀ c ∈ cs, Exchangeable level c) {e : α} (hle : ∀ c ∈ cs, ∀ i j, j ∈ c i → j ≤ e)
    (i : α) :
    searchTo e cs i = (search cs i).bind fun r => if r.2 = e then some r.1 else none := by
  cases hto : searchTo e cs i with
  | some js =>
      have hpath := searchTo_sound hto
      obtain ⟨js', hsearch, hjs⟩ := search_full level hcs hle hpath
      obtain ⟨js'', hto', hjs'⟩ :=
        searchTo_longest (fun c hc => (hcs c hc).descending) (search_sound hsearch)
      obtain rfl : js = js'' := by simpa [hto] using hto'
      obtain rfl : js = js' := le_antisymm hjs hjs'
      simp [hsearch]
  | none =>
      cases hsearch : search cs i with
      | none => rfl
      | some r =>
          obtain ⟨js, k⟩ := r
          have hne : k ≠ e := by
            rintro rfl
            obtain ⟨js', hto', -⟩ :=
              searchTo_longest (fun c hc => (hcs c hc).descending) (search_sound hsearch)
            simp [hto] at hto'
          simp [hne]

end CZet.Lib.LongestFirst
