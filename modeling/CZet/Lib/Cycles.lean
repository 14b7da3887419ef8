/- digest: Descents along a relation: where it leads to finitely many points they all end
     exactly when no point behind it comes back to itself. -/

import Mathlib.Data.Fintype.Card
import Mathlib.Data.Set.Finite.List
import Mathlib.Logic.Relation

set_option autoImplicit false
set_option relaxedAutoImplicit false

namespace CZet.Lib.Cycles

open Relation

variable {α : Type} {r : α → α → Prop} {a : α}

/-- Every descent from `a` along the relation ends. -/
def Ends (r : α → α → Prop) (a : α) : Prop := Acc (fun x y => r y x) a

/-- No point behind `a`, nor `a` itself, comes back to itself. -/
def Acyclic (r : α → α → Prop) (a : α) : Prop := ∀ b, ReflTransGen r a b → ¬ TransGen r b b

theorem Ends.intro (h : ∀ b, r a b → Ends r b) : Ends r a := Acc.intro a h

theorem Ends.next (h : Ends r a) {b : α} (hab : r a b) : Ends r b := Acc.inv h hab

theorem Ends.acyclic (h : Ends r a) : Acyclic r a := by
  induction h with
  | intro a _ ih =>
      have hnext : ∀ b, TransGen r a b → ¬ TransGen r b b := by
        intro b hab
        obtain ⟨c, hac, hcb⟩ := TransGen.head'_iff.mp hab
        exact ih c hac b hcb
      intro b hab
      rcases reflTransGen_iff_eq_or_transGen.mp hab with rfl | hab
      · intro hcycle
        exact hnext b hcycle hcycle
      · exact hnext b hab

theorem Acyclic.ends [Finite {b // ReflTransGen r a b}] (h : Acyclic r a) : Ends r a := by
  let behind : {b // ReflTransGen r a b} → {b // ReflTransGen r a b} → Prop :=
    fun x y => TransGen r y.1 x.1
  have htrans : IsTrans _ behind := ⟨fun _ _ _ hxy hyz => TransGen.trans hyz hxy⟩
  have hirrefl : Std.Irrefl behind := ⟨fun x => h x.1 x.2⟩
  have hends : ∀ x : {b // ReflTransGen r a b}, Ends r x.1 := by
    intro x
    induction x using (Finite.wellFounded_of_trans_of_irrefl behind).induction with
    | _ x ih =>
        apply Ends.intro
        intro b hxb
        exact ih ⟨b, ReflTransGen.tail x.2 hxb⟩ (.single hxb)
  exact hends ⟨a, .refl⟩

/-- Where the relation leads to a few points only, the descents from `a` all end exactly when none
of the points behind it comes back to itself. -/
theorem ends_iff_acyclic (points : List α) (hpoints : ∀ x y, r x y → y ∈ points) :
    Ends r a ↔ Acyclic r a := by
  have hmem : ∀ b : {b // ReflTransGen r a b}, b.1 ∈ a :: points := by
    rintro ⟨b, hab⟩
    rcases ReflTransGen.cases_tail hab with hab | ⟨c, -, hcb⟩
    · exact hab ▸ List.mem_cons_self
    · exact List.mem_cons_of_mem _ (hpoints c b hcb)
  have : Finite {b // b ∈ a :: points} := (a :: points).finite_toSet.to_subtype
  have : Finite {b // ReflTransGen r a b} :=
    Finite.of_injective (fun b => (⟨b.1, hmem b⟩ : {b // b ∈ a :: points})) fun _ _ hbc =>
      Subtype.ext (Subtype.mk.inj hbc)
  exact ⟨Ends.acyclic, Acyclic.ends⟩

end CZet.Lib.Cycles
