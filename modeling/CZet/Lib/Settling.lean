/- digest: Computations that are given budgets: what they come to once the budgets are large. -/

import Mathlib.Order.Filter.AtTopBot.Prod

set_option autoImplicit false
set_option relaxedAutoImplicit false

open Filter

namespace CZet.Lib.Settling

variable {ι κ α β : Type} {l : Filter ι}

/-- Once the budgets are large, the computation gives the result `r`. -/
def SettlesTo (l : Filter ι) (g : ι → Option α) (r : α) : Prop := ∀ᶠ i in l, g i = some r

def Settles (l : Filter ι) (g : ι → Option α) : Prop := ∃ r, SettlesTo l g r

theorem settlesTo_some (r : α) : SettlesTo l (fun _ => some r) r :=
  Eventually.of_forall fun _ => rfl

theorem settles_some (r : α) : Settles l fun _ => some r := ⟨r, settlesTo_some r⟩

theorem SettlesTo.unique [l.NeBot] {g : ι → Option α} {r s : α} (hr : SettlesTo l g r)
    (hs : SettlesTo l g s) : r = s := by
  obtain ⟨i, hi, hi'⟩ := (hr.and hs).exists
  exact Option.some.inj (hi.symm.trans hi')

theorem SettlesTo.bind {g : ι → Option α} {k : ι → α → Option β} {r : α} {s : β}
    (hg : SettlesTo l g r) (hk : SettlesTo l (fun i => k i r) s) :
    SettlesTo l (fun i => (g i).bind (k i)) s := by
  filter_upwards [hg, hk] with i hi hki
  rw [hi]
  exact hki

/-- A computation in two parts, the second of which goes on from the result of the first. -/
theorem Settles.bind {g : ι → Option α} {k : ι → α → Option β} (hg : Settles l g)
    (hk : ∀ r, SettlesTo l g r → Settles l fun i => k i r) :
    Settles l fun i => (g i).bind (k i) := by
  obtain ⟨r, hr⟩ := hg
  obtain ⟨s, hs⟩ := hk r hr
  exact ⟨s, hr.bind hs⟩

theorem SettlesTo.map {g : ι → Option α} {r : α} (hg : SettlesTo l g r) (f : α → β) :
    SettlesTo l (fun i => (g i).map f) (f r) := by
  filter_upwards [hg] with i hi
  rw [hi]
  rfl

theorem Settles.map {g : ι → Option α} (hg : Settles l g) (f : α → β) :
    Settles l fun i => (g i).map f := by
  obtain ⟨r, hr⟩ := hg
  exact ⟨f r, hr.map f⟩

theorem Settles.comp {g : ι → Option α} (hg : Settles l g) {l' : Filter κ} {f : κ → ι}
    (hf : Tendsto f l' l) : Settles l' fun k => g (f k) := by
  obtain ⟨r, hr⟩ := hg
  exact ⟨r, hf.eventually hr⟩

theorem tendsto_fst_atTop : Tendsto (Prod.fst : ℕ × ℕ → ℕ) atTop atTop := by
  rw [← prod_atTop_atTop_eq]
  exact tendsto_fst

theorem SettlesTo.of_spend {g : ℕ × ℕ → Option α} {r : α}
    (hg : SettlesTo atTop (fun p : ℕ × ℕ => g (p.1, p.2 + 1)) r) : SettlesTo atTop g r := by
  obtain ⟨⟨a, b⟩, hab⟩ := eventually_atTop.mp hg
  refine eventually_atTop.mpr ⟨(a, b + 1), ?_⟩
  rintro ⟨a', b'⟩ hle
  obtain ⟨ha, hb⟩ := Prod.mk_le_mk.mp hle
  obtain ⟨c, rfl⟩ : ∃ c, b' = c + 1 := ⟨b' - 1, by omega⟩
  exact hab (a', c) (Prod.mk_le_mk.mpr ⟨ha, by omega⟩)

theorem Settles.of_spend {g : ℕ × ℕ → Option α}
    (hg : Settles atTop fun p : ℕ × ℕ => g (p.1, p.2 + 1)) : Settles atTop g := by
  obtain ⟨r, hr⟩ := hg
  exact ⟨r, SettlesTo.of_spend hr⟩

theorem SettlesTo.of_diagonal {g : ℕ × ℕ → Option α} {k : ℕ → Option α} {r : α}
    (hg : SettlesTo atTop g r) (hk : ∀ n, k (n + 1) = g (n, n)) : SettlesTo atTop k r := by
  obtain ⟨⟨a, b⟩, hab⟩ := eventually_atTop.mp hg
  refine eventually_atTop.mpr ⟨max a b + 1, ?_⟩
  intro n hn
  obtain ⟨m, rfl⟩ : ∃ m, n = m + 1 := ⟨n - 1, by omega⟩
  rw [hk m]
  exact hab (m, m) (Prod.mk_le_mk.mpr ⟨by omega, by omega⟩)

end CZet.Lib.Settling
