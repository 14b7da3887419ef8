/- digest: Open addressing with linear probing and tombstones: what a probe finds in a table whose
     keys can be reached from their homes, and the updates that keep them reachable. -/

import Mathlib.Data.Nat.ModEq
import Mathlib.Data.Nat.Find
import Mathlib.Logic.Function.Basic

set_option autoImplicit false
set_option relaxedAutoImplicit false

namespace CZet.Lib.LinearProbing

variable {K : Type} [DecidableEq K]

/-- What a slot says about keys. -/
inductive Slot (K : Type)
  | empty
  | tomb
  | used (key : K)

/-- The slot `d` steps behind `home`. -/
def walk (cap home d : Nat) : Nat := (home + d) % cap

/-- Walk to the key or to an empty slot; in the second case the first tombstone passed is the
place to insert.  `none` when `fuel` slots do not suffice. -/
def probe (slot : Nat → Slot K) (cap : Nat) (key : K) : Nat → Nat → Option Nat →
    Option (Nat × Bool)
  | 0, _, _ => none
  | fuel + 1, i, tomb =>
      match slot i with
      | .empty => some (tomb.getD i, false)
      | .tomb => probe slot cap key fuel ((i + 1) % cap) (some (tomb.getD i))
      | .used k =>
          if k = key then some (i, true) else probe slot cap key fuel ((i + 1) % cap) tomb

/-- The slots on the way from `home` to the one `d` steps behind it are taken. -/
def Taken (slot : Nat → Slot K) (cap home d : Nat) : Prop :=
  ∀ d' < d, slot (walk cap home d') ≠ .empty

/-- Every key sits in one slot, and no empty slot lies between its home and that slot. -/
structure WellPlaced (home : K → Nat) (cap : Nat) (slot : Nat → Slot K) : Prop where
  unique : ∀ {i j : Nat} {k : K}, i < cap → j < cap → slot i = .used k → slot j = .used k → i = j
  reached : ∀ {i : Nat} {k : K}, i < cap → slot i = .used k →
    ∃ d < cap, walk cap (home k) d = i ∧ Taken slot cap (home k) d

theorem walk_lt {cap : Nat} (hcap : 0 < cap) (home d : Nat) : walk cap home d < cap :=
  Nat.mod_lt _ hcap

private theorem walk_succ (cap home d : Nat) : walk cap home (d + 1) = walk cap (home + 1) d := by
  rw [walk, walk, Nat.add_right_comm, Nat.add_assoc]

private theorem walk_injective {cap home d d' : Nat} (hd : d < cap) (hd' : d' < cap)
    (h : walk cap home d = walk cap home d') : d = d' := by
  have hmod : d ≡ d' [MOD cap] := Nat.ModEq.add_left_cancel' home h
  exact Nat.ModEq.eq_of_lt_of_lt hmod hd hd'

private theorem exists_walk {cap i : Nat} (home : Nat) (hi : i < cap) :
    ∃ d < cap, walk cap home d = i := by
  have hcap : 0 < cap := Nat.lt_of_le_of_lt (Nat.zero_le i) hi
  have hhome := Nat.mod_lt home hcap
  refine ⟨(i + (cap - home % cap)) % cap, Nat.mod_lt _ hcap, ?_⟩
  rw [walk, Nat.add_mod, Nat.mod_mod, ← Nat.add_mod, ← Nat.mod_add_mod]
  have hsum : home % cap + (i + (cap - home % cap)) = i + cap := by omega
  rw [hsum, Nat.add_mod_right, Nat.mod_eq_of_lt hi]

private theorem probe_used {slot : Nat → Slot K} {cap : Nat} {key : K} {home d fuel : Nat}
    (hfuel : d < fuel) (hpast : ∀ d' < d, slot (walk cap home d') ≠ .empty ∧
      slot (walk cap home d') ≠ .used key)
    (hkey : slot (walk cap home d) = .used key) (tomb : Option Nat) :
    probe slot cap key fuel (home % cap) tomb = some (walk cap home d, true) := by
  induction d generalizing home fuel tomb with
  | zero =>
      obtain ⟨fuel, rfl⟩ := Nat.exists_eq_add_of_lt hfuel
      have hhome : walk cap home 0 = home % cap := by rw [walk, Nat.add_zero]
      rw [hhome] at hkey ⊢
      rw [Nat.zero_add, probe, hkey]
      simp
  | succ d ih =>
      obtain ⟨fuel, rfl⟩ : ∃ f, fuel = f + 1 := ⟨fuel - 1, by omega⟩
      have hnext : (home % cap + 1) % cap = (home + 1) % cap := Nat.mod_add_mod home cap 1
      have hfirst := hpast 0 (Nat.succ_pos d)
      have hhome : walk cap home 0 = home % cap := by rw [walk, Nat.add_zero]
      rw [hhome] at hfirst
      have hrest : ∀ tomb, probe slot cap key fuel ((home + 1) % cap) tomb =
          some (walk cap home (d + 1), true) := by
        intro tomb
        rw [walk_succ] at hkey ⊢
        refine ih (by omega) ?_ hkey tomb
        intro d' hd'
        rw [← walk_succ]
        exact hpast (d' + 1) (by omega)
      rw [probe, hnext]
      cases hslot : slot (home % cap) with
      | empty => exact absurd hslot hfirst.1
      | tomb => exact hrest _
      | used k =>
          have hk : k ≠ key := fun h => hfirst.2 (h ▸ hslot)
          simp only [if_neg hk]
          exact hrest _

private theorem probe_empty {slot : Nat → Slot K} {cap : Nat} (key : K) {home d fuel : Nat}
    (hfuel : d < fuel) (hpast : ∀ d' < d, slot (walk cap home d') ≠ .empty ∧
      slot (walk cap home d') ≠ .used key)
    (hempty : slot (walk cap home d) = .empty) (tomb : Option Nat) :
    ∃ d₀ ≤ d, probe slot cap key fuel (home % cap) tomb =
        some (tomb.getD (walk cap home d₀), false) ∧
      (slot (walk cap home d₀) = .empty ∨ slot (walk cap home d₀) = .tomb) := by
  induction d generalizing home fuel tomb with
  | zero =>
      obtain ⟨fuel, rfl⟩ := Nat.exists_eq_add_of_lt hfuel
      have hhome : walk cap home 0 = home % cap := by rw [walk, Nat.add_zero]
      refine ⟨0, Nat.le_refl 0, ?_, Or.inl hempty⟩
      rw [hhome] at hempty ⊢
      rw [Nat.zero_add, probe, hempty]
  | succ d ih =>
      obtain ⟨fuel, rfl⟩ : ∃ f, fuel = f + 1 := ⟨fuel - 1, by omega⟩
      have hnext : (home % cap + 1) % cap = (home + 1) % cap := Nat.mod_add_mod home cap 1
      have hfirst := hpast 0 (Nat.succ_pos d)
      have hhome : walk cap home 0 = home % cap := by rw [walk, Nat.add_zero]
      rw [hhome] at hfirst
      have hrest : ∀ tomb, ∃ d₀ ≤ d, probe slot cap key fuel ((home + 1) % cap) tomb =
            some (tomb.getD (walk cap home (d₀ + 1)), false) ∧
          (slot (walk cap home (d₀ + 1)) = .empty ∨ slot (walk cap home (d₀ + 1)) = .tomb) := by
        intro tomb
        rw [walk_succ] at hempty
        simp only [walk_succ]
        refine ih (by omega) ?_ hempty tomb
        intro d' hd'
        rw [← walk_succ]
        exact hpast (d' + 1) (by omega)
      rw [probe, hnext]
      cases hslot : slot (home % cap) with
      | empty => exact absurd hslot hfirst.1
      | tomb =>
          cases tomb with
          | some j =>
              obtain ⟨d₀, hd₀, hprobe, hfree⟩ := hrest (some j)
              exact ⟨d₀ + 1, by omega, hprobe, hfree⟩
          | none =>
              -- the first tombstone is kept to the end
              obtain ⟨d₀, -, hprobe, -⟩ := hrest (some (home % cap))
              refine ⟨0, Nat.zero_le _, ?_, Or.inr (hhome ▸ hslot)⟩
              rw [hhome]
              exact hprobe
      | used k =>
          have hk : k ≠ key := fun h => hfirst.2 (h ▸ hslot)
          simp only [if_neg hk]
          obtain ⟨d₀, hd₀, hprobe, hfree⟩ := hrest tomb
          exact ⟨d₀ + 1, by omega, hprobe, hfree⟩

theorem probe_of_present {home : K → Nat} {cap : Nat} {slot : Nat → Slot K}
    (h : WellPlaced home cap slot) {i : Nat} {key : K} (hi : i < cap)
    (hkey : slot i = .used key) : probe slot cap key cap (home key % cap) none = some (i, true) := by
  obtain ⟨d, hd, rfl, htaken⟩ := h.reached hi hkey
  refine probe_used hd ?_ hkey none
  intro d' hd'
  refine ⟨htaken d' hd', ?_⟩
  intro hused
  have hlt : d' < cap := Nat.lt_trans hd' hd
  have hcap : 0 < cap := Nat.lt_of_le_of_lt (Nat.zero_le d) hd
  have hsame := h.unique (walk_lt hcap _ d') hi hused hkey
  exact absurd (walk_injective hlt hd hsame) (Nat.ne_of_lt hd')

/-- For an absent key the probe ends, in a free slot that the key can be put into. -/
theorem probe_of_absent {home : K → Nat} {cap : Nat} {slot : Nat → Slot K} {key : K}
    (habsent : ∀ i < cap, slot i ≠ .used key) (hempty : ∃ i < cap, slot i = .empty) :
    ∃ d < cap, probe slot cap key cap (home key % cap) none =
        some (walk cap (home key) d, false) ∧
      (slot (walk cap (home key) d) = .empty ∨ slot (walk cap (home key) d) = .tomb) ∧
      Taken slot cap (home key) d := by
  classical
  obtain ⟨i, hi, hslot⟩ := hempty
  have hcap : 0 < cap := Nat.lt_of_le_of_lt (Nat.zero_le i) hi
  obtain ⟨e, he, rfl⟩ := exists_walk (home key) hi
  have hex : ∃ d, slot (walk cap (home key) d) = .empty := ⟨e, hslot⟩
  have hfirst : Nat.find hex < cap := Nat.lt_of_le_of_lt (Nat.find_min' hex hslot) he
  obtain ⟨d₀, hd₀, hprobe, hfree⟩ := probe_empty key hfirst
    (fun d' hd' => ⟨Nat.find_min hex hd', habsent _ (walk_lt hcap _ d')⟩) (Nat.find_spec hex) none
  exact ⟨d₀, Nat.lt_of_le_of_lt hd₀ hfirst, hprobe, hfree,
    fun d' hd' => Nat.find_min hex (Nat.lt_of_lt_of_le hd' hd₀)⟩

omit [DecidableEq K] in
private theorem taken_update {slot : Nat → Slot K} {cap home d i : Nat} {s : Slot K}
    (hs : s ≠ .empty) (h : Taken slot cap home d) : Taken (Function.update slot i s) cap home d := by
  intro d' hd'
  rw [Function.update_apply]
  split
  · exact hs
  · exact h d' hd'

omit [DecidableEq K] in
theorem wellPlaced_empty (home : K → Nat) (cap : Nat) :
    WellPlaced home cap (fun _ => .empty) where
  unique _ _ h := by cases h
  reached _ h := by cases h

omit [DecidableEq K] in
theorem WellPlaced.insert {home : K → Nat} {cap : Nat} {slot : Nat → Slot K}
    (h : WellPlaced home cap slot) {key : K} (habsent : ∀ i < cap, slot i ≠ .used key) {d : Nat}
    (hd : d < cap) (hfree : slot (walk cap (home key) d) = .empty ∨
      slot (walk cap (home key) d) = .tomb) (htaken : Taken slot cap (home key) d) :
    WellPlaced home cap (Function.update slot (walk cap (home key) d) (.used key)) := by
  have hused : ∀ {i : Nat} {k : K}, i < cap →
      Function.update slot (walk cap (home key) d) (.used key) i = .used k →
      (i = walk cap (home key) d ∧ k = key) ∨ (k ≠ key ∧ slot i = .used k) := by
    intro i k hi hslot
    rw [Function.update_apply] at hslot
    split at hslot
    · rename_i heq
      cases hslot
      exact Or.inl ⟨heq, rfl⟩
    · refine Or.inr ⟨?_, hslot⟩
      rintro rfl
      exact habsent i hi hslot
  refine ⟨?_, ?_⟩
  · intro i j k hi hj hki hkj
    rcases hused hi hki with ⟨rfl, rfl⟩ | ⟨hk, hki⟩
    · rcases hused hj hkj with ⟨rfl, -⟩ | ⟨hk, -⟩
      · rfl
      · exact absurd rfl hk
    · rcases hused hj hkj with ⟨-, rfl⟩ | ⟨-, hkj⟩
      · exact absurd rfl hk
      · exact h.unique hi hj hki hkj
  · intro i k hi hki
    rcases hused hi hki with ⟨rfl, rfl⟩ | ⟨-, hki⟩
    · exact ⟨d, hd, rfl, taken_update (by simp) htaken⟩
    · obtain ⟨e, he, hwalk, hpath⟩ := h.reached hi hki
      exact ⟨e, he, hwalk, taken_update (by simp) hpath⟩

omit [DecidableEq K] in
theorem WellPlaced.delete {home : K → Nat} {cap : Nat} {slot : Nat → Slot K}
    (h : WellPlaced home cap slot) (i : Nat) :
    WellPlaced home cap (Function.update slot i .tomb) := by
  have hused : ∀ {j : Nat} {k : K}, Function.update slot i .tomb j = .used k →
      slot j = .used k := by
    intro j k hslot
    rw [Function.update_apply] at hslot
    split at hslot
    · cases hslot
    · exact hslot
  refine ⟨?_, ?_⟩
  · intro j j' k hj hj' hkj hkj'
    exact h.unique hj hj' (hused hkj) (hused hkj')
  · intro j k hj hkj
    obtain ⟨e, he, hwalk, hpath⟩ := h.reached hj (hused hkj)
    exact ⟨e, he, hwalk, taken_update (by simp) hpath⟩

end CZet.Lib.LinearProbing
