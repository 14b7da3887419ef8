/- source: stdlib/utils/hashmap.h
   digest: The string-keyed hash map of the standard library, and that every sequence of its
     operations gives the results of a finite map. -/

import Mathlib.Data.Finmap
import Mathlib.Data.Nat.Bitwise
import CZet.Lib.LinearProbing
import CZet.Lib.OpRun

set_option autoImplicit false
set_option relaxedAutoImplicit false

namespace CZet.Stdlib

open CZet.Lib.LinearProbing CZet.Lib.OpRun

/-- The characters of a C string in front of its terminator; `strcmp` compares these. -/
abbrev Key := List UInt8

inductive HmapState
  | empty | used | tomb
  deriving DecidableEq, Repr

/-- `struct hmap_entry`; `none` is a `NULL` pointer. -/
structure HmapEntry (V : Type) where
  key : Option Key := none
  val : Option V := none
  state : HmapState := .empty

/-- `struct hmap`.  A table is calloc'ed whole, so its size in bytes is below 2^64 and the
`unsigned long` arithmetic on `cap`, `count` and `tombs` does not wrap. -/
structure Hmap (V : Type) where
  tab : Nat → HmapEntry V
  cap : Nat
  count : Nat
  tombs : Nat

/-- FNV-1a in 64 bits. -/
def hmapHash (s : Key) : UInt64 :=
  s.foldl (fun h c => (h ^^^ c.toUInt64) * 1099511628211) 1469598103934665603

section Operations

variable {V : Type}

/-- `hmap_init` when its calloc succeeds. -/
def hmapInit : Hmap V where
  tab := fun _ => {}
  cap := 16
  count := 0
  tombs := 0

def hmapCount (m : Hmap V) : Nat := m.count

/-- The loop of `hmap_probe`, for at most `fuel` slots. -/
def hmapProbeLoop (m : Hmap V) (key : Key) : Nat → Nat → Nat → Option (Nat × Bool)
  | 0, _, _ => none
  | fuel + 1, i, firstTomb =>
      let e := m.tab i
      if e.state = .empty then some (if firstTomb ≠ m.cap then firstTomb else i, false)
      else if e.state = .tomb then
        hmapProbeLoop m key fuel ((i + 1) &&& (m.cap - 1))
          (if firstTomb = m.cap then i else firstTomb)
      else if e.key = some key then some (i, true)
      else hmapProbeLoop m key fuel ((i + 1) &&& (m.cap - 1)) firstTomb

/-- `hmap_probe`.  The loop comes back to a slot after `cap` steps, so one that has not returned
by then never does. -/
def hmapProbe (m : Hmap V) (key : Key) : Option (Nat × Bool) :=
  hmapProbeLoop m key m.cap ((hmapHash key).toNat &&& (m.cap - 1)) m.cap

def setEntry (m : Hmap V) (i : Nat) (e : HmapEntry V) : Hmap V :=
  { m with tab := Function.update m.tab i e }

/-- The loop of `hmap_rehash` over the old table. -/
def rehashLoop (put : Hmap V → Key → V → Option (Int × Hmap V)) (ot : Nat → HmapEntry V) :
    List Nat → Hmap V → Option (Hmap V)
  | [], m => some m
  | i :: is, m =>
      match (ot i).state, (ot i).key, (ot i).val with
      | .used, some key, some val => do
          let (_, m) ← put m key val
          rehashLoop put ot is m
      | _, _, _ => rehashLoop put ot is m

/-- `hmap_rehash`; `alloc n` says whether the calloc of `n` entries succeeds. -/
def hmapRehash (alloc : Nat → Bool) (put : Hmap V → Key → V → Option (Int × Hmap V)) (m : Hmap V)
    (ncap : Nat) : Option (Int × Hmap V) :=
  if alloc ncap then
    (rehashLoop put m.tab (List.range m.cap)
      { tab := fun _ => {}, cap := ncap, count := 0, tombs := 0 }).map fun m => (0, m)
  else some (-1, m)

/-- Put a value into the slot that the probe returned. -/
def hmapStore (m : Hmap V) (key : Key) (val : V) (i : Nat) (found : Bool) : Hmap V :=
  let e := m.tab i
  if found then setEntry m i { e with val := some val }
  else
    { setEntry m i { key := some key, val := some val, state := .used } with
      tombs := if e.state = .tomb then m.tombs - 1 else m.tombs
      count := m.count + 1 }

/-- `hmap_put` on a value that is not `NULL`, with at most `fuel` calls inside each other. -/
def hmapPut (alloc : Nat → Bool) : Nat → Hmap V → Key → V → Option (Int × Hmap V)
  | 0, _, _, _ => none
  | fuel + 1, m, key, val => do
      let (rc, m) ←
        if (m.count + m.tombs + 1) * 10 ≥ m.cap * 7 then
          hmapRehash alloc (hmapPut alloc fuel) m (m.cap * 2)
        else some (0, m)
      if rc ≠ 0 then pure (-1, m)
      else do
        let (i, found) ← hmapProbe m key
        pure (0, hmapStore m key val i found)

/-- `hmap_put` without the branch that makes the table larger: `none` where that branch is due. -/
def hmapPutInPlace (m : Hmap V) (key : Key) (val : V) : Option (Int × Hmap V) :=
  if (m.count + m.tombs + 1) * 10 ≥ m.cap * 7 then none
  else (hmapProbe m key).map fun r => (0, hmapStore m key val r.1 r.2)

def hmapGet (m : Hmap V) (key : Key) : Option (Option V) := do
  let (i, found) ← hmapProbe m key
  pure (if found then (m.tab i).val else none)

/-- Turn the entry at `i` into a tombstone. -/
def hmapBury (m : Hmap V) (i : Nat) : Hmap V :=
  { setEntry m i { m.tab i with state := .tomb, val := none } with
    count := m.count - 1
    tombs := m.tombs + 1 }

/-- `hmap_del`: 0 when deleted, -1 when missing. -/
def hmapDel (m : Hmap V) (key : Key) : Option (Int × Hmap V) := do
  let (i, found) ← hmapProbe m key
  if found then pure (0, hmapBury m i) else pure (-1, m)

end Operations

inductive HmapOp (V : Type)
  | put (key : Key) (val : V)
  | get (key : Key)
  | del (key : Key)
  | count

/-- What a caller sees of an operation. -/
inductive HmapResult (V : Type)
  | status (rc : Int)
  | value (v : Option V)
  | size (n : Nat)

section Steps

variable {V : Type}

def hmapStep (alloc : Nat → Bool) : HmapOp V → Hmap V → Option (List (HmapResult V) × Hmap V)
  | .put key val, m => (hmapPut alloc 2 m key val).map fun r => ([.status r.1], r.2)
  | .get key, m => (hmapGet m key).map fun v => ([.value v], m)
  | .del key, m => (hmapDel m key).map fun r => ([.status r.1], r.2)
  | .count, m => some ([.size (hmapCount m)], m)

/-- The same operations on a finite map. -/
def finmapStep : HmapOp V → Finmap (fun _ : Key => V) →
    List (HmapResult V) × Finmap (fun _ : Key => V)
  | .put key val, f => ([.status 0], f.insert key val)
  | .get key, f => ([.value (f.lookup key)], f)
  | .del key, f => ([.status (if key ∈ f then 0 else -1)], f.erase key)
  | .count, f => ([.size f.keys.card], f)

end Steps

section Representation

variable {V : Type}

/-- What an entry says about keys. -/
def HmapEntry.slot (e : HmapEntry V) : Slot Key :=
  match e.state, e.key with
  | .used, some key => .used key
  | .tomb, _ => .tomb
  | _, _ => .empty

def Hmap.slots (m : Hmap V) (i : Nat) : Slot Key := (m.tab i).slot

def home (key : Key) : Nat := (hmapHash key).toNat

/-- The slots below `cap` that hold something of kind `s`. -/
def Hmap.slotsIn (m : Hmap V) (s : HmapState) : Finset Nat :=
  (Finset.range m.cap).filter fun i => (m.tab i).state = s

/-- The invariant of reachable maps. -/
structure Hmap.Valid (m : Hmap V) : Prop where
  capPow : ∃ k, 4 ≤ k ∧ m.cap = 2 ^ k
  filled : ∀ i, (m.tab i).state = .used → (m.tab i).key.isSome ∧ (m.tab i).val.isSome
  placed : WellPlaced home m.cap m.slots
  count : m.count = (m.slotsIn .used).card
  tombs : m.tombs = (m.slotsIn .tomb).card
  load : (m.count + m.tombs) * 10 < m.cap * 7

/-- The map holds `val` under `key`. -/
def Hmap.Holds (m : Hmap V) (key : Key) (val : V) : Prop :=
  ∃ i < m.cap, (m.tab i).state = .used ∧ (m.tab i).key = some key ∧ (m.tab i).val = some val

/-- The finite map that a table stands for. -/
structure Represents (m : Hmap V) (f : Finmap (fun _ : Key => V)) : Prop where
  valid : m.Valid
  lookup : ∀ key val, f.lookup key = some val ↔ m.Holds key val
  card : f.keys.card = m.count

theorem slots_of_empty {m : Hmap V} {i : Nat} (h : (m.tab i).state = .empty) :
    m.slots i = .empty := by
  simp [Hmap.slots, HmapEntry.slot, h]

theorem slots_of_tomb {m : Hmap V} {i : Nat} (h : (m.tab i).state = .tomb) :
    m.slots i = .tomb := by
  simp [Hmap.slots, HmapEntry.slot, h]

theorem slots_of_used {m : Hmap V} {i : Nat} {key : Key} (h : (m.tab i).state = .used)
    (hkey : (m.tab i).key = some key) : m.slots i = .used key := by
  simp [Hmap.slots, HmapEntry.slot, h, hkey]

theorem used_of_slots {m : Hmap V} {i : Nat} {key : Key} (h : m.slots i = .used key) :
    (m.tab i).state = .used ∧ (m.tab i).key = some key := by
  simp only [Hmap.slots, HmapEntry.slot] at h
  split at h
  · rename_i hstate hkey
    cases h
    exact ⟨hstate, hkey⟩
  · cases h
  · cases h

private theorem state_of_slots_empty {m : Hmap V} (hvalid : m.Valid) {i : Nat}
    (h : m.slots i = .empty) : (m.tab i).state = .empty := by
  cases hstate : (m.tab i).state with
  | empty => rfl
  | tomb => simp [slots_of_tomb hstate] at h
  | used =>
      obtain ⟨key, hkey⟩ := Option.isSome_iff_exists.mp (hvalid.filled i hstate).1
      simp [slots_of_used hstate hkey] at h

private theorem state_of_slots_tomb {m : Hmap V} {i : Nat} (h : m.slots i = .tomb) :
    (m.tab i).state = .tomb := by
  simp only [Hmap.slots, HmapEntry.slot] at h
  split at h
  · cases h
  · assumption
  · cases h

private theorem cap_pos {m : Hmap V} (hvalid : m.Valid) : 0 < m.cap := by
  obtain ⟨k, -, hcap⟩ := hvalid.capPow
  rw [hcap]
  exact Nat.two_pow_pos k

theorem exists_empty {m : Hmap V} (hvalid : m.Valid) :
    ∃ i < m.cap, (m.tab i).state = .empty := by
  by_contra hnone
  have hcover : Finset.range m.cap = m.slotsIn .used ∪ m.slotsIn .tomb := by
    ext i
    simp only [Finset.mem_range, Hmap.slotsIn, Finset.mem_union, Finset.mem_filter]
    constructor
    · intro hi
      cases hstate : (m.tab i).state with
      | empty => exact absurd ⟨i, hi, hstate⟩ hnone
      | used => exact Or.inl ⟨hi, rfl⟩
      | tomb => exact Or.inr ⟨hi, rfl⟩
    · rintro (⟨hi, -⟩ | ⟨hi, -⟩) <;> exact hi
  have hcard := congrArg Finset.card hcover
  have hunion := Finset.card_union_le (m.slotsIn .used) (m.slotsIn .tomb)
  have hload := hvalid.load
  rw [← hvalid.count, ← hvalid.tombs] at hunion
  rw [Finset.card_range] at hcard
  omega

private theorem hmapProbeLoop_eq {m : Hmap V} (hvalid : m.Valid) (key : Key) (fuel i : Nat)
    (hi : i < m.cap) (tomb : Option Nat) (htomb : ∀ j ∈ tomb, j < m.cap) :
    hmapProbeLoop m key fuel i (tomb.getD m.cap) = probe m.slots m.cap key fuel i tomb := by
  obtain ⟨k, -, hcap⟩ := hvalid.capPow
  have hmask : ∀ j, j &&& (m.cap - 1) = j % m.cap := by
    intro j
    rw [hcap, Nat.and_two_pow_sub_one_eq_mod]
  induction fuel generalizing i tomb with
  | zero => rfl
  | succ fuel ih =>
      have hnext : (i + 1) % m.cap < m.cap := Nat.mod_lt _ (cap_pos hvalid)
      rw [hmapProbeLoop, probe, hmask]
      cases hstate : (m.tab i).state with
      | empty =>
          rw [slots_of_empty hstate]
          cases tomb with
          | none => simp
          | some j =>
              have hj : j ≠ m.cap := Nat.ne_of_lt (htomb j rfl)
              simp [hj]
      | tomb =>
          rw [slots_of_tomb hstate]
          have hfirst : (if tomb.getD m.cap = m.cap then i else tomb.getD m.cap) =
              (some (tomb.getD i)).getD m.cap := by
            cases tomb with
            | none => simp
            | some j =>
                have hj : j ≠ m.cap := Nat.ne_of_lt (htomb j rfl)
                simp [hj]
          simp only [reduceCtorEq, if_false, if_true, hfirst]
          refine ih _ hnext _ ?_
          intro j hj
          cases tomb with
          | none =>
              obtain rfl : i = j := by simpa using hj
              exact hi
          | some j' => exact htomb j (by simpa using hj)
      | used =>
          obtain ⟨q, hq⟩ := Option.isSome_iff_exists.mp (hvalid.filled i hstate).1
          rw [slots_of_used hstate hq]
          simp only [reduceCtorEq, if_false, hq, Option.some.injEq]
          split
          · rfl
          · exact ih _ hnext tomb htomb

theorem hmapProbe_eq {m : Hmap V} (hvalid : m.Valid) (key : Key) :
    hmapProbe m key = probe m.slots m.cap key m.cap (home key % m.cap) none := by
  obtain ⟨k, -, hcap⟩ := hvalid.capPow
  have hmask : home key &&& (m.cap - 1) = home key % m.cap := by
    rw [hcap, Nat.and_two_pow_sub_one_eq_mod]
  have hloop : hmapProbeLoop m key m.cap (home key % m.cap) ((none : Option Nat).getD m.cap) =
      probe m.slots m.cap key m.cap (home key % m.cap) none :=
    hmapProbeLoop_eq hvalid key m.cap _ (Nat.mod_lt _ (cap_pos hvalid)) none (by simp)
  rw [← hloop, hmapProbe, ← hmask]
  rfl

/-- The probe ends at the slot of the key, or in a free slot that the key can be put into. -/
theorem hmapProbe_cases {m : Hmap V} (hvalid : m.Valid) (key : Key) :
    (∃ i < m.cap, m.slots i = .used key ∧ hmapProbe m key = some (i, true)) ∨
    ((∀ i < m.cap, m.slots i ≠ .used key) ∧ ∃ d < m.cap,
      hmapProbe m key = some (walk m.cap (home key) d, false) ∧
      (m.slots (walk m.cap (home key) d) = .empty ∨ m.slots (walk m.cap (home key) d) = .tomb) ∧
      Taken m.slots m.cap (home key) d) := by
  rw [hmapProbe_eq hvalid]
  by_cases hpresent : ∃ i < m.cap, m.slots i = .used key
  · obtain ⟨i, hi, hused⟩ := hpresent
    exact Or.inl ⟨i, hi, hused, probe_of_present hvalid.placed hi hused⟩
  · have habsent : ∀ i < m.cap, m.slots i ≠ .used key := by
      intro i hi hused
      exact hpresent ⟨i, hi, hused⟩
    obtain ⟨i, hi, hempty⟩ := exists_empty hvalid
    exact Or.inr ⟨habsent, probe_of_absent habsent ⟨i, hi, slots_of_empty hempty⟩⟩

private theorem holds_unique {m : Hmap V} (hvalid : m.Valid) {i : Nat} {key : Key} {val : V}
    (hi : i < m.cap) (hused : m.slots i = .used key) :
    m.Holds key val ↔ (m.tab i).val = some val := by
  constructor
  · rintro ⟨j, hj, hstate, hkey, hval⟩
    rw [hvalid.placed.unique hi hj hused (slots_of_used hstate hkey)]
    exact hval
  · intro hval
    obtain ⟨hstate, hkey⟩ := used_of_slots hused
    exact ⟨i, hi, hstate, hkey, hval⟩

private theorem not_holds {m : Hmap V} {key : Key} (habsent : ∀ i < m.cap, m.slots i ≠ .used key)
    (val : V) : ¬ m.Holds key val := by
  rintro ⟨i, hi, hstate, hkey, -⟩
  exact habsent i hi (slots_of_used hstate hkey)

private theorem lookup_of_present {m : Hmap V} {f : Finmap (fun _ : Key => V)}
    (h : Represents m f) {i : Nat} {key : Key} (hi : i < m.cap) (hused : m.slots i = .used key) :
    f.lookup key = (m.tab i).val := by
  ext val
  rw [h.lookup, holds_unique h.valid hi hused]

private theorem lookup_of_absent {m : Hmap V} {f : Finmap (fun _ : Key => V)}
    (h : Represents m f) {key : Key} (habsent : ∀ i < m.cap, m.slots i ≠ .used key) :
    f.lookup key = none := by
  ext val
  rw [h.lookup]
  simp [not_holds habsent val]

theorem hmapGet_lookup {m : Hmap V} {f : Finmap (fun _ : Key => V)} (h : Represents m f)
    (key : Key) : hmapGet m key = some (f.lookup key) := by
  rcases hmapProbe_cases h.valid key with ⟨i, hi, hused, hprobe⟩ | ⟨habsent, d, -, hprobe, -⟩
  · simp [hmapGet, hprobe, lookup_of_present h hi hused]
  · simp [hmapGet, hprobe, lookup_of_absent h habsent]

theorem slots_update {m m' : Hmap V} {i : Nat} {e : HmapEntry V}
    (htab : m'.tab = Function.update m.tab i e) :
    m'.slots = Function.update m.slots i e.slot := by
  funext j
  simp only [Hmap.slots, htab, Function.update_apply]
  split <;> rfl

private theorem mem_slotsIn_update {m m' : Hmap V} {i : Nat} {e : HmapEntry V}
    (htab : m'.tab = Function.update m.tab i e) (hcap : m'.cap = m.cap) (s : HmapState) (j : Nat) :
    j ∈ m'.slotsIn s ↔ j < m.cap ∧ if j = i then e.state = s else (m.tab j).state = s := by
  simp only [Hmap.slotsIn, Finset.mem_filter, Finset.mem_range, hcap, htab, Function.update_apply]
  split <;> rfl

private theorem mem_slotsIn {m : Hmap V} {s : HmapState} {j : Nat} :
    j ∈ m.slotsIn s ↔ j < m.cap ∧ (m.tab j).state = s := by
  simp [Hmap.slotsIn]

private theorem keys_insert (f : Finmap (fun _ : Key => V)) (key : Key) (val : V) :
    (f.insert key val).keys = insert key f.keys := by
  ext k
  rw [Finmap.mem_keys, Finmap.mem_insert, Finset.mem_insert, Finmap.mem_keys]

private theorem store_present {m : Hmap V} {f : Finmap (fun _ : Key => V)} (h : Represents m f)
    {i : Nat} {key : Key} (hi : i < m.cap) (hused : m.slots i = .used key) (val : V) :
    Represents (hmapStore m key val i true) (f.insert key val) := by
  obtain ⟨hstate, hkey⟩ := used_of_slots hused
  have htab : (hmapStore m key val i true).tab =
      Function.update m.tab i { m.tab i with val := some val } := rfl
  have hslots : (hmapStore m key val i true).slots = m.slots := by
    have hslot : HmapEntry.slot { m.tab i with val := some val } = m.slots i := rfl
    rw [slots_update htab, hslot, Function.update_eq_self]
  have hin : ∀ s, (hmapStore m key val i true).slotsIn s = m.slotsIn s := by
    intro s
    ext j
    rw [mem_slotsIn_update htab rfl, mem_slotsIn]
    split
    · rename_i hj
      rw [hj]
    · rfl
  have hvalid : (hmapStore m key val i true).Valid := by
    refine ⟨h.valid.capPow, ?_, ?_, ?_, ?_, h.valid.load⟩
    · intro j hj
      simp only [htab, Function.update_apply] at hj ⊢
      split at hj
      · rename_i heq
        simp [heq, hkey]
      · rename_i hne
        simpa [hne] using h.valid.filled j hj
    · rw [hslots]
      exact h.valid.placed
    · rw [hin]
      exact h.valid.count
    · rw [hin]
      exact h.valid.tombs
  have hpresent : key ∈ f := by
    rw [← Finmap.lookup_isSome, lookup_of_present h hi hused]
    exact (h.valid.filled i hstate).2
  refine ⟨hvalid, ?_, ?_⟩
  · intro k v
    by_cases hk : k = key
    · rw [hk, Finmap.lookup_insert, holds_unique hvalid hi (by rw [hslots, hused]), htab,
        Function.update_self]
    · rw [Finmap.lookup_insert_of_ne f hk, h.lookup]
      refine exists_congr fun j => and_congr_right fun hj => ?_
      rw [htab, Function.update_apply]
      split
      · rename_i heq
        rw [heq, hkey]
        simp [Ne.symm hk]
      · rfl
  · rw [keys_insert, Finset.insert_eq_of_mem (Finmap.mem_keys.mpr hpresent)]
    exact h.card

private theorem store_absent {m : Hmap V} {f : Finmap (fun _ : Key => V)} (h : Represents m f)
    {key : Key} (habsent : ∀ i < m.cap, m.slots i ≠ .used key) {d : Nat} (hd : d < m.cap)
    (hfree : m.slots (walk m.cap (home key) d) = .empty ∨
      m.slots (walk m.cap (home key) d) = .tomb)
    (htaken : Taken m.slots m.cap (home key) d)
    (hload : (m.count + m.tombs + 1) * 10 < m.cap * 7) (val : V) :
    Represents (hmapStore m key val (walk m.cap (home key) d) false) (f.insert key val) := by
  have hi := walk_lt (cap_pos h.valid) (home key) d
  have hplaced := h.valid.placed.insert habsent hd hfree htaken
  generalize walk m.cap (home key) d = i at hi hfree hplaced ⊢
  have hstate : (m.tab i).state = .empty ∨ (m.tab i).state = .tomb := by
    rcases hfree with hfree | hfree
    · exact Or.inl (state_of_slots_empty h.valid hfree)
    · exact Or.inr (state_of_slots_tomb hfree)
  have hnot : (m.tab i).state ≠ .used := by
    rcases hstate with hstate | hstate <;> simp [hstate]
  have htab : (hmapStore m key val i false).tab =
      Function.update m.tab i { key := some key, val := some val, state := .used } := rfl
  have hused : (hmapStore m key val i false).slotsIn .used = insert i (m.slotsIn .used) := by
    ext j
    rw [mem_slotsIn_update htab rfl, Finset.mem_insert, mem_slotsIn]
    by_cases hj : j = i
    · simp [hj, hi]
    · simp [hj]
  have htomb : (hmapStore m key val i false).slotsIn .tomb = (m.slotsIn .tomb).erase i := by
    ext j
    rw [mem_slotsIn_update htab rfl, Finset.mem_erase, mem_slotsIn]
    by_cases hj : j = i
    · simp [hj]
    · simp [hj]
  have hcount : (hmapStore m key val i false).count = m.count + 1 := rfl
  have htombs : (hmapStore m key val i false).tombs = ((m.slotsIn .tomb).erase i).card ∧
      (hmapStore m key val i false).tombs ≤ m.tombs := by
    have hdef : (hmapStore m key val i false).tombs =
        if (m.tab i).state = .tomb then m.tombs - 1 else m.tombs := rfl
    rw [hdef]
    split
    · rename_i hit
      rw [Finset.card_erase_of_mem (mem_slotsIn.mpr ⟨hi, hit⟩), ← h.valid.tombs]
      exact ⟨rfl, Nat.sub_le _ _⟩
    · rename_i hit
      rw [Finset.erase_eq_of_notMem fun hmem => hit (mem_slotsIn.mp hmem).2, ← h.valid.tombs]
      exact ⟨rfl, Nat.le_refl _⟩
  have hvalid : (hmapStore m key val i false).Valid := by
    refine ⟨h.valid.capPow, ?_, ?_, ?_, ?_, ?_⟩
    · intro j hj
      simp only [htab, Function.update_apply] at hj ⊢
      split at hj
      · rename_i heq
        simp [heq]
      · rename_i hne
        simpa [hne] using h.valid.filled j hj
    · rw [slots_update htab]
      exact hplaced
    · rw [hused, Finset.card_insert_of_notMem fun hmem => hnot (mem_slotsIn.mp hmem).2, hcount,
        h.valid.count]
    · rw [htomb]
      exact htombs.1
    · have hle := htombs.2
      have hcap : (hmapStore m key val i false).cap = m.cap := rfl
      rw [hcount, hcap]
      omega
  have hself : (hmapStore m key val i false).slots i = .used key := by
    rw [slots_update htab, Function.update_self]
    rfl
  refine ⟨hvalid, ?_, ?_⟩
  · intro k v
    by_cases hk : k = key
    · rw [hk, Finmap.lookup_insert, holds_unique hvalid hi hself, htab, Function.update_self]
    · rw [Finmap.lookup_insert_of_ne f hk, h.lookup]
      refine exists_congr fun j => and_congr_right fun hj => ?_
      rw [htab, Function.update_apply]
      split
      · rename_i heq
        rw [heq]
        simp [hnot, Ne.symm hk]
      · rfl
  · have hnew : key ∉ f.keys := by
      rw [Finmap.mem_keys, ← Finmap.lookup_eq_none]
      exact lookup_of_absent h habsent
    rw [keys_insert, Finset.card_insert_of_notMem hnew, hcount, h.card]

private theorem put_represents {m : Hmap V} {f : Finmap (fun _ : Key => V)} (h : Represents m f)
    (hload : (m.count + m.tombs + 1) * 10 < m.cap * 7) (key : Key) (val : V) :
    ∃ i found, hmapProbe m key = some (i, found) ∧
      Represents (hmapStore m key val i found) (f.insert key val) ∧
      (hmapStore m key val i found).cap = m.cap := by
  rcases hmapProbe_cases h.valid key with ⟨i, hi, hused, hprobe⟩ | ⟨habsent, d, hd, hprobe, hfree,
    htaken⟩
  · exact ⟨i, true, hprobe, store_present h hi hused val, rfl⟩
  · exact ⟨_, false, hprobe, store_absent h habsent hd hfree htaken hload val, rfl⟩

private theorem put_small {m : Hmap V} {f : Finmap (fun _ : Key => V)} (h : Represents m f)
    (hload : (m.count + m.tombs + 1) * 10 < m.cap * 7) (key : Key) (val : V) :
    ∃ m', hmapPutInPlace m key val = some (0, m') ∧ Represents m' (f.insert key val) ∧
      m'.cap = m.cap ∧ m'.tombs ≤ m.tombs ∧ m'.count ≤ m.count + 1 := by
  obtain ⟨i, found, hprobe, h', hcap⟩ := put_represents h hload key val
  refine ⟨_, ?_, h', hcap, ?_, ?_⟩
  · rw [hmapPutInPlace, if_neg (Nat.not_le_of_lt hload), hprobe, Option.map_some]
  · simp only [hmapStore, setEntry]
    split
    · exact Nat.le_refl _
    · simp only
      split <;> omega
  · simp only [hmapStore, setEntry]
    split
    · exact Nat.le_succ _
    · exact Nat.le_refl _

theorem hmapPut_of_inPlace (alloc : Nat → Bool) (fuel : Nat) {m : Hmap V} {key : Key} {val : V}
    {r : Int × Hmap V} (h : hmapPutInPlace m key val = some r) :
    hmapPut alloc (fuel + 1) m key val = some r := by
  unfold hmapPutInPlace at h
  split at h
  · cases h
  next hload =>
    obtain ⟨⟨i, found⟩, hprobe, rfl⟩ := Option.map_eq_some_iff.mp h
    rw [hmapPut, if_neg hload]
    simp [hprobe]

private theorem bury_represents {m : Hmap V} {f : Finmap (fun _ : Key => V)}
    (h : Represents m f) {i : Nat} {key : Key} (hi : i < m.cap) (hused : m.slots i = .used key) :
    Represents (hmapBury m i) (f.erase key) := by
  obtain ⟨hstate, hkey⟩ := used_of_slots hused
  have htab : (hmapBury m i).tab =
      Function.update m.tab i { m.tab i with state := .tomb, val := none } := rfl
  have husedIn : (hmapBury m i).slotsIn .used = (m.slotsIn .used).erase i := by
    ext j
    rw [mem_slotsIn_update htab rfl, Finset.mem_erase, mem_slotsIn]
    by_cases hj : j = i
    · simp [hj]
    · simp [hj]
  have htombIn : (hmapBury m i).slotsIn .tomb = insert i (m.slotsIn .tomb) := by
    ext j
    rw [mem_slotsIn_update htab rfl, Finset.mem_insert, mem_slotsIn]
    by_cases hj : j = i
    · simp [hj, hi]
    · simp [hj]
  have hmem : i ∈ m.slotsIn .used := mem_slotsIn.mpr ⟨hi, hstate⟩
  have hnot : i ∉ m.slotsIn .tomb := by
    intro htomb
    simp [(mem_slotsIn.mp htomb).2] at hstate
  have hpos : 0 < m.count := by
    rw [h.valid.count]
    exact Finset.card_pos.mpr ⟨i, hmem⟩
  have hcount : (hmapBury m i).count = m.count - 1 := rfl
  have htombs : (hmapBury m i).tombs = m.tombs + 1 := rfl
  have hvalid : (hmapBury m i).Valid := by
    refine ⟨h.valid.capPow, ?_, ?_, ?_, ?_, ?_⟩
    · intro j hj
      simp only [htab, Function.update_apply] at hj ⊢
      split at hj
      · cases hj
      · rename_i hne
        simpa [hne] using h.valid.filled j hj
    · rw [slots_update htab]
      exact h.valid.placed.delete i
    · rw [husedIn, Finset.card_erase_of_mem hmem, hcount, h.valid.count]
    · rw [htombIn, Finset.card_insert_of_notMem hnot, htombs, h.valid.tombs]
    · have hload := h.valid.load
      have hcap : (hmapBury m i).cap = m.cap := rfl
      rw [hcount, htombs, hcap]
      omega
  have hpresent : key ∈ f.keys := by
    rw [Finmap.mem_keys, ← Finmap.lookup_isSome, lookup_of_present h hi hused]
    exact (h.valid.filled i hstate).2
  refine ⟨hvalid, ?_, ?_⟩
  · intro k v
    by_cases hk : k = key
    · rw [hk, Finmap.lookup_erase]
      refine iff_of_false (by simp) ?_
      rintro ⟨j, hj, hjstate, hjkey, -⟩
      rw [htab, Function.update_apply] at hjstate hjkey
      split at hjstate
      · cases hjstate
      · rename_i hne
        rw [if_neg hne] at hjkey
        exact hne (h.valid.placed.unique hj hi (slots_of_used hjstate hjkey) hused)
    · rw [Finmap.lookup_erase_ne hk, h.lookup]
      refine exists_congr fun j => and_congr_right fun hj => ?_
      rw [htab, Function.update_apply]
      split
      · rename_i heq
        rw [heq, hkey]
        simp [Ne.symm hk]
      · rfl
  · rw [Finmap.keys_erase, Finset.card_erase_of_mem hpresent, h.card, hcount]

theorem hmapDel_erase {m : Hmap V} {f : Finmap (fun _ : Key => V)} (h : Represents m f)
    (key : Key) : ∃ m', hmapDel m key = some (if key ∈ f then 0 else -1, m') ∧
      Represents m' (f.erase key) := by
  rcases hmapProbe_cases h.valid key with ⟨i, hi, hused, hprobe⟩ | ⟨habsent, d, -, hprobe, -⟩
  · have hpresent : key ∈ f := by
      rw [← Finmap.lookup_isSome, lookup_of_present h hi hused]
      exact (h.valid.filled i (used_of_slots hused).1).2
    exact ⟨hmapBury m i, by simp [hmapDel, hprobe, hpresent], bury_represents h hi hused⟩
  · have hmissing : key ∉ f := by
      rw [← Finmap.lookup_eq_none]
      exact lookup_of_absent h habsent
    refine ⟨m, by simp [hmapDel, hprobe, hmissing], ?_⟩
    have hsame : f.erase key = f := by
      refine Finmap.ext_lookup fun k => ?_
      by_cases hk : k = key
      · rw [hk, Finmap.lookup_erase, lookup_of_absent h habsent]
      · rw [Finmap.lookup_erase_ne hk]
    rw [hsame]
    exact h

theorem represents_empty {ncap : Nat} (hpow : ∃ k, 4 ≤ k ∧ ncap = 2 ^ k) :
    Represents ({ tab := fun _ => {}, cap := ncap, count := 0, tombs := 0 } : Hmap V) ∅ := by
  have hin : ∀ s, s ≠ HmapState.empty →
      ({ tab := fun _ => {}, cap := ncap, count := 0, tombs := 0 } : Hmap V).slotsIn s = ∅ := by
    intro s hs
    ext j
    simp [mem_slotsIn, Ne.symm hs]
  refine ⟨⟨hpow, ?_, wellPlaced_empty home ncap, ?_, ?_, ?_⟩, ?_, ?_⟩
  · intro i hi
    cases hi
  · rw [hin _ (by decide), Finset.card_empty]
  · rw [hin _ (by decide), Finset.card_empty]
  · obtain ⟨k, hk, rfl⟩ := hpow
    have := Nat.two_pow_pos k
    simp only
    omega
  · intro key val
    rw [Finmap.lookup_empty]
    refine iff_of_false (by simp) ?_
    rintro ⟨i, -, hstate, -⟩
    cases hstate
  · rw [Finmap.keys_empty, Finset.card_empty]

private def usedIn (m : Hmap V) (is : List Nat) : Nat :=
  (is.filter fun i => decide ((m.tab i).state = .used)).length

private theorem usedIn_cons_used {m : Hmap V} {i : Nat} {is : List Nat}
    (hstate : (m.tab i).state = .used) : usedIn m (i :: is) = usedIn m is + 1 := by
  simp [usedIn, hstate]

private theorem usedIn_cons_other {m : Hmap V} {i : Nat} {is : List Nat}
    (hstate : (m.tab i).state ≠ .used) : usedIn m (i :: is) = usedIn m is := by
  simp [usedIn, hstate]

private theorem usedIn_range (m : Hmap V) :
    usedIn m (List.range m.cap) = (m.slotsIn .used).card := by
  rw [usedIn, Hmap.slotsIn, Finset.card_def, Finset.filter_val, Finset.range_val,
    Multiset.range, Multiset.filter_coe, Multiset.coe_card]

/-- Reinsert the entries of the listed slots.  The new table never grows: it is filled with no
more entries than the old table had. -/
private theorem rehashLoop_represents {m : Hmap V} (hvalid : m.Valid)
    {is : List Nat} (hnodup : is.Nodup) (hbelow : ∀ i ∈ is, i < m.cap) {m' : Hmap V}
    {f' : Finmap (fun _ : Key => V)} (h : Represents m' f') (hcap : m'.cap = m.cap * 2)
    (htombs : m'.tombs = 0) (hcount : m'.count + usedIn m is ≤ m.count)
    (hfresh : ∀ i ∈ is, ∀ key, m.slots i = .used key → key ∉ f') :
    ∃ m'' f'', rehashLoop hmapPutInPlace m.tab is m' = some m'' ∧ Represents m'' f'' ∧
      m''.cap = m.cap * 2 ∧ m''.tombs = 0 ∧
      ∀ key val, f''.lookup key = some val ↔ f'.lookup key = some val ∨
        ∃ i ∈ is, (m.tab i).state = .used ∧ (m.tab i).key = some key ∧
          (m.tab i).val = some val := by
  induction is generalizing m' f' with
  | nil => exact ⟨m', f', rfl, h, hcap, htombs, by simp⟩
  | cons i is ih =>
      have hnodup' := (List.nodup_cons.mp hnodup).2
      have hbelow' : ∀ j ∈ is, j < m.cap := fun j hj => hbelow j (List.mem_cons_of_mem _ hj)
      have hfresh' : ∀ j ∈ is, ∀ key, m.slots j = .used key → key ∉ f' :=
        fun j hj => hfresh j (List.mem_cons_of_mem _ hj)
      -- an entry that is not used is passed over
      have hskip : (m.tab i).state ≠ .used →
          rehashLoop hmapPutInPlace m.tab (i :: is) m' =
            rehashLoop hmapPutInPlace m.tab is m' := by
        intro hne
        rw [rehashLoop]
        split
        · rename_i hstate _ _
          exact absurd hstate hne
        · rfl
      by_cases hstate : (m.tab i).state = .used
      · obtain ⟨hkeySome, hvalSome⟩ := hvalid.filled i hstate
        obtain ⟨key, hkey⟩ := Option.isSome_iff_exists.mp hkeySome
        obtain ⟨val, hval⟩ := Option.isSome_iff_exists.mp hvalSome
        rw [usedIn_cons_used hstate] at hcount
        have hload := hvalid.load
        have hsmall : (m'.count + m'.tombs + 1) * 10 < m'.cap * 7 := by omega
        obtain ⟨m₁, hput, h₁, hcap₁, htombs₁, hcount₁⟩ := put_small h hsmall key val
        have hnew : key ∉ f' := hfresh i (List.mem_cons_self ..) key (slots_of_used hstate hkey)
        have hfresh₁ : ∀ j ∈ is, ∀ k, m.slots j = .used k → k ∉ f'.insert key val := by
          intro j hj k hused hmem
          rcases Finmap.mem_insert.mp hmem with heq | hmem
          · have hij : j = i := hvalid.placed.unique (hbelow' j hj)
              (hbelow i (List.mem_cons_self ..)) hused (heq ▸ slots_of_used hstate hkey)
            exact (List.nodup_cons.mp hnodup).1 (hij ▸ hj)
          · exact hfresh' j hj k hused hmem
        obtain ⟨m'', f'', hloop, h'', hcap'', htombs'', hlookup⟩ :=
          ih hnodup' hbelow' h₁ (by omega) (by omega) (by omega) hfresh₁
        refine ⟨m'', f'', ?_, h'', hcap'', htombs'', ?_⟩
        · simp only [rehashLoop, hstate, hkey, hval, hput, Option.bind_eq_bind, Option.bind_some]
          exact hloop
        · intro k v
          rw [hlookup]
          by_cases hk : k = key
          · rw [hk, Finmap.lookup_insert, Finmap.lookup_eq_none.mpr hnew]
            simp only [List.mem_cons, Option.some.injEq, reduceCtorEq, false_or]
            constructor
            · rintro (hv | ⟨j, hj, hentry⟩)
              · exact ⟨i, Or.inl rfl, hstate, hkey, hv ▸ hval⟩
              · exact ⟨j, Or.inr hj, hentry⟩
            · rintro ⟨j, rfl | hj, hjstate, hjkey, hjval⟩
              · exact Or.inl (Option.some.inj (hval.symm.trans hjval))
              · exact Or.inr ⟨j, hj, hjstate, hjkey, hjval⟩
          · rw [Finmap.lookup_insert_of_ne f' hk]
            refine or_congr_right ⟨?_, ?_⟩
            · rintro ⟨j, hj, hentry⟩
              exact ⟨j, List.mem_cons_of_mem _ hj, hentry⟩
            · rintro ⟨j, hj, hjstate, hjkey, hjval⟩
              rcases List.mem_cons.mp hj with rfl | hj
              · exact absurd (Option.some.inj (hjkey.symm.trans hkey)) hk
              · exact ⟨j, hj, hjstate, hjkey, hjval⟩
      · rw [usedIn_cons_other hstate] at hcount
        obtain ⟨m'', f'', hloop, h'', hcap'', htombs'', hlookup⟩ :=
          ih hnodup' hbelow' h hcap htombs hcount hfresh'
        refine ⟨m'', f'', (hskip hstate).trans hloop, h'', hcap'', htombs'', ?_⟩
        intro k v
        rw [hlookup]
        refine or_congr_right ⟨?_, ?_⟩
        · rintro ⟨j, hj, hentry⟩
          exact ⟨j, List.mem_cons_of_mem _ hj, hentry⟩
        · rintro ⟨j, hj, hjstate, hentry⟩
          rcases List.mem_cons.mp hj with rfl | hj
          · exact absurd hjstate hstate
          · exact ⟨j, hj, hjstate, hentry⟩

private theorem rehashLoop_mono {put put' : Hmap V → Key → V → Option (Int × Hmap V)}
    (hput : ∀ m key val r, put m key val = some r → put' m key val = some r)
    {ot : Nat → HmapEntry V} {is : List Nat} {m m' : Hmap V}
    (h : rehashLoop put ot is m = some m') : rehashLoop put' ot is m = some m' := by
  induction is generalizing m with
  | nil => exact h
  | cons i is ih =>
      rw [rehashLoop] at h ⊢
      split at h
      · obtain ⟨⟨rc, m₁⟩, hone, hrest⟩ := Option.bind_eq_some_iff.mp h
        simp only [hput _ _ _ _ hone, Option.bind_eq_bind, Option.bind_some]
        exact ih hrest
      · exact ih h

theorem hmapRehash_represents {alloc : Nat → Bool} {m : Hmap V}
    {f : Finmap (fun _ : Key => V)} (h : Represents m f) (halloc : alloc (m.cap * 2) = true) :
    ∃ m', hmapRehash alloc hmapPutInPlace m (m.cap * 2) = some (0, m') ∧
      (∀ alloc', hmapRehash alloc (hmapPut alloc' 1) m (m.cap * 2) = some (0, m')) ∧
      Represents m' f ∧ m'.cap = m.cap * 2 ∧ m'.tombs = 0 := by
  obtain ⟨k, hk, hcap⟩ := h.valid.capPow
  have hfill : 0 + usedIn m (List.range m.cap) ≤ m.count := by
    rw [h.valid.count, usedIn_range, Nat.zero_add]
  obtain ⟨m', f', hloop, h', hcap', htombs', hlookup⟩ :=
    rehashLoop_represents h.valid List.nodup_range (fun i hi => List.mem_range.mp hi)
      (represents_empty (V := V) ⟨k + 1, by omega, by rw [hcap, Nat.pow_succ]⟩) rfl rfl hfill
      (fun _ _ _ _ => Finmap.notMem_empty)
  have hsame : f' = f := by
    refine Finmap.ext_lookup fun key => Option.ext fun val => ?_
    rw [hlookup, h.lookup, Finmap.lookup_empty]
    simp [Hmap.Holds]
  refine ⟨m', ?_, ?_, hsame ▸ h', hcap', htombs'⟩
  · rw [hmapRehash, if_pos halloc, hloop]
    rfl
  · intro alloc'
    have hloop' := rehashLoop_mono (fun _ _ _ _ hput => hmapPut_of_inPlace alloc' 0 hput) hloop
    rw [hmapRehash, if_pos halloc, hloop']
    rfl

/-- `hmap_put` fails where it needs memory and gets none, and otherwise it puts the value in. -/
theorem hmapPut_cases (alloc : Nat → Bool) {m : Hmap V} {f : Finmap (fun _ : Key => V)}
    (h : Represents m f) (key : Key) (val : V) :
    (hmapPut alloc 2 m key val = some (-1, m) ∧ alloc (m.cap * 2) = false) ∨
      ∃ m', hmapPut alloc 2 m key val = some (0, m') ∧ Represents m' (f.insert key val) ∧
        (m'.cap = m.cap ∨ m'.cap = m.cap * 2 ∧ m.cap * 7 ≤ (m.count + m.tombs + 1) * 10) := by
  by_cases hload : (m.count + m.tombs + 1) * 10 < m.cap * 7
  · obtain ⟨m', hput, h', hcap, -⟩ := put_small h hload key val
    exact Or.inr ⟨m', hmapPut_of_inPlace alloc 1 hput, h', Or.inl hcap⟩
  · have hdue := Nat.le_of_not_lt hload
    cases halloc : alloc (m.cap * 2) with
    | false =>
        refine Or.inl ⟨?_, rfl⟩
        rw [hmapPut, if_pos hdue, hmapRehash, halloc]
        rfl
    | true =>
        obtain ⟨m₁, -, hrehash, h₁, hcap₁, htombs₁⟩ := hmapRehash_represents h halloc
        have hcount : m₁.count = m.count := by rw [← h₁.card, h.card]
        have hload₁ : (m₁.count + m₁.tombs + 1) * 10 < m₁.cap * 7 := by
          have hload := h.valid.load
          obtain ⟨k, hk, hcap⟩ := h.valid.capPow
          have hmin : 2 ^ 4 ≤ 2 ^ k := Nat.pow_le_pow_right (by decide) hk
          omega
        obtain ⟨i, found, hprobe, h', hcap'⟩ := put_represents h₁ hload₁ key val
        refine Or.inr ⟨_, ?_, h', Or.inr ⟨hcap'.trans hcap₁, hdue⟩⟩
        rw [hmapPut, if_pos hdue, hrehash alloc]
        simp [hprobe]

theorem hmapPut_insert {alloc : Nat → Bool} (halloc : ∀ n, alloc n = true) {m : Hmap V}
    {f : Finmap (fun _ : Key => V)} (h : Represents m f) (key : Key) (val : V) :
    ∃ m', hmapPut alloc 2 m key val = some (0, m') ∧ Represents m' (f.insert key val) := by
  rcases hmapPut_cases alloc h key val with ⟨-, hfail⟩ | ⟨m', hput, h', -⟩
  · rw [halloc] at hfail
    cases hfail
  · exact ⟨m', hput, h'⟩

end Representation

section Refinement

variable {V : Type}

theorem hmapStep_simulates {alloc : Nat → Bool} (halloc : ∀ n, alloc n = true) (op : HmapOp V)
    {m : Hmap V} {f : Finmap (fun _ : Key => V)} (h : Represents m f) :
    ∃ m', hmapStep alloc op m = some ((finmapStep op f).1, m') ∧
      Represents m' (finmapStep op f).2 := by
  cases op with
  | put key val =>
      obtain ⟨m', hput, h'⟩ := hmapPut_insert halloc h key val
      exact ⟨m', by simp [hmapStep, hput, finmapStep], h'⟩
  | get key => exact ⟨m, by simp [hmapStep, hmapGet_lookup h, finmapStep], h⟩
  | del key =>
      obtain ⟨m', hdel, h'⟩ := hmapDel_erase h key
      exact ⟨m', by simp [hmapStep, hdel, finmapStep], h'⟩
  | count => exact ⟨m, by simp [hmapStep, hmapCount, finmapStep, h.card], h⟩

/-- The hash map gives the results of a finite map, and no probe in a reachable table runs on
forever. -/
theorem hashmap_refines_finmap {alloc : Nat → Bool} (halloc : ∀ n, alloc n = true)
    (ops : List (HmapOp V)) :
    ∃ t, runOps (hmapStep alloc) ops hmapInit = some ((specOps finmapStep ops ∅).1, t) ∧
      (∃ i < t.cap, (t.tab i).state = .empty) ∧ ∀ key, (hmapProbe t key).isSome := by
  have hinit : Represents (hmapInit : Hmap V) ∅ := represents_empty ⟨4, Nat.le_refl 4, rfl⟩
  obtain ⟨t, hrun, ht⟩ := runOps_simulates (fun op _ _ h => hmapStep_simulates halloc op h)
    ops hmapInit ∅ hinit
  refine ⟨t, hrun, exists_empty ht.valid, ?_⟩
  intro key
  rcases hmapProbe_cases ht.valid key with ⟨_, _, _, hprobe⟩ | ⟨_, _, _, hprobe, _⟩
  · rw [hprobe]
    rfl
  · rw [hprobe]
    rfl

theorem overwritten_key_read_back :
    ∃ t, runOps (hmapStep fun _ => true)
        [.put [97] 1, .put [98] 2, .put [97] 3, .get [97], .del [98], .del [98], .count]
        (hmapInit : Hmap Nat) =
        some ([.status 0, .status 0, .status 0, .value (some 3), .status 0, .status (-1), .size 1],
          t) ∧
      (∃ i < t.cap, (t.tab i).state = .empty) ∧ ∀ key, (hmapProbe t key).isSome :=
  hashmap_refines_finmap (fun _ => rfl) _

end Refinement

end CZet.Stdlib
