/- source: stdlib/utils/arena.h
   digest: The bump allocator: its blocks are valid exactly in the runs in which no rounding passes
     the end of the arena unnoticed. -/

import CZet.Lib.OpRun
import Mathlib.Data.Nat.Bitwise

set_option autoImplicit false
set_option relaxedAutoImplicit false

namespace CZet.Stdlib.BumpArena

open CZet.Lib.OpRun

/-- `uintptr_t` and `unsigned long`; `NULL` is zero. -/
abbrev Word := BitVec 64

/-- `struct arena`. -/
structure Arena where
  base : Word
  ptr : Word
  stop : Word

abbrev Memory := Word → UInt8

/-- `malloc` gives a block or refuses. -/
def arenaInit (malloc : Word → Option Word) (cap : Word) : Option Arena :=
  if cap = 0 then some ⟨0, 0, 0⟩
  else (malloc cap).map fun base => ⟨base, base, base + cap⟩

def alignUp (cur align : Word) : Word := (cur + (align - 1)) &&& ~~~(align - 1)

/-- The alignment of a request; `maxAlign` is `_Alignof(max_align_t)`. -/
def naturalAlign (maxAlign align : Word) : Word := if align = 0 then maxAlign else align

def arenaAlloc (maxAlign : Word) (a : Arena) (size align : Word) : Word × Arena :=
  if a.base = 0 then (0, a)
  else
    let align := naturalAlign maxAlign align
    if align &&& (align - 1) ≠ 0 then (0, a)
    else
      let aligned := alignUp a.ptr align
      if size > a.stop - aligned then (0, a)
      else (aligned, { a with ptr := aligned + size })

def memset (mem : Memory) (p len : Word) : Memory := fun q => if q - p < len then 0 else mem q

def arenaCalloc (maxAlign : Word) (a : Arena) (mem : Memory) (count size align : Word) :
    Word × Arena × Memory :=
  if size ≠ 0 ∧ count > BitVec.allOnes 64 / size then (0, a, mem)
  else
    let r := arenaAlloc maxAlign a (count * size) align
    (r.1, r.2, if r.1 = 0 then mem else memset mem r.1 (count * size))

def arenaReset (a : Arena) : Arena := { a with ptr := a.base }

/-- A block that was returned, with the alignment asked for. -/
structure Block where
  addr : Nat
  size : Nat
  align : Nat

/-- The arena, the memory, and the blocks returned since the last reset. -/
structure ArenaState where
  arena : Arena
  mem : Memory
  blocks : List Block

inductive ArenaOp
  | alloc (size align : Word)
  | calloc (count size align : Word)
  | reset

/-- The size and the alignment that a call asks for. -/
def ArenaOp.request (maxAlign : Word) : ArenaOp → Option (Nat × Word)
  | .alloc size align => some (size.toNat, naturalAlign maxAlign align)
  | .calloc count size align => some (count.toNat * size.toNat, naturalAlign maxAlign align)
  | .reset => none

def recordBlock (p : Word) (size : Nat) (align : Word) (blocks : List Block) : List Block :=
  if p = 0 then blocks else ⟨p.toNat, size, align.toNat⟩ :: blocks

def arenaStep (maxAlign : Word) : ArenaOp → ArenaState → Option (List Word × ArenaState)
  | .alloc size align, s =>
      let r := arenaAlloc maxAlign s.arena size align
      some ([r.1], ⟨r.2, s.mem,
        recordBlock r.1 size.toNat (naturalAlign maxAlign align) s.blocks⟩)
  | .calloc count size align, s =>
      let r := arenaCalloc maxAlign s.arena s.mem count size align
      some ([r.1], ⟨r.2.1, r.2.2,
        recordBlock r.1 (count.toNat * size.toNat) (naturalAlign maxAlign align) s.blocks⟩)
  | .reset, s => some ([], ⟨arenaReset s.arena, s.mem, []⟩)

/-- Two blocks have no byte in common. -/
def Block.Apart (b c : Block) : Prop := b.addr + b.size ≤ c.addr ∨ c.addr + c.size ≤ b.addr

structure Valid (s : ArenaState) : Prop where
  low : s.arena.base ≤ s.arena.ptr
  high : s.arena.ptr ≤ s.arena.stop
  aligned : ∀ b ∈ s.blocks, b.align ∣ b.addr
  inside : ∀ b ∈ s.blocks, s.arena.base.toNat ≤ b.addr ∧ b.addr + b.size ≤ s.arena.stop.toNat
  apart : s.blocks.Pairwise Block.Apart

/-- Some aligned address in the rest of the arena has the bytes asked for behind it. -/
def Fits (a : Arena) (size : Nat) (align : Word) : Prop :=
  ∃ p, a.ptr.toNat ≤ p ∧ align.toNat ∣ p ∧ p + size ≤ a.stop.toNat

/-- The state stays valid, and a request that does not fit returns `NULL` and leaves `ptr` alone. -/
def Behaves (maxAlign : Word) (op : ArenaOp) (s : ArenaState) : Prop :=
  ∀ out s', arenaStep maxAlign op s = some (out, s') → Valid s' ∧
    ∀ size align, op.request maxAlign = some (size, align) → ¬ Fits s.arena size align →
      out = [0] ∧ s'.arena.ptr = s.arena.ptr

/-- Rounding `ptr` up stays in the arena; or the request is so large that it is refused all the
same; or `ptr` is rounded up to zero and set to the value it has. -/
def RoundingNoticed (a : Arena) (size align : Word) : Prop :=
  let aligned := alignUp a.ptr align
  (a.ptr ≤ aligned ∧ aligned ≤ a.stop) ∨ size > a.stop - aligned ∨ (aligned = 0 ∧ size = a.ptr)

/-- The condition on a call: an arena without memory, an alignment that is no power of two and a
product that overflows are refused before the rounding. -/
def Safe (maxAlign : Word) (op : ArenaOp) (s : ArenaState) : Prop :=
  ∀ size align, op.request maxAlign = some (size, align) → s.arena.base ≠ 0 →
    align &&& (align - 1) = 0 → size < 2 ^ 64 → RoundingNoticed s.arena (BitVec.ofNat 64 size) align

section Rounding

variable {align : Word} {k : Nat}

private theorem sub_one_toNat (hzero : align ≠ 0) : (align - 1).toNat = align.toNat - 1 := by
  have hne : align.toNat ≠ 0 := fun h => hzero (BitVec.eq_of_toNat_eq (by simpa using h))
  have hone : (1 : Word) ≤ align := BitVec.le_def.mpr (Nat.one_le_iff_ne_zero.mpr hne)
  rw [BitVec.toNat_sub_of_le hone]
  rfl

private theorem exists_pow (hzero : align ≠ 0) (hpow : align &&& (align - 1) = 0) :
    ∃ k, k < 64 ∧ align.toNat = 2 ^ k := by
  have hne : align.toNat ≠ 0 := fun h => hzero (BitVec.eq_of_toNat_eq (by simpa using h))
  have hand : align.toNat &&& (align.toNat - 1) = 0 := by
    rw [← sub_one_toNat hzero, ← BitVec.toNat_and, hpow]
    rfl
  obtain ⟨k, hk⟩ := (Nat.and_sub_one_eq_zero_iff_isPowerOfTwo hne).mp hand
  refine ⟨k, ?_, hk⟩
  have hlt := align.isLt
  rw [hk] at hlt
  exact (Nat.pow_lt_pow_iff_right (by decide)).mp hlt

private theorem mask_toNat (hzero : align ≠ 0) (hk : align.toNat = 2 ^ k) (x : Word) :
    (x &&& ~~~(align - 1)).toNat = x.toNat / 2 ^ k * 2 ^ k := by
  have hsub : (align - 1).toNat = 2 ^ k - 1 := by rw [sub_one_toNat hzero, hk]
  apply Nat.eq_of_testBit_eq
  intro i
  rw [Nat.testBit_mul_two_pow, Nat.testBit_div_two_pow, BitVec.testBit_toNat, BitVec.getLsbD_and,
    BitVec.getLsbD_not, ← BitVec.testBit_toNat (align - 1), hsub, Nat.testBit_two_pow_sub_one]
  by_cases hki : k ≤ i
  · have hnot : ¬ i < k := by omega
    have hadd : i - k + k = i := by omega
    simp only [hki, hnot, hadd, decide_true, decide_false, Bool.not_false, Bool.and_true,
      Bool.true_and, BitVec.testBit_toNat]
    by_cases hi : i < 64
    · simp [hi]
    · simp [BitVec.getLsbD_of_ge x i (by omega)]
  · have hlt : i < k := by omega
    simp [hki, hlt]

private theorem alignUp_cases (ptr : Word) (hzero : align ≠ 0) (hpow : align &&& (align - 1) = 0) :
    (ptr.toNat ≤ (alignUp ptr align).toNat ∧ align.toNat ∣ (alignUp ptr align).toNat ∧
        (alignUp ptr align).toNat < ptr.toNat + align.toNat) ∨
      (alignUp ptr align = 0 ∧ ∀ p, ptr.toNat ≤ p → align.toNat ∣ p → 2 ^ 64 ≤ p) := by
  obtain ⟨k, hlt, hk⟩ := exists_pow hzero hpow
  have hpos : 0 < 2 ^ k := Nat.two_pow_pos k
  have hptr := ptr.isLt
  have halign : 2 ^ k ≤ 2 ^ 63 := Nat.pow_le_pow_right (by decide) (by omega)
  have hmask : (alignUp ptr align).toNat = (ptr + (align - 1)).toNat / 2 ^ k * 2 ^ k :=
    mask_toNat hzero hk _
  have hsum : (ptr + (align - 1)).toNat = (ptr.toNat + (2 ^ k - 1)) % 2 ^ 64 := by
    rw [BitVec.toNat_add, sub_one_toNat hzero, hk]
  by_cases hwrap : ptr.toNat + (2 ^ k - 1) < 2 ^ 64
  · left
    rw [Nat.mod_eq_of_lt hwrap] at hsum
    rw [hmask, hsum, hk]
    have hdiv := Nat.div_add_mod (ptr.toNat + (2 ^ k - 1)) (2 ^ k)
    have hmod := Nat.mod_lt (ptr.toNat + (2 ^ k - 1)) hpos
    rw [Nat.mul_comm (2 ^ k)] at hdiv
    refine ⟨by omega, Nat.dvd_mul_left _ _, by omega⟩
  · right
    have hlow : (ptr + (align - 1)).toNat < 2 ^ k := by
      rw [hsum, Nat.mod_eq_sub_mod (by omega), Nat.mod_eq_of_lt (by omega)]
      omega
    constructor
    · apply BitVec.eq_of_toNat_eq
      rw [hmask, Nat.div_eq_of_lt hlow, Nat.zero_mul]
      rfl
    · intro p hp hdvd
      rw [hk] at hdvd
      -- 2 ^ 64 is itself a multiple, and ptr is above the one before it
      obtain ⟨q, rfl⟩ := hdvd
      have hsplit : 2 ^ 64 = 2 ^ k * 2 ^ (64 - k) := by
        rw [← Nat.pow_add, Nat.add_sub_cancel' (by omega)]
      by_contra hbelow
      have hq : q < 2 ^ (64 - k) := by
        rw [hsplit] at hbelow
        exact Nat.lt_of_mul_lt_mul_left (Nat.lt_of_not_le hbelow)
      have hstep : 2 ^ k * q + 2 ^ k ≤ 2 ^ k * 2 ^ (64 - k) := by
        rw [← Nat.mul_succ]
        exact Nat.mul_le_mul_left _ hq
      omega

end Rounding

section Requests

variable {maxAlign align : Word} {size : Nat} {op : ArenaOp} {s s' : ArenaState}
  {out : List Word}

/-- The request passes all the tests of `arena_alloc`. -/
def Granted (a : Arena) (size : Nat) (align : Word) : Prop :=
  a.base ≠ 0 ∧ align &&& (align - 1) = 0 ∧ size < 2 ^ 64 ∧
    BitVec.ofNat 64 size ≤ a.stop - alignUp a.ptr align

private theorem arenaAlloc_granted (maxAlign : Word) (a : Arena) (size align : Word) :
    (Granted a size.toNat (naturalAlign maxAlign align) →
      arenaAlloc maxAlign a size align = (alignUp a.ptr (naturalAlign maxAlign align),
        { a with ptr := alignUp a.ptr (naturalAlign maxAlign align) + size })) ∧
    (¬ Granted a size.toNat (naturalAlign maxAlign align) →
      arenaAlloc maxAlign a size align = (0, a)) := by
  unfold Granted arenaAlloc
  rw [BitVec.ofNat_toNat, BitVec.setWidth_eq]
  have hlt := size.isLt
  constructor
  · rintro ⟨hbase, hpow, -, hsize⟩
    simp only [hbase, hpow, ne_eq, not_true_eq_false, if_false]
    rw [if_neg (BitVec.not_lt.mpr hsize)]
  · intro hnot
    by_cases hbase : a.base = 0
    · rw [if_pos hbase]
    rw [if_neg hbase]
    by_cases hpow : naturalAlign maxAlign align &&& (naturalAlign maxAlign align - 1) = 0
    · simp only [hpow, ne_eq, not_true_eq_false, if_false]
      rw [if_pos]
      by_contra hsize
      exact hnot ⟨hbase, hpow, hlt, BitVec.not_lt.mp hsize⟩
    · simp only [ne_eq, hpow, not_false_eq_true, if_true]

private theorem calloc_overflows (count size : Word) :
    (size ≠ 0 ∧ count > BitVec.allOnes 64 / size) ↔ 2 ^ 64 ≤ count.toNat * size.toNat := by
  by_cases hzero : size = 0
  · subst hzero
    simp
  · have hpos : 0 < size.toNat := by
      rw [Nat.pos_iff_ne_zero]
      exact fun h => hzero (BitVec.eq_of_toNat_eq (by simpa using h))
    rw [gt_iff_lt, BitVec.lt_def, BitVec.toNat_udiv, BitVec.toNat_allOnes,
      Nat.div_lt_iff_lt_mul hpos]
    simp only [ne_eq, hzero, not_false_eq_true, true_and]
    omega

private theorem request_step (h : arenaStep maxAlign op s = some (out, s'))
    (hreq : op.request maxAlign = some (size, align)) :
    (Granted s.arena size align → out = [alignUp s.arena.ptr align] ∧
      s'.arena = { s.arena with ptr := alignUp s.arena.ptr align + BitVec.ofNat 64 size } ∧
      s'.blocks = recordBlock (alignUp s.arena.ptr align) size align s.blocks) ∧
    (¬ Granted s.arena size align →
      out = [0] ∧ s'.arena = s.arena ∧ s'.blocks = s.blocks) := by
  cases op with
  | alloc size' align' =>
      obtain ⟨rfl, rfl⟩ := Prod.mk.inj (Option.some.inj hreq)
      obtain ⟨rfl, rfl⟩ := Prod.mk.inj (Option.some.inj h)
      obtain ⟨hgrant, hrefuse⟩ := arenaAlloc_granted maxAlign s.arena size' align'
      constructor
      · intro hok
        rw [hgrant hok, BitVec.ofNat_toNat, BitVec.setWidth_eq]
        exact ⟨rfl, rfl, rfl⟩
      · intro hok
        rw [hrefuse hok]
        exact ⟨rfl, rfl, rfl⟩
  | calloc count size' align' =>
      obtain ⟨rfl, rfl⟩ := Prod.mk.inj (Option.some.inj hreq)
      obtain ⟨rfl, rfl⟩ := Prod.mk.inj (Option.some.inj h)
      unfold arenaCalloc
      by_cases hover : size' ≠ 0 ∧ count > BitVec.allOnes 64 / size'
      · have hlarge := (calloc_overflows count size').mp hover
        rw [if_pos hover]
        refine ⟨fun hok => ?_, fun _ => ⟨rfl, rfl, rfl⟩⟩
        have hsmall := hok.2.2.1
        omega
      · have hsmall : count.toNat * size'.toNat < 2 ^ 64 :=
          Nat.lt_of_not_le fun hle => hover ((calloc_overflows count size').mpr hle)
        have hmul : (count * size').toNat = count.toNat * size'.toNat := by
          rw [BitVec.toNat_mul, Nat.mod_eq_of_lt hsmall]
        obtain ⟨hgrant, hrefuse⟩ :=
          arenaAlloc_granted maxAlign s.arena (count * size') align'
        rw [hmul] at hgrant hrefuse
        rw [if_neg hover]
        constructor
        · intro hok
          rw [hgrant hok, ← hmul, BitVec.ofNat_toNat, BitVec.setWidth_eq]
          exact ⟨rfl, rfl, rfl⟩
        · intro hok
          rw [hrefuse hok]
          exact ⟨rfl, rfl, rfl⟩
  | reset => cases hreq

end Requests

section Runs

variable {maxAlign : Word} {s s' : ArenaState} {op : ArenaOp} {out : List Word}

private structure Packed (s : ArenaState) : Prop where
  valid : Valid s
  below : ∀ b ∈ s.blocks, b.addr + b.size ≤ s.arena.ptr.toNat

private theorem naturalAlign_ne_zero (hmax : maxAlign ≠ 0) (align : Word) :
    naturalAlign maxAlign align ≠ 0 := by
  unfold naturalAlign
  split
  · exact hmax
  · assumption

private theorem request_align {size : Nat} {align : Word} (hmax : maxAlign ≠ 0)
    (hreq : op.request maxAlign = some (size, align)) : align ≠ 0 := by
  cases op with
  | alloc size' align' =>
      obtain ⟨-, rfl⟩ := Prod.mk.inj (Option.some.inj hreq)
      exact naturalAlign_ne_zero hmax align'
  | calloc count size' align' =>
      obtain ⟨-, rfl⟩ := Prod.mk.inj (Option.some.inj hreq)
      exact naturalAlign_ne_zero hmax align'
  | reset => cases hreq

private theorem toNat_of_lt {size : Nat} (h : size < 2 ^ 64) :
    (BitVec.ofNat 64 size).toNat = size := by
  rw [BitVec.toNat_ofNat, Nat.mod_eq_of_lt h]

private theorem word_zero_add (x : Word) : 0 + x = x := by simp

private theorem not_fits_of_beyond {a : Arena} {size : Nat} {align : Word} (hzero : align ≠ 0)
    (hpow : align &&& (align - 1) = 0)
    (hbeyond : ¬ (a.ptr ≤ alignUp a.ptr align ∧ alignUp a.ptr align ≤ a.stop)) :
    ¬ Fits a size align := by
  rintro ⟨p, hp, hdvd, hstop⟩
  have hlt := a.stop.isLt
  rcases alignUp_cases a.ptr hzero hpow with ⟨hge, hmul, hnear⟩ | ⟨-, hwrap⟩
  · have habove : (alignUp a.ptr align).toNat ≤ p := by
      by_contra hless
      have hgap := Nat.le_of_dvd (by omega) (Nat.dvd_sub hmul hdvd)
      omega
    refine hbeyond ⟨BitVec.le_def.mpr hge, BitVec.le_def.mpr ?_⟩
    omega
  · have := hwrap p hp hdvd
    omega

private theorem served_inside {a : Arena} {size : Nat} {align : Word} (hzero : align ≠ 0)
    (hgrant : Granted a size align)
    (hin : a.ptr ≤ alignUp a.ptr align ∧ alignUp a.ptr align ≤ a.stop) :
    align.toNat ∣ (alignUp a.ptr align).toNat ∧ a.ptr.toNat ≤ (alignUp a.ptr align).toNat ∧
      (alignUp a.ptr align).toNat + size ≤ a.stop.toNat := by
  obtain ⟨-, hpow, hsmall, hsize⟩ := hgrant
  have hlow := BitVec.le_def.mp hin.1
  have hend := BitVec.le_def.mp hin.2
  rw [BitVec.le_def, BitVec.toNat_sub_of_le hin.2, toNat_of_lt hsmall] at hsize
  refine ⟨?_, hlow, by omega⟩
  rcases alignUp_cases a.ptr hzero hpow with ⟨-, hmul, -⟩ | ⟨hnull, -⟩
  · exact hmul
  · rw [hnull]
    exact Nat.dvd_zero _

private theorem packed_serve {size : Nat} {align p : Word} (h : Packed s)
    (hbase : s.arena.base ≠ 0) (hsmall : size < 2 ^ 64) (hdvd : align.toNat ∣ p.toNat)
    (hlow : s.arena.ptr.toNat ≤ p.toNat) (hend : p.toNat + size ≤ s.arena.stop.toNat)
    (harena : s'.arena = { s.arena with ptr := p + BitVec.ofNat 64 size })
    (hblocks : s'.blocks = recordBlock p size align s.blocks) : Packed s' := by
  have hstart := BitVec.le_def.mp h.valid.low
  have hlt := s.arena.stop.isLt
  have hptr : s'.arena.ptr.toNat = p.toNat + size := by
    rw [harena]
    show (p + BitVec.ofNat 64 size).toNat = _
    rw [BitVec.toNat_add, toNat_of_lt hsmall, Nat.mod_eq_of_lt (by omega)]
  have hsame : s'.arena.base = s.arena.base ∧ s'.arena.stop = s.arena.stop := by
    rw [harena]
    exact ⟨rfl, rfl⟩
  have hp : p ≠ 0 := by
    rintro rfl
    have hnull : s.arena.base.toNat = 0 := by simpa using Nat.le_trans hstart hlow
    exact hbase (BitVec.eq_of_toNat_eq hnull)
  have hlist : s'.blocks = ⟨p.toNat, size, align.toNat⟩ :: s.blocks := by
    rw [hblocks, recordBlock, if_neg hp]
  refine ⟨⟨?_, ?_, ?_, ?_, ?_⟩, ?_⟩
  · rw [BitVec.le_def, hptr, hsame.1]
    omega
  · rw [BitVec.le_def, hptr, hsame.2]
    exact hend
  · rw [hlist]
    intro b hb
    rcases List.mem_cons.mp hb with rfl | hb
    · exact hdvd
    · exact h.valid.aligned b hb
  · rw [hlist, hsame.1, hsame.2]
    intro b hb
    rcases List.mem_cons.mp hb with rfl | hb
    · exact ⟨Nat.le_trans hstart hlow, hend⟩
    · exact h.valid.inside b hb
  · rw [hlist]
    refine List.pairwise_cons.mpr ⟨fun b hb => ?_, h.valid.apart⟩
    have := h.below b hb
    right
    show b.addr + b.size ≤ p.toNat
    omega
  · rw [hlist, hptr]
    intro b hb
    rcases List.mem_cons.mp hb with rfl | hb
    · exact Nat.le_refl _
    · have := h.below b hb
      omega

private theorem packed_same (h : Packed s) (harena : s'.arena = s.arena)
    (hblocks : s'.blocks = s.blocks) : Packed s' := by
  obtain ⟨⟨hlow, hhigh, haligned, hinside, hapart⟩, hbelow⟩ := h
  obtain ⟨arena, mem, blocks⟩ := s'
  obtain rfl : arena = s.arena := harena
  obtain rfl : blocks = s.blocks := hblocks
  exact ⟨⟨hlow, hhigh, haligned, hinside, hapart⟩, hbelow⟩

private theorem packed_reset (h : Packed s)
    (hstep : arenaStep maxAlign .reset s = some (out, s')) : Packed s' := by
  obtain ⟨-, rfl⟩ := Prod.mk.inj (Option.some.inj hstep)
  refine ⟨⟨BitVec.le_refl _, BitVec.le_trans h.valid.low h.valid.high, ?_, ?_, .nil⟩, ?_⟩ <;>
    exact fun b hb => nomatch hb

private theorem safe_step (hmax : maxAlign ≠ 0) (h : Packed s) (hsafe : Safe maxAlign op s)
    (hstep : arenaStep maxAlign op s = some (out, s')) :
    Packed s' ∧ ∀ size align, op.request maxAlign = some (size, align) →
      ¬ Fits s.arena size align → out = [0] ∧ s'.arena.ptr = s.arena.ptr := by
  cases hreq : op.request maxAlign with
  | none =>
      cases op with
      | reset => exact ⟨packed_reset h hstep, fun size align hsome => nomatch hsome⟩
      | _ => cases hreq
  | some request =>
      obtain ⟨size, align⟩ := request
      have hzero := request_align hmax hreq
      obtain ⟨hserve, hrefuse⟩ := request_step hstep hreq
      by_cases hgrant : Granted s.arena size align
      · obtain ⟨hout, harena, hblocks⟩ := hserve hgrant
        obtain ⟨hbase, hpow, hsmall, hsize⟩ := hgrant
        rcases hsafe size align hreq hbase hpow hsmall with hin | hlarge | ⟨hnull, hptr⟩
        · obtain ⟨hdvd, hlow, hend⟩ := served_inside hzero ⟨hbase, hpow, hsmall, hsize⟩ hin
          refine ⟨packed_serve h hbase hsmall hdvd hlow hend harena hblocks, ?_⟩
          rintro size' align' heq hmisfit
          obtain ⟨rfl, rfl⟩ := Prod.mk.inj (Option.some.inj heq)
          exact absurd ⟨_, hlow, hdvd, hend⟩ hmisfit
        · exact absurd hsize (BitVec.not_le.mpr hlarge)
        · rw [hnull] at hout harena hblocks
          have hsame : s'.arena = s.arena := by
            rw [harena, hptr, word_zero_add]
          refine ⟨packed_same h hsame (by rw [hblocks, recordBlock, if_pos rfl]), ?_⟩
          intro size' align' _ _
          exact ⟨hout, by rw [hsame]⟩
      · obtain ⟨hout, harena, hblocks⟩ := hrefuse hgrant
        refine ⟨packed_same h harena hblocks, ?_⟩
        intro size' align' _ _
        exact ⟨hout, by rw [harena]⟩

private theorem safe_of_behaves (hmax : maxAlign ≠ 0) (h : Behaves maxAlign op s) :
    Safe maxAlign op s := by
  intro size align hreq hbase hpow hsmall
  obtain ⟨out, s', hstep⟩ : ∃ out s', arenaStep maxAlign op s = some (out, s') := by
    cases op <;> exact ⟨_, _, rfl⟩
  have hzero := request_align hmax hreq
  unfold RoundingNoticed
  by_cases hin : s.arena.ptr ≤ alignUp s.arena.ptr align ∧ alignUp s.arena.ptr align ≤ s.arena.stop
  · exact Or.inl hin
  by_cases hlarge : BitVec.ofNat 64 size > s.arena.stop - alignUp s.arena.ptr align
  · exact Or.inr (Or.inl hlarge)
  have hgrant : Granted s.arena size align := ⟨hbase, hpow, hsmall, BitVec.not_lt.mp hlarge⟩
  obtain ⟨hout, harena, -⟩ := (request_step hstep hreq).1 hgrant
  obtain ⟨hnull, hptr⟩ := (h out s' hstep).2 size align hreq (not_fits_of_beyond hzero hpow hin)
  rw [hout, List.cons.injEq] at hnull
  rw [harena, hnull.1, word_zero_add] at hptr
  exact Or.inr (Or.inr ⟨hnull.1, hptr⟩)

private theorem behaves_iff_safe (hmax : maxAlign ≠ 0) (h : Packed s) (op : ArenaOp) :
    Behaves maxAlign op s ↔ Safe maxAlign op s := by
  refine ⟨safe_of_behaves hmax, fun hsafe out s' hstep => ?_⟩
  obtain ⟨hpacked, hmisfit⟩ := safe_step hmax h hsafe hstep
  exact ⟨hpacked.valid, hmisfit⟩

private theorem packed_init {malloc : Word → Option Word} {cap : Word} {a : Arena}
    (hmalloc : ∀ base, malloc cap = some base → base ≠ 0 ∧ base.toNat + cap.toNat < 2 ^ 64)
    (hinit : arenaInit malloc cap = some a) (mem : Memory) : Packed ⟨a, mem, []⟩ := by
  have hends : a.base ≤ a.ptr ∧ a.ptr ≤ a.stop := by
    unfold arenaInit at hinit
    split at hinit
    · obtain rfl := Option.some.inj hinit
      exact ⟨BitVec.le_refl _, BitVec.le_refl _⟩
    · obtain ⟨base, hbase, rfl⟩ := Option.map_eq_some_iff.mp hinit
      have hroom := (hmalloc base hbase).2
      refine ⟨BitVec.le_refl _, BitVec.le_def.mpr ?_⟩
      show base.toNat ≤ (base + cap).toNat
      rw [BitVec.toNat_add, Nat.mod_eq_of_lt hroom]
      omega
  refine ⟨⟨hends.1, hends.2, ?_, ?_, .nil⟩, ?_⟩ <;> exact fun b hb => nomatch hb

/-- In a run from an initialised arena every call behaves exactly when every call is safe. -/
theorem arena_run_valid_iff (maxAlign : Word) (malloc : Word → Option Word) (cap : Word) (a : Arena)
    (mem : Memory) (ops : List ArenaOp) (hmax : maxAlign ≠ 0)
    (hmalloc : ∀ base, malloc cap = some base → base ≠ 0 ∧ base.toNat + cap.toNat < 2 ^ 64)
    (hinit : arenaInit malloc cap = some a) :
    Valid ⟨a, mem, []⟩ ∧
      (GuardedRun (arenaStep maxAlign) (Behaves maxAlign) ops ⟨a, mem, []⟩ ↔
        GuardedRun (arenaStep maxAlign) (Safe maxAlign) ops ⟨a, mem, []⟩) := by
  have hpacked := packed_init hmalloc hinit mem
  refine ⟨hpacked.valid, ?_⟩
  apply guardedRun_congr (P := Packed) _ _ ops _ hpacked
  · intro op s h
    exact behaves_iff_safe hmax h op
  · intro op s out s' h hsafe hstep
    exact (safe_step hmax h hsafe hstep).1

end Runs

section NearTheEnd

private def smallArena : Arena := ⟨4096, 4096, 4160⟩

private def someBlock : Word → Option Word := fun _ => some 4096

/-- Two small blocks and a block of which the size does not fit. -/
theorem small_blocks_valid :
    Valid ⟨smallArena, fun _ => 0, []⟩ ∧
      GuardedRun (arenaStep 16) (Behaves 16) [.alloc 10 1, .calloc 2 8 16, .alloc 100 0]
        ⟨smallArena, fun _ => 0, []⟩ := by
  have hrun := arena_run_valid_iff 16 someBlock 64 smallArena (fun _ => 0)
    [.alloc 10 1, .calloc 2 8 16, .alloc 100 0] (by decide)
    (by rintro base ⟨rfl⟩; decide) rfl
  refine ⟨hrun.1, hrun.2.mpr ?_⟩
  refine ⟨?_, fun out s' hstep => ?_⟩
  · rintro size align ⟨rfl, rfl⟩ - - -
    exact Or.inl (by decide)
  obtain ⟨-, rfl⟩ := Prod.mk.inj (Option.some.inj hstep)
  refine ⟨?_, fun out s' hstep => ?_⟩
  · rintro size align ⟨rfl, rfl⟩ - - -
    exact Or.inl (by decide)
  obtain ⟨-, rfl⟩ := Prod.mk.inj (Option.some.inj hstep)
  refine ⟨?_, fun _ _ _ => trivial⟩
  rintro size align ⟨rfl, rfl⟩ - - -
  exact Or.inl (by decide)

/-- One byte of the arena is left when eight bytes are asked for at a multiple of 128: the block at
4224 is beyond the end. -/
theorem late_request_escapes :
    arenaInit someBlock 64 = some smallArena ∧
      ¬ GuardedRun (arenaStep 16) (Behaves 16) [.alloc 63 1, .alloc 8 128]
        ⟨smallArena, fun _ => 0, []⟩ := by
  refine ⟨rfl, fun h => ?_⟩
  have hlate := (h.2 _ _ rfl).1 _ _ rfl
  exact absurd hlate.1.high (by decide)

end NearTheEnd

end CZet.Stdlib.BumpArena
