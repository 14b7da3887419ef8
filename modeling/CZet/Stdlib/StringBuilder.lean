/- source: stdlib/utils/str.h
   digest: The string builder: when a request for room is served rightly, and what the builder holds
     in runs whose pushes read no memory that they free or write. -/

import CZet.Lib.OpRun
import CZet.Lib.Settling

set_option autoImplicit false
set_option relaxedAutoImplicit false

namespace CZet.Stdlib.StringBuilder

open CZet.Lib.OpRun CZet.Lib.Settling Filter

/-- `unsigned long`. -/
abbrev Word := BitVec 64

/-- `struct str`; `data` is `none` where it is `NULL`, and the memory it points to otherwise. -/
structure Str where
  data : Option (List UInt8)
  len : Word
  cap : Word

/-- The outcome of a `realloc` to a size: a refusal, or what is found in the bytes that are new. -/
abbrev Realloc := Word → Option (Nat → UInt8)

/-- The memory after a `realloc` to `n` bytes. -/
def reallocated (fresh : Nat → UInt8) (n : Nat) (old : List UInt8) : List UInt8 :=
  List.ofFn fun i : Fin n => old.getD i (fresh i)

/-- `memcpy` to the offset `pos`. -/
def memcpy (mem : List UInt8) (pos : Nat) (bytes : List UInt8) : List UInt8 :=
  mem.take pos ++ bytes ++ mem.drop (pos + bytes.length)

def strInit : Str := ⟨none, 0, 0⟩

/-- The loop `while (ncap < need) ncap *= 2`. -/
def growLoop (need : Word) : Nat → Word → Option Word
  | 0, _ => none
  | fuel + 1, ncap => if ncap < need then growLoop need fuel (ncap * 2) else some ncap

/-- The capacity that the doubling starts with. -/
def firstCap (s : Str) : Word := if s.cap ≠ 0 then s.cap else 32

/-- `fuel` bounds the passes of the loop. -/
def strReserve (realloc : Realloc) (fuel : Nat) (s : Str) (extra : Word) : Option (Int × Str) :=
  let need := s.len + extra + 1
  if need ≤ s.cap then some (0, s)
  else (growLoop need fuel (firstCap s)).map fun ncap =>
    match realloc ncap with
    | none => (-1, s)
    | some fresh =>
        (0, { s with data := some (reallocated fresh ncap.toNat (s.data.getD [])), cap := ncap })

/-- Where a pointer that is not `NULL` points to. -/
inductive Source
  /-- Other memory, with the bytes it holds from there on. -/
  | foreign (bytes : List UInt8)
  /-- The builder's own block. -/
  | own (pos : Nat)

def Source.bytes (s : Str) : Source → List UInt8
  | .foreign bytes => bytes
  | .own pos => (s.data.getD []).drop pos

/-- What `memcpy` finds where the language does not say: in a block that was freed, or in one part of
a block while it writes to an overlapping one. -/
abbrev Found := Nat → UInt8

/-- The `n` bytes that are read at `p` when `str_reserve` has made `s'` of `s`; they are written
behind the contents. -/
def Source.read (found : Found) (s s' : Str) (n : Nat) : Source → List UInt8
  | .foreign bytes => bytes.take n
  | .own pos =>
      if s'.cap = s.cap ∧ (pos + n ≤ s.len.toNat ∨ s.len.toNat + n ≤ pos) then
        ((s.data.getD []).drop pos).take n
      else (List.range n).map found

/-- `str_push_n` of the `n` bytes at `p`, where `p` may be `NULL`. -/
def strPushN (realloc : Realloc) (found : Found) (fuel : Nat) (s : Str) (p : Option Source)
    (n : Word) : Option (Int × Str) :=
  if p = none ∧ n > 0 then some (-1, s)
  else if n = 0 then some (0, s)
  else (strReserve realloc fuel s n).map fun r =>
    if r.1 ≠ 0 then (-1, r.2)
    else
      let len := r.2.len + n
      let text := (p.map (Source.read found s r.2 n.toNat)).getD []
      let mem := memcpy (r.2.data.getD []) r.2.len.toNat text
      (0, { r.2 with data := some (memcpy mem len.toNat [0]), len := len })

/-- The characters in front of the terminator. -/
def cString (p : List UInt8) : List UInt8 := p.takeWhile (· ≠ 0)

def strPushCstr (realloc : Realloc) (found : Found) (fuel : Nat) (s : Str) (cstr : Option Source) :
    Option (Int × Str) :=
  match cstr with
  | none => some (-1, s)
  | some p =>
      strPushN realloc found fuel s (some p) (BitVec.ofNat 64 (cString (p.bytes s)).length)

def strPushChar (realloc : Realloc) (found : Found) (fuel : Nat) (s : Str) (c : UInt8) :
    Option (Int × Str) :=
  strPushN realloc found fuel s (some (.foreign [c])) 1

/-- `str_push_fmt`; `formatted` is what both calls of `vsnprintf` make of the arguments, or `none`
where `fmt` is `NULL` or `vsnprintf` fails. -/
def strPushFmt (realloc : Realloc) (fuel : Nat) (s : Str) (formatted : Option (List UInt8)) :
    Option (Int × Str) :=
  match formatted with
  | none => some (-1, s)
  | some out =>
      let need := BitVec.ofNat 64 out.length
      (strReserve realloc fuel s need).map fun r =>
        if r.1 ≠ 0 then (-1, r.2)
        else
          (0, { r.2 with
            data := some (memcpy (r.2.data.getD []) r.2.len.toNat (out ++ [0]))
            len := r.2.len + need })

def strClear (s : Str) : Str := { s with len := 0, data := s.data.map fun mem => memcpy mem 0 [0] }

inductive StrCall
  | pushN (p : Source) (n : Word)
  /-- The pointer is `NULL`. -/
  | pushNull (n : Word)
  | pushCstr (cstr : Option Source)
  | pushChar (c : UInt8)
  | pushFmt (formatted : Option (List UInt8))
  | clear

/-- A call with what its caller does not decide. -/
structure StrOp where
  realloc : Realloc
  found : Found
  call : StrCall

/-- The string that a push is about, as it is in memory before the call. -/
def StrCall.text (s : Str) : StrCall → List UInt8
  | .pushN p n => (p.bytes s).take n.toNat
  | .pushCstr (some p) => cString (p.bytes s)
  | .pushChar c => [c]
  | .pushFmt (some out) => out
  | _ => []

/-- One call; `str_clear` returns nothing. -/
def strCall (realloc : Realloc) (found : Found) (fuel : Nat) (s : Str) : StrCall → Option (Int × Str)
  | .pushN p n => strPushN realloc found fuel s (some p) n
  | .pushNull n => strPushN realloc found fuel s none n
  | .pushCstr cstr => strPushCstr realloc found fuel s cstr
  | .pushChar c => strPushChar realloc found fuel s c
  | .pushFmt formatted => strPushFmt realloc fuel s formatted
  | .clear => some (0, strClear s)

/-- A call, the string it is about and what it returns. -/
structure Entry where
  call : StrCall
  text : List UInt8
  rc : Int

/-- One call, logged. -/
def strStep (fuel : Nat) (op : StrOp) (s : Str) : Option (List Entry × Str) :=
  (strCall op.realloc op.found fuel s op.call).map fun r => ([⟨op.call, op.call.text s, r.1⟩], r.2)

def Str.contents (s : Str) : List UInt8 := (s.data.getD []).take s.len.toNat

/-- Nothing is allocated yet, or the terminator stands behind the contents. -/
def Str.Valid (s : Str) : Prop :=
  s = strInit ∨ ∃ mem, s.data = some mem ∧ mem.length = s.cap.toNat ∧
    s.len.toNat < s.cap.toNat ∧ mem[s.len.toNat]? = some 0

/-- What is held after a call. -/
def keep (held : List UInt8) (e : Entry) : List UInt8 :=
  match e.call with
  | .clear => []
  | _ => if e.rc = 0 then held ++ e.text else held

/-- The strings of the pushes that returned 0 since the last clear. -/
def kept (log : List Entry) : List UInt8 := log.foldl keep []

/-- The pointer of a push is one to all that it is said to point to. -/
def StrCall.Pointed (s : Str) : StrCall → Prop
  | .pushN p n => n.toNat ≤ (p.bytes s).length
  | .pushCstr (some p) => 0 ∈ p.bytes s
  | _ => True

instance (s : Str) : (call : StrCall) → Decidable (call.Pointed s)
  | .pushN p n => inferInstanceAs (Decidable (n.toNat ≤ (p.bytes s).length))
  | .pushCstr (some p) => inferInstanceAs (Decidable (0 ∈ p.bytes s))
  | .pushNull _ | .pushCstr none | .pushChar _ | .pushFmt _ | .clear => isTrue trivial

/-- What callers see to: the pointers are good, and less than 2^62 bytes are held and pushed. -/
structure Lawful (op : StrOp) (s : Str) : Prop where
  pointed : op.call.Pointed s
  short : s.contents.length + (op.call.text s).length < 2 ^ 62

/-- The `n` bytes at `p` stay as they are until they are read: in other memory, or in a block that is
not moved and in a part of it that is not written, unless nothing is read at all. -/
def Steady (realloc : Realloc) (s : Str) (n : Nat) : Source → Prop
  | .foreign _ => True
  | .own pos => n = 0 ∨
      if s.len.toNat + n < s.cap.toNat then pos + n ≤ s.len.toNat ∨ s.len.toNat + n ≤ pos
      else ∀ size, realloc size = none

/-- A push reads what its caller points to. -/
def ReadsSource (op : StrOp) (s : Str) : Prop :=
  match op.call with
  | .pushN p n => Steady op.realloc s n.toNat p
  | .pushCstr (some p) => Steady op.realloc s (cString (p.bytes s)).length p
  | _ => True

section Growth

variable {need c : Word} {realloc : Realloc} {s : Str} {extra : Word}

theorem growLoop_eq_some {fuel : Nat} {ncap : Word} : growLoop need fuel ncap = some c ↔
    ∃ k < fuel, c = ncap * 2 ^ k ∧ need ≤ c ∧ ∀ j < k, ncap * 2 ^ j < need := by
  induction fuel generalizing ncap with
  | zero => simp [growLoop]
  | succ fuel ih =>
      have hshift : ∀ j, ncap * 2 * 2 ^ j = ncap * 2 ^ (j + 1) := by
        intro j
        rw [BitVec.mul_assoc, BitVec.pow_succ, BitVec.mul_comm 2]
      rw [growLoop]
      split
      next hlt =>
        rw [ih]
        constructor
        · rintro ⟨k, hk, rfl, hneed, hbelow⟩
          refine ⟨k + 1, by omega, hshift k, hneed, ?_⟩
          intro j hj
          cases j with
          | zero => simpa using hlt
          | succ j =>
              rw [← hshift]
              exact hbelow j (by omega)
        · rintro ⟨k, hk, rfl, hneed, hbelow⟩
          cases k with
          | zero =>
              rw [BitVec.pow_zero, BitVec.mul_one] at hneed
              exact absurd hneed (BitVec.not_le.mpr hlt)
          | succ k =>
              refine ⟨k, by omega, (hshift k).symm, hneed, ?_⟩
              intro j hj
              rw [hshift]
              exact hbelow (j + 1) (by omega)
      next hge =>
        constructor
        · intro h
          obtain rfl := Option.some.inj h
          refine ⟨0, Nat.succ_pos _, by simp, BitVec.not_lt.mp hge, ?_⟩
          intro j hj
          exact absurd hj (Nat.not_lt_zero j)
        · rintro ⟨k, hk, rfl, hneed, hbelow⟩
          cases k with
          | zero => simp
          | succ k =>
              have hfirst := hbelow 0 (Nat.succ_pos k)
              rw [BitVec.pow_zero, BitVec.mul_one] at hfirst
              exact absurd hfirst hge

/-- Some doubling is large enough. -/
theorem growLoop_settles {ncap : Word} {k : Nat} (h : need ≤ ncap * 2 ^ k) :
    ∃ c, need ≤ c ∧ SettlesTo atTop (fun fuel => growLoop need fuel ncap) c := by
  have hex : ∃ k, need ≤ ncap * 2 ^ k := ⟨k, h⟩
  refine ⟨ncap * 2 ^ Nat.find hex, Nat.find_spec hex, ?_⟩
  refine eventually_atTop.mpr ⟨Nat.find hex + 1, fun fuel hfuel => ?_⟩
  refine growLoop_eq_some.mpr ⟨Nat.find hex, by omega, rfl, Nat.find_spec hex, ?_⟩
  intro j hj
  exact BitVec.not_le.mp (Nat.find_min hex hj)

/-- The bytes that a request asks room for: the old ones, the new ones and the terminator. -/
def requested (s : Str) (extra : Word) : Nat := s.len.toNat + extra.toNat + 1

/-- The size of the request is a word, and a doubling of the capacity modulo 2^64 reaches it. -/
def Attainable (s : Str) (extra : Word) : Prop :=
  requested s extra < 2 ^ 64 ∧ ∃ k : Nat, requested s extra ≤ (firstCap s * 2 ^ k : Word).toNat

private theorem doubled_toNat (c : Word) (k : Nat) :
    (c * 2 ^ k).toNat = c.toNat * 2 ^ k % 2 ^ 64 := by
  induction k with
  | zero => rw [BitVec.pow_zero, BitVec.mul_one, pow_zero, Nat.mul_one, Nat.mod_eq_of_lt c.isLt]
  | succ k ih =>
      have htwo : (2 : Word).toNat = 2 := rfl
      rw [BitVec.pow_succ, ← BitVec.mul_assoc, BitVec.toNat_mul, ih, htwo, Nat.mod_mul_mod,
        Nat.mul_assoc,
        pow_succ (2 : Nat) k]

theorem attainable_of_le (h : requested s extra ≤ 2 ^ 63) : Attainable s extra := by
  have hcap : 0 < (firstCap s).toNat := by
    rw [firstCap]
    split
    next hne =>
      rw [Nat.pos_iff_ne_zero]
      exact fun hzero => hne (BitVec.eq_of_toNat_eq hzero)
    next => decide
  have hex : ∃ k, requested s extra ≤ (firstCap s).toNat * 2 ^ k := by
    refine ⟨requested s extra, ?_⟩
    calc requested s extra ≤ 2 ^ requested s extra := Nat.lt_two_pow_self.le
      _ ≤ (firstCap s).toNat * 2 ^ requested s extra := Nat.le_mul_of_pos_left _ hcap
  refine ⟨by omega, Nat.find hex, ?_⟩
  have hbound : (firstCap s).toNat * 2 ^ Nat.find hex < 2 ^ 64 := by
    cases hfind : Nat.find hex with
    | zero =>
        rw [pow_zero, Nat.mul_one]
        exact (firstCap s).isLt
    | succ k =>
        have hbelow := Nat.find_min hex (hfind ▸ Nat.lt_succ_self k : k < Nat.find hex)
        rw [pow_succ, ← Nat.mul_assoc]
        omega
  rw [doubled_toNat, Nat.mod_eq_of_lt hbound]
  exact Nat.find_spec hex

/-- The call comes back, and a success means that the capacity is as large as the request. -/
def Served (realloc : Realloc) (s : Str) (extra : Word) : Prop :=
  ∃ rc s', SettlesTo atTop (fun fuel => strReserve realloc fuel s extra) (rc, s') ∧
    (rc = 0 → requested s extra ≤ s'.cap.toNat)

private theorem need_toNat (h : requested s extra < 2 ^ 64) :
    (s.len + extra + 1).toNat = requested s extra := by
  have hsum : s.len.toNat + extra.toNat + 1 < 2 ^ 64 := h
  have hone : (1 : Word).toNat = 1 := rfl
  rw [BitVec.toNat_add, BitVec.toNat_add, requested, hone]
  omega

/-- A request that fits into a word: what `str_reserve` comes to. -/
theorem strReserve_settles (realloc : Realloc) (h : Attainable s extra) :
    ∃ rc s', SettlesTo atTop (fun fuel => strReserve realloc fuel s extra) (rc, s') ∧
      (rc = -1 ∧ s' = s ∨
        rc = 0 ∧ s' = s ∧ requested s extra ≤ s.cap.toNat ∨
        rc = 0 ∧ ∃ (ncap : Word) (fresh : Nat → UInt8), s.cap.toNat < requested s extra ∧
          realloc ncap = some fresh ∧ requested s extra ≤ ncap.toNat ∧ s' = { s with
            data := some (reallocated fresh ncap.toNat (s.data.getD [])), cap := ncap }) := by
  obtain ⟨hword, k, hk⟩ := h
  have hneed := need_toNat hword
  by_cases hfits : s.len + extra + 1 ≤ s.cap
  · refine ⟨0, s, ?_, Or.inr (Or.inl ⟨rfl, rfl, ?_⟩)⟩
    · simp only [strReserve, if_pos hfits]
      exact settlesTo_some _
    · rw [← hneed]
      exact BitVec.le_def.mp hfits
  · have hattained : s.len + extra + 1 ≤ firstCap s * 2 ^ k := BitVec.le_def.mpr (hneed.trans_le hk)
    obtain ⟨c, hc, hgrow⟩ := growLoop_settles hattained
    have hcap : requested s extra ≤ c.toNat := hneed.symm.trans_le (BitVec.le_def.mp hc)
    have hlarge : s.cap.toNat < requested s extra := by
      rw [← hneed]
      exact BitVec.lt_def.mp (BitVec.not_le.mp hfits)
    have hrun := hgrow.map fun ncap => match realloc ncap with
      | none => ((-1 : Int), s)
      | some fresh =>
          (0, { s with data := some (reallocated fresh ncap.toNat (s.data.getD [])), cap := ncap })
    simp only [strReserve, if_neg hfits]
    refine ⟨_, _, hrun, ?_⟩
    cases hnew : realloc c with
    | none => exact Or.inl ⟨rfl, rfl⟩
    | some fresh => exact Or.inr (Or.inr ⟨rfl, c, fresh, hlarge, hnew, hcap, rfl⟩)

private theorem reserve_wrapped (realloc : Realloc) (hlen : s.len ≤ s.cap)
    (hwrap : 2 ^ 64 ≤ requested s extra) (fuel : Nat) :
    strReserve realloc fuel s extra = some (0, s) := by
  have hbound : s.len.toNat + extra.toNat + 1 ≥ 2 ^ 64 := hwrap
  have hlen' := BitVec.le_def.mp hlen
  have hfits : s.len + extra + 1 ≤ s.cap := by
    have hone : (1 : Word).toNat = 1 := rfl
    rw [BitVec.le_def, BitVec.toNat_add, BitVec.toNat_add, hone]
    omega
  rw [strReserve, if_pos hfits]

private theorem reserve_unreachable (realloc : Realloc) (hword : requested s extra < 2 ^ 64)
    (hnone : ∀ k : Nat, (firstCap s * 2 ^ k : Word).toNat < requested s extra) (fuel : Nat) :
    strReserve realloc fuel s extra = none := by
  have hneed := need_toNat hword
  have hbig : ¬ s.len + extra + 1 ≤ s.cap := by
    have hfirst := hnone 0
    rw [BitVec.pow_zero, BitVec.mul_one, firstCap] at hfirst
    rw [BitVec.le_def, hneed]
    split at hfirst
    · omega
    next hzero =>
      have hcap : s.cap = 0 := not_not.mp hzero
      rw [hcap, requested]
      simp
  have hloop : growLoop (s.len + extra + 1) fuel (firstCap s) = none := by
    refine Option.eq_none_iff_forall_ne_some.mpr fun c hc => ?_
    obtain ⟨k, -, rfl, hle, -⟩ := growLoop_eq_some.mp hc
    have hlt := hnone k
    rw [BitVec.le_def, hneed] at hle
    omega
  simp only [strReserve, if_neg hbig, hloop, Option.map_none]

/-- A request is served exactly when its size does not wrap around and a doubling reaches it. -/
theorem reserve_served_iff (realloc : Realloc) (s : Str) (extra : Word) (hlen : s.len ≤ s.cap) :
    Served realloc s extra ↔ Attainable s extra := by
  constructor
  · rintro ⟨rc, s', hsettles, hroom⟩
    by_cases hword : requested s extra < 2 ^ 64
    · refine ⟨hword, ?_⟩
      by_contra hnone
      have hbelow : ∀ k : Nat, (firstCap s * 2 ^ k : Word).toNat < requested s extra :=
        fun k => Nat.lt_of_not_le fun hk => hnone ⟨k, hk⟩
      obtain ⟨fuel, hfuel⟩ := hsettles.exists
      beta_reduce at hfuel
      rw [reserve_unreachable realloc hword hbelow] at hfuel
      cases hfuel
    · obtain ⟨fuel, hfuel⟩ := hsettles.exists
      beta_reduce at hfuel
      rw [reserve_wrapped realloc hlen (Nat.le_of_not_lt hword)] at hfuel
      obtain ⟨rfl, rfl⟩ := Prod.mk.inj (Option.some.inj hfuel)
      have hcap := hroom rfl
      have := s.cap.isLt
      omega
  · intro h
    obtain ⟨rc, s', hsettles, hcases⟩ := strReserve_settles realloc h
    refine ⟨rc, s', hsettles, ?_⟩
    rintro rfl
    rcases hcases with ⟨hrc, -⟩ | ⟨-, rfl, hcap⟩ | ⟨-, ncap, fresh, -, -, hcap, rfl⟩
    · cases hrc
    · exact hcap
    · exact hcap

private def thirtyHeld : Str := ⟨some (List.replicate 30 97 ++ [0, 0]), 30, 32⟩

/-- Ten more bytes for a builder of 32 that holds thirty. -/
theorem ten_bytes_served : thirtyHeld.len ≤ thirtyHeld.cap ∧
    (Served (fun _ => some fun _ => 0) thirtyHeld 10 ↔ Attainable thirtyHeld 10) ∧
    Attainable thirtyHeld 10 :=
  ⟨by decide, reserve_served_iff _ _ _ (by decide), attainable_of_le (by decide)⟩

/-- 2^64 - 1 more bytes are promised without any memory. -/
theorem wrapped_request_promised :
    ¬ ∀ (realloc : Realloc) (s : Str) (extra : Word), s.len ≤ s.cap → Served realloc s extra := by
  intro h
  obtain ⟨rc, s', hsettles, hroom⟩ := h (fun _ => none) strInit (BitVec.allOnes 64) (by decide)
  obtain ⟨fuel, hfuel⟩ := hsettles.exists
  have hrun : strReserve (fun _ => none) fuel strInit (BitVec.allOnes 64) = some (0, strInit) := rfl
  beta_reduce at hfuel
  rw [hrun] at hfuel
  obtain ⟨rfl, rfl⟩ := Prod.mk.inj (Option.some.inj hfuel)
  exact absurd (hroom rfl) (by decide)

end Growth

section Writes

variable {mem : List UInt8} {pos : Nat} {bytes : List UInt8}

private theorem memcpy_length (h : pos + bytes.length ≤ mem.length) :
    (memcpy mem pos bytes).length = mem.length := by
  simp only [memcpy, List.length_append, List.length_take, List.length_drop]
  omega

private theorem memcpy_take (h : pos + bytes.length ≤ mem.length) :
    (memcpy mem pos bytes).take (pos + bytes.length) = mem.take pos ++ bytes := by
  have hlen : (mem.take pos ++ bytes).length = pos + bytes.length := by
    rw [List.length_append, List.length_take]
    omega
  rw [memcpy, ← hlen, List.take_left]

private theorem memcpy_terminator (h : pos + bytes.length < mem.length) :
    memcpy (memcpy mem pos bytes) (pos + bytes.length) [0] = memcpy mem pos (bytes ++ [0]) := by
  have hlen : (mem.take pos ++ bytes).length = pos + bytes.length := by
    rw [List.length_append, List.length_take]
    omega
  have hdrop : (memcpy mem pos bytes).drop (pos + bytes.length + 1) =
      mem.drop (pos + bytes.length + 1) := by
    rw [← List.drop_drop, memcpy, ← hlen, List.drop_left, hlen, List.drop_drop]
  rw [memcpy, memcpy_take (Nat.le_of_lt h), List.length_singleton, hdrop, memcpy,
    List.length_append, List.length_singleton, Nat.add_assoc]
  simp only [List.append_assoc]

private theorem reallocated_length (fresh : Nat → UInt8) (n : Nat) (old : List UInt8) :
    (reallocated fresh n old).length = n := by
  rw [reallocated, List.length_ofFn]

private theorem reallocated_take (fresh : Nat → UInt8) {n k : Nat} {old : List UInt8}
    (hold : k ≤ old.length) (hn : k ≤ n) : (reallocated fresh n old).take k = old.take k := by
  apply List.ext_getElem?
  intro i
  by_cases hi : i < k
  · have hin : i < n := by omega
    have hio : i < old.length := by omega
    rw [List.getElem?_take_of_lt hi, List.getElem?_take_of_lt hi, reallocated,
      List.getElem?_ofFn, dif_pos hin, List.getD_eq_getElem?_getD, List.getElem?_eq_getElem hio,
      Option.getD_some]
  · rw [List.getElem?_eq_none (by simp only [List.length_take]; omega),
      List.getElem?_eq_none (by simp only [List.length_take]; omega)]

end Writes

section Calls

variable {realloc : Realloc} {s : Str} {n : Word}

/-- There is room for `n` more bytes and the terminator behind the old contents. -/
structure Room (s s' : Str) (n : Nat) : Prop where
  len : s'.len = s.len
  room : ∃ mem, s'.data = some mem ∧ mem.length = s'.cap.toNat ∧
    s.len.toNat + n < s'.cap.toNat ∧ mem.take s.len.toNat = s.contents

private theorem ofNat_length {bytes : List UInt8} (h : bytes.length < 2 ^ 64) :
    (BitVec.ofNat 64 bytes.length).toNat = bytes.length := by
  rw [BitVec.toNat_ofNat, Nat.mod_eq_of_lt h]

/-- The block is as it was, or there was too little room in it and a new one was granted. -/
def Kept (realloc : Realloc) (s s' : Str) (n : Nat) : Prop :=
  s' = s ∧ s.len.toNat + n < s.cap.toNat ∨
    s.cap.toNat ≤ s.len.toNat + n ∧ ∃ size, (realloc size).isSome

private theorem reserve_room (realloc : Realloc) (hvalid : s.Valid)
    (hshort : s.len.toNat + n.toNat < 2 ^ 62) :
    ∃ rc s', SettlesTo atTop (fun fuel => strReserve realloc fuel s n) (rc, s') ∧
      (rc = -1 ∧ s' = s ∨ rc = 0 ∧ Room s s' n.toNat ∧ Kept realloc s s' n.toNat) := by
  have hattainable : Attainable s n := attainable_of_le (by unfold requested; omega)
  obtain ⟨rc, s', hsettles, hcases⟩ := strReserve_settles realloc hattainable
  refine ⟨rc, s', hsettles, ?_⟩
  rcases hcases with hfail | ⟨hrc, rfl, hcap⟩ | ⟨hrc, ncap, fresh, hgrown, hnew, hcap, rfl⟩
  · exact Or.inl hfail
  · refine Or.inr ⟨hrc, ⟨rfl, ?_⟩, Or.inl ⟨rfl, hcap⟩⟩
    rcases hvalid with rfl | ⟨mem, hmem, hlen, -, -⟩
    · have hnone : ¬ requested strInit n ≤ (strInit.cap).toNat := Nat.not_succ_le_zero _
      exact absurd hcap hnone
    · refine ⟨mem, hmem, hlen, ?_, ?_⟩
      · unfold requested at hcap
        omega
      · rw [Str.contents, hmem, Option.getD_some]
  · have hmoved : ∃ size, (realloc size).isSome := ⟨ncap, Option.isSome_of_mem hnew⟩
    refine Or.inr ⟨hrc, ⟨rfl, _, rfl, reallocated_length _ _ _, ?_, ?_⟩,
      Or.inr ⟨Nat.le_of_lt_succ hgrown, hmoved⟩⟩
    · unfold requested at hcap
      simp only
      omega
    · rw [Str.contents]
      rcases hvalid with rfl | ⟨mem, hmem, hlen, hlt, -⟩
      · rfl
      · rw [hmem, Option.getD_some]
        exact reallocated_take fresh (by omega) (by omega)

private theorem write_text {s' : Str} {text : List UInt8} (hroom : Room s s' text.length)
    (hshort : s.len.toNat + text.length < 2 ^ 62) :
    Str.Valid { s' with
        data := some (memcpy (s'.data.getD []) s'.len.toNat (text ++ [0]))
        len := s'.len + BitVec.ofNat 64 text.length } ∧
      Str.contents { s' with
        data := some (memcpy (s'.data.getD []) s'.len.toNat (text ++ [0]))
        len := s'.len + BitVec.ofNat 64 text.length } = s.contents ++ text := by
  obtain ⟨hlen, mem, hmem, hsize, hfits, hold⟩ := hroom
  have hnew : (s.len + BitVec.ofNat 64 text.length).toNat = s.len.toNat + text.length := by
    rw [BitVec.toNat_add, ofNat_length (by omega)]
    omega
  have hend : s.len.toNat + (text ++ [0]).length ≤ mem.length := by
    rw [List.length_append, List.length_singleton]
    omega
  have hwritten := memcpy_take hend
  rw [List.length_append, List.length_singleton, ← Nat.add_assoc] at hwritten
  have hinit : (mem.take s.len.toNat ++ text).length = s.len.toNat + text.length := by
    rw [List.length_append, List.length_take]
    omega
  rw [hmem, hlen, Option.getD_some]
  refine ⟨Or.inr ⟨_, rfl, (memcpy_length hend).trans hsize, ?_, ?_⟩, ?_⟩
  · rw [hnew]
    exact hfits
  · rw [hnew, ← List.getElem?_take_of_lt (Nat.lt_succ_self _), hwritten, ← List.append_assoc,
      ← hinit, List.getElem?_concat_length]
  · rw [Str.contents, Option.getD_some, hnew, ← hold]
    have htake := congrArg (List.take (s.len.toNat + text.length)) hwritten
    rw [List.take_take, Nat.min_eq_left (Nat.le_succ _), ← List.append_assoc, ← hinit,
      List.take_left] at htake
    rw [← hinit]
    exact htake

/-- A push comes back with -1 and leaves the builder as it is, or it appends its text. -/
def Pushes (push : Nat → Option (Int × Str)) (s : Str) (text : List UInt8) : Prop :=
  ∃ rc s', SettlesTo atTop push (rc, s') ∧
    (rc = -1 ∧ s' = s ∨ rc = 0 ∧ s'.Valid ∧ s'.contents = s.contents ++ text)

private theorem strPushN_pushes (realloc : Realloc) (found : Found) (hvalid : s.Valid) {p : Source}
    {text : List UInt8} (hn : n.toNat = text.length) (hshort : s.len.toNat + text.length < 2 ^ 62)
    (hread : n.toNat ≠ 0 → ∀ s', Kept realloc s s' n.toNat → p.read found s s' n.toNat = text) :
    Pushes (fun fuel => strPushN realloc found fuel s (some p) n) s text := by
  by_cases hzero : n = 0
  · have htext : text = [] := by
      rw [← List.length_eq_zero_iff, ← hn, hzero]
      rfl
    subst hzero htext
    refine ⟨0, s, settlesTo_some _, Or.inr ⟨rfl, hvalid, ?_⟩⟩
    rw [List.append_nil]
  · have hne : n.toNat ≠ 0 := fun h => hzero (BitVec.eq_of_toNat_eq h)
    obtain ⟨rc, s', hsettles, hcases⟩ := reserve_room realloc hvalid (n := n) (by omega)
    simp only [strPushN, reduceCtorEq, false_and, if_false, if_neg hzero]
    refine ⟨_, _, hsettles.map _, ?_⟩
    rcases hcases with ⟨rfl, rfl⟩ | ⟨rfl, hroom, hkept⟩
    · exact Or.inl ⟨rfl, rfl⟩
    · have htext := hread hne s' hkept
      rw [hn] at hroom htext
      have hlenText : n = BitVec.ofNat 64 text.length := by
        rw [← hn, BitVec.ofNat_toNat, BitVec.setWidth_eq]
      obtain ⟨hvalid', hcontents⟩ := write_text hroom hshort
      obtain ⟨hlen, mem, hmem, hsize, hfits, -⟩ := hroom
      have hnew : (s'.len + n).toNat = s'.len.toNat + text.length := by
        rw [hlen, BitVec.toNat_add, hn]
        omega
      have hwrite : memcpy (memcpy (s'.data.getD []) s'.len.toNat text) (s'.len + n).toNat [0] =
          memcpy (s'.data.getD []) s'.len.toNat (text ++ [0]) := by
        rw [hnew, hmem, Option.getD_some]
        refine memcpy_terminator ?_
        rw [hlen]
        omega
      simp only [Option.map_some, Option.getD_some, hn, htext, hwrite, ne_eq]
      rw [hlenText]
      exact Or.inr ⟨rfl, hvalid', hcontents⟩

private theorem read_steady (found : Found) {s' : Str} {p : Source} {k : Nat}
    (hsteady : Steady realloc s k p) (hk : k ≠ 0) (hkept : Kept realloc s s' k) :
    p.read found s s' k = (p.bytes s).take k := by
  cases p with
  | foreign bytes => rfl
  | own pos =>
      have hcases := hsteady.resolve_left hk
      rcases hkept with ⟨rfl, hroom⟩ | ⟨hlittle, size, hsize⟩
      · rw [if_pos hroom] at hcases
        exact if_pos ⟨rfl, hcases⟩
      · rw [if_neg (Nat.not_lt.mpr hlittle)] at hcases
        rw [hcases size] at hsize
        cases hsize

private theorem take_cString (bytes : List UInt8) :
    bytes.take (cString bytes).length = cString bytes :=
  List.prefix_iff_eq_take.mp (List.takeWhile_prefix _) |>.symm

private theorem strPushFmt_pushes (realloc : Realloc) (hvalid : s.Valid) {text : List UInt8}
    (hshort : s.len.toNat + text.length < 2 ^ 62) :
    Pushes (fun fuel => strPushFmt realloc fuel s (some text)) s text := by
  have hn : (BitVec.ofNat 64 text.length).toNat = text.length := ofNat_length (by omega)
  obtain ⟨rc, s', hsettles, hcases⟩ := reserve_room realloc hvalid (n := BitVec.ofNat 64 text.length)
    (by omega)
  refine ⟨_, _, hsettles.map _, ?_⟩
  rcases hcases with ⟨rfl, rfl⟩ | ⟨rfl, hroom, -⟩
  · exact Or.inl ⟨rfl, rfl⟩
  · rw [hn] at hroom
    exact Or.inr ⟨rfl, write_text hroom hshort⟩

private theorem refused_pushes : Pushes (fun _ => some (-1, s)) s [] :=
  ⟨-1, s, settlesTo_some _, Or.inl ⟨rfl, rfl⟩⟩

private theorem strClear_valid (hvalid : s.Valid) :
    (strClear s).Valid ∧ (strClear s).contents = [] := by
  refine ⟨?_, ?_⟩
  · rcases hvalid with rfl | ⟨mem, hmem, hlen, hlt, -⟩
    · exact Or.inl rfl
    · have hcap : 0 < mem.length := by omega
      refine Or.inr ⟨memcpy mem 0 [0], by rw [strClear, hmem, Option.map_some], ?_, ?_, ?_⟩
      · rw [memcpy_length (by rw [Nat.zero_add, List.length_singleton]; exact hcap), hlen]
        rfl
      · show (0 : Word).toNat < s.cap.toNat
        exact Nat.lt_of_le_of_lt (Nat.zero_le _) hlt
      · rfl
  · show List.take (0 : Word).toNat _ = []
    exact List.take_zero

/-- What a call does to a valid builder. -/
theorem strCall_settles (op : StrOp) (hvalid : s.Valid) (hlawful : Lawful op s)
    (hreads : ReadsSource op s) :
    ∃ rc s', SettlesTo atTop (fun fuel => strCall op.realloc op.found fuel s op.call) (rc, s') ∧
      s'.Valid ∧ s'.contents = keep s.contents ⟨op.call, op.call.text s, rc⟩ := by
  obtain ⟨realloc, found, call⟩ := op
  obtain ⟨hpointed, hshort⟩ := hlawful
  simp only at hpointed hshort ⊢
  have hlen : s.contents.length = s.len.toNat := by
    rcases hvalid with rfl | ⟨mem, hmem, hsize, hlt, -⟩
    · rfl
    · rw [Str.contents, hmem, Option.getD_some, List.length_take]
      omega
  rw [hlen] at hshort
  have hpush : ∀ push : Nat → Option (Int × Str), Pushes push s (call.text s) → call ≠ .clear →
      ∃ rc s', SettlesTo atTop push (rc, s') ∧ s'.Valid ∧
        s'.contents = keep s.contents ⟨call, call.text s, rc⟩ := by
    rintro push ⟨rc, s', hsettles, hcases⟩ hne
    have hkeep : keep s.contents ⟨call, call.text s, rc⟩ =
        if rc = 0 then s.contents ++ call.text s else s.contents := by
      cases call with
      | clear => exact absurd rfl hne
      | _ => rfl
    refine ⟨rc, s', hsettles, ?_⟩
    rw [hkeep]
    rcases hcases with ⟨rfl, rfl⟩ | ⟨rfl, hvalid', hcontents⟩
    · exact ⟨hvalid, rfl⟩
    · exact ⟨hvalid', hcontents⟩
  cases call with
  | pushN p n =>
      refine hpush _ (strPushN_pushes realloc found hvalid ?_ hshort ?_) (by simp)
      · rw [StrCall.text, List.length_take, Nat.min_eq_left hpointed]
      · exact fun hne s' hkept => read_steady found hreads hne hkept
  | pushNull n =>
      refine hpush _ ?_ (by simp)
      by_cases hn : n > 0
      · simp only [strCall, strPushN, hn, and_self, if_true]
        exact refused_pushes
      · have hzero : n = 0 := by
          have hle := BitVec.le_def.mp (BitVec.not_lt.mp hn)
          exact BitVec.eq_of_toNat_eq (Nat.le_zero.mp hle)
        subst hzero
        exact ⟨0, s, settlesTo_some _, Or.inr ⟨rfl, hvalid, (List.append_nil _).symm⟩⟩
  | pushCstr cstr =>
      refine hpush _ ?_ (by simp)
      cases cstr with
      | none => exact refused_pushes
      | some p =>
          have hn : (BitVec.ofNat 64 (cString (p.bytes s)).length).toNat =
              (cString (p.bytes s)).length := by
            have htext : s.len.toNat + (cString (p.bytes s)).length < 2 ^ 62 := hshort
            exact ofNat_length (by omega)
          refine strPushN_pushes realloc found hvalid hn hshort ?_
          intro hne s' hkept
          rw [hn] at hne hkept ⊢
          exact (read_steady found hreads hne hkept).trans (take_cString _)
  | pushChar c =>
      exact hpush _ (strPushN_pushes (p := .foreign [c]) (n := 1) realloc found hvalid rfl hshort
        fun _ _ _ => rfl) (by simp)
  | pushFmt formatted =>
      refine hpush _ ?_ (by simp)
      cases formatted with
      | none => exact refused_pushes
      | some out => exact strPushFmt_pushes realloc hvalid hshort
  | clear =>
      obtain ⟨hvalid', hcontents⟩ := strClear_valid hvalid
      exact ⟨0, strClear s, settlesTo_some _, hvalid', hcontents⟩

end Calls

section Runs

variable {s s' : Str}

private theorem reserve_failed {realloc : Realloc} {fuel : Nat} {n : Word} {rc : Int}
    (h : strReserve realloc fuel s n = some (rc, s')) (hrc : rc ≠ 0) : s' = s := by
  simp only [strReserve] at h
  split at h
  · cases h
    exact absurd rfl hrc
  · obtain ⟨ncap, -, h⟩ := Option.map_eq_some_iff.mp h
    cases hnew : realloc ncap with
    | none =>
        rw [hnew] at h
        cases h
        rfl
    | some fresh =>
        rw [hnew] at h
        cases h
        exact absurd rfl hrc

private theorem pushN_failed {realloc : Realloc} {found : Found} {fuel : Nat} {p : Option Source}
    {n : Word} (h : strPushN realloc found fuel s p n = some (-1, s')) : s' = s := by
  unfold strPushN at h
  split at h
  · cases h
    rfl
  · split at h
    · cases h
    · obtain ⟨⟨rc, s₁⟩, hreserve, h⟩ := Option.map_eq_some_iff.mp h
      by_cases hrc : rc = 0
      · subst hrc
        cases h
      · simp only [ne_eq, hrc, not_false_eq_true, if_true] at h
        cases h
        exact reserve_failed hreserve hrc

theorem strCall_failed {realloc : Realloc} {found : Found} {fuel : Nat} {call : StrCall}
    (h : strCall realloc found fuel s call = some (-1, s')) : s' = s := by
  cases call with
  | pushN p n => exact pushN_failed h
  | pushNull n => exact pushN_failed h
  | pushCstr cstr =>
      cases cstr with
      | none =>
          cases h
          rfl
      | some p =>
          change strPushN realloc found fuel s (some p) _ = _ at h
          exact pushN_failed h
  | pushChar c =>
      change strPushN realloc found fuel s (some (.foreign [c])) 1 = _ at h
      exact pushN_failed h
  | pushFmt formatted =>
      cases formatted with
      | none =>
          cases h
          rfl
      | some out =>
          obtain ⟨⟨rc, s₁⟩, hreserve, h⟩ := Option.map_eq_some_iff.mp h
          by_cases hrc : rc = 0
          · subst hrc
            cases h
          · simp only [ne_eq, hrc, not_false_eq_true, if_true] at h
            cases h
            exact reserve_failed hreserve hrc
  | clear => cases h

private theorem run_settles (ops : List StrOp) (hvalid : s.Valid)
    (hguard : ∀ᶠ fuel in atTop,
      GuardedRun (strStep fuel) (fun op s => Lawful op s ∧ ReadsSource op s) ops s) :
    ∃ log s', SettlesTo atTop (fun fuel => runOps (strStep fuel) ops s) (log, s') ∧
      log.map Entry.call = ops.map StrOp.call ∧ s'.Valid ∧
      s'.contents = log.foldl keep s.contents := by
  induction ops generalizing s with
  | nil => exact ⟨[], s, settlesTo_some _, rfl, hvalid, rfl⟩
  | cons op ops ih =>
      obtain ⟨_, ⟨hlawful, hreads⟩, -⟩ := hguard.exists
      obtain ⟨rc, s₁, hcall, hvalid₁, hcontents₁⟩ := strCall_settles op hvalid hlawful hreads
      have hstep : SettlesTo atTop (fun fuel => strStep fuel op s)
          ([⟨op.call, op.call.text s, rc⟩], s₁) := hcall.map _
      obtain ⟨log, s', hrun, hcalls, hvalid', hcontents'⟩ := ih hvalid₁ (by
        filter_upwards [hguard, hstep] with fuel hrest hone
        exact hrest.2 _ _ hone)
      refine ⟨⟨op.call, op.call.text s, rc⟩ :: log, s', ?_, ?_, hvalid', ?_⟩
      · filter_upwards [hstep, hrun] with fuel hone hrest
        exact runOps_cons_of_step hone hrest
      · rw [List.map_cons, List.map_cons, hcalls]
      · rw [hcontents', hcontents₁, List.foldl_cons]

private def granting : Realloc := fun _ => some fun _ => 0

private def hiTwiceThenClear : List StrOp :=
  [⟨granting, fun _ => 0, .pushCstr (some (.foreign [104, 105, 0]))⟩,
    ⟨granting, fun _ => 0, .pushCstr (some (.own 0))⟩, ⟨granting, fun _ => 0, .clear⟩]

/-- Sixteen bytes are pushed, then the builder's own string, for which the block is moved. -/
private def sixteenTwice : List StrOp :=
  [⟨granting, fun _ => 0, .pushCstr (some (.foreign (List.replicate 16 97 ++ [0])))⟩,
    ⟨granting, fun _ => 0, .pushCstr (some (.own 0))⟩]

end Runs

end CZet.Stdlib.StringBuilder
