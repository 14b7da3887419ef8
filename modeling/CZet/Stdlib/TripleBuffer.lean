/- source: stdlib/utils/triple_buffering.h
   digest: The triple buffer with one producer and one consumer, whose copies run concurrently. -/

import CZet.Lib.FrameCopy
import CZet.Lib.OpRun

set_option autoImplicit false
set_option relaxedAutoImplicit false

namespace CZet.Stdlib.TripleBuffer

open CZet.Lib.FrameCopy CZet.Lib.OpRun

variable {n : Nat} {Byte : Type}

/-- Where `tbuf_write` is: `front` and `back` are what it has computed from its load, `todo` is what
its `memcpy` still has to copy. -/
inductive Writer (n : Nat) (Byte : Type)
  | idle
  | copying (v : Frame n Byte) (front back : UInt8) (todo : List (Fin n))

/-- Where `tbuf_read` is: at the top of its loop, behind a load of `s` with the dirty bit set, or in
its `memcpy`. -/
inductive Reader (n : Nat) (Byte : Type)
  | idle
  | loop (out : Frame n Byte)
  | loaded (out : Frame n Byte) (s : UInt8)
  | copying (slot : UInt8) (out : Frame n Byte) (todo : List (Fin n))

/-- A `struct tbuf` with the two threads that use it. -/
structure Tbuf (n : Nat) (Byte : Type) where
  slots : UInt8 → Frame n Byte
  state : UInt8
  writer : Writer n Byte
  reader : Reader n Byte

/-- A call of `tbuf_write` with its load, the bytes of its copy and its store; a call of `tbuf_read`,
its loads, its compare-exchanges, which may fail without a reason, the bytes of its copy and its
return. -/
inductive TbufOp (n : Nat) (Byte : Type)
  | write (v : Frame n Byte)
  | writeByte (i : Fin n)
  | publish
  | read (out : Frame n Byte)
  | load
  | exchange (succeeds : Bool)
  | readByte (i : Fin n)
  | finish

def tbufInit (init : Frame n Byte) : Tbuf n Byte :=
  { slots := fun _ => init, state := 0, writer := .idle, reader := .idle }

def frontOf (s : UInt8) : UInt8 := s &&& 3

/-- `dirty[4]`. -/
def dirtyBit : UInt8 := (1 : UInt8) <<< 4

def sharedOf (s : UInt8) : UInt8 := (s >>> 2) &&& 3

/-- The slot that is neither the front nor the shared one. -/
def backOf (front shared : UInt8) : UInt8 :=
  if front = shared then (front + 1) % 3 else 3 - front - shared

/-- The state that `tbuf_write` stores. -/
def publishedState (front back : UInt8) : UInt8 := front ||| (back <<< 2) ||| dirtyBit

/-- The state that `tbuf_read` exchanges for `s`. -/
def takenState (s : UInt8) : UInt8 := sharedOf s ||| (s &&& ~~~0x13)

def tbufStep : TbufOp n Byte → Tbuf n Byte → Option (List (Event (Frame n Byte)) × Tbuf n Byte)
  | .write v, b =>
      match b.writer with
      | .idle =>
          let front := frontOf b.state
          some ([], { b with
            writer := .copying v front (backOf front (sharedOf b.state)) (List.finRange n) })
      | .copying .. => none
  | .writeByte i, b =>
      match b.writer with
      | .copying v front back todo =>
          if i ∈ todo then
            some ([], { b with
              slots := Function.update b.slots back (copyByte v (b.slots back) i)
              writer := .copying v front back (remaining todo i) })
          else none
      | .idle => none
  | .publish, b =>
      match b.writer with
      | .copying v front back [] =>
          some ([.write v], { b with state := publishedState front back, writer := .idle })
      | _ => none
  | .read out, b =>
      match b.reader with
      | .idle => some ([], { b with reader := .loop out })
      | _ => none
  | .load, b =>
      match b.reader with
      | .loop out =>
          if b.state &&& dirtyBit = 0 then
            some ([], { b with reader := .copying (frontOf b.state) out (List.finRange n) })
          else some ([], { b with reader := .loaded out b.state })
      | _ => none
  | .exchange succeeds, b =>
      match b.reader with
      | .loaded out s =>
          if succeeds then
            if b.state = s then
              some ([], { b with
                state := takenState s
                reader := .copying (frontOf (takenState s)) out (List.finRange n) })
            else none
          else some ([], { b with reader := .loop out })
      | _ => none
  | .readByte i, b =>
      match b.reader with
      | .copying slot out todo =>
          if i ∈ todo then
            some ([], { b with
              reader := .copying slot (copyByte (b.slots slot) out i) (remaining todo i) })
          else none
      | _ => none
  | .finish, b =>
      match b.reader with
      | .copying _ out [] => some ([.read out], { b with reader := .idle })
      | _ => none

/-- No compare-exchange succeeds between the load and the store of a `tbuf_write`. -/
def ExchangesApart (op : TbufOp n Byte) (b : Tbuf n Byte) : Prop :=
  op = .exchange true → b.writer = .idle

/-- The producer does not copy into the slot that the consumer copies from. -/
def Isolated (b : Tbuf n Byte) : Prop :=
  ∀ v front back todo slot out todo', b.writer = .copying v front back todo →
    b.reader = .copying slot out todo' → back ≠ slot

section Packing

private def slotByte (k : Fin 3) : UInt8 := UInt8.ofNat k

private def packed (front shared : Fin 3) (dirty : Bool) : UInt8 :=
  slotByte front ||| (slotByte shared <<< 2) ||| (if dirty then dirtyBit else 0)

private theorem slotByte_injective {j k : Fin 3} (h : slotByte j = slotByte k) : j = k := by
  revert j k
  decide

private theorem frontOf_packed (f sh : Fin 3) (d : Bool) : frontOf (packed f sh d) = slotByte f := by
  revert f sh d
  decide

private theorem takenState_packed (f sh : Fin 3) (d : Bool) :
    takenState (packed f sh d) = packed sh sh false := by
  revert f sh d
  decide

private theorem backOf_packed (f sh : Fin 3) (d : Bool) :
    ∃ k : Fin 3, backOf (frontOf (packed f sh d)) (sharedOf (packed f sh d)) = slotByte k ∧
      k ≠ f ∧ k ≠ sh := by
  revert f sh d
  decide

private theorem publishedState_slots (f k : Fin 3) :
    publishedState (slotByte f) (slotByte k) = packed f k true := by
  revert f k
  decide

end Packing

/-- The front slot holds the frame of index `i`, the shared slot the newest one; the consumer copies
from the front slot and the producer into neither. -/
private structure Holds (init : Frame n Byte) (events : List (Event (Frame n Byte))) (b : Tbuf n Byte)
    (f sh : Fin 3) (d : Bool) (i : Nat) : Prop where
  state : b.state = packed f sh d
  front : (init :: writes events)[i]? = some (b.slots (slotByte f))
  shared : (init :: writes events)[(writes events).length]? = some (b.slots (slotByte sh))
  writer : ∀ v front back todo, b.writer = .copying v front back todo →
    front = slotByte f ∧ Copied todo v (b.slots back) ∧
      ∃ k : Fin 3, back = slotByte k ∧ k ≠ f ∧ k ≠ sh
  reader : ∀ slot out todo, b.reader = .copying slot out todo →
    slot = slotByte f ∧ Copied todo (b.slots slot) out
  history : Forward (init :: writes events) (reads events) i

private def Consistent (init : Frame n Byte) (events : List (Event (Frame n Byte)))
    (b : Tbuf n Byte) : Prop :=
  ∃ f sh d i, Holds init events b f sh d i

section Steps

variable {init : Frame n Byte} {events : List (Event (Frame n Byte))} {b : Tbuf n Byte}
  {f sh : Fin 3} {d : Bool} {i : Nat}

private theorem Holds.write (h : Holds init events b f sh d i) (v : Frame n Byte) :
    Holds init events { b with
      writer := .copying v (frontOf b.state) (backOf (frontOf b.state) (sharedOf b.state))
        (List.finRange n) } f sh d i where
  state := h.state
  front := h.front
  shared := h.shared
  writer := by
    intro v' front back todo heq
    obtain ⟨rfl, rfl, rfl, rfl⟩ := Writer.copying.inj heq
    rw [h.state]
    exact ⟨frontOf_packed f sh d, copied_start _ _, backOf_packed f sh d⟩
  reader := h.reader
  history := h.history

private theorem Holds.writeByte (h : Holds init events b f sh d i) {v : Frame n Byte}
    {front back : UInt8} {todo : List (Fin n)} (hw : b.writer = .copying v front back todo)
    (j : Fin n) :
    Holds init events { b with
      slots := Function.update b.slots back (copyByte v (b.slots back) j)
      writer := .copying v front back (remaining todo j) } f sh d i := by
  obtain ⟨rfl, hcopied, k, rfl, hkf, hksh⟩ := h.writer v front back todo hw
  have hother : ∀ l : Fin 3, k ≠ l →
      Function.update b.slots (slotByte k) (copyByte v (b.slots (slotByte k)) j) (slotByte l) =
        b.slots (slotByte l) := by
    intro l hkl
    apply Function.update_of_ne
    intro heq
    exact hkl (slotByte_injective heq).symm
  refine ⟨h.state, ?_, ?_, ?_, ?_, h.history⟩
  · dsimp only
    rw [h.front, hother f hkf]
  · dsimp only
    rw [h.shared, hother sh hksh]
  · intro v' front back todo' heq
    obtain ⟨rfl, rfl, rfl, rfl⟩ := Writer.copying.inj heq
    refine ⟨rfl, ?_, k, rfl, hkf, hksh⟩
    dsimp only
    rw [Function.update_self]
    exact copied_step hcopied j
  · intro slot out todo' hr
    obtain ⟨rfl, hout⟩ := h.reader slot out todo' hr
    refine ⟨rfl, ?_⟩
    dsimp only
    rw [hother f hkf]
    exact hout

private theorem Holds.publish (h : Holds init events b f sh d i) {v : Frame n Byte}
    {front back : UInt8} (hw : b.writer = .copying v front back []) :
    Consistent init (events ++ [.write v])
      { b with state := publishedState front back, writer := .idle } := by
  obtain ⟨rfl, hcopied, k, rfl, -, -⟩ := h.writer v front back [] hw
  have hwrites : init :: writes (events ++ [.write v]) = (init :: writes events) ++ [v] := by simp
  have hlast : i < (init :: writes events).length := (List.getElem?_eq_some_iff.mp h.front).1
  refine ⟨f, k, true, i, publishedState_slots f k, ?_, ?_, ?_, h.reader, ?_⟩
  · rw [hwrites, List.getElem?_append_left hlast]
    exact h.front
  · show _ = some (b.slots (slotByte k))
    rw [hwrites, copied_all hcopied]
    simp
  · intro v' front back todo heq
    cases heq
  · have hreads : reads (events ++ [.write v]) = reads events := by simp
    rw [hwrites, hreads]
    exact h.history.write [v]

private theorem Holds.take (h : Holds init events b f sh d i) (hidle : b.writer = .idle)
    (out : Frame n Byte) :
    Consistent init events { b with
      state := takenState b.state
      reader := .copying (frontOf (takenState b.state)) out (List.finRange n) } := by
  have htaken : takenState b.state = packed sh sh false := by
    rw [h.state]
    exact takenState_packed f sh d
  have hlast : i ≤ (writes events).length := by
    have hlt := (List.getElem?_eq_some_iff.mp h.front).1
    rw [List.length_cons] at hlt
    omega
  refine ⟨sh, sh, false, (writes events).length, htaken, h.shared, h.shared, ?_, ?_,
    h.history.later hlast⟩
  · intro v front back todo hw
    rw [hidle] at hw
    cases hw
  · intro slot out' todo heq
    obtain ⟨rfl, rfl, rfl⟩ := Reader.copying.inj heq
    rw [htaken]
    exact ⟨frontOf_packed sh sh false, copied_start _ _⟩

private theorem Holds.outside (h : Holds init events b f sh d i) {r : Reader n Byte}
    (hr : ∀ slot out todo, r ≠ .copying slot out todo) :
    Holds init events { b with reader := r } f sh d i where
  state := h.state
  front := h.front
  shared := h.shared
  writer := h.writer
  reader := fun slot out todo heq => absurd heq (hr slot out todo)
  history := h.history

private theorem Holds.startCopy (h : Holds init events b f sh d i) (out : Frame n Byte) :
    Holds init events { b with reader := .copying (frontOf b.state) out (List.finRange n) }
      f sh d i where
  state := h.state
  front := h.front
  shared := h.shared
  writer := h.writer
  reader := by
    intro slot out' todo heq
    obtain ⟨rfl, rfl, rfl⟩ := Reader.copying.inj heq
    rw [h.state]
    exact ⟨frontOf_packed f sh d, copied_start _ _⟩
  history := h.history

private theorem Holds.readByte (h : Holds init events b f sh d i) {slot : UInt8}
    {out : Frame n Byte} {todo : List (Fin n)} (hr : b.reader = .copying slot out todo)
    (j : Fin n) :
    Holds init events { b with
      reader := .copying slot (copyByte (b.slots slot) out j) (remaining todo j) } f sh d i where
  state := h.state
  front := h.front
  shared := h.shared
  writer := h.writer
  reader := by
    intro slot' out' todo' heq
    obtain ⟨rfl, rfl, rfl⟩ := Reader.copying.inj heq
    obtain ⟨rfl, hout⟩ := h.reader slot out todo hr
    exact ⟨rfl, copied_step hout j⟩
  history := h.history

private theorem Holds.finish (h : Holds init events b f sh d i) {slot : UInt8}
    {out : Frame n Byte} (hr : b.reader = .copying slot out []) :
    Holds init (events ++ [.read out]) { b with reader := .idle } f sh d i := by
  obtain ⟨rfl, hout⟩ := h.reader slot out [] hr
  have hwrites : writes (events ++ [.read out]) = writes events := by simp
  have hreads : reads (events ++ [.read out]) = reads events ++ [out] := by simp
  refine ⟨h.state, ?_, ?_, h.writer, ?_, ?_⟩
  · rw [hwrites]
    exact h.front
  · rw [hwrites]
    exact h.shared
  · intro slot' out' todo' heq
    cases heq
  · rw [hwrites, hreads]
    apply h.history.read
    rw [copied_all hout]
    exact h.front

end Steps

private theorem consistent_step (init : Frame n Byte) (events : List (Event (Frame n Byte)))
    (op : TbufOp n Byte) (b : Tbuf n Byte) (out : List (Event (Frame n Byte))) (b' : Tbuf n Byte)
    (h : Consistent init events b) (hguard : ExchangesApart op b)
    (hstep : tbufStep op b = some (out, b')) : Consistent init (events ++ out) b' := by
  obtain ⟨f, sh, d, i, h⟩ := h
  cases op with
  | write v =>
      simp only [tbufStep] at hstep
      split at hstep
      · obtain ⟨rfl, rfl⟩ := Prod.mk.inj (Option.some.inj hstep)
        rw [List.append_nil]
        exact ⟨f, sh, d, i, h.write v⟩
      · cases hstep
  | writeByte j =>
      simp only [tbufStep] at hstep
      split at hstep
      next v front back todo hw =>
        split at hstep
        · obtain ⟨rfl, rfl⟩ := Prod.mk.inj (Option.some.inj hstep)
          rw [List.append_nil]
          exact ⟨f, sh, d, i, h.writeByte hw j⟩
        · cases hstep
      next => cases hstep
  | publish =>
      simp only [tbufStep] at hstep
      split at hstep
      next v front back hw =>
        obtain ⟨rfl, rfl⟩ := Prod.mk.inj (Option.some.inj hstep)
        exact h.publish hw
      next => cases hstep
  | read out₀ =>
      simp only [tbufStep] at hstep
      split at hstep
      · obtain ⟨rfl, rfl⟩ := Prod.mk.inj (Option.some.inj hstep)
        rw [List.append_nil]
        exact ⟨f, sh, d, i, h.outside (by intro slot out' todo heq; cases heq)⟩
      · cases hstep
  | load =>
      simp only [tbufStep] at hstep
      split at hstep
      next out' _ =>
        split at hstep
        · obtain ⟨rfl, rfl⟩ := Prod.mk.inj (Option.some.inj hstep)
          rw [List.append_nil]
          exact ⟨f, sh, d, i, h.startCopy out'⟩
        · obtain ⟨rfl, rfl⟩ := Prod.mk.inj (Option.some.inj hstep)
          rw [List.append_nil]
          exact ⟨f, sh, d, i, h.outside (by intro slot out'' todo heq; cases heq)⟩
      next => cases hstep
  | exchange succeeds =>
      simp only [tbufStep] at hstep
      split at hstep
      next out' s _ =>
        split at hstep
        next hsucceeds =>
          split at hstep
          next hsame =>
            obtain ⟨rfl, rfl⟩ := Prod.mk.inj (Option.some.inj hstep)
            rw [List.append_nil, ← hsame]
            exact h.take (hguard (by rw [hsucceeds])) out'
          next => cases hstep
        next =>
          obtain ⟨rfl, rfl⟩ := Prod.mk.inj (Option.some.inj hstep)
          rw [List.append_nil]
          exact ⟨f, sh, d, i, h.outside (by intro slot out'' todo heq; cases heq)⟩
      next => cases hstep
  | readByte j =>
      simp only [tbufStep] at hstep
      split at hstep
      next slot out' todo hr =>
        split at hstep
        · obtain ⟨rfl, rfl⟩ := Prod.mk.inj (Option.some.inj hstep)
          rw [List.append_nil]
          exact ⟨f, sh, d, i, h.readByte hr j⟩
        · cases hstep
      next => cases hstep
  | finish =>
      simp only [tbufStep] at hstep
      split at hstep
      next slot out' hr =>
        obtain ⟨rfl, rfl⟩ := Prod.mk.inj (Option.some.inj hstep)
        exact ⟨f, sh, d, i, h.finish hr⟩
      next => cases hstep

private theorem consistent_init (init : Frame n Byte) : Consistent init [] (tbufInit init) := by
  refine ⟨0, 0, false, 0, ?_, rfl, rfl, ?_, ?_, forward_nil _ 0⟩
  · show (0 : UInt8) = packed 0 0 false
    decide
  · intro v front back todo h
    cases h
  · intro slot out todo h
    cases h

private theorem Consistent.isolated {init : Frame n Byte} {events : List (Event (Frame n Byte))}
    {b : Tbuf n Byte} (h : Consistent init events b) : Isolated b := by
  obtain ⟨f, sh, d, i, h⟩ := h
  intro v front back todo slot out todo' hw hr heq
  obtain ⟨-, -, k, rfl, hkf, -⟩ := h.writer v front back todo hw
  obtain ⟨rfl, -⟩ := h.reader slot out todo' hr
  exact hkf (slotByte_injective heq)

/-- In every run in which no compare-exchange of a read succeeds between the load and the store of a
write, the producer keeps off the slot that is read, and the reads give whole frames, never one older
than the frame read before. -/
theorem tbuf_isolates (init : Frame n Byte) (ops : List (TbufOp n Byte))
    (events : List (Event (Frame n Byte))) (b : Tbuf n Byte)
    (hguard : GuardedRun tbufStep ExchangesApart ops (tbufInit init))
    (hrun : runOps tbufStep ops (tbufInit init) = some (events, b)) :
    Isolated b ∧ (∀ r ∈ reads events, r ∈ init :: writes events) ∧
      ∃ last, Forward (init :: writes events) (reads events) last := by
  have h : Consistent init events b := guardedRun_invariant (P := Consistent init)
    (consistent_step init) ops [] _ b events (consistent_init init) hguard hrun
  refine ⟨h.isolated, ?_⟩
  obtain ⟨f, sh, d, i, h⟩ := h
  exact ⟨h.history.mem, i, h.history⟩

section Runs

private def filled (k : Nat) : Frame 3 Nat := fun _ => k

/-- A write, and a read of it during which a second write is published and a third one begins. -/
private def laggingRead : List (TbufOp 3 Nat) :=
  [.write (filled 1), .writeByte 0, .writeByte 1, .writeByte 2, .publish,
    .read (filled 0), .load, .exchange true, .readByte 0,
    .write (filled 2), .writeByte 1, .readByte 2, .writeByte 0, .writeByte 2, .publish,
    .write (filled 3), .writeByte 0, .readByte 1, .finish]

theorem lagging_read_isolated :
    ∃ events b, runOps tbufStep laggingRead (tbufInit (filled 0)) = some (events, b) ∧
      (reads events).length = 1 ∧ Isolated b ∧
      (∀ r ∈ reads events, r ∈ filled 0 :: writes events) ∧
      ∃ last, Forward (filled 0 :: writes events) (reads events) last := by
  refine ⟨_, _, rfl, rfl, ?_⟩
  refine tbuf_isolates (filled 0) laggingRead _ _ ?_ rfl
  iterate 7
    refine guardedRun_cons (fun h => ?_) rfl ?_
    · cases h
  refine guardedRun_cons (fun _ => rfl) rfl ?_
  iterate 11
    refine guardedRun_cons (fun h => ?_) rfl ?_
    · cases h
  trivial

/-- The frames that are passed to `tbuf_write`. -/
def passed (ops : List (TbufOp n Byte)) : List (Frame n Byte) :=
  ops.filterMap fun
    | .write v => some v
    | _ => none

/-- The second write has loaded the state when the read takes the first frame; its store puts the
old front back, and the third write copies into the slot that is read. -/
private def staleFront : List (TbufOp 3 Nat) :=
  [.write (filled 1), .writeByte 0, .writeByte 1, .writeByte 2, .publish,
    .write (filled 2), .writeByte 0, .writeByte 1, .writeByte 2,
    .read (filled 0), .load, .exchange true, .readByte 0,
    .publish,
    .write (filled 3), .writeByte 0, .writeByte 1, .writeByte 2,
    .readByte 1, .readByte 2, .finish]

/-- The producer writes into the slot that is read, and the frame read is none that was passed. -/
theorem stale_front_mixes_frames :
    ¬ ∀ ops events (b : Tbuf 3 Nat), runOps tbufStep ops (tbufInit (filled 0)) = some (events, b) →
      Isolated b ∧ ∀ r ∈ reads events, r ∈ filled 0 :: passed ops := by
  intro h
  have hmix := (h staleFront _ _ rfl).2 _ (List.mem_singleton.mpr rfl)
  have hbytes : ∀ r ∈ filled 0 :: passed staleFront, r 0 = r 1 := by
    intro r hr
    simp only [staleFront, passed, List.filterMap, List.mem_cons, List.not_mem_nil, or_false] at hr
    rcases hr with rfl | rfl | rfl | rfl <;> rfl
  exact absurd (hbytes _ hmix) (by decide)

end Runs

end CZet.Stdlib.TripleBuffer
