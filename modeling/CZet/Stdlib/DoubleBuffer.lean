/- source: stdlib/utils/double_buffering.h
   digest: The double buffer with one producer and one consumer, whose copies run concurrently. -/

import CZet.Lib.FrameCopy
import CZet.Lib.OpRun

set_option autoImplicit false
set_option relaxedAutoImplicit false

namespace CZet.Stdlib.DoubleBuffer

open CZet.Lib.FrameCopy CZet.Lib.OpRun

variable {n : Nat} {Byte : Type}

/-- Where `dbuf_write` is: `front` is what it has loaded, `todo` what its `memcpy` still has to
copy. -/
inductive Writer (n : Nat) (Byte : Type)
  | idle
  | copying (v : Frame n Byte) (front : UInt8) (todo : List (Fin n))

/-- Where `dbuf_read` is. -/
inductive Reader (n : Nat) (Byte : Type)
  | idle
  | copying (slot : UInt8) (out : Frame n Byte) (todo : List (Fin n))

/-- A `struct dbuf` with the two threads that use it. -/
structure Dbuf (n : Nat) (Byte : Type) where
  slots : UInt8 → Frame n Byte
  front : UInt8
  writer : Writer n Byte
  reader : Reader n Byte

/-- The accesses to the buffer: a call of `dbuf_write` with its load, the bytes of its copy and its
store; a call of `dbuf_read` with its load, the bytes of its copy and its return. -/
inductive DbufOp (n : Nat) (Byte : Type)
  | write (v : Frame n Byte)
  | writeByte (i : Fin n)
  | publish
  | read (out : Frame n Byte)
  | readByte (i : Fin n)
  | finish

def dbufInit (init : Frame n Byte) : Dbuf n Byte :=
  { slots := fun _ => init, front := 0, writer := .idle, reader := .idle }

def dbufStep : DbufOp n Byte → Dbuf n Byte → Option (List (Event (Frame n Byte)) × Dbuf n Byte)
  | .write v, b =>
      match b.writer with
      | .idle => some ([], { b with writer := .copying v b.front (List.finRange n) })
      | .copying .. => none
  | .writeByte i, b =>
      match b.writer with
      | .copying v front todo =>
          if i ∈ todo then
            let slot := front ^^^ 1
            some ([], { b with
              slots := Function.update b.slots slot (copyByte v (b.slots slot) i)
              writer := .copying v front (remaining todo i) })
          else none
      | .idle => none
  | .publish, b =>
      match b.writer with
      | .copying v front [] =>
          some ([.write v], { b with front := front ^^^ 1, writer := .idle })
      | _ => none
  | .read out, b =>
      match b.reader with
      | .idle => some ([], { b with reader := .copying b.front out (List.finRange n) })
      | .copying .. => none
  | .readByte i, b =>
      match b.reader with
      | .copying slot out todo =>
          if i ∈ todo then
            some ([], { b with
              reader := .copying slot (copyByte (b.slots slot) out i) (remaining todo i) })
          else none
      | .idle => none
  | .finish, b =>
      match b.reader with
      | .copying _ out [] => some ([.read out], { b with reader := .idle })
      | _ => none

/-- A write begins only when the read that is going on, if there is one, copies the frame published
last. -/
def NotOverrun (op : DbufOp n Byte) (b : Dbuf n Byte) : Prop :=
  ∀ v, op = .write v → ∀ slot out todo, b.reader = .copying slot out todo → slot = b.front

private structure Whole (init : Frame n Byte) (events : List (Event (Frame n Byte)))
    (b : Dbuf n Byte) : Prop where
  front : b.front = 0 ∨ b.front = 1
  current : b.slots b.front ∈ init :: writes events
  writer : ∀ v front todo, b.writer = .copying v front todo →
    front = b.front ∧ Copied todo v (b.slots (front ^^^ 1))
  reader : ∀ slot out todo, b.reader = .copying slot out todo →
    b.slots slot ∈ init :: writes events ∧ Copied todo (b.slots slot) out ∧
      (slot = b.front ∨ slot = b.front ^^^ 1 ∧ b.writer = .idle)
  reads : ∀ r ∈ reads events, r ∈ init :: writes events

private theorem other_ne {front : UInt8} (h : front = 0 ∨ front = 1) : front ≠ front ^^^ 1 := by
  rcases h with rfl | rfl <;> decide

private theorem other_other {front : UInt8} (h : front = 0 ∨ front = 1) :
    front = (front ^^^ 1) ^^^ 1 := by
  rcases h with rfl | rfl <;> decide

private theorem whole_write {init : Frame n Byte} {events : List (Event (Frame n Byte))}
    {b : Dbuf n Byte} (h : Whole init events b) (v : Frame n Byte)
    (hguard : NotOverrun (.write v) b) :
    Whole init events { b with writer := .copying v b.front (List.finRange n) } where
  front := h.front
  current := h.current
  writer := by
    intro v' front todo heq
    obtain ⟨rfl, rfl, rfl⟩ := Writer.copying.inj heq
    exact ⟨rfl, copied_start _ _⟩
  reader := by
    intro slot out todo hr
    obtain ⟨hslot, hcopied, -⟩ := h.reader slot out todo hr
    exact ⟨hslot, hcopied, Or.inl (hguard v rfl slot out todo hr)⟩
  reads := h.reads

private theorem whole_writeByte {init : Frame n Byte} {events : List (Event (Frame n Byte))}
    {b : Dbuf n Byte} (h : Whole init events b) {v : Frame n Byte} {front : UInt8}
    {todo : List (Fin n)} (hw : b.writer = .copying v front todo) (i : Fin n) :
    Whole init events { b with
      slots := Function.update b.slots (front ^^^ 1) (copyByte v (b.slots (front ^^^ 1)) i)
      writer := .copying v front (remaining todo i) } := by
  obtain ⟨rfl, hcopied⟩ := h.writer v front todo hw
  -- the slot that is written is not the one a reader copies
  have hreader : ∀ slot out todo', b.reader = .copying slot out todo' → slot = b.front := by
    intro slot out todo' hr
    obtain ⟨-, -, hslot | ⟨-, hidle⟩⟩ := h.reader slot out todo' hr
    · exact hslot
    · rw [hw] at hidle
      cases hidle
  have hsame : Function.update b.slots (b.front ^^^ 1)
      (copyByte v (b.slots (b.front ^^^ 1)) i) b.front = b.slots b.front :=
    Function.update_of_ne (other_ne h.front) _ _
  refine ⟨h.front, ?_, ?_, ?_, h.reads⟩
  · dsimp only
    rw [hsame]
    exact h.current
  · intro v' front todo' heq
    obtain ⟨rfl, rfl, rfl⟩ := Writer.copying.inj heq
    refine ⟨rfl, ?_⟩
    dsimp only
    rw [Function.update_self]
    exact copied_step hcopied i
  · intro slot out todo' hr
    obtain rfl := hreader slot out todo' hr
    obtain ⟨hslot, hout, -⟩ := h.reader _ out todo' hr
    dsimp only
    rw [hsame]
    exact ⟨hslot, hout, Or.inl rfl⟩

private theorem whole_publish {init : Frame n Byte} {events : List (Event (Frame n Byte))}
    {b : Dbuf n Byte} (h : Whole init events b) {v : Frame n Byte} {front : UInt8}
    (hw : b.writer = .copying v front []) :
    Whole init (events ++ [.write v]) { b with front := front ^^^ 1, writer := .idle } := by
  obtain ⟨rfl, hcopied⟩ := h.writer v front [] hw
  have hgrow : ∀ r ∈ init :: writes events, r ∈ init :: writes (events ++ [.write v]) := by
    intro r hr
    rw [writes_append, ← List.cons_append]
    exact List.mem_append_left _ hr
  have hnew : b.slots (b.front ^^^ 1) = v := copied_all hcopied
  refine ⟨?_, ?_, ?_, ?_, ?_⟩
  · show b.front ^^^ 1 = 0 ∨ b.front ^^^ 1 = 1
    rcases h.front with hfront | hfront
    · rw [hfront]
      exact Or.inr (by decide)
    · rw [hfront]
      exact Or.inl (by decide)
  · show b.slots (b.front ^^^ 1) ∈ _
    rw [hnew, writes_append]
    simp
  · intro v' front todo heq
    cases heq
  · intro slot out todo hr
    obtain ⟨hslot, hout, hwhere⟩ := h.reader slot out todo hr
    refine ⟨hgrow _ hslot, hout, ?_⟩
    rcases hwhere with rfl | ⟨-, hidle⟩
    · exact Or.inr ⟨other_other h.front, rfl⟩
    · rw [hw] at hidle
      cases hidle
  · intro r hr
    rw [reads_append, reads_write, List.append_nil] at hr
    exact hgrow r (h.reads r hr)

private theorem whole_readByte {init : Frame n Byte} {events : List (Event (Frame n Byte))}
    {b : Dbuf n Byte} (h : Whole init events b) {slot : UInt8} {out : Frame n Byte}
    {todo : List (Fin n)} (hr : b.reader = .copying slot out todo) (i : Fin n) :
    Whole init events { b with
      reader := .copying slot (copyByte (b.slots slot) out i) (remaining todo i) } where
  front := h.front
  current := h.current
  writer := h.writer
  reader := by
    intro slot' out' todo' heq
    obtain ⟨rfl, rfl, rfl⟩ := Reader.copying.inj heq
    obtain ⟨hslot, hout, hwhere⟩ := h.reader slot out todo hr
    exact ⟨hslot, copied_step hout i, hwhere⟩
  reads := h.reads

private theorem whole_finish {init : Frame n Byte} {events : List (Event (Frame n Byte))}
    {b : Dbuf n Byte} (h : Whole init events b) {slot : UInt8} {out : Frame n Byte}
    (hr : b.reader = .copying slot out []) :
    Whole init (events ++ [.read out]) { b with reader := .idle } := by
  obtain ⟨hslot, hout, -⟩ := h.reader slot out [] hr
  have hwrites : writes (events ++ [.read out]) = writes events := by simp
  refine ⟨h.front, ?_, h.writer, ?_, ?_⟩
  · rw [hwrites]
    exact h.current
  · intro slot' out' todo' heq
    cases heq
  · intro r hmem
    rw [hwrites]
    rw [reads_append, reads_read] at hmem
    rcases List.mem_append.mp hmem with hmem | hmem
    · exact h.reads r hmem
    · rw [List.mem_singleton.mp hmem, copied_all hout]
      exact hslot

private theorem whole_step (init : Frame n Byte) (events : List (Event (Frame n Byte)))
    (op : DbufOp n Byte) (b : Dbuf n Byte) (out : List (Event (Frame n Byte))) (b' : Dbuf n Byte)
    (h : Whole init events b) (hguard : NotOverrun op b) (hstep : dbufStep op b = some (out, b')) :
    Whole init (events ++ out) b' := by
  cases op with
  | write v =>
      simp only [dbufStep] at hstep
      split at hstep
      · obtain ⟨rfl, rfl⟩ := Prod.mk.inj (Option.some.inj hstep)
        rw [List.append_nil]
        exact whole_write h v hguard
      · cases hstep
  | writeByte i =>
      simp only [dbufStep] at hstep
      split at hstep
      next v front todo hw =>
        split at hstep
        · obtain ⟨rfl, rfl⟩ := Prod.mk.inj (Option.some.inj hstep)
          rw [List.append_nil]
          exact whole_writeByte h hw i
        · cases hstep
      next => cases hstep
  | publish =>
      simp only [dbufStep] at hstep
      split at hstep
      next v front hw =>
        obtain ⟨rfl, rfl⟩ := Prod.mk.inj (Option.some.inj hstep)
        exact whole_publish h hw
      next => cases hstep
  | read out₀ =>
      simp only [dbufStep] at hstep
      split at hstep
      · obtain ⟨rfl, rfl⟩ := Prod.mk.inj (Option.some.inj hstep)
        rw [List.append_nil]
        refine ⟨h.front, h.current, h.writer, ?_, h.reads⟩
        intro slot out' todo heq
        obtain ⟨rfl, rfl, rfl⟩ := Reader.copying.inj heq
        exact ⟨h.current, copied_start _ _, Or.inl rfl⟩
      · cases hstep
  | readByte i =>
      simp only [dbufStep] at hstep
      split at hstep
      next slot out' todo hr =>
        split at hstep
        · obtain ⟨rfl, rfl⟩ := Prod.mk.inj (Option.some.inj hstep)
          rw [List.append_nil]
          exact whole_readByte h hr i
        · cases hstep
      next => cases hstep
  | finish =>
      simp only [dbufStep] at hstep
      split at hstep
      next slot out' hr =>
        obtain ⟨rfl, rfl⟩ := Prod.mk.inj (Option.some.inj hstep)
        exact whole_finish h hr
      next => cases hstep

private theorem whole_init (init : Frame n Byte) : Whole init [] (dbufInit init) where
  front := Or.inl rfl
  current := List.mem_cons_self
  writer := by intro v front todo h; cases h
  reader := by intro slot out todo h; cases h
  reads := by intro r h; cases h

/-- Every read gives a frame as it was passed to `dbuf_init` or to a `dbuf_write`, in every run in
which no write begins while a read copies the frame in front of the one published last. -/
theorem dbuf_reads_whole_frames (init : Frame n Byte) (ops : List (DbufOp n Byte))
    (events : List (Event (Frame n Byte))) (b : Dbuf n Byte)
    (hguard : GuardedRun dbufStep NotOverrun ops (dbufInit init))
    (hrun : runOps dbufStep ops (dbufInit init) = some (events, b)) :
    ∀ r ∈ reads events, r ∈ init :: writes events := by
  have hwhole := guardedRun_invariant (P := Whole init) (whole_step init) ops [] _ b events
    (whole_init init) hguard hrun
  exact hwhole.reads

section Runs

private def zeros : Frame 2 Nat := fun _ => 0
private def ones : Frame 2 Nat := fun _ => 1
private def twos : Frame 2 Nat := fun _ => 2

/-- A read during which a write begins, copies its frame and publishes it. -/
private def quietRun : List (DbufOp 2 Nat) :=
  [.read twos, .write ones, .writeByte 1, .readByte 0, .writeByte 0, .publish, .readByte 1, .finish]

theorem quiet_read_whole :
    ∃ events b, runOps dbufStep quietRun (dbufInit zeros) = some (events, b) ∧
      (reads events).length = 1 ∧ ∀ r ∈ reads events, r ∈ zeros :: writes events := by
  refine ⟨_, _, rfl, rfl, ?_⟩
  refine dbuf_reads_whole_frames zeros quietRun _ _ ?_ rfl
  refine guardedRun_cons (fun v h => ?_) rfl ?_
  · cases h
  -- the read copies the slot that is the front one still
  refine guardedRun_cons (fun v _ slot out todo h => ?_) rfl ?_
  · cases h
    rfl
  iterate 6
    refine guardedRun_cons (fun v h => ?_) rfl ?_
    · cases h
  trivial

/-- The frames that are passed to `dbuf_write`. -/
def passed (ops : List (DbufOp n Byte)) : List (Frame n Byte) :=
  ops.filterMap fun
    | .write v => some v
    | _ => none

/-- A read that loads the front, two writes of which the second has copied one byte, and the copy of
the read. -/
private def overrun : List (DbufOp 2 Nat) :=
  [.read zeros, .write ones, .writeByte 0, .writeByte 1, .publish, .write twos, .writeByte 0,
    .readByte 0, .readByte 1, .finish]

/-- The second write during one read mixes two frames. -/
theorem overrun_mixes_frames :
    ¬ ∀ ops events (b : Dbuf 2 Nat), runOps dbufStep ops (dbufInit zeros) = some (events, b) →
      ∀ r ∈ reads events, r ∈ zeros :: passed ops := by
  intro h
  have hmix := h overrun _ _ rfl _ (List.mem_singleton.mpr rfl)
  have hbytes : ∀ r ∈ zeros :: passed overrun, r 0 = r 1 := by
    intro r hr
    simp only [overrun, passed, List.filterMap, List.mem_cons, List.not_mem_nil, or_false] at hr
    rcases hr with rfl | rfl | rfl <;> rfl
  exact absurd (hbytes _ hmix) (by decide)

end Runs

end CZet.Stdlib.DoubleBuffer
