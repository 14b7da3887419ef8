/- source: stdlib/utils/ipc.h (ipc_send_all, ipc_recv_all), stdlib/utils/server.h
     (tcp_send_all, tcp_recv_all)
   digest: The loops that send and receive exactly so many bytes, two programs that call them at the
     two ends of one connection, and the exchange of bytes that these perform. -/

import CZet.Lib.Exchange

set_option autoImplicit false
set_option relaxedAutoImplicit false

namespace CZet.Stdlib.Sockets

open CZet.Lib

variable {Byte σ : Type}

/-- The error numbers that the loops read or set by name, and the others. -/
inductive Errno
  | eintr
  | epipe
  | econnreset
  | other (code : Nat)
deriving DecidableEq

/-- What a system call returns: a count, or -1 and `errno`. -/
inductive SysResult
  | count (n : Nat)
  | failed (errno : Errno)
deriving DecidableEq

/-- How a round of a loop ends: with the state of the next round, or with `return -1`. -/
inductive Round (σ : Type)
  | again (s : σ)
  | failed (errno : Errno)

/-- The body of the loop of `ipc_send_all` and `tcp_send_all`: `p` are the `len` bytes left, `w` is
what `send` returns. -/
def sendAllRound (p : List Byte) (w : SysResult) : Round (List Byte) :=
  match w with
  | .failed errno => if errno = .eintr then .again p else .failed errno
  | .count w => if w = 0 then .failed .epipe else .again (p.drop w)

/-- The bytes in the buffer before `p`, and how many are missing. -/
structure RecvBuffer (Byte : Type) where
  filled : List Byte
  len : Nat

/-- The body of the loop of `ipc_recv_all` and `tcp_recv_all`: `r` is what `recv` returns, and
`bytes` are those that it puts at `p`. -/
def recvAllRound (b : RecvBuffer Byte) (r : SysResult) (bytes : List Byte) :
    Round (RecvBuffer Byte) :=
  match r with
  | .failed errno => if errno = .eintr then .again b else .failed errno
  | .count r => if r = 0 then .failed .econnreset else .again ⟨b.filled ++ bytes, b.len - r⟩

def ipcSendAll (p : List Byte) (w : SysResult) : Round (List Byte) := sendAllRound p w

def tcpSendAll (p : List Byte) (w : SysResult) : Round (List Byte) := sendAllRound p w

def ipcRecvAll (b : RecvBuffer Byte) (r : SysResult) (bytes : List Byte) :
    Round (RecvBuffer Byte) :=
  recvAllRound b r bytes

def tcpRecvAll (b : RecvBuffer Byte) (r : SysResult) (bytes : List Byte) :
    Round (RecvBuffer Byte) :=
  recvAllRound b r bytes

/-- Which of the two headers a program uses. -/
inductive Transport
  | ipc
  | tcp

def Transport.sendAll : Transport → List Byte → SysResult → Round (List Byte)
  | .ipc => ipcSendAll
  | .tcp => tcpSendAll

def Transport.recvAll : Transport → RecvBuffer Byte → SysResult → List Byte →
    Round (RecvBuffer Byte)
  | .ipc => ipcRecvAll
  | .tcp => tcpRecvAll

section Connection

inductive Call (Byte : Type)
  | sendAll (buf : List Byte)
  | recvAll (len : Nat)

/-- A call between two rounds of its loop. -/
inductive Loop (Byte : Type)
  | sending (p : List Byte)
  | receiving (b : RecvBuffer Byte)

/-- One of the two programs: the calls that it has still to make, the one it is in, the buffers of
the receive calls that have returned 0, and `errno` once a call has returned -1; it makes no calls
after that one. -/
structure Party (Byte : Type) where
  calls : List (Call Byte)
  loop : Option (Loop Byte)
  received : List (List Byte)
  errno : Option Errno

/-- `pipe s` are the bytes that the system has accepted from `s` and not delivered yet. -/
structure Link (Byte : Type) where
  party : Bool → Party Byte
  pipe : Bool → List Byte

inductive Event
  | call
  | sent (w : SysResult)
  | received (r : SysResult)
  | returned

def Call.enter : Call Byte → Loop Byte
  | .sendAll buf => .sending buf
  | .recvAll len => .receiving ⟨[], len⟩

def Party.after (p : Party Byte) (wrap : σ → Loop Byte) : Round σ → Party Byte
  | .again s => { p with loop := some (wrap s) }
  | .failed errno => { p with errno := some errno }

def Link.withParty (link : Link Byte) (s : Bool) (p : Party Byte) : Link Byte :=
  { link with party := Function.update link.party s p }

def Link.call (link : Link Byte) (s : Bool) (p : Party Byte) : Option (Link Byte) :=
  match p.loop, p.calls with
  | none, c :: calls => some (link.withParty s { p with calls := calls, loop := some c.enter })
  | _, _ => none

/-- The count that a system call returns. -/
def SysResult.moved : SysResult → Nat
  | .count n => n
  | .failed _ => 0

/-- `send` with all that is left: any part of it is accepted, in order, if there is room. -/
def Link.sent (t : Transport) (cap : Nat) (link : Link Byte) (s : Bool) (p : Party Byte)
    (w : SysResult) : Option (Link Byte) :=
  match p.loop with
  | some (.sending q) =>
      if 0 < q.length ∧ w.moved ≤ q.length ∧ (link.pipe s).length + w.moved ≤ cap then
        some { link.withParty s (p.after .sending (t.sendAll q w)) with
          pipe := Function.update link.pipe s (link.pipe s ++ q.take w.moved) }
      else none
  | _ => none

/-- `recv` for all that is missing: any part of what is under way is delivered, in order. -/
def Link.received (t : Transport) (link : Link Byte) (s : Bool) (p : Party Byte) (r : SysResult) :
    Option (Link Byte) :=
  match p.loop with
  | some (.receiving b) =>
      if 0 < b.len ∧ r.moved ≤ b.len ∧ r.moved ≤ (link.pipe (!s)).length then
        let bytes := (link.pipe (!s)).take r.moved
        some { link.withParty s (p.after .receiving (t.recvAll b r bytes)) with
          pipe := Function.update link.pipe (!s) ((link.pipe (!s)).drop r.moved) }
      else none
  | _ => none

/-- The test of the loop fails and the call returns 0. -/
def Link.returned (link : Link Byte) (s : Bool) (p : Party Byte) : Option (Link Byte) :=
  match p.loop with
  | some (.sending []) => some (link.withParty s { p with loop := none })
  | some (.receiving ⟨filled, 0⟩) =>
      some (link.withParty s { p with loop := none, received := p.received ++ [filled] })
  | _ => none

/-- The program at the end `s` does one thing; a system call of it may be interrupted, fail or return
0 at any time. -/
def Link.step (t : Transport) (cap : Nat) (s : Bool) (e : Event) (link : Link Byte) :
    Option (Link Byte) :=
  if (link.party s).errno = none then
    match e with
    | .call => link.call s (link.party s)
    | .sent w => link.sent t cap s (link.party s) w
    | .received r => link.received t s (link.party s) r
    | .returned => link.returned s (link.party s)
  else none

/-- The connection behind the events; `none` when one of them cannot happen. -/
def Link.run (t : Transport) (cap : Nat) : List (Bool × Event) → Link Byte → Option (Link Byte)
  | [], link => some link
  | (s, e) :: events, link => (link.step t cap s e).bind (run t cap events)

/-- A new connection between programs that will make the given calls. -/
def Link.start (calls : Bool → List (Call Byte)) : Link Byte where
  party s := ⟨calls s, none, [], none⟩
  pipe _ := []

end Connection

section Steps

variable {t : Transport} {cap : Nat} {s : Bool} {e : Event} {link link' : Link Byte}

/-- The system call came back with `EINTR`. -/
def Event.interrupted : Event → Bool
  | .sent w => decide (w = .failed .eintr)
  | .received r => decide (r = .failed .eintr)
  | _ => false

/-- What an event does to the program at the end `s` and to the bytes under way. -/
inductive Effect (cap : Nat) (link : Link Byte) (s : Bool) (e : Event) :
    Party Byte → (Bool → List Byte) → Prop
  | entered {c : Call Byte} {calls : List (Call Byte)} (hloop : (link.party s).loop = none)
      (hcalls : (link.party s).calls = c :: calls) :
      Effect cap link s e { link.party s with calls := calls, loop := some c.enter } link.pipe
  | interrupted (he : e.interrupted = true) : Effect cap link s e (link.party s) link.pipe
  | failed (errno : Errno) (he : e.interrupted = false) :
      Effect cap link s e { link.party s with errno := some errno } link.pipe
  | sent {q : List Byte} (w : Nat) (hloop : (link.party s).loop = some (.sending q)) (hw : 0 < w)
      (hle : w ≤ q.length) (hroom : (link.pipe s).length + w ≤ cap) :
      Effect cap link s e { link.party s with loop := some (.sending (q.drop w)) }
        (Function.update link.pipe s (link.pipe s ++ q.take w))
  | received {b : RecvBuffer Byte} (r : Nat) (hloop : (link.party s).loop = some (.receiving b))
      (hr : 0 < r) (hle : r ≤ b.len) (hthere : r ≤ (link.pipe (!s)).length) :
      Effect cap link s e { link.party s with
          loop := some (.receiving ⟨b.filled ++ (link.pipe (!s)).take r, b.len - r⟩) }
        (Function.update link.pipe (!s) ((link.pipe (!s)).drop r))
  | sendReturned (hloop : (link.party s).loop = some (.sending [])) :
      Effect cap link s e { link.party s with loop := none } link.pipe
  | recvReturned {filled : List Byte} (hloop : (link.party s).loop = some (.receiving ⟨filled, 0⟩)) :
      Effect cap link s e { link.party s with
          loop := none, received := (link.party s).received ++ [filled] } link.pipe

theorem sendAll_cases (t : Transport) (p : List Byte) (w : SysResult) :
    (w = .failed .eintr ∧ t.sendAll p w = .again p) ∨
    (w ≠ .failed .eintr ∧ w.moved = 0 ∧ ∃ errno, t.sendAll p w = .failed errno) ∨
    (0 < w.moved ∧ t.sendAll p w = .again (p.drop w.moved)) := by
  have hround : t.sendAll p w = sendAllRound p w := by cases t <;> rfl
  rw [hround]
  cases w with
  | failed errno =>
      by_cases h : errno = .eintr
      · left
        simp [sendAllRound, h]
      · right; left
        simp [sendAllRound, h, SysResult.moved]
  | count w =>
      right
      by_cases h : w = 0
      · left
        simp [sendAllRound, h, SysResult.moved]
      · right
        simp [sendAllRound, h, SysResult.moved, Nat.pos_of_ne_zero h]

theorem recvAll_cases (t : Transport) (b : RecvBuffer Byte) (r : SysResult) (bytes : List Byte) :
    (r = .failed .eintr ∧ t.recvAll b r bytes = .again b) ∨
    (r ≠ .failed .eintr ∧ r.moved = 0 ∧ ∃ errno, t.recvAll b r bytes = .failed errno) ∨
    (0 < r.moved ∧ t.recvAll b r bytes = .again ⟨b.filled ++ bytes, b.len - r.moved⟩) := by
  have hround : t.recvAll b r bytes = recvAllRound b r bytes := by cases t <;> rfl
  rw [hround]
  cases r with
  | failed errno =>
      by_cases h : errno = .eintr
      · left
        simp [recvAllRound, h]
      · right; left
        simp [recvAllRound, h, SysResult.moved]
  | count r =>
      right
      by_cases h : r = 0
      · left
        simp [recvAllRound, h, SysResult.moved]
      · right
        simp [recvAllRound, h, SysResult.moved, Nat.pos_of_ne_zero h]

theorem Party.with_loop {p : Party Byte} {l : Loop Byte} (h : p.loop = some l) :
    { p with loop := some l } = p := by
  obtain ⟨calls, loop, received, errno⟩ := p
  cases h
  rfl

theorem Link.step_effect (h : link.step t cap s e = some link') :
    (link.party s).errno = none ∧ ∃ p pipe, Effect cap link s e p pipe ∧
      link' = { link.withParty s p with pipe := pipe } := by
  unfold Link.step at h
  split at h
  · rename_i hrunning
    refine ⟨hrunning, ?_⟩
    cases e with
    | call =>
        simp only [Link.call] at h
        split at h
        · rename_i hloop hcalls
          cases h
          exact ⟨_, _, .entered hloop hcalls, rfl⟩
        · cases h
    | sent w =>
        simp only [Link.sent] at h
        split at h
        · rename_i q hloop
          split at h
          · rename_i hguard
            obtain ⟨hpos, hle, hroom⟩ := hguard
            cases h
            obtain ⟨rfl, hround⟩ | ⟨hw, hmoved, errno, hround⟩ | ⟨hw, hround⟩ :=
              sendAll_cases t q w
            · refine ⟨_, _, .interrupted rfl, ?_⟩
              simp [hround, Party.after, Party.with_loop hloop, SysResult.moved]
            · refine ⟨_, _, .failed errno (by simp [Event.interrupted, hw]), ?_⟩
              simp [hround, Party.after, hmoved]
            · refine ⟨_, _, .sent w.moved hloop hw hle hroom, ?_⟩
              rw [hround, Party.after]
          · cases h
        · cases h
    | received r =>
        simp only [Link.received] at h
        split at h
        · rename_i b hloop
          split at h
          · rename_i hguard
            obtain ⟨hpos, hle, hthere⟩ := hguard
            cases h
            obtain ⟨rfl, hround⟩ | ⟨hr, hmoved, errno, hround⟩ | ⟨hr, hround⟩ :=
              recvAll_cases t b r ((link.pipe (!s)).take r.moved)
            · refine ⟨_, _, .interrupted rfl, ?_⟩
              rw [hround]
              simp [Party.after, Party.with_loop hloop, SysResult.moved]
            · refine ⟨_, _, .failed errno (by simp [Event.interrupted, hr]), ?_⟩
              rw [hround]
              simp [Party.after, hmoved]
            · refine ⟨_, _, .received r.moved hloop hr hle hthere, ?_⟩
              rw [hround, Party.after]
          · cases h
        · cases h
    | returned =>
        simp only [Link.returned] at h
        split at h
        · rename_i hloop
          cases h
          exact ⟨_, _, .sendReturned hloop, rfl⟩
        · rename_i filled hloop
          cases h
          exact ⟨_, _, .recvReturned hloop, rfl⟩
        · cases h
  · cases h

end Steps

section Abstraction

def Call.act : Call Byte → Exchange.Act Byte
  | .sendAll buf => .put buf
  | .recvAll len => .take len

def Loop.act : Loop Byte → Exchange.Act Byte
  | .sending p => .put p
  | .receiving b => .take b.len

def Loop.filled : Loop Byte → List Byte
  | .sending _ => []
  | .receiving b => b.filled

def Party.acts (p : Party Byte) : List (Exchange.Act Byte) :=
  p.loop.toList.map Loop.act ++ p.calls.map Call.act

/-- All the bytes that have come in, those in an unfinished buffer included. -/
def Party.got (p : Party Byte) : List Byte :=
  p.received.flatten ++ p.loop.toList.flatMap Loop.filled

def Link.abs (link : Link Byte) : Exchange.State Byte where
  todo s := (link.party s).acts
  pipe := link.pipe
  taken s := (link.party s).got

theorem Call.enter_act (c : Call Byte) : c.enter.act = c.act := by
  cases c <;> rfl

theorem Call.enter_filled (c : Call Byte) : c.enter.filled = [] := by
  cases c <;> rfl

theorem Link.abs_withParty (link : Link Byte) (s : Bool) (p : Party Byte)
    (pipe : Bool → List Byte) :
    Link.abs { link.withParty s p with pipe := pipe } =
      { todo := Function.update link.abs.todo s p.acts
        pipe := pipe
        taken := Function.update link.abs.taken s p.got } := by
  have hacts := Function.comp_update Party.acts link.party s p
  have hgot := Function.comp_update Party.got link.party s p
  exact congrArg₂ (fun todo taken => Exchange.State.mk todo pipe taken) hacts hgot

theorem Link.abs_withParty_of {link : Link Byte} {s : Bool} {p : Party Byte}
    {acts : List (Exchange.Act Byte)} (pipe : Bool → List Byte) (hacts : p.acts = acts)
    (hgot : p.got = (link.party s).got) :
    Link.abs { link.withParty s p with pipe := pipe } =
      { link.abs with todo := Function.update link.abs.todo s acts, pipe := pipe } := by
  rw [Link.abs_withParty, hacts, hgot]
  have htaken : Function.update link.abs.taken s (link.party s).got = link.abs.taken :=
    Function.update_eq_self s link.abs.taken
  rw [htaken]

theorem Link.abs_withParty_same {link : Link Byte} {s : Bool} {p : Party Byte}
    (hacts : p.acts = (link.party s).acts) (hgot : p.got = (link.party s).got) :
    Link.abs { link.withParty s p with pipe := link.pipe } = link.abs := by
  rw [Link.abs_withParty_of link.pipe hacts hgot]
  have htodo : Function.update link.abs.todo s (link.party s).acts = link.abs.todo :=
    Function.update_eq_self s link.abs.todo
  rw [htodo]
  rfl

/-- Every effect is a step of the abstract exchange, or is not seen there. -/
theorem Effect.simulates {cap : Nat} {link : Link Byte} {s : Bool} {e : Event} {p : Party Byte}
    {pipe : Bool → List Byte} (h : Effect cap link s e p pipe) :
    Link.abs { link.withParty s p with pipe := pipe } = link.abs ∨
      Exchange.Move cap s link.abs (Link.abs { link.withParty s p with pipe := pipe }) := by
  cases h with
  | @entered c calls hloop hcalls =>
      left
      apply Link.abs_withParty_same
      · simp [Party.acts, hloop, hcalls, Call.enter_act]
      · simp [Party.got, hloop, Call.enter_filled]
  | interrupted he => exact .inl (Link.abs_withParty_same rfl rfl)
  | failed errno he => exact .inl (Link.abs_withParty_same rfl rfl)
  | @sent q w hloop hw hle hroom =>
      right
      have htodo : link.abs.todo s = .put q :: (link.party s).calls.map Call.act := by
        simp [Link.abs, Party.acts, hloop, Loop.act]
      rw [Link.abs_withParty_of _ rfl (by simp [Party.got, hloop, Loop.filled])]
      exact .put w htodo hw hle hroom
  | @received b r hloop hr hle hthere =>
      right
      have htodo : link.abs.todo s = .take b.len :: (link.party s).calls.map Call.act := by
        simp [Link.abs, Party.acts, hloop, Loop.act]
      have hgot : Party.got { link.party s with
            loop := some (.receiving ⟨b.filled ++ (link.pipe (!s)).take r, b.len - r⟩) } =
          link.abs.taken s ++ (link.abs.pipe (!s)).take r := by
        simp [Link.abs, Party.got, hloop, Loop.filled]
      rw [Link.abs_withParty, hgot]
      exact .take r htodo hr hle hthere
  | sendReturned hloop =>
      right
      have htodo : link.abs.todo s = .put [] :: (link.party s).calls.map Call.act := by
        simp [Link.abs, Party.acts, hloop, Loop.act]
      rw [Link.abs_withParty_of _ rfl (by simp [Party.got, hloop, Loop.filled])]
      exact .next htodo rfl rfl
  | @recvReturned filled hloop =>
      right
      have htodo : link.abs.todo s = .take 0 :: (link.party s).calls.map Call.act := by
        simp [Link.abs, Party.acts, hloop, Loop.act]
      rw [Link.abs_withParty_of _ rfl (by simp [Party.got, hloop, Loop.filled])]
      exact .next htodo rfl rfl

end Abstraction

end CZet.Stdlib.Sockets
