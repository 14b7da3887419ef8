/- source: stdlib/utils/ipc.h (ipc_send_all, ipc_recv_all), stdlib/utils/server.h
     (tcp_send_all, tcp_recv_all)
   digest: Sessions of two programs over one connection: the buffers received are the buffers sent,
     and programs whose calls answer each other get through. -/

import CZet.Stdlib.Sockets

set_option autoImplicit false
set_option relaxedAutoImplicit false

namespace CZet.Stdlib.Sockets

open CZet.Lib

variable {Byte : Type}

section Sessions

/-- The buffers that the calls send, in order. -/
def sentBuffers : List (Call Byte) → List (List Byte)
  | [] => []
  | .sendAll buf :: calls => buf :: sentBuffers calls
  | .recvAll _ :: calls => sentBuffers calls

/-- The lengths for which the calls receive, in order. -/
def recvLengths : List (Call Byte) → List Nat
  | [] => []
  | .sendAll _ :: calls => recvLengths calls
  | .recvAll len :: calls => len :: recvLengths calls

def Call.answers : Call Byte → Call Byte → Prop
  | .sendAll buf, .recvAll len => buf.length = len
  | .recvAll len, .sendAll buf => buf.length = len
  | _, _ => False

/-- The two programs follow one script: where one sends, the other receives as many bytes. -/
def Session (calls : Bool → List (Call Byte)) : Prop :=
  List.Forall₂ Call.answers (calls true) (calls false)

variable {t : Transport} {cap : Nat} {calls : Bool → List (Call Byte)} {link link' : Link Byte}

theorem puts_map_act (cs : List (Call Byte)) :
    Exchange.puts (cs.map Call.act) = (sentBuffers cs).flatten := by
  induction cs with
  | nil => rfl
  | cons c cs ih =>
      rw [List.map_cons, Exchange.puts_cons, ih]
      cases c <;> rfl

theorem run_simulates {events : List (Bool × Event)} (h : link.run t cap events = some link') :
    Relation.ReflTransGen (Exchange.Step cap) link.abs link'.abs := by
  induction events generalizing link with
  | nil =>
      cases h
      exact .refl
  | cons e events ih =>
      obtain ⟨s, e⟩ := e
      obtain ⟨link₁, hstep, hrest⟩ := Option.bind_eq_some_iff.mp h
      obtain ⟨-, p, pipe, heffect, rfl⟩ := Link.step_effect hstep
      obtain hsame | hmove := heffect.simulates
      · rw [← hsame]
        exact ih hrest
      · exact (ih hrest).head ⟨s, hmove⟩

/-- The lengths of all receive calls: those that have returned, the one under way, those to come. -/
def Party.lengths (p : Party Byte) : List Nat :=
  p.received.map List.length ++ (p.loop.toList.flatMap fun
    | .sending _ => []
    | .receiving b => [b.filled.length + b.len]) ++ recvLengths p.calls

theorem Effect.lengths {s : Bool} {e : Event} {p : Party Byte} {pipe : Bool → List Byte}
    (h : Effect cap link s e p pipe) : p.lengths = (link.party s).lengths := by
  cases h with
  | @entered c calls hloop hcalls =>
      cases c with
      | sendAll buf => simp [Party.lengths, hloop, hcalls, Call.enter, recvLengths]
      | recvAll len => simp [Party.lengths, hloop, hcalls, Call.enter, recvLengths]
  | interrupted he => rfl
  | failed errno he => rfl
  | sent w hloop hw hle hroom => simp [Party.lengths, hloop]
  | @received b r hloop hr hle hthere =>
      have hlength : b.filled.length + r + (b.len - r) = b.filled.length + b.len := by omega
      simp [Party.lengths, hloop, Nat.min_eq_left hthere, hlength]
  | sendReturned hloop => simp [Party.lengths, hloop]
  | recvReturned hloop => simp [Party.lengths, hloop]

theorem run_lengths {events : List (Bool × Event)} (h : link.run t cap events = some link')
    (s : Bool) : (link'.party s).lengths = (link.party s).lengths := by
  induction events generalizing link with
  | nil =>
      cases h
      rfl
  | cons e events ih =>
      obtain ⟨s', e⟩ := e
      obtain ⟨link₁, hstep, hrest⟩ := Option.bind_eq_some_iff.mp h
      obtain ⟨-, p, pipe, heffect, rfl⟩ := Link.step_effect hstep
      rw [ih hrest]
      by_cases hside : s = s'
      · subst hside
        simp [Link.withParty, heffect.lengths]
      · simp [Link.withParty, Function.update_of_ne hside]

theorem start_abs (calls : Bool → List (Call Byte)) :
    (Link.start calls).abs =
      { todo := fun s => (calls s).map Call.act, pipe := fun _ => [], taken := fun _ => [] } := rfl

/-- What has come in at the end `s` is the beginning of what the other end sends. -/
theorem got_isPrefix {events : List (Bool × Event)}
    (h : (Link.start calls).run t cap events = some link) (s : Bool) :
    (link.party s).got <+: (sentBuffers (calls (!s))).flatten := by
  have hstream := Exchange.run_stream (run_simulates h) (!s)
  rw [start_abs] at hstream
  simp only [Exchange.State.stream, Bool.not_not, List.nil_append, puts_map_act] at hstream
  rw [← hstream]
  exact List.prefix_append _ _

theorem isPrefix_of_flatten {xs ys : List (List Byte)} (hflat : xs.flatten <+: ys.flatten)
    (hlengths : xs.map List.length <+: ys.map List.length) : xs <+: ys := by
  obtain ⟨more, hmore⟩ := hlengths
  have htake : (ys.take xs.length).map List.length = xs.map List.length := by
    rw [List.map_take, ← hmore]
    simp
  have hlen : (ys.take xs.length).flatten.length = xs.flatten.length := by
    rw [List.length_flatten, List.length_flatten, htake]
  have hsame : (ys.take xs.length).flatten = xs.flatten := by
    have hys : (ys.take xs.length).flatten <+: ys.flatten := by
      refine ⟨(ys.drop xs.length).flatten, ?_⟩
      rw [← List.flatten_append, List.take_append_drop]
    exact (List.prefix_of_prefix_length_le hys hflat hlen.le).eq_of_length hlen
  rw [← List.eq_iff_flatten_eq.mpr ⟨hsame, htake⟩]
  exact List.take_prefix _ _

/-- Three bytes one way and one byte back. -/
private def askingCalls : Bool → List (Call Nat)
  | true => [.sendAll [1, 2, 3], .recvAll 1]
  | false => [.recvAll 3, .sendAll [4]]

/-- The first buffer goes in two parts over a pipe for two bytes, with an interrupted `recv`. -/
private def askingEvents : List (Bool × Event) :=
  [(true, .call), (true, .sent (.count 2)), (false, .call), (false, .received (.failed .eintr)),
   (false, .received (.count 1)), (true, .sent (.count 1)), (false, .received (.count 2)),
   (false, .returned)]

private def askingLink : Link Nat :=
  ((Link.start askingCalls).run .tcp 2 askingEvents).getD (Link.start askingCalls)

private theorem asking_run : (Link.start askingCalls).run .tcp 2 askingEvents = some askingLink := rfl

/-- However the system cuts, delays, interrupts and ends the stream: the receive calls that return 0
have exactly the bytes that come next, and where their lengths are those of the buffers sent, they
have these buffers, in order. -/
theorem received_is_sent {events : List (Bool × Event)}
    (h : (Link.start calls).run t cap events = some link) (s : Bool) :
    (link.party s).received.flatten <+: (sentBuffers (calls (!s))).flatten ∧
    (link.party s).received.map List.length <+: recvLengths (calls s) ∧
    (recvLengths (calls s) = (sentBuffers (calls (!s))).map List.length →
      (link.party s).received <+: sentBuffers (calls (!s))) := by
  have hflat : (link.party s).received.flatten <+: (sentBuffers (calls (!s))).flatten :=
    (List.prefix_append _ _).trans (got_isPrefix h s)
  have hlengths : (link.party s).received.map List.length <+: recvLengths (calls s) := by
    have hstart : ((Link.start calls).party s).lengths = recvLengths (calls s) := rfl
    rw [← hstart, ← run_lengths h s, Party.lengths, List.append_assoc]
    exact List.prefix_append _ _
  refine ⟨hflat, hlengths, ?_⟩
  intro hsame
  rw [hsame] at hlengths
  exact isPrefix_of_flatten hflat hlengths

theorem question_received : (askingLink.party false).received = [[1, 2, 3]] ∧
    (askingLink.party false).received <+: sentBuffers (askingCalls true) :=
  ⟨rfl, (received_is_sent asking_run false).2.2 rfl⟩

theorem Session.dual (h : Session calls) :
    List.Forall₂ Exchange.Act.dual ((calls true).map Call.act) ((calls false).map Call.act) := by
  rw [List.forall₂_map_left_iff, List.forall₂_map_right_iff]
  refine List.Forall₂.imp ?_ h
  intro c d hcd
  cases c <;> cases d <;> exact hcd

theorem Session.lengths (h : Session calls) (s : Bool) :
    recvLengths (calls s) = (sentBuffers (calls (!s))).map List.length := by
  rw [Session] at h
  have hboth : ∀ {cs ds : List (Call Byte)}, List.Forall₂ Call.answers cs ds →
      recvLengths cs = (sentBuffers ds).map List.length ∧
        recvLengths ds = (sentBuffers cs).map List.length := by
    intro cs ds hcs
    induction hcs with
    | nil => exact ⟨rfl, rfl⟩
    | @cons c d cs ds hcd _ ih =>
        cases c with
        | sendAll buf =>
            cases d with
            | sendAll buf' => cases hcd
            | recvAll len => exact ⟨ih.1, congrArg₂ List.cons hcd.symm ih.2⟩
        | recvAll len =>
            cases d with
            | sendAll buf => exact ⟨congrArg₂ List.cons hcd.symm ih.1, ih.2⟩
            | recvAll len' => cases hcd
  cases s with
  | true => exact (hboth h).1
  | false => exact (hboth h).2

/-- How many things a program can still do: pass its bytes one by one, enter and leave its calls, and
fail once. -/
def Party.steps (p : Party Byte) : Nat :=
  Exchange.work p.acts + p.calls.length + if p.errno = none then 1 else 0

def Link.steps (link : Link Byte) : Nat := (link.party true).steps + (link.party false).steps

theorem Effect.steps {s : Bool} {e : Event} {p : Party Byte} {pipe : Bool → List Byte}
    (h : Effect cap link s e p pipe) (hrunning : (link.party s).errno = none) :
    e.interrupted = true ∧ p = link.party s ∨ p.steps < (link.party s).steps := by
  cases h with
  | @entered c calls hloop hcalls =>
      right
      simp only [Party.steps, Party.acts, hloop, hcalls, Option.toList, List.map_cons, List.map_nil,
        List.nil_append, List.cons_append, Call.enter_act, Exchange.work, List.length_cons]
      omega
  | interrupted he => exact .inl ⟨he, rfl⟩
  | failed errno _ =>
      right
      simp [Party.steps, Party.acts, hrunning]
  | @sent q w hloop hw hle hroom =>
      right
      simp only [Party.steps, Party.acts, hloop, Option.toList, List.map_cons, List.map_nil,
        List.nil_append, List.cons_append, Loop.act, Exchange.work, Exchange.Act.items,
        Exchange.Act.wanted, List.length_drop]
      omega
  | @received b r hloop hr hle hthere =>
      right
      simp only [Party.steps, Party.acts, hloop, Option.toList, List.map_cons, List.map_nil,
        List.nil_append, List.cons_append, Loop.act, Exchange.work, Exchange.Act.items,
        Exchange.Act.wanted]
      omega
  | sendReturned hloop =>
      right
      simp only [Party.steps, Party.acts, hloop, Option.toList, List.map_cons, List.map_nil,
        List.nil_append, List.cons_append, Loop.act, Exchange.work]
      omega
  | recvReturned hloop =>
      right
      simp only [Party.steps, Party.acts, hloop, Option.toList, List.map_cons, List.map_nil,
        List.nil_append, List.cons_append, Loop.act, Exchange.work]
      omega

theorem run_steps {events : List (Bool × Event)} (h : link.run t cap events = some link') :
    (events.filter fun e => !e.2.interrupted).length + link'.steps ≤ link.steps := by
  induction events generalizing link with
  | nil =>
      cases h
      simp
  | cons e events ih =>
      obtain ⟨s, e⟩ := e
      obtain ⟨link₁, hstep, hrest⟩ := Option.bind_eq_some_iff.mp h
      obtain ⟨hrunning, p, pipe, heffect, rfl⟩ := Link.step_effect hstep
      have hmore := ih hrest
      have hsplit : ∀ party : Bool → Party Byte, ∀ q : Party Byte,
          (Function.update party s q true).steps + (Function.update party s q false).steps =
            q.steps + (party (!s)).steps := by
        intro party q
        cases s
        · simp [Nat.add_comm]
        · simp
      have hbefore : link.steps = (link.party s).steps + (link.party (!s)).steps := by
        rw [Link.steps, ← hsplit, Function.update_eq_self]
      have hafter : Link.steps { link.withParty s p with pipe := pipe } =
          p.steps + (link.party (!s)).steps := hsplit link.party p
      rw [hafter] at hmore
      rw [hbefore, List.filter_cons]
      obtain ⟨he, rfl⟩ | hp := heffect.steps hrunning
      · simp only [he, Bool.not_true, Bool.false_eq_true, if_false]
        omega
      · cases e.interrupted with
        | true =>
            simp only [Bool.not_true, Bool.false_eq_true, if_false]
            omega
        | false =>
            simp only [Bool.not_false, if_true, List.length_cons]
            omega

/-- No call has returned -1. -/
def Link.Sound (link : Link Byte) : Prop := ∀ s, (link.party s).errno = none

theorem Link.Sound.withParty (h : link.Sound) (s : Bool) (p : Party Byte)
    (hp : p.errno = none) (pipe : Bool → List Byte) :
    Link.Sound { link.withParty s p with pipe := pipe } := by
  intro r
  by_cases hside : r = s
  · subst hside
    simp [Link.withParty, hp]
  · simp [Link.withParty, Function.update_of_ne hside, h r]

/-- What the abstract exchange can do, a program can do, and without a failure. -/
theorem step_of_move {st : Exchange.State Byte} {s : Bool} (hsound : link.Sound)
    (h : Exchange.Move cap s link.abs st) :
    ∃ e link', e.interrupted = false ∧ link.step t cap s e = some link' ∧ link'.Sound := by
  have hrunning := hsound s
  cases hloop : (link.party s).loop with
  | none =>
      cases hcalls : (link.party s).calls with
      | nil =>
          have hdone : link.abs.todo s = [] := by simp [Link.abs, Party.acts, hloop, hcalls]
          cases h with
          | put _ htodo _ _ _ => rw [hdone] at htodo; cases htodo
          | take _ htodo _ _ _ => rw [hdone] at htodo; cases htodo
          | next htodo _ _ => rw [hdone] at htodo; cases htodo
      | cons c calls =>
          let p := { link.party s with calls := calls, loop := some c.enter }
          refine ⟨.call, link.withParty s p, rfl, ?_, hsound.withParty s p hrunning link.pipe⟩
          simp [Link.step, hrunning, Link.call, hloop, hcalls, p]
  | some l =>
      have hhead : link.abs.todo s = l.act :: (link.party s).calls.map Call.act := by
        simp [Link.abs, Party.acts, hloop]
      cases l with
      | sending q =>
          cases h with
          | @put xs acts w htodo hw hle hroom =>
              obtain ⟨hq, -⟩ := List.cons.inj (hhead.symm.trans htodo)
              obtain rfl : q = xs := Exchange.Act.put.inj hq
              have hround : t.sendAll q (.count w) = .again (q.drop w) := by
                cases t <;> simp [Transport.sendAll, ipcSendAll, tcpSendAll, sendAllRound, hw.ne']
              have hguard : 0 < q.length ∧ (SysResult.count w).moved ≤ q.length ∧
                  (link.pipe s).length + (SysResult.count w).moved ≤ cap :=
                ⟨hw.trans_le hle, hle, hroom⟩
              let p := { link.party s with loop := some (.sending (q.drop w)) }
              refine ⟨.sent (.count w), { link.withParty s p with
                pipe := Function.update link.pipe s (link.pipe s ++ q.take w) }, rfl, ?_,
                hsound.withParty s p hrunning _⟩
              simp only [Link.step, hrunning, if_true, Link.sent, hloop]
              rw [if_pos hguard, hround]
              rfl
          | take r htodo _ _ _ => cases (List.cons.inj (hhead.symm.trans htodo)).1
          | @next act acts htodo hitems hwanted =>
              obtain ⟨rfl, -⟩ := List.cons.inj (hhead.symm.trans htodo)
              obtain rfl : q = [] := hitems
              let p := { link.party s with loop := none }
              refine ⟨.returned, link.withParty s p, rfl, ?_, hsound.withParty s p hrunning link.pipe⟩
              simp [Link.step, hrunning, Link.returned, hloop, p]
      | receiving b =>
          cases h with
          | put w htodo _ _ _ => cases (List.cons.inj (hhead.symm.trans htodo)).1
          | @take n acts r htodo hr hle hthere =>
              obtain ⟨hb, -⟩ := List.cons.inj (hhead.symm.trans htodo)
              obtain rfl : b.len = n := Exchange.Act.take.inj hb
              have hround : ∀ bytes, t.recvAll b (.count r) bytes =
                  .again ⟨b.filled ++ bytes, b.len - r⟩ := by
                intro bytes
                cases t <;> simp [Transport.recvAll, ipcRecvAll, tcpRecvAll, recvAllRound, hr.ne']
              have hguard : 0 < b.len ∧ (SysResult.count r).moved ≤ b.len ∧
                  (SysResult.count r).moved ≤ (link.pipe (!s)).length :=
                ⟨hr.trans_le hle, hle, hthere⟩
              let p := { link.party s with
                loop := some (.receiving ⟨b.filled ++ (link.pipe (!s)).take r, b.len - r⟩) }
              refine ⟨.received (.count r), { link.withParty s p with
                pipe := Function.update link.pipe (!s) ((link.pipe (!s)).drop r) }, rfl, ?_,
                hsound.withParty s p hrunning _⟩
              simp only [Link.step, hrunning, if_true, Link.received, hloop]
              rw [if_pos hguard, hround]
              rfl
          | @next act acts htodo hitems hwanted =>
              obtain ⟨rfl, -⟩ := List.cons.inj (hhead.symm.trans htodo)
              obtain ⟨filled, len⟩ := b
              obtain rfl : len = 0 := hwanted
              let p := { link.party s with
                loop := none, received := (link.party s).received ++ [filled] }
              refine ⟨.returned, link.withParty s p, rfl, ?_, hsound.withParty s p hrunning link.pipe⟩
              simp [Link.step, hrunning, Link.returned, hloop, p]

/-- Both programs have made all their calls, and each has the buffers that the other has sent. -/
def Link.Completed (calls : Bool → List (Call Byte)) (link : Link Byte) : Prop :=
  ∀ s, (link.party s).calls = [] ∧ (link.party s).loop = none ∧ link.pipe s = [] ∧
    (link.party s).received = sentBuffers (calls (!s))

theorem completed_of_empty (hsession : Session calls) {events : List (Bool × Event)}
    (h : (Link.start calls).run t cap events = some link)
    (hempty : ∀ s, link.abs.todo s = [] ∧ link.abs.pipe s = []) : link.Completed calls := by
  intro s
  obtain ⟨hloop, hcalls⟩ := List.append_eq_nil_iff.mp (hempty s).1
  have hnone : (link.party s).loop = none := by
    cases hl : (link.party s).loop with
    | none => rfl
    | some l => simp [hl] at hloop
  have hnil : (link.party s).calls = [] := List.map_eq_nil_iff.mp hcalls
  refine ⟨hnil, hnone, (hempty s).2, ?_⟩
  apply List.eq_iff_flatten_eq.mpr
  constructor
  · have hstream := Exchange.run_stream (run_simulates h) (!s)
    rw [start_abs] at hstream
    simp only [Exchange.State.stream, (hempty (!s)).1, (hempty (!s)).2, Bool.not_not,
      List.nil_append, puts_map_act] at hstream
    simpa [Link.abs, Party.got, hnone, Exchange.puts] using hstream
  · have hlengths := run_lengths h s
    have hstart : ((Link.start calls).party s).lengths = recvLengths (calls s) := rfl
    rw [hstart, hsession.lengths s] at hlengths
    simpa [Party.lengths, hnone, hnil, recvLengths] using hlengths

/-- Two programs that follow one script, over pipes that hold a byte at least, do not block each
other: as long as no call has failed, they are through with the right buffers or one of them can do
something that is not an interruption, and of such things there are only so many. -/
theorem session_completes (hcap : 0 < cap) (hsession : Session calls)
    {events : List (Bool × Event)} (h : (Link.start calls).run t cap events = some link) :
    (events.filter fun e => !e.2.interrupted).length ≤ (Link.start calls).steps ∧
    (link.Sound → link.Completed calls ∨
      ∃ s e link', e.interrupted = false ∧ link.step t cap s e = some link' ∧ link'.Sound) := by
  constructor
  · have := run_steps h
    omega
  · intro hsound
    have hstart : Exchange.Paired (Link.start calls).abs :=
      Exchange.paired_of_dual (fun _ => rfl) hsession.dual
    have hpaired := Exchange.run_paired (run_simulates h) hstart
    obtain hempty | ⟨st, s, hmove⟩ := hpaired.progress hcap
    · exact .inl (completed_of_empty hsession h hempty)
    · right
      obtain ⟨e, link', he, hstep, hsound'⟩ := step_of_move (t := t) hsound hmove
      exact ⟨s, e, link', he, hstep, hsound'⟩

theorem answer_can_follow : askingLink.Completed askingCalls ∨
    ∃ s e link', e.interrupted = false ∧ askingLink.step .tcp 2 s e = some link' ∧ link'.Sound := by
  have hsession : Session askingCalls := .cons rfl (.cons rfl .nil)
  have hsound : askingLink.Sound := by
    intro s
    cases s <;> rfl
  exact (session_completes (by decide) hsession asking_run).2 hsound

end Sessions

end CZet.Stdlib.Sockets
