/- digest: Two parties that put items into bounded pipes and take them out again: what is taken is
     what was put, in order, and two parties with dual acts never block each other for good. -/

import Mathlib.Data.List.Forall2
import Mathlib.Algebra.Order.Ring.Nat
import Mathlib.Logic.Function.Basic
import Mathlib.Logic.Relation

set_option autoImplicit false
set_option relaxedAutoImplicit false

namespace CZet.Lib.Exchange

variable {α : Type}

/-- What is left of an act: items still to be put, or the number of items still to be taken. -/
inductive Act (α : Type)
  | put (xs : List α)
  | take (n : Nat)
deriving DecidableEq

def Act.items : Act α → List α
  | .put xs => xs
  | .take _ => []

def Act.wanted : Act α → Nat
  | .put _ => 0
  | .take n => n

def Act.dual : Act α → Act α → Prop
  | .put xs, .take n => xs.length = n
  | .take n, .put xs => xs.length = n
  | _, _ => False

/-- The items that the acts put, in order. -/
def puts (acts : List (Act α)) : List α := acts.flatMap Act.items

/-- How many items the acts take. -/
def takes : List (Act α) → Nat
  | [] => 0
  | act :: acts => act.wanted + takes acts

/-- How many steps the acts can last: one for every item, and one to end the act. -/
def work : List (Act α) → Nat
  | [] => 0
  | act :: acts => act.items.length + act.wanted + 1 + work acts

theorem puts_cons (act : Act α) (acts : List (Act α)) : puts (act :: acts) = act.items ++ puts acts :=
  List.flatMap_cons

/-- `pipe s` holds what the party `s` has put and the other one has not taken yet, `taken s` all that
`s` has taken. -/
structure State (α : Type) where
  todo : Bool → List (Act α)
  pipe : Bool → List α
  taken : Bool → List α

/-- A step of the party `s`, over pipes that hold at most `cap` items each. -/
inductive Move (cap : Nat) (s : Bool) (st : State α) : State α → Prop
  | put {xs : List α} {acts : List (Act α)} (w : Nat) (htodo : st.todo s = .put xs :: acts)
      (hw : 0 < w) (hle : w ≤ xs.length) (hroom : (st.pipe s).length + w ≤ cap) :
      Move cap s st { st with
        todo := Function.update st.todo s (.put (xs.drop w) :: acts)
        pipe := Function.update st.pipe s (st.pipe s ++ xs.take w) }
  | take {n : Nat} {acts : List (Act α)} (r : Nat) (htodo : st.todo s = .take n :: acts)
      (hr : 0 < r) (hle : r ≤ n) (hthere : r ≤ (st.pipe (!s)).length) :
      Move cap s st
        { todo := Function.update st.todo s (.take (n - r) :: acts)
          pipe := Function.update st.pipe (!s) ((st.pipe (!s)).drop r)
          taken := Function.update st.taken s (st.taken s ++ (st.pipe (!s)).take r) }
  | next {act : Act α} {acts : List (Act α)} (htodo : st.todo s = act :: acts)
      (hitems : act.items = []) (hwanted : act.wanted = 0) :
      Move cap s st { st with todo := Function.update st.todo s acts }

def Step (cap : Nat) (st st' : State α) : Prop := ∃ s, Move cap s st st'

section Conservation

variable {cap : Nat} {st st' : State α}

/-- All that `s` has to give: what has arrived, what is under way, what is still to be put. -/
def State.stream (st : State α) (s : Bool) : List α :=
  st.taken (!s) ++ (st.pipe s ++ puts (st.todo s))

def State.total (st : State α) (s : Bool) : Nat := (st.taken s).length + takes (st.todo s)

theorem Move.stream {s : Bool} (h : Move cap s st st') (t : Bool) : st'.stream t = st.stream t := by
  by_cases hside : t = s
  · subst hside
    cases h with
    | @put xs acts w htodo hw hle hroom =>
        have hsplit : (xs.take w ++ xs.drop w) = xs := List.take_append_drop w xs
        simp only [State.stream, htodo, puts_cons, Act.items, Function.update_self]
        rw [List.append_assoc (st.pipe t), ← List.append_assoc (xs.take w), hsplit]
    | take r htodo hr hle hthere => simp [State.stream, htodo, puts_cons, Act.items]
    | next htodo hitems hwanted => simp [State.stream, htodo, puts_cons, hitems]
  · obtain rfl : t = !s := by
      cases t <;> cases s <;> simp_all
    cases h with
    | put w htodo hw hle hroom => simp [State.stream]
    | take r htodo hr hle hthere =>
        have hsplit := List.take_append_drop r (st.pipe (!s))
        have hother : s ≠ (!s) := by cases s <;> decide
        simp only [State.stream, Bool.not_not, Function.update_self,
          Function.update_of_ne hother.symm]
        rw [List.append_assoc, ← List.append_assoc (List.take r _), hsplit]
    | next htodo hitems hwanted => simp [State.stream]

theorem Move.total {s : Bool} (h : Move cap s st st') (t : Bool) : st'.total t = st.total t := by
  by_cases hside : t = s
  · subst hside
    cases h with
    | put w htodo hw hle hroom => simp [State.total, htodo, takes, Act.wanted]
    | take r htodo hr hle hthere =>
        simp only [State.total, htodo, takes, Act.wanted, Function.update_self, List.length_append,
          List.length_take]
        omega
    | next htodo hitems hwanted => simp [State.total, htodo, takes, hwanted]
  · cases h with
    | put w htodo hw hle hroom => simp [State.total, Function.update_of_ne hside]
    | take r htodo hr hle hthere => simp [State.total, Function.update_of_ne hside]
    | next htodo hitems hwanted => simp [State.total, Function.update_of_ne hside]

theorem run_stream (h : Relation.ReflTransGen (Step cap) st st') (s : Bool) :
    st'.stream s = st.stream s := by
  induction h with
  | refl => rfl
  | tail _ hstep ih =>
      obtain ⟨t, hmove⟩ := hstep
      rw [hmove.stream, ih]

def State.work (st : State α) : Nat := Exchange.work (st.todo true) + Exchange.work (st.todo false)

theorem Move.work_lt {s : Bool} (h : Move cap s st st') : st'.work < st.work := by
  have hsplit : ∀ todo : Bool → List (Act α), ∀ acts,
      work (Function.update todo s acts true) + work (Function.update todo s acts false) =
        work acts + work (todo (!s)) := by
    intro todo acts
    cases s
    · simp [Nat.add_comm]
    · simp
  have hbefore : st.work = work (st.todo s) + work (st.todo (!s)) := by
    rw [State.work, ← hsplit, Function.update_eq_self]
  rw [hbefore]
  cases h with
  | put w htodo hw hle hroom =>
      simp only [State.work, hsplit, htodo, work, Act.items, Act.wanted, List.length_drop]
      omega
  | take r htodo hr hle hthere =>
      simp only [State.work, hsplit, htodo, work, Act.items, Act.wanted]
      omega
  | next htodo hitems hwanted =>
      simp only [State.work, hsplit, htodo, work]
      omega

end Conservation

section Duality

/-- The leader has put `p` ahead of the follower: every item under way belongs to the acts that the
follower has still to perform, and nothing flows the other way. -/
inductive Lag : List α → List (Act α) → List (Act α) → Prop
  | level {acts acts' : List (Act α)} (h : List.Forall₂ Act.dual acts acts') : Lag [] acts acts'
  | within {p xs : List α} {n : Nat} {acts acts' : List (Act α)} (hn : p.length + xs.length = n)
      (h : List.Forall₂ Act.dual acts acts') : Lag p (.put xs :: acts) (.take n :: acts')
  | behind {p q : List α} {n : Nat} {acts acts' : List (Act α)} (hn : p.length = n)
      (h : Lag q acts acts') : Lag (p ++ q) acts (.take n :: acts')
  | skipped {p : List α} {acts acts' : List (Act α)} (h : Lag p acts acts') :
      Lag p acts (.put [] :: acts')

theorem Act.dual.symm {a b : Act α} (h : a.dual b) : b.dual a := by
  cases a with
  | put xs =>
      cases b with
      | put ys => exact h
      | take n => exact h
  | take n =>
      cases b with
      | put ys => exact h
      | take m => exact h

theorem dual_symm {acts acts' : List (Act α)} (h : List.Forall₂ Act.dual acts acts') :
    List.Forall₂ Act.dual acts' acts :=
  List.Forall₂.flip (h.imp fun _ _ hab => Act.dual.symm hab)

/-- The two parties under the acts of one session, one of them ahead. -/
def Paired (st : State α) : Prop :=
  ∃ s, Lag (st.pipe s) (st.todo s) (st.todo (!s)) ∧ st.pipe (!s) = []

theorem paired_of_dual {st : State α} (hpipe : ∀ s, st.pipe s = [])
    (h : List.Forall₂ Act.dual (st.todo true) (st.todo false)) : Paired st := by
  refine ⟨true, ?_, hpipe false⟩
  rw [hpipe true]
  exact .level h

section Leader

variable {p : List α} {acts acts' : List (Act α)}

theorem Lag.put {xs : List α} (h : Lag p (.put xs :: acts) acts') (w : Nat) (hle : w ≤ xs.length) :
    Lag (p ++ xs.take w) (.put (xs.drop w) :: acts) acts' := by
  generalize hacts : Act.put xs :: acts = led at h
  induction h with
  | level hdual =>
      subst hacts
      cases hdual with
      | @cons _ b _ bs hab hdual =>
          cases b with
          | put ys => cases hab
          | take n =>
              refine .within ?_ hdual
              have hn : xs.length = n := hab
              simp only [List.nil_append, List.length_take, List.length_drop]
              omega
  | @within p xs' n _ bs hn hdual =>
      cases hacts
      refine .within ?_ hdual
      simp only [List.length_append, List.length_take, List.length_drop]
      omega
  | behind hn _ ih =>
      rw [List.append_assoc]
      exact .behind hn (ih hacts)
  | skipped _ ih => exact .skipped (ih hacts)

theorem Lag.next {act : Act α} (h : Lag p (act :: acts) acts') (hitems : act.items = [])
    (hwanted : act.wanted = 0) : Lag p acts acts' := by
  generalize hacts : act :: acts = led at h
  induction h with
  | level hdual =>
      subst hacts
      cases hdual with
      | @cons _ b _ bs hab hdual =>
          cases act with
          | put xs =>
              obtain rfl : xs = [] := hitems
              cases b with
              | put ys => cases hab
              | take n => exact .behind hab (.level hdual)
          | take n =>
              obtain rfl : n = 0 := hwanted
              cases b with
              | put ys =>
                  obtain rfl : ys = [] := List.eq_nil_of_length_eq_zero hab
                  exact .skipped (.level hdual)
              | take m => cases hab
  | @within p xs n _ bs hn hdual =>
      cases hacts
      obtain rfl : xs = [] := hitems
      have hlevel : Lag (p ++ []) acts (.take n :: bs) := .behind hn (.level hdual)
      rwa [List.append_nil] at hlevel
  | behind hn _ ih => exact .behind hn (ih hacts)
  | skipped _ ih => exact .skipped (ih hacts)

end Leader

section Follower

variable {p : List α} {acts acts' : List (Act α)}

theorem Lag.level_of_put {xs : List α} (h : Lag p acts (.put xs :: acts')) (hne : xs ≠ []) :
    p = [] ∧ List.Forall₂ Act.dual acts (.put xs :: acts') := by
  cases h with
  | level hdual => exact ⟨rfl, hdual⟩
  | skipped _ => exact absurd rfl hne

theorem Lag.take {n : Nat} (h : Lag p acts (.take n :: acts')) (r : Nat) (hr : 0 < r) (hle : r ≤ n)
    (hthere : r ≤ p.length) : Lag (p.drop r) acts (.take (n - r) :: acts') := by
  cases h with
  | level hdual =>
      have : r ≤ 0 := hthere
      omega
  | within hn hdual =>
      refine .within ?_ hdual
      rw [List.length_drop]
      omega
  | @behind q q' _ _ _ hn hrest =>
      rw [List.drop_append_of_le_length (by omega)]
      refine .behind ?_ hrest
      rw [List.length_drop, hn]

theorem Lag.follower_next {act : Act α} (h : Lag p acts (act :: acts')) (hitems : act.items = [])
    (hwanted : act.wanted = 0) : Lag p acts acts' ∨ p = [] ∧ Lag [] acts' acts := by
  cases h with
  | level hdual =>
      right
      refine ⟨rfl, ?_⟩
      exact (Lag.level (dual_symm hdual)).next hitems hwanted
  | @within _ xs n _ _ hn hdual =>
      right
      obtain rfl : n = 0 := hwanted
      obtain ⟨hp, hxs⟩ : p.length = 0 ∧ xs.length = 0 := by omega
      obtain rfl := List.eq_nil_of_length_eq_zero hp
      obtain rfl := List.eq_nil_of_length_eq_zero hxs
      exact ⟨rfl, .skipped (.level (dual_symm hdual))⟩
  | @behind q q' n _ _ hn hrest =>
      left
      obtain rfl : n = 0 := hwanted
      obtain rfl := List.eq_nil_of_length_eq_zero hn
      exact hrest
  | skipped hrest => exact .inl hrest

end Follower

theorem Move.paired {cap : Nat} {s : Bool} {st st' : State α} (h : Move cap s st st')
    (hpaired : Paired st) : Paired st' := by
  obtain ⟨l, hlag, hback⟩ := hpaired
  have hne : ∀ b : Bool, b ≠ (!b) := by decide
  by_cases hside : s = l
  · -- the leader
    subst hside
    refine ⟨s, ?_⟩
    cases h with
    | put w htodo hw hle hroom =>
        rw [htodo] at hlag
        simp only [Function.update_self, Function.update_of_ne (hne s).symm]
        exact ⟨hlag.put w hle, hback⟩
    | take r htodo hr hle hthere =>
        rw [hback] at hthere
        exact absurd hr (Nat.not_lt.mpr hthere)
    | next htodo hitems hwanted =>
        rw [htodo] at hlag
        simp only [Function.update_self, Function.update_of_ne (hne s).symm]
        exact ⟨hlag.next hitems hwanted, hback⟩
  · -- the follower
    obtain rfl : l = !s := by cases l <;> cases s <;> simp_all
    rw [Bool.not_not] at hlag hback
    cases h with
    | @put xs acts w htodo hw hle hroom =>
        rw [htodo] at hlag
        have hxs : xs ≠ [] := by
          rintro rfl
          exact absurd hw (Nat.not_lt.mpr hle)
        obtain ⟨hp, hdual⟩ := hlag.level_of_put hxs
        refine ⟨s, ?_⟩
        simp only [Function.update_self, Function.update_of_ne (hne s).symm]
        rw [hback]
        exact ⟨(Lag.level (dual_symm hdual)).put w hle, hp⟩
    | take r htodo hr hle hthere =>
        rw [htodo] at hlag
        refine ⟨!s, ?_⟩
        simp only [Bool.not_not, Function.update_self, Function.update_of_ne (hne s),
          Function.update_of_ne (hne s).symm]
        exact ⟨hlag.take r hr hle hthere, hback⟩
    | next htodo hitems hwanted =>
        rw [htodo] at hlag
        obtain hlag | ⟨hp, hlag⟩ := hlag.follower_next hitems hwanted
        · refine ⟨!s, ?_⟩
          simp only [Bool.not_not, Function.update_self, Function.update_of_ne (hne s).symm]
          exact ⟨hlag, hback⟩
        · refine ⟨s, ?_⟩
          simp only [Function.update_self, Function.update_of_ne (hne s).symm]
          rw [hback]
          exact ⟨hlag, hp⟩

theorem run_paired {cap : Nat} {st st' : State α} (h : Relation.ReflTransGen (Step cap) st st')
    (hpaired : Paired st) : Paired st' := by
  induction h with
  | refl => exact hpaired
  | tail _ hstep ih =>
      obtain ⟨s, hmove⟩ := hstep
      exact hmove.paired ih

theorem move_of_put {cap : Nat} {s : Bool} {st : State α} {xs : List α} {acts : List (Act α)}
    (htodo : st.todo s = .put xs :: acts) (hroom : (st.pipe s).length < cap) :
    ∃ st', Move cap s st st' := by
  cases xs with
  | nil => exact ⟨_, .next htodo rfl rfl⟩
  | cons x xs => exact ⟨_, .put 1 htodo Nat.one_pos (Nat.succ_pos _) hroom⟩

theorem move_of_take {cap : Nat} {s : Bool} {st : State α} {n : Nat} {acts : List (Act α)}
    (htodo : st.todo s = .take n :: acts) (hthere : n = 0 ∨ 0 < (st.pipe (!s)).length) :
    ∃ st', Move cap s st st' := by
  cases n with
  | zero => exact ⟨_, .next htodo rfl rfl⟩
  | succ n =>
      obtain hzero | hthere := hthere
      · cases hzero
      · exact ⟨_, .take 1 htodo Nat.one_pos (Nat.succ_pos _) hthere⟩

/-- Dual parties are through, or one of them can go on: they never wait for each other. -/
theorem Paired.progress {cap : Nat} (hcap : 0 < cap) {st : State α} (h : Paired st) :
    (∀ s, st.todo s = [] ∧ st.pipe s = []) ∨ ∃ st', Step cap st st' := by
  obtain ⟨s, hlag, hback⟩ := h
  generalize hp : st.pipe s = p at hlag
  generalize hleader : st.todo s = acts at hlag
  generalize hfollower : st.todo (!s) = acts' at hlag
  cases hlag with
  | level hdual =>
      cases hdual with
      | nil =>
          left
          intro t
          obtain rfl | rfl : t = s ∨ t = !s := by cases t <;> cases s <;> decide
          · exact ⟨hleader, hp⟩
          · exact ⟨hfollower, hback⟩
      | @cons a b _ _ hab hdual =>
          right
          cases a with
          | put xs =>
              have hroom : (st.pipe s).length < cap := by rwa [hp]
              obtain ⟨st', hmove⟩ := move_of_put hleader hroom
              exact ⟨st', s, hmove⟩
          | take n =>
              cases b with
              | put xs =>
                  have hroom : (st.pipe (!s)).length < cap := by rwa [hback]
                  obtain ⟨st', hmove⟩ := move_of_put hfollower hroom
                  exact ⟨st', !s, hmove⟩
              | take m => cases hab
  | @within _ xs n _ _ hn hdual =>
      right
      cases p with
      | nil =>
          have hroom : (st.pipe s).length < cap := by rwa [hp]
          obtain ⟨st', hmove⟩ := move_of_put hleader hroom
          exact ⟨st', s, hmove⟩
      | cons x p =>
          have hthere : 0 < (st.pipe (!!s)).length := by
            rw [Bool.not_not, hp]
            exact Nat.succ_pos _
          obtain ⟨st', hmove⟩ := move_of_take hfollower (.inr hthere)
          exact ⟨st', !s, hmove⟩
  | @behind q q' n _ _ hn hrest =>
      right
      have hthere : n = 0 ∨ 0 < (st.pipe (!!s)).length := by
        rw [Bool.not_not, hp, List.length_append]
        omega
      obtain ⟨st', hmove⟩ := move_of_take hfollower hthere
      exact ⟨st', !s, hmove⟩
  | skipped hrest => exact .inr ⟨_, !s, .next hfollower rfl rfl⟩

end Duality

end CZet.Lib.Exchange
