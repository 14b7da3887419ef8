/- source: src/gcc/gcc/c/c-parser.cc (czet_instantiate, czet_replay, czet_flush_instances,
     c_parser_translation_unit)
   digest: The pending instances of a translation unit, and when each of them is replayed once. -/

import CZet.Generic.InstanceDecl
import Mathlib.Data.List.Forall2

set_option autoImplicit false
set_option relaxedAutoImplicit false

namespace CZet.Pending

open CZet.InstanceDecl CZet.Lib.KeyedMemo

/-- `czet_pending_inst`. -/
structure PendingInst where
  request : InstRequest
  decl : Nat

/-- The instance declarations and the chain `czet_pending_insts`, with the history of the unit: the
pairs given to `czet_instantiate` and those given to `czet_replay`. -/
structure UnitState where
  decls : Memo InstRequest (List Char)
  pending : List PendingInst
  requested : List InstRequest
  replayed : List InstRequest

def UnitState.initial : UnitState := ⟨Memo.empty, [], [], []⟩

def czetInstantiate (target : Target) (r : InstRequest) (s : UnitState) : UnitState :=
  let (decl, decls) := czetBuildInstanceDecl target r s.decls
  let found := s.pending.any fun p => p.decl == decl
  { s with
    decls := decls
    pending := if found then s.pending else ⟨r, decl⟩ :: s.pending
    requested := s.requested ++ [r] }

def instantiateAll (target : Target) : List InstRequest → UnitState → UnitState
  | [], s => s
  | r :: rs, s => instantiateAll target rs (czetInstantiate target r s)

section Run

variable (target : Target) (body : InstRequest → List InstRequest)

/-- `body r` are the requests made while the definition of `r` is parsed again. -/
def czetReplay (p : PendingInst) (s : UnitState) : UnitState :=
  instantiateAll target (body p.request) { s with replayed := s.replayed ++ [p.request] }

/-- The loop of `czet_flush_instances`, for at most `fuel` rounds. -/
def czetFlushInstances : Nat → UnitState → Option UnitState
  | 0, _ => none
  | fuel + 1, s =>
      match s.pending with
      | [] => some s
      | p :: rest => czetFlushInstances fuel (czetReplay target body p { s with pending := rest })

/-- `c_parser_translation_unit`: each declaration is given by the instances that it requests. -/
def cParserTranslationUnit (fuel : Nat) : List (List InstRequest) → UnitState → Option UnitState
  | [], s => some s
  | d :: ds, s =>
      match czetFlushInstances target body fuel (instantiateAll target d s) with
      | none => none
      | some s' => cParserTranslationUnit fuel ds s'

end Run

/-- The pairs that are pending or have been replayed. -/
def UnitState.scheduled (s : UnitState) : List InstRequest :=
  s.pending.map PendingInst.request ++ s.replayed

/-- A pending pair has the key of the request exactly when the pair requested has been scheduled. -/
def Timely (target : Target) (r : InstRequest) (s : UnitState) : Prop :=
  (∃ p ∈ s.pending, instanceKey target p.request = instanceKey target r) ↔
    ∃ q ∈ s.scheduled, SameInstance r q

def TimelyAll (target : Target) : List InstRequest → UnitState → Prop
  | [], _ => True
  | r :: rs, s => Timely target r s ∧ TimelyAll target rs (czetInstantiate target r s)

section Timely

variable (target : Target) (body : InstRequest → List InstRequest)

def TimelyFlush : Nat → UnitState → Prop
  | 0, _ => True
  | fuel + 1, s =>
      match s.pending with
      | [] => True
      | p :: rest =>
          TimelyAll target (body p.request)
              { s with pending := rest, replayed := s.replayed ++ [p.request] } ∧
            TimelyFlush fuel (czetReplay target body p { s with pending := rest })

/-- Every request of the unit is timely in the state that it finds. -/
def TimelyUnit (fuel : Nat) : List (List InstRequest) → UnitState → Prop
  | [], _ => True
  | d :: ds, s =>
      TimelyAll target d s ∧ TimelyFlush target body fuel (instantiateAll target d s) ∧
        ∀ s', czetFlushInstances target body fuel (instantiateAll target d s) = some s' →
          TimelyUnit fuel ds s'

end Timely

/-- `r` has been replayed exactly once. -/
def ReplayedOnce (r : InstRequest) (s : UnitState) : Prop :=
  ∃ before q after, s.replayed = before ++ q :: after ∧ SameInstance r q ∧
    ∀ x ∈ before ++ after, ¬ SameInstance r x

/-- A set of pairs that `body` does not leave, up to the spelling of the types. -/
def Within (pairs : List InstRequest) (r : InstRequest) : Prop := ∃ q ∈ pairs, SameInstance r q

section SameInstance

private theorem sameTypes_refl (as : List TypeArg) : SameTypes as as :=
  List.forall₂_same.mpr fun _ _ => ⟨rfl, rfl⟩

private theorem sameTypes_symm {as bs : List TypeArg} (h : SameTypes as bs) : SameTypes bs as :=
  h.flip.imp fun _ _ hab => ⟨hab.1.symm, hab.2.symm⟩

private theorem sameTypes_trans {as bs cs : List TypeArg} (hab : SameTypes as bs)
    (hbc : SameTypes bs cs) : SameTypes as cs := by
  induction hab generalizing cs with
  | nil => exact hbc
  | cons h _ ih =>
      cases hbc with
      | cons h' hrest => exact .cons ⟨h.1.trans h'.1, h.2.trans h'.2⟩ (ih hrest)

theorem sameInstance_refl (r : InstRequest) : SameInstance r r := ⟨rfl, sameTypes_refl _⟩

theorem sameInstance_symm {r s : InstRequest} (h : SameInstance r s) : SameInstance s r :=
  ⟨h.1.symm, sameTypes_symm h.2⟩

theorem sameInstance_trans {r s t : InstRequest} (hrs : SameInstance r s) (hst : SameInstance s t) :
    SameInstance r t :=
  ⟨hrs.1.trans hst.1, sameTypes_trans hrs.2 hst.2⟩

end SameInstance

/-- No pair is scheduled twice, and the scheduled pairs are those that have been requested. -/
structure Orderly (target : Target) (pairs : List InstRequest) (s : UnitState) : Prop where
  consistent : s.decls.Consistent (instanceKey target)
  logged : ∀ p ∈ s.pending, (p.request, p.decl) ∈ s.decls.log
  distinct : s.scheduled.Pairwise fun a b => ¬ SameInstance a b
  covered : ∀ r ∈ s.requested, ∃ q ∈ s.scheduled, SameInstance r q
  asked : ∀ q ∈ s.scheduled, q ∈ s.requested
  within : ∀ r ∈ s.requested, Within pairs r

theorem initial_orderly (target : Target) (pairs : List InstRequest) :
    Orderly target pairs UnitState.initial where
  consistent := Memo.empty_consistent _
  logged := by simp [UnitState.initial]
  distinct := by simp [UnitState.initial, UnitState.scheduled]
  covered := by simp [UnitState.initial]
  asked := by simp [UnitState.initial, UnitState.scheduled]
  within := by simp [UnitState.initial]

theorem found_iff {target : Target} {pairs : List InstRequest} {s : UnitState}
    (hs : Orderly target pairs s) (r : InstRequest) :
    (s.pending.any fun p => p.decl == (czetBuildInstanceDecl target r s.decls).1) = true ↔
      ∃ p ∈ s.pending, instanceKey target p.request = instanceKey target r := by
  have hserved : (czetBuildInstanceDecl target r s.decls).2.Consistent (instanceKey target) :=
    (serve_consistent [] (.mk r []) s.decls hs.consistent ⟨by simp, trivial⟩).1
  have hanswer := answer_mem_log (instanceKey target) r [] s.decls
  have hkey : ∀ p ∈ s.pending, p.decl = (czetBuildInstanceDecl target r s.decls).1 ↔
      instanceKey target p.request = instanceKey target r := by
    intro p hp
    have hold := log_subset_serve (instanceKey target) (.mk r []) s.decls (hs.logged p hp)
    exact hserved.answers_eq_iff hold hanswer
  rw [List.any_eq_true]
  constructor
  · rintro ⟨p, hp, hdecl⟩
    exact ⟨p, hp, (hkey p hp).mp (by simpa using hdecl)⟩
  · rintro ⟨p, hp, h⟩
    exact ⟨p, hp, by simpa using (hkey p hp).mpr h⟩

theorem czetInstantiate_cases {target : Target} {pairs : List InstRequest} {s : UnitState}
    (hs : Orderly target pairs s) (r : InstRequest) :
    ((∃ p ∈ s.pending, instanceKey target p.request = instanceKey target r) ∧
        (czetInstantiate target r s).scheduled = s.scheduled ∧
        (czetInstantiate target r s).pending = s.pending) ∨
      ((¬ ∃ p ∈ s.pending, instanceKey target p.request = instanceKey target r) ∧
        (czetInstantiate target r s).scheduled = r :: s.scheduled ∧
        (czetInstantiate target r s).pending =
          ⟨r, (czetBuildInstanceDecl target r s.decls).1⟩ :: s.pending) := by
  rw [← found_iff hs r]
  by_cases hfound :
      (s.pending.any fun p => p.decl == (czetBuildInstanceDecl target r s.decls).1) = true
  · exact .inl ⟨hfound, by simp only [czetInstantiate, UnitState.scheduled, hfound, if_true],
      by simp only [czetInstantiate, hfound, if_true]⟩
  · exact .inr ⟨hfound, by simp [czetInstantiate, UnitState.scheduled, hfound],
      by simp [czetInstantiate, hfound]⟩

theorem czetInstantiate_orderly {target : Target} {pairs : List InstRequest} {s : UnitState}
    {r : InstRequest} (hs : Orderly target pairs s) (hr : Within pairs r)
    (htimely : Timely target r s) : Orderly target pairs (czetInstantiate target r s) := by
  have hserved : (czetBuildInstanceDecl target r s.decls).2.Consistent (instanceKey target) :=
    (serve_consistent [] (.mk r []) s.decls hs.consistent ⟨by simp, trivial⟩).1
  have hlog := log_subset_serve (instanceKey target) (.mk r []) s.decls
  have hanswer := answer_mem_log (instanceKey target) r [] s.decls
  have hrequested : (czetInstantiate target r s).requested = s.requested ++ [r] := rfl
  have hwithin : ∀ x ∈ s.requested ++ [r], Within pairs x := by
    intro x hx
    rcases List.mem_append.mp hx with hx | hx
    · exact hs.within x hx
    · exact List.mem_singleton.mp hx ▸ hr
  rcases czetInstantiate_cases hs r with ⟨hpending, hsched, hpend⟩ | ⟨hfresh, hsched, hpend⟩
  · refine ⟨hserved, ?_, hsched ▸ hs.distinct, ?_, ?_, hrequested ▸ hwithin⟩
    · intro p hp
      exact hlog (hs.logged p (hpend ▸ hp))
    · intro x hx
      rw [hsched]
      rcases List.mem_append.mp (hrequested ▸ hx) with hx | hx
      · exact hs.covered x hx
      · exact List.mem_singleton.mp hx ▸ htimely.mp hpending
    · intro q hq
      exact List.mem_append_left _ (hs.asked q (hsched ▸ hq))
  · have hnew : ∀ q ∈ s.scheduled, ¬ SameInstance r q := by
      intro q hq hsame
      exact hfresh (htimely.mpr ⟨q, hq, hsame⟩)
    refine ⟨hserved, ?_, ?_, ?_, ?_, hrequested ▸ hwithin⟩
    · intro p hp
      rcases List.mem_cons.mp (hpend ▸ hp) with rfl | hp
      · exact hanswer
      · exact hlog (hs.logged p hp)
    · rw [hsched]
      exact List.pairwise_cons.mpr ⟨hnew, hs.distinct⟩
    · intro x hx
      rw [hsched]
      rcases List.mem_append.mp (hrequested ▸ hx) with hx | hx
      · obtain ⟨q, hq, hsame⟩ := hs.covered x hx
        exact ⟨q, List.mem_cons_of_mem _ hq, hsame⟩
      · exact ⟨r, List.mem_cons_self, List.mem_singleton.mp hx ▸ sameInstance_refl r⟩
    · intro q hq
      rcases List.mem_cons.mp (hsched ▸ hq) with rfl | hq
      · exact List.mem_append_right _ (List.mem_singleton_self _)
      · exact List.mem_append_left _ (hs.asked q hq)

theorem instantiateAll_orderly {target : Target} {pairs : List InstRequest} {s : UnitState}
    {rs : List InstRequest} (hs : Orderly target pairs s) (hrs : ∀ r ∈ rs, Within pairs r)
    (htimely : TimelyAll target rs s) :
    Orderly target pairs (instantiateAll target rs s) ∧
      (instantiateAll target rs s).replayed = s.replayed := by
  induction rs generalizing s with
  | nil => exact ⟨hs, rfl⟩
  | cons r rs ih =>
      obtain ⟨hr, hrest⟩ := htimely
      have hstep := czetInstantiate_orderly hs (hrs r List.mem_cons_self) hr
      exact ih hstep (fun x hx => hrs x (List.mem_cons_of_mem _ hx)) hrest

section Flush

variable {target : Target} {body : InstRequest → List InstRequest} {pairs : List InstRequest}

private theorem unlink_orderly {s : UnitState} {p : PendingInst} {rest : List PendingInst}
    (hs : Orderly target pairs s) (hpending : s.pending = p :: rest) :
    Orderly target pairs
      { s with pending := rest, replayed := s.replayed ++ [p.request] } := by
  have hperm : List.Perm (UnitState.scheduled
      { s with pending := rest, replayed := s.replayed ++ [p.request] }) s.scheduled := by
    simp only [UnitState.scheduled, hpending, List.map_cons, List.cons_append]
    rw [← List.append_assoc]
    exact List.perm_append_singleton _ _
  refine ⟨hs.consistent, ?_, ?_, ?_, ?_, hs.within⟩
  · intro q hq
    exact hs.logged q (hpending ▸ List.mem_cons_of_mem _ hq)
  · refine (hperm.pairwise_iff ?_).mpr hs.distinct
    intro a b hab hba
    exact hab (sameInstance_symm hba)
  · intro r hr
    obtain ⟨q, hq, hsame⟩ := hs.covered r hr
    exact ⟨q, hperm.mem_iff.mpr hq, hsame⟩
  · intro q hq
    exact hs.asked q (hperm.mem_iff.mp hq)

private theorem countP_lt_of_imp {α : Type} {P Q : α → Bool} {l : List α} {a : α} (ha : a ∈ l)
    (himp : ∀ x ∈ l, P x = true → Q x = true) (hP : P a = false) (hQ : Q a = true) :
    l.countP P < l.countP Q := by
  obtain ⟨l₁, l₂, rfl⟩ := List.append_of_mem ha
  have h₁ : l₁.countP P ≤ l₁.countP Q :=
    List.countP_mono_left fun x hx => himp x (List.mem_append_left _ hx)
  have h₂ : l₂.countP P ≤ l₂.countP Q :=
    List.countP_mono_left fun x hx => himp x (List.mem_append_right _ (List.mem_cons_of_mem _ hx))
  simp only [List.countP_append, List.countP_cons, hP, hQ]
  simp only [Bool.false_eq_true, if_false, if_true]
  omega

open scoped Classical in
/-- The pairs that have not been replayed. -/
private noncomputable def remaining (pairs : List InstRequest) (s : UnitState) : Nat :=
  pairs.countP fun q => decide (∀ x ∈ s.replayed, ¬ SameInstance q x)

private theorem remaining_lt {s : UnitState} {p : PendingInst} {rest : List PendingInst}
    (hs : Orderly target pairs s) (hpending : s.pending = p :: rest) {s' : UnitState}
    (hreplayed : s'.replayed = s.replayed ++ [p.request]) :
    remaining pairs s' < remaining pairs s := by
  have hp : p.request ∈ s.scheduled := by simp [UnitState.scheduled, hpending]
  obtain ⟨q, hq, hsame⟩ := hs.within _ (hs.asked _ hp)
  have hfresh : ∀ x ∈ s.replayed, ¬ SameInstance p.request x := by
    have hdistinct := hs.distinct
    rw [UnitState.scheduled, hpending, List.map_cons, List.cons_append] at hdistinct
    intro x hx
    exact (List.pairwise_cons.mp hdistinct).1 x (List.mem_append_right _ hx)
  apply countP_lt_of_imp hq
  · intro x _ hx
    simp only [decide_eq_true_eq, hreplayed] at hx ⊢
    exact fun y hy => hx y (List.mem_append_left _ hy)
  · simp only [decide_eq_false_iff_not, hreplayed]
    intro h
    exact h p.request (by simp) (sameInstance_symm hsame)
  · simp only [decide_eq_true_eq]
    intro x hx hqx
    exact hfresh x hx (sameInstance_trans hsame hqx)

/-- The loop of an orderly unit ends with nothing pending. -/
theorem czetFlushInstances_ends (hbody : ∀ p, Within pairs p → ∀ r ∈ body p, Within pairs r)
    {s : UnitState} (hs : Orderly target pairs s)
    (htimely : ∀ fuel, TimelyFlush target body fuel s) :
    ∃ fuel s', czetFlushInstances target body fuel s = some s' ∧ Orderly target pairs s' ∧
      s'.pending = [] := by
  induction hn : remaining pairs s using Nat.strongRecOn generalizing s with
  | ind n ih =>
      cases hpending : s.pending with
      | nil => exact ⟨1, s, by simp [czetFlushInstances, hpending], hs, hpending⟩
      | cons p rest =>
          have hunlinked := unlink_orderly hs hpending
          have hrequests : ∀ r ∈ body p.request, Within pairs r :=
            hbody _ (hs.within _ (hs.asked _ (by simp [UnitState.scheduled, hpending])))
          have htimely' : ∀ fuel, TimelyAll target (body p.request)
              { s with pending := rest, replayed := s.replayed ++ [p.request] } ∧
              TimelyFlush target body fuel (czetReplay target body p { s with pending := rest }) := by
            intro fuel
            have := htimely (fuel + 1)
            simpa only [TimelyFlush, hpending] using this
          obtain ⟨hreplay, hreplayed⟩ :=
            instantiateAll_orderly hunlinked hrequests (htimely' 0).1
          obtain ⟨fuel, s', hrun, hs', hdone⟩ :=
            ih _ (hn ▸ remaining_lt hs hpending hreplayed) hreplay (fun fuel => (htimely' fuel).2)
              rfl
          refine ⟨fuel + 1, s', ?_, hs', hdone⟩
          simp only [czetFlushInstances, hpending]
          exact hrun

theorem czetFlushInstances_mono {fuel fuel' : Nat} (hle : fuel ≤ fuel') {s s' : UnitState}
    (h : czetFlushInstances target body fuel s = some s') :
    czetFlushInstances target body fuel' s = some s' := by
  induction fuel generalizing s fuel' with
  | zero => simp [czetFlushInstances] at h
  | succ fuel ih =>
      obtain ⟨k, rfl⟩ := Nat.exists_eq_add_of_le' (Nat.one_le_of_lt hle)
      simp only [czetFlushInstances] at h ⊢
      split at h
      · exact h
      · exact ih (by omega) h

theorem cParserTranslationUnit_mono {fuel fuel' : Nat} (hle : fuel ≤ fuel')
    {ds : List (List InstRequest)} {s s' : UnitState}
    (h : cParserTranslationUnit target body fuel ds s = some s') :
    cParserTranslationUnit target body fuel' ds s = some s' := by
  induction ds generalizing s with
  | nil => exact h
  | cons d ds ih =>
      simp only [cParserTranslationUnit] at h ⊢
      split at h
      · simp at h
      · rename_i hflush
        rw [czetFlushInstances_mono hle hflush]
        exact ih h

private theorem timelyFlush_anti {fuel fuel' : Nat} (hle : fuel ≤ fuel') {s : UnitState}
    (h : TimelyFlush target body fuel' s) : TimelyFlush target body fuel s := by
  induction fuel generalizing s fuel' with
  | zero => trivial
  | succ fuel ih =>
      obtain ⟨k, rfl⟩ := Nat.exists_eq_add_of_le' (Nat.one_le_of_lt hle)
      simp only [TimelyFlush] at h ⊢
      split
      · trivial
      · rename_i hpending
        rw [hpending] at h
        exact ⟨h.1, ih (by omega) h.2⟩

private theorem timelyUnit_anti {fuel fuel' : Nat} (hle : fuel ≤ fuel')
    {ds : List (List InstRequest)} {s : UnitState} (h : TimelyUnit target body fuel' ds s) :
    TimelyUnit target body fuel ds s := by
  induction ds generalizing s with
  | nil => trivial
  | cons d ds ih =>
      refine ⟨h.1, timelyFlush_anti hle h.2.1, ?_⟩
      intro s' hflush
      exact ih (h.2.2 s' (czetFlushInstances_mono hle hflush))

private theorem translationUnit_ends (hbody : ∀ p, Within pairs p → ∀ r ∈ body p, Within pairs r)
    {ds : List (List InstRequest)} (hds : ∀ d ∈ ds, ∀ r ∈ d, Within pairs r) {s : UnitState}
    (hs : Orderly target pairs s) (hpending : s.pending = [])
    (htimely : ∀ fuel, TimelyUnit target body fuel ds s) :
    ∃ fuel s', cParserTranslationUnit target body fuel ds s = some s' ∧ Orderly target pairs s' ∧
      s'.pending = [] := by
  induction ds generalizing s with
  | nil => exact ⟨0, s, rfl, hs, hpending⟩
  | cons d ds ih =>
      obtain ⟨hrequests, -⟩ := instantiateAll_orderly hs (hds d List.mem_cons_self) (htimely 0).1
      obtain ⟨fuel, s₁, hflush, hs₁, hdone⟩ :=
        czetFlushInstances_ends hbody hrequests fun fuel => (htimely fuel).2.1
      -- a run of the later declarations may need more rounds than the first flush
      have hrest : ∀ fuel', TimelyUnit target body fuel' ds s₁ := by
        intro fuel'
        have hlater := (htimely (max fuel fuel')).2.2 s₁
          (czetFlushInstances_mono (Nat.le_max_left _ _) hflush)
        exact timelyUnit_anti (Nat.le_max_right _ _) hlater
      obtain ⟨fuel', s₂, hrun, hs₂, hdone₂⟩ :=
        ih (fun e he => hds e (List.mem_cons_of_mem _ he)) hs₁ hdone hrest
      refine ⟨max fuel fuel', s₂, ?_, hs₂, hdone₂⟩
      simp only [cParserTranslationUnit]
      rw [czetFlushInstances_mono (Nat.le_max_left _ _) hflush]
      exact cParserTranslationUnit_mono (Nat.le_max_right _ _) hrun

end Flush

private theorem replayedOnce_of_orderly {target : Target} {pairs : List InstRequest} {s : UnitState}
    (hs : Orderly target pairs s) (hpending : s.pending = []) {r : InstRequest}
    (hr : r ∈ s.requested) : ReplayedOnce r s := by
  have hscheduled : s.scheduled = s.replayed := by simp [UnitState.scheduled, hpending]
  obtain ⟨q, hq, hsame⟩ := hs.covered r hr
  have hdistinct := hs.distinct
  rw [hscheduled] at hq hdistinct
  obtain ⟨before, after, hsplit⟩ := List.append_of_mem hq
  rw [hsplit, List.pairwise_append, List.pairwise_cons] at hdistinct
  obtain ⟨-, ⟨hafter, -⟩, hbefore⟩ := hdistinct
  refine ⟨before, q, after, hsplit, hsame, ?_⟩
  intro x hx hrx
  have hqx : SameInstance q x := sameInstance_trans (sameInstance_symm hsame) hrx
  rcases List.mem_append.mp hx with hx | hx
  · exact hbefore x hx q List.mem_cons_self (sameInstance_symm hqx)
  · exact hafter x hx hqx

/-- The unit is parsed in finitely many rounds, and every requested pair is
replayed exactly once. -/
def EachReplayedOnce (target : Target) (body : InstRequest → List InstRequest)
    (ds : List (List InstRequest)) : Prop :=
  ∃ fuel s, cParserTranslationUnit target body fuel ds UnitState.initial = some s ∧
    (∀ r ∈ s.requested, ReplayedOnce r s) ∧ ∀ q ∈ s.replayed, q ∈ s.requested

/-- A translation unit over finitely many pairs in which every request is timely ends, and each
pair that it requests is replayed exactly once. -/
theorem translationUnit_replays_once (target : Target) (body : InstRequest → List InstRequest)
    (pairs : List InstRequest) (hbody : ∀ p, Within pairs p → ∀ r ∈ body p, Within pairs r)
    (ds : List (List InstRequest)) (hds : ∀ d ∈ ds, ∀ r ∈ d, Within pairs r)
    (htimely : ∀ fuel, TimelyUnit target body fuel ds UnitState.initial) :
    EachReplayedOnce target body ds := by
  obtain ⟨fuel, s, hrun, hs, hdone⟩ :=
    translationUnit_ends hbody hds (initial_orderly target pairs) rfl htimely
  refine ⟨fuel, s, hrun, fun r hr => replayedOnce_of_orderly hs hdone hr, ?_⟩
  intro q hq
  exact hs.asked q (List.mem_append_right _ hq)

section Units

private def call (templ : UInt64) : InstRequest := ⟨templ, [{ type := .integer .int }]⟩

/-- `g<int>` is requested by a declaration and by the body of `f<int>`, which is replayed first. -/
private def callee (r : InstRequest) : List InstRequest :=
  if r.templ = 0x7f3200 then [call 0x7f4100] else []

private theorem sameInstance_call_iff (s t : UInt64) : SameInstance (call s) (call t) ↔ s = t := by
  constructor
  · exact fun h => h.1
  · rintro rfl
    exact sameInstance_refl _

private theorem key_call_iff (target : Target) (s t : UInt64) :
    instanceKey target (call s) = instanceKey target (call t) ↔ s = t := by
  constructor
  · exact fun h => ((instanceKey_eq_iff target _ _).mp h).1
  · rintro rfl
    rfl

private theorem callee_timely (fuel : Nat) :
    TimelyUnit (lp64 fun _ => 0) callee fuel [[call 0x7f4100, call 0x7f3200]]
      UnitState.initial := by
  have hfirst : Timely (lp64 fun _ => 0) (call 0x7f4100) UnitState.initial := by
    simp [Timely, UnitState.initial, UnitState.scheduled]
  have hsecond : Timely (lp64 fun _ => 0) (call 0x7f3200)
      (czetInstantiate (lp64 fun _ => 0) (call 0x7f4100) UnitState.initial) := by
    rw [show czetInstantiate (lp64 fun _ => 0) (call 0x7f4100) UnitState.initial =
      ⟨_, [⟨call 0x7f4100, 0⟩], [call 0x7f4100], []⟩ from rfl]
    simp [Timely, UnitState.scheduled, key_call_iff, sameInstance_call_iff]
  refine ⟨⟨hfirst, hsecond, trivial⟩, ?_, fun _ _ => trivial⟩
  rw [show instantiateAll (lp64 fun _ => 0) [call 0x7f4100, call 0x7f3200] UnitState.initial =
    ⟨_, [⟨call 0x7f3200, 1⟩, ⟨call 0x7f4100, 0⟩], _, []⟩ from rfl]
  cases fuel with
  | zero => trivial
  | succ fuel =>
      refine ⟨⟨?_, trivial⟩, ?_⟩
      · simp [Timely, UnitState.scheduled, sameInstance_call_iff]
      · cases fuel with
        | zero => trivial
        | succ fuel =>
            refine ⟨trivial, ?_⟩
            cases fuel with
            | zero => trivial
            | succ fuel => trivial

private theorem callee_within (p : InstRequest) (_ : Within [call 0x7f4100, call 0x7f3200] p) :
    ∀ r ∈ callee p, Within [call 0x7f4100, call 0x7f3200] r := by
  intro r hr
  unfold callee at hr
  split at hr
  · exact ⟨call 0x7f4100, by simp, List.mem_singleton.mp hr ▸ sameInstance_refl _⟩
  · simp at hr

theorem nested_call_replayed_once :
    (∀ fuel, TimelyUnit (lp64 fun _ => 0) callee fuel [[call 0x7f4100, call 0x7f3200]]
        UnitState.initial) ∧
      EachReplayedOnce (lp64 fun _ => 0) callee [[call 0x7f4100, call 0x7f3200]] := by
  refine ⟨callee_timely, ?_⟩
  refine translationUnit_replays_once _ _ [call 0x7f4100, call 0x7f3200] callee_within _ ?_
    callee_timely
  intro d hd r hr
  obtain rfl := List.mem_singleton.mp hd
  exact ⟨r, hr, sameInstance_refl r⟩

/-- Two declarations that call `f<int>` have it replayed twice. -/
theorem second_use_replayed_again :
    (∀ p, Within [call 0x7f3200] p → ∀ r ∈ (fun _ => []) p, Within [call 0x7f3200] r) ∧
      (∀ d ∈ [[call 0x7f3200], [call 0x7f3200]], ∀ r ∈ d, Within [call 0x7f3200] r) ∧
      ¬ EachReplayedOnce (lp64 fun _ => 0) (fun _ => []) [[call 0x7f3200], [call 0x7f3200]] := by
  refine ⟨by simp, ?_, ?_⟩
  · intro d hd r hr
    have hr' : r ∈ [call 0x7f3200] := by
      rcases List.mem_cons.mp hd with rfl | hd
      · exact hr
      · exact List.mem_singleton.mp hd ▸ hr
    exact ⟨r, hr', sameInstance_refl r⟩
  · rintro ⟨fuel, s, hrun, honce, -⟩
    have htwice : ∃ t, cParserTranslationUnit (lp64 fun _ => 0) (fun _ => []) 2
        [[call 0x7f3200], [call 0x7f3200]] UnitState.initial = some t ∧
        t.requested = [call 0x7f3200, call 0x7f3200] ∧
        t.replayed = [call 0x7f3200, call 0x7f3200] := ⟨_, rfl, rfl, rfl⟩
    obtain ⟨t, hrun', hrequested, hreplayed⟩ := htwice
    have hst : s = t := by
      have h₁ := cParserTranslationUnit_mono (Nat.le_max_left fuel 2) hrun
      have h₂ := cParserTranslationUnit_mono (Nat.le_max_right fuel 2) hrun'
      exact Option.some.inj (h₁.symm.trans h₂)
    subst hst
    obtain ⟨before, q, after, hsplit, -, hother⟩ := honce (call 0x7f3200) (by simp [hrequested])
    have hlength := congrArg List.length hsplit
    simp only [hreplayed, List.length_append, List.length_cons, List.length_nil] at hlength
    -- one of the two replays is not the one at `q`
    obtain ⟨x, hx⟩ : ∃ x, x ∈ before ++ after := by
      refine List.exists_mem_of_ne_nil _ fun hnil => ?_
      have := congrArg List.length hnil
      simp only [List.length_append, List.length_nil] at this
      omega
    have hmem : x ∈ s.replayed := by
      rw [hsplit]
      rcases List.mem_append.mp hx with hx | hx
      · exact List.mem_append_left _ hx
      · exact List.mem_append_right _ (List.mem_cons_of_mem _ hx)
    have hcall : x = call 0x7f3200 := by simpa [hreplayed] using hmem
    exact hother x hx (hcall ▸ sameInstance_refl _)

end Units

theorem recursive_instance_never_ends (target : Target) (body : InstRequest → List InstRequest)
    (r : InstRequest) (hbody : body r = [r]) (fuel : Nat) :
    cParserTranslationUnit target body fuel [[r]] UnitState.initial = none := by
  have hflush : ∀ fuel s, s.pending = [⟨r, 0⟩] →
      @List.lookup _ _ instBEqOfDecidableEq (instanceKey target r) s.decls.entries = some 0 →
      czetFlushInstances target body fuel s = none := by
    intro fuel
    induction fuel with
    | zero => exact fun _ _ _ => rfl
    | succ fuel ih =>
        intro s hpending hdecl
        simp only [czetFlushInstances, hpending]
        apply ih
        · simp [czetReplay, hbody, instantiateAll, czetInstantiate, czetBuildInstanceDecl, serve,
            hdecl]
        · simp [czetReplay, hbody, instantiateAll, czetInstantiate, czetBuildInstanceDecl, serve,
            hdecl]
  have hstart : czetFlushInstances target body fuel
      (instantiateAll target [r] UnitState.initial) = none := by
    apply hflush
    · simp [instantiateAll, czetInstantiate, czetBuildInstanceDecl, serve, UnitState.initial,
        Memo.empty, serveAll]
    · simp [instantiateAll, czetInstantiate, czetBuildInstanceDecl, serve, UnitState.initial,
        Memo.empty, serveAll]
  simp only [cParserTranslationUnit, hstart]

end CZet.Pending
