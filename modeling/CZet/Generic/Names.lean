/- source: src/gcc/gcc/c/c-decl.cc (czet_instance_name, czet_build_instance_decl,
     czet_instantiate_type), src/gcc/gcc/c/c-parser.cc (c_czet_hygienize)
   digest: The identifiers generated for instances and for the names bound by macros, and when they
     are different over the units of a program. -/

import CZet.Generic.InstanceDecl
import CZet.Generic.TypeInstance
import CZet.Macro.Expansion
import Mathlib.Data.List.Nodup

set_option autoImplicit false
set_option relaxedAutoImplicit false

namespace CZet.Names

open CZet.InstanceDecl CZet.TypeInstance CZet.Lib.KeyedMemo CZet.Lib.Delimited

/-- The stem and the number of a generated identifier. -/
structure GenName where
  stem : String
  number : Nat
  deriving DecidableEq

/-- `"%s__czet%lu"`. -/
def GenName.text (g : GenName) : List Char :=
  g.stem.toList ++ "__czet".toList ++ (toString g.number).toList

/-- The same written into a `tmp[64]`. -/
def GenName.inBuffer (g : GenName) : List Char := g.text.take 63

def GenName.Fits (g : GenName) : Prop := g.text.length ≤ 63

instance (g : GenName) : Decidable g.Fits := inferInstanceAs (Decidable (_ ≤ _))

/-- `czet_instance_name`; the counter is an `unsigned long`. -/
def czetInstanceName (counter : Nat) : GenName := ⟨"f", counter % 2 ^ 64⟩

/-- The identifiers built by the second loop of `c_czet_hygienize`, whose buffer is long enough. -/
def hygieneNames (gen : Nat) (out : List MarkedToken) : List GenName :=
  let binders := collectBinders [] out []
  out.filterMap fun m =>
    if m.2 = false ∧ m.1.type = .name ∧ m.1.identifierPointer ∈ binders then
      some ⟨m.1.identifierPointer, gen⟩
    else none

/-- What generates identifiers: the expansion of a macro (the tokens given to `c_czet_hygienize`), a
generic call, and the use of a generic struct or union. -/
inductive Event
  | expand (out : List MarkedToken)
  | call (r : InstRequest)
  | use (u : Request TypeUse)

/-- The three counters of a translation unit, with the instances created and the names given by
hygiene so far. -/
structure NameState where
  gen : Nat
  decls : Memo InstRequest (List Char)
  created : List InstRequest
  types : TypeCache
  hygiene : List GenName

def NameState.initial : NameState := ⟨0, Memo.empty, [], Memo.empty, []⟩

def step (target : Target) (s : NameState) : Event → NameState
  | .expand out =>
      { s with gen := (cCzetHygienize s.gen out).2
               hygiene := s.hygiene ++ hygieneNames s.gen out }
  | .call r =>
      let (decl, decls) := czetBuildInstanceDecl target r s.decls
      { s with decls := decls
               created := if decl = s.decls.next then s.created ++ [r] else s.created }
  | .use u => { s with types := (czetInstantiateType target u s.types).2 }

/-- The identifiers of the function instances with the call that created each. -/
def NameState.instances (s : NameState) : List (List Char × InstRequest) :=
  s.created.zipIdx.map fun p => ((czetInstanceName p.2).inBuffer, p.1)

/-- Stem and number of the tags given to the records of generic structs and unions. -/
def NameState.tags (s : NameState) : List GenName :=
  s.types.entries.map fun e => ⟨e.1.1, e.2 % 2 ^ 64⟩

def NameState.instanceIdents (s : NameState) : List (List Char) :=
  s.instances.map Prod.fst ++ s.tags.map GenName.inBuffer

def NameState.hygieneIdents (s : NameState) : List (List Char) := s.hygiene.map GenName.text

/-- A translation unit: its events, and which definition of the program each address of a template
holds. -/
structure TransUnit (D : Type) where
  definition : UInt64 → D
  events : List Event

variable {D : Type}

def TransUnit.run (target : Target) (u : TransUnit D) : NameState :=
  u.events.foldl (step target) NameState.initial

/-- No identifier of an instance is that of another instance or one given by hygiene. -/
def UnitFresh (s : NameState) : Prop :=
  s.instanceIdents.Nodup ∧ ∀ x ∈ s.instanceIdents, x ∉ s.hygieneIdents

/-- The calls `r` of `u` and `r'` of `v` are for the same template and types. -/
def SamePair (u v : TransUnit D) (r r' : InstRequest) : Prop :=
  u.definition r.templ = v.definition r'.templ ∧ SameTypes r.types r'.types

/-- The generated names are fresh in the program that the units are linked into. -/
def ProgramFresh (target : Target) (units : List (TransUnit D)) : Prop :=
  (∀ u ∈ units, UnitFresh (u.run target)) ∧
    units.Pairwise fun u v => ∀ p ∈ (u.run target).instances, ∀ q ∈ (v.run target).instances,
      p.1 = q.1 → SamePair u v p.2 q.2

/-- The identifier of a tag is that of `o`, which is not cut: it is the same stem and number, or the
first 63 characters of a tag that does not fit. -/
def TagClash (t o : GenName) : Prop := if t.Fits then t = o else o.text = t.inBuffer

/-- The identifiers of two tags coincide. -/
def TagsClash (t t' : GenName) : Prop :=
  if t.Fits ∧ t'.Fits then t = t' else t.inBuffer = t'.inBuffer

/-- The counters have not come round, no macro binds `f` in a generation that is the number of an
instance, no generic tag is `f` with such a number, and no tag clashes with another or with a name
bound by a macro. -/
structure UnitSeparate (s : NameState) : Prop where
  counter : s.created.length ≤ 2 ^ 64
  hygiene : ∀ h ∈ s.hygiene, h.stem = "f" → s.created.length ≤ h.number
  tag : ∀ t ∈ s.tags, t.stem = "f" → s.created.length ≤ t.number
  tagHygiene : ∀ t ∈ s.tags, ∀ h ∈ s.hygiene, ¬ TagClash t h
  tags : s.tags.Pairwise fun t t' => ¬ TagsClash t t'

/-- The units are separate, and any two of them create the same instances in the same order as long
as both create one. -/
def ProgramSeparate (target : Target) (units : List (TransUnit D)) : Prop :=
  (∀ u ∈ units, UnitSeparate (u.run target)) ∧
    units.Pairwise fun u v => ∀ (n : Nat) (r r' : InstRequest),
      (u.run target).created[n]? = some r → (v.run target).created[n]? = some r' → SamePair u v r r'

private theorem step_created_length (target : Target) {s : NameState}
    (hs : s.created.length = s.decls.next) (hbound : ∀ e ∈ s.decls.entries, e.2 < s.decls.next)
    (e : Event) :
    (step target s e).created.length = (step target s e).decls.next ∧
      ∀ x ∈ (step target s e).decls.entries, x.2 < (step target s e).decls.next := by
  cases e with
  | expand out => exact ⟨hs, hbound⟩
  | use u => exact ⟨hs, hbound⟩
  | call r =>
      rcases serve_flat_cases (instanceKey target) r s.decls with
        ⟨v, hv, hserve⟩ | ⟨-, hserve⟩
      · simp only [step, czetBuildInstanceDecl, hserve, if_neg (Nat.ne_of_lt (hbound _ hv))]
        exact ⟨hs, hbound⟩
      · simp only [step, czetBuildInstanceDecl, hserve, if_true, List.length_append,
          List.length_singleton, hs, true_and]
        intro x hx
        rcases List.mem_cons.mp hx with rfl | hx
        · exact Nat.lt_succ_self _
        · exact Nat.lt_succ_of_lt (hbound x hx)

theorem run_created_length (target : Target) (u : TransUnit D) :
    (u.run target).created.length = (u.run target).decls.next := by
  have hrun : ∀ (es : List Event) (s : NameState), s.created.length = s.decls.next →
      (∀ e ∈ s.decls.entries, e.2 < s.decls.next) →
      (es.foldl (step target) s).created.length = (es.foldl (step target) s).decls.next := by
    intro es
    induction es with
    | nil => exact fun s hs _ => hs
    | cons e es ih =>
        intro s hs hbound
        obtain ⟨hs', hbound'⟩ := step_created_length target hs hbound e
        exact ih _ hs' hbound'
  exact hrun u.events NameState.initial rfl (by simp [NameState.initial, Memo.empty])

section Text

private theorem text_reverse (g : GenName) :
    g.text.reverse = ((toString g.number).toList.reverse ++ ['t']) ++
      ("ezc__".toList ++ g.stem.toList.reverse) := by
  simp [GenName.text]

/-- Stem and number can be read off the identifier: the number ends at the last `t`. -/
theorem text_injective {g h : GenName} (heq : g.text = h.text) : g = h := by
  have hrev := congrArg List.reverse heq
  rw [text_reverse, text_reverse] at hrev
  have hended : ∀ n : Nat, (toString n).toList.reverse ++ ['t'] ∈ ended 't' := by
    intro n
    refine ⟨_, ?_, rfl⟩
    rw [List.mem_reverse]
    exact not_mem_decimal (by decide) n
  obtain ⟨hnumber, hstem⟩ :=
    (ended_prefixFree 't').eq_of_append_eq (hended g.number) (hended h.number) hrev
  have hn : g.number = h.number :=
    decimal_injective (List.reverse_injective (List.append_cancel_right hnumber))
  have hs : g.stem = h.stem :=
    String.toList_injective (List.reverse_injective (List.append_cancel_left hstem))
  cases g
  cases h
  simp_all

theorem GenName.Fits.inBuffer_eq {g : GenName} (hg : g.Fits) : g.inBuffer = g.text :=
  List.take_of_length_le hg

private theorem decimal_length_le {n : Nat} (hn : n < 2 ^ 64) : (toString n).toList.length ≤ 20 := by
  rw [show toString n = n.repr from rfl, Nat.toList_repr]
  exact Nat.toDigits_length 10 n 20 (by decide) (by omega)

theorem czetInstanceName_text_length (counter : Nat) :
    (czetInstanceName counter).text.length ≤ 27 := by
  have := decimal_length_le (Nat.mod_lt counter (show 0 < 2 ^ 64 by decide))
  simp only [GenName.text, czetInstanceName, List.length_append]
  have hstem : "f".toList.length = 1 := by decide
  have hmark : "__czet".toList.length = 6 := by decide
  omega

theorem czetInstanceName_fits (counter : Nat) : (czetInstanceName counter).Fits :=
  (czetInstanceName_text_length counter).trans (by decide)

theorem inBuffer_eq_text_iff (t o : GenName) : t.inBuffer = o.text ↔ TagClash t o := by
  unfold TagClash
  split
  · rename_i hfits
    rw [hfits.inBuffer_eq]
    exact ⟨text_injective, congrArg GenName.text⟩
  · exact eq_comm

theorem inBuffer_eq_iff (t t' : GenName) : t.inBuffer = t'.inBuffer ↔ TagsClash t t' := by
  unfold TagsClash
  split
  · rename_i hfits
    rw [hfits.1.inBuffer_eq, hfits.2.inBuffer_eq]
    exact ⟨text_injective, congrArg GenName.text⟩
  · rfl

theorem inBuffer_eq_instanceName_iff (t : GenName) (counter : Nat) :
    t.inBuffer = (czetInstanceName counter).inBuffer ↔ t = czetInstanceName counter := by
  rw [(czetInstanceName_fits counter).inBuffer_eq]
  constructor
  · intro h
    have hlength := congrArg List.length h
    have hshort := czetInstanceName_text_length counter
    simp only [GenName.inBuffer, List.length_take] at hlength
    have hfits : t.Fits := by unfold GenName.Fits; omega
    rw [hfits.inBuffer_eq] at h
    exact text_injective h
  · rintro rfl
    exact (czetInstanceName_fits counter).inBuffer_eq

end Text

section Unit

private theorem mem_instances_iff (s : NameState) (x : List Char) (r : InstRequest) :
    (x, r) ∈ s.instances ↔ ∃ n, s.created[n]? = some r ∧ (czetInstanceName n).inBuffer = x := by
  simp only [NameState.instances, List.mem_map, Prod.mk.injEq, Prod.exists,
    List.mem_zipIdx_iff_getElem?]
  constructor
  · rintro ⟨r', n, hn, hx, rfl⟩
    exact ⟨n, hn, hx⟩
  · rintro ⟨n, hn, hx⟩
    exact ⟨r, n, hn, hx, rfl⟩

private theorem mem_instanceNames_iff (s : NameState) (x : List Char) :
    x ∈ s.instances.map Prod.fst ↔
      ∃ n, n < s.created.length ∧ (czetInstanceName n).inBuffer = x := by
  rw [List.mem_map]
  constructor
  · rintro ⟨⟨x', r⟩, hmem, rfl⟩
    obtain ⟨n, hn, hx⟩ := (mem_instances_iff s _ _).mp hmem
    exact ⟨n, (List.getElem?_eq_some_iff.mp hn).1, hx⟩
  · rintro ⟨n, hn, hx⟩
    exact ⟨(x, s.created[n]), (mem_instances_iff s _ _).mpr ⟨n, List.getElem?_eq_getElem hn, hx⟩, rfl⟩

private theorem instanceName_eq_iff (m n : Nat) :
    (czetInstanceName m).inBuffer = (czetInstanceName n).inBuffer ↔ m % 2 ^ 64 = n % 2 ^ 64 := by
  rw [inBuffer_eq_instanceName_iff]
  simp [czetInstanceName]

private theorem instanceNames_nodup_iff (s : NameState) :
    (s.instances.map Prod.fst).Nodup ↔ s.created.length ≤ 2 ^ 64 := by
  have hnames : s.instances.map Prod.fst =
      (List.range s.created.length).map fun n => (czetInstanceName n).inBuffer := by
    rw [NameState.instances, List.map_map, List.range_eq_range', ← List.zipIdx_map_snd 0 s.created,
      List.map_map]
    rfl
  rw [hnames]
  constructor
  · intro hnodup
    by_contra hmany
    have h : 0 = 2 ^ 64 := List.inj_on_of_nodup_map hnodup (List.mem_range.mpr (by omega))
      (List.mem_range.mpr (by omega)) ((instanceName_eq_iff _ _).mpr (by decide))
    exact absurd h (by decide)
  · intro hfew
    refine List.Nodup.map_on ?_ List.nodup_range
    intro m hm n hn heq
    rw [instanceName_eq_iff] at heq
    rw [List.mem_range] at hm hn
    rwa [Nat.mod_eq_of_lt (by omega), Nat.mod_eq_of_lt (by omega)] at heq

private theorem not_instanceName_iff {s : NameState} (hcount : s.created.length ≤ 2 ^ 64)
    (g : GenName) : (∀ n < s.created.length, g ≠ czetInstanceName n) ↔
      (g.stem = "f" → s.created.length ≤ g.number) := by
  constructor
  · intro h hstem
    by_contra hlt
    rw [Nat.not_le] at hlt
    refine h g.number hlt ?_
    rw [czetInstanceName, Nat.mod_eq_of_lt (Nat.lt_of_lt_of_le hlt hcount), ← hstem]
  · rintro h n hn rfl
    have := h rfl
    simp only [czetInstanceName, Nat.mod_eq_of_lt (Nat.lt_of_lt_of_le hn hcount)] at this
    omega

private theorem tags_nodup_iff (s : NameState) :
    (s.tags.map GenName.inBuffer).Nodup ↔ s.tags.Pairwise fun t t' => ¬ TagsClash t t' := by
  rw [List.Nodup, List.pairwise_map]
  simp only [ne_eq, inBuffer_eq_iff]

private theorem instances_disjoint_tags_iff {s : NameState} (hcount : s.created.length ≤ 2 ^ 64) :
    (s.instances.map Prod.fst).Disjoint (s.tags.map GenName.inBuffer) ↔
      ∀ t ∈ s.tags, t.stem = "f" → s.created.length ≤ t.number := by
  constructor
  · intro h t ht
    rw [← not_instanceName_iff hcount t]
    rintro n hn heq
    exact h ((mem_instanceNames_iff s _).mpr ⟨n, hn, rfl⟩)
      (List.mem_map.mpr ⟨t, ht, (inBuffer_eq_instanceName_iff t n).mpr heq⟩)
  · intro h x hinst htag
    obtain ⟨n, hn, rfl⟩ := (mem_instanceNames_iff s _).mp hinst
    obtain ⟨t, ht, heq⟩ := List.mem_map.mp htag
    exact (not_instanceName_iff hcount t).mpr (h t ht) n hn
      ((inBuffer_eq_instanceName_iff t n).mp heq)

private theorem instances_disjoint_hygiene_iff {s : NameState}
    (hcount : s.created.length ≤ 2 ^ 64) :
    (∀ x ∈ s.instances.map Prod.fst, x ∉ s.hygieneIdents) ↔
      ∀ h ∈ s.hygiene, h.stem = "f" → s.created.length ≤ h.number := by
  constructor
  · intro hdisj h hh
    rw [← not_instanceName_iff hcount h]
    rintro n hn rfl
    refine hdisj _ ((mem_instanceNames_iff s _).mpr ⟨n, hn, rfl⟩) (List.mem_map.mpr ⟨_, hh, ?_⟩)
    exact (czetInstanceName_fits n).inBuffer_eq.symm
  · intro hsep x hinst hhyg
    obtain ⟨n, hn, rfl⟩ := (mem_instanceNames_iff s _).mp hinst
    obtain ⟨h, hh, heq⟩ := List.mem_map.mp hhyg
    rw [(czetInstanceName_fits n).inBuffer_eq] at heq
    exact (not_instanceName_iff hcount h).mpr (hsep h hh) n hn (text_injective heq)

private theorem tags_disjoint_hygiene_iff (s : NameState) :
    (∀ x ∈ s.tags.map GenName.inBuffer, x ∉ s.hygieneIdents) ↔
      ∀ t ∈ s.tags, ∀ h ∈ s.hygiene, ¬ TagClash t h := by
  simp only [NameState.hygieneIdents, List.mem_map, forall_exists_index, and_imp,
    forall_apply_eq_imp_iff₂, not_exists, not_and, ← inBuffer_eq_text_iff]
  constructor
  · intro h t ht o ho heq
    exact h t ht o ho heq.symm
  · intro h t ht o ho heq
    exact h t ht o ho heq.symm

theorem unitFresh_iff (s : NameState) : UnitFresh s ↔ UnitSeparate s := by
  unfold UnitFresh NameState.instanceIdents
  rw [List.nodup_append', instanceNames_nodup_iff, tags_nodup_iff]
  simp only [List.forall_mem_append]
  constructor
  · rintro ⟨⟨hcount, htags, hdisj⟩, hhyg, htaghyg⟩
    exact ⟨hcount, (instances_disjoint_hygiene_iff hcount).mp hhyg,
      (instances_disjoint_tags_iff hcount).mp hdisj, (tags_disjoint_hygiene_iff s).mp htaghyg, htags⟩
  · rintro ⟨hcount, hhyg, htag, htaghyg, htags⟩
    exact ⟨⟨hcount, htags, (instances_disjoint_tags_iff hcount).mpr htag⟩,
      (instances_disjoint_hygiene_iff hcount).mpr hhyg, (tags_disjoint_hygiene_iff s).mpr htaghyg⟩

end Unit

private theorem shared_iff {s t : NameState} (hs : s.created.length ≤ 2 ^ 64)
    (ht : t.created.length ≤ 2 ^ 64) (same : InstRequest → InstRequest → Prop) :
    (∀ p ∈ s.instances, ∀ q ∈ t.instances, p.1 = q.1 → same p.2 q.2) ↔
      ∀ (n : Nat) (r r' : InstRequest), s.created[n]? = some r → t.created[n]? = some r' →
        same r r' := by
  constructor
  · intro h n r r' hr hr'
    exact h ((czetInstanceName n).inBuffer, r) ((mem_instances_iff s _ _).mpr ⟨n, hr, rfl⟩)
      ((czetInstanceName n).inBuffer, r') ((mem_instances_iff t _ _).mpr ⟨n, hr', rfl⟩) rfl
  · rintro h ⟨x, r⟩ hp ⟨y, r'⟩ hq hxy
    obtain ⟨m, hm, rfl⟩ := (mem_instances_iff s _ _).mp hp
    obtain ⟨n, hn, hy⟩ := (mem_instances_iff t _ _).mp hq
    have hmn := (instanceName_eq_iff m n).mp (hxy.trans hy.symm)
    have hmlt := (List.getElem?_eq_some_iff.mp hm).1
    have hnlt := (List.getElem?_eq_some_iff.mp hn).1
    rw [Nat.mod_eq_of_lt (by omega), Nat.mod_eq_of_lt (by omega)] at hmn
    exact h m r r' hm (hmn ▸ hn)

/-- The generated names of a program are fresh if and only if its units are separate: in each unit
the numbers given to one stem do not meet, and any two units create the same instances in the same
places. -/
theorem programFresh_iff (target : Target) (units : List (TransUnit D)) :
    ProgramFresh target units ↔ ProgramSeparate target units := by
  unfold ProgramFresh ProgramSeparate
  simp only [unitFresh_iff]
  refine and_congr_right fun hunits => ?_
  refine List.Pairwise.iff_of_mem fun {u v} hu hv => ?_
  exact shared_iff (hunits u hu).counter (hunits v hv).counter (SamePair u v)

section Programs

private def sumInt : InstRequest := ⟨0x7f3200, [{ type := .integer .int }]⟩

private def scaleDouble : InstRequest := ⟨0x7f3200, [{ type := .real .double }]⟩

/-- The first generic call of two units: `sum<int>` in one and `scale<double>` in the other, where
their templates happen to have one address. -/
private def linkedUnits : List (TransUnit String) :=
  [⟨fun _ => "sum", [.call sumInt]⟩, ⟨fun _ => "scale", [.call scaleDouble]⟩]

/-- Two units that use different generic functions define one external symbol. -/
theorem linked_units_share_symbol : ¬ ProgramFresh (lp64 fun _ => 0) linkedUnits := by
  rintro ⟨-, hpair⟩
  obtain ⟨hcross, -⟩ := List.pairwise_cons.mp hpair
  have hdef := (hcross ⟨fun _ => "scale", [.call scaleDouble]⟩ (by simp)
    ((czetInstanceName 0).inBuffer, sumInt) (List.mem_singleton.mpr rfl)
    ((czetInstanceName 0).inBuffer, scaleDouble) (List.mem_singleton.mpr rfl) rfl).1
  exact absurd hdef (by decide)

end Programs

end CZet.Names
