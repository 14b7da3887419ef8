/- source: src/gcc/gcc/c/c-decl.cc (czet_build_instance_decl, czet_instance_name)
   digest: The declarations of generic function instances and the key that decides which calls
     share one. -/

import CZet.Generic.TypeArgs
import CZet.Lib.Delimited
import CZet.Lib.KeyedMemo

set_option autoImplicit false
set_option relaxedAutoImplicit false

namespace CZet.InstanceDecl

open CZet.Lib.Delimited CZet.Lib.KeyedMemo

/-- A generic call: the address of the template's `FUNCTION_DECL` and the type arguments. -/
structure InstRequest where
  templ : UInt64
  types : List TypeArg

/-- `"%p:"`. -/
def keyHeader (templ : UInt64) : List Char :=
  '0' :: 'x' :: (Nat.toDigits 16 templ.toNat ++ [':'])

/-- `"%ld"` for the size of an integer type, or for -1. -/
def sizeText : Option Nat → List Char
  | some bits => (toString bits).toList
  | none => "-1".toList

/-- `"|%s@%ld"` for one type argument. -/
def keyPiece (target : Target) (a : TypeArg) : List Char :=
  '|' :: ((a.typeDeclName.getD "?").toList ++ '@' :: sizeText (a.integerSize target))

/-- The loop over the type arguments: `off` counts the characters that were to be written, of
which a `key[512]` holds the first 511. -/
def keyLoop (target : Target) : List Char → Nat → List TypeArg → List Char
  | key, _, [] => key
  | key, off, a :: types =>
      if off < 511 then
        keyLoop target (key ++ (keyPiece target a).take (511 - off))
          (off + (keyPiece target a).length) types
      else key

def instanceKey (target : Target) (r : InstRequest) : List Char :=
  keyLoop target ((keyHeader r.templ).take 511) (keyHeader r.templ).length r.types

/-- `czet_build_instance_decl`: the instances are numbered in the order of their creation. -/
def czetBuildInstanceDecl (target : Target) (r : InstRequest) (m : Memo InstRequest (List Char)) :
    Nat × Memo InstRequest (List Char) :=
  serve (instanceKey target) (.mk r []) m

/-- The instances returned for a sequence of calls. -/
def buildInstanceDecls (target : Target) :
    List InstRequest → Memo InstRequest (List Char) → List Nat
  | [], _ => []
  | r :: rs, m =>
      (czetBuildInstanceDecl target r m).1 ::
        buildInstanceDecls target rs (czetBuildInstanceDecl target r m).2

section Header

private theorem digitChar_injective {a b : Nat} (ha : a < 16) (hb : b < 16)
    (h : a.digitChar = b.digitChar) : a = b := by
  have hall : ∀ a, a < 16 → ∀ b, b < 16 → a.digitChar = b.digitChar → a = b := by decide
  exact hall a ha b hb h

private theorem toDigits_injective {m n : Nat} (h : Nat.toDigits 16 m = Nat.toDigits 16 n) :
    m = n := by
  induction m using Nat.strongRecOn generalizing n with
  | ind m ih =>
      rw [Nat.toDigits_eq_if (by decide), Nat.toDigits_eq_if (n := n) (by decide)] at h
      split at h <;> split at h
      · rename_i hm hn
        exact digitChar_injective hm hn (List.singleton_inj.mp h)
      · have := congrArg List.length h
        have hpos : 0 < (Nat.toDigits 16 (n / 16)).length := Nat.length_toDigits_pos
        simp only [List.length_append, List.length_singleton] at this
        omega
      · have := congrArg List.length h
        have hpos : 0 < (Nat.toDigits 16 (m / 16)).length := Nat.length_toDigits_pos
        simp only [List.length_append, List.length_singleton] at this
        omega
      · rename_i hm hn
        obtain ⟨hquot, hrem⟩ := List.append_inj' h rfl
        have hdiv := ih (m / 16) (by omega) hquot
        have hmod := digitChar_injective (Nat.mod_lt _ (by decide)) (Nat.mod_lt _ (by decide))
          (List.singleton_inj.mp hrem)
        omega

private theorem colon_not_mem_toDigits (n : Nat) : ':' ∉ Nat.toDigits 16 n := by
  have hdigit : ∀ d, d < 16 → ':' ≠ d.digitChar := by decide
  induction n using Nat.strongRecOn with
  | ind n ih =>
      rw [Nat.toDigits_eq_if (by decide)]
      split
      · rename_i hn
        exact fun hmem => hdigit n hn (List.mem_singleton.mp hmem)
      · rename_i hn
        have hlt : n % 16 < 16 := Nat.mod_lt _ (by decide)
        rw [List.mem_append, not_or]
        exact ⟨ih (n / 16) (by omega), fun hmem => hdigit _ hlt (List.mem_singleton.mp hmem)⟩

theorem keyHeader_injective {s t : UInt64} (h : keyHeader s = keyHeader t) : s = t := by
  simp only [keyHeader, List.cons.injEq, true_and] at h
  exact UInt64.toNat_inj.mp (toDigits_injective (List.append_inj' h rfl).1)

theorem keyHeader_length_le (t : UInt64) : (keyHeader t).length ≤ 19 := by
  have := Nat.toDigits_length 16 t.toNat 16 (by decide) (by simpa using t.toNat_lt)
  simp only [keyHeader, List.length_cons, List.length_append, List.length_nil]
  omega

private theorem keyHeader_ended (t : UInt64) : keyHeader t ∈ ended ':' :=
  ⟨'0' :: 'x' :: Nat.toDigits 16 t.toNat, by simp [colon_not_mem_toDigits], rfl⟩

end Header

theorem keyPiece_started (target : Target) (a : TypeArg) : keyPiece target a ∈ started '|' := by
  refine ⟨_, ?_, rfl⟩
  simp only [List.mem_append, List.mem_cons, not_or]
  refine ⟨?_, by decide, ?_⟩
  · cases hname : a.typeDeclName with
    | none => decide
    | some name => exact TypeArg.not_mem_typeDeclName hname (.inl rfl)
  · cases a.integerSize target with
    | some bits => exact not_mem_decimal (by decide) bits
    | none => decide

private theorem keyLoop_eq (target : Target) (text : List Char) (types : List TypeArg) :
    keyLoop target (text.take 511) text.length types =
      (text ++ (types.map (keyPiece target)).flatten).take 511 := by
  induction types generalizing text with
  | nil => simp [keyLoop]
  | cons a types ih =>
      simp only [keyLoop, List.map_cons, List.flatten_cons]
      split
      · have hkey : text.take 511 ++ (keyPiece target a).take (511 - text.length) =
            (text ++ keyPiece target a).take 511 := by rw [List.take_append]
        rw [hkey, ← List.length_append, ih, List.append_assoc]
      · rw [List.take_append_of_le_length (by omega)]

/-- The key is the header and as much of the summaries of the types as fits behind it. -/
theorem instanceKey_eq (target : Target) (r : InstRequest) :
    instanceKey target r = keyHeader r.templ ++
      ((r.types.map (keyPiece target)).flatten).take (511 - (keyHeader r.templ).length) := by
  have := keyHeader_length_le r.templ
  rw [instanceKey, keyLoop_eq, List.take_append, List.take_of_length_le (by omega)]

/-- The summaries of the type arguments as far as the key holds them. -/
def keySummaries (target : Target) (r : InstRequest) : List (List Char) :=
  fitting (511 - (keyHeader r.templ).length) (r.types.map (keyPiece target))

theorem instanceKey_eq_iff (target : Target) (r s : InstRequest) :
    instanceKey target r = instanceKey target s ↔
      r.templ = s.templ ∧ keySummaries target r = keySummaries target s := by
  have hstarted : ∀ q : InstRequest, ∀ w ∈ q.types.map (keyPiece target), w ∈ started '|' := by
    intro q w hw
    obtain ⟨a, -, rfl⟩ := List.mem_map.mp hw
    exact keyPiece_started target a
  rw [instanceKey_eq, instanceKey_eq]
  constructor
  · intro h
    obtain ⟨hheader, hrest⟩ := (ended_prefixFree ':').eq_of_append_eq
      (keyHeader_ended r.templ) (keyHeader_ended s.templ) h
    have htempl := keyHeader_injective hheader
    rw [htempl] at hrest
    refine ⟨htempl, ?_⟩
    rw [keySummaries, keySummaries, htempl]
    exact (take_flatten_eq_iff (hstarted r) (hstarted s) _).mp hrest
  · rintro ⟨htempl, hsummaries⟩
    rw [keySummaries, keySummaries, htempl] at hsummaries
    rw [htempl, (take_flatten_eq_iff (hstarted r) (hstarted s) _).mpr hsummaries]

/-- The key shows two types in the same way: both are integer types with the same `TYPE_DECL`
name and size, or neither is an integer type. -/
def SameSummary (target : Target) (a b : TypeArg) : Prop :=
  a.typeDeclName.getD "?" = b.typeDeclName.getD "?" ∧
    a.integerSize target = b.integerSize target

instance (target : Target) (a b : TypeArg) : Decidable (SameSummary target a b) :=
  inferInstanceAs (Decidable (_ ∧ _))

private theorem sizeText_injective {m n : Option Nat} (h : sizeText m = sizeText n) : m = n := by
  have hminus : ∀ k : Nat, (toString k).toList ≠ "-1".toList := by
    intro k hk
    refine not_mem_decimal (show '-'.isDigit = false by decide) k ?_
    rw [hk]
    decide
  cases m <;> cases n
  · rfl
  · exact absurd h.symm (hminus _)
  · exact absurd h (hminus _)
  · exact congrArg some (decimal_injective h)

theorem keyPiece_eq_iff (target : Target) (a b : TypeArg) :
    keyPiece target a = keyPiece target b ↔ SameSummary target a b := by
  have hname : ∀ c : TypeArg, '@' ∉ (c.typeDeclName.getD "?").toList := by
    intro c
    cases hc : c.typeDeclName with
    | none => decide
    | some name => exact TypeArg.not_mem_typeDeclName hc (.inr rfl)
  constructor
  · intro h
    rw [keyPiece, keyPiece, List.cons.injEq] at h
    -- the name ends at the first `@`
    obtain ⟨hnames, hsizes⟩ := (ended_prefixFree '@').eq_of_append_eq ⟨_, hname a, rfl⟩
      ⟨_, hname b, rfl⟩ (by simpa using h.2)
    exact ⟨String.toList_injective (List.append_cancel_right hnames), sizeText_injective hsizes⟩
  · rintro ⟨hnames, hsizes⟩
    rw [keyPiece, keyPiece, hnames, hsizes]

/-- The first `room` characters of the summaries tell two lists of types apart. -/
def Distinguishes (target : Target) : Nat → List TypeArg → List TypeArg → Prop
  | _, [], [] => False
  | room, [], _ :: _ => 0 < room
  | room, _ :: _, [] => 0 < room
  | room, a :: as, b :: bs =>
      if SameSummary target a b then Distinguishes target (room - (keyPiece target a).length) as bs
      else (keyPiece target a).take room ≠ (keyPiece target b).take room

theorem fitting_eq_iff_not_distinguishes (target : Target) (room : Nat) (as bs : List TypeArg) :
    fitting room (as.map (keyPiece target)) = fitting room (bs.map (keyPiece target)) ↔
      ¬ Distinguishes target room as bs := by
  induction as generalizing room bs with
  | nil =>
      cases bs with
      | nil => simp [Distinguishes]
      | cons b bs => cases room <;> simp [Distinguishes, fitting]
  | cons a as ih =>
      cases bs with
      | nil => cases room <;> simp [Distinguishes, fitting]
      | cons b bs =>
          simp only [List.map_cons, Distinguishes]
          split
          · rename_i hsame
            rw [← (keyPiece_eq_iff target a b).mpr hsame, fitting_cons_eq_iff, ih]
          · rename_i hdiff
            rw [fitting_cons_eq_iff_of_ne fun h => hdiff ((keyPiece_eq_iff target a b).mp h),
              not_ne_iff]

/-- Two calls name the same instance. -/
def SameInstance (r s : InstRequest) : Prop := r.templ = s.templ ∧ SameTypes r.types s.types

/-- The key of two calls of one template tells their types apart exactly when they differ. -/
def KeyTells (target : Target) (r s : InstRequest) : Prop :=
  r.templ = s.templ →
    (Distinguishes target (511 - (keyHeader r.templ).length) r.types s.types ↔
      ¬ SameTypes r.types s.types)

private theorem mem_log_of_mem_zip (target : Target) (reqs : List InstRequest)
    (m : Memo InstRequest (List Char)) {p : InstRequest × Nat}
    (hp : p ∈ reqs.zip (buildInstanceDecls target reqs m)) :
    p ∈ (serveAll (instanceKey target) (reqs.map (.mk · [])) m).log := by
  induction reqs generalizing m with
  | nil => simp at hp
  | cons r reqs ih =>
      simp only [buildInstanceDecls, List.zip_cons_cons, List.mem_cons] at hp
      simp only [List.map_cons, serveAll]
      rcases hp with rfl | hp
      · exact log_subset_serveAll _ _ _ (answer_mem_log (instanceKey target) r [] m)
      · exact ih _ hp

private theorem flat_notSelfNested (target : Target) (reqs : List InstRequest) :
    allNotSelfNested (instanceKey target) [] (reqs.map (.mk · [])) := by
  induction reqs with
  | nil => trivial
  | cons r reqs ih => exact ⟨⟨by simp, trivial⟩, ih⟩

theorem instanceDecl_eq_iff_key (target : Target) (reqs : List InstRequest)
    {p q : InstRequest × Nat}
    (hp : p ∈ reqs.zip (buildInstanceDecls target reqs Memo.empty))
    (hq : q ∈ reqs.zip (buildInstanceDecls target reqs Memo.empty)) :
    p.2 = q.2 ↔ p.1.templ = q.1.templ ∧
      ¬ Distinguishes target (511 - (keyHeader p.1.templ).length) p.1.types q.1.types := by
  obtain ⟨hconsistent, -⟩ := serveAll_consistent [] (reqs.map (.mk · [])) Memo.empty
    (Memo.empty_consistent (instanceKey target)) (flat_notSelfNested target reqs)
  rw [hconsistent.answers_eq_iff (mem_log_of_mem_zip target reqs _ hp)
    (mem_log_of_mem_zip target reqs _ hq), instanceKey_eq_iff]
  refine and_congr_right fun htempl => ?_
  rw [keySummaries, keySummaries, ← htempl, fitting_eq_iff_not_distinguishes]

theorem buildInstanceDecls_length (target : Target) (reqs : List InstRequest)
    (m : Memo InstRequest (List Char)) :
    (buildInstanceDecls target reqs m).length = reqs.length := by
  induction reqs generalizing m with
  | nil => rfl
  | cons r reqs ih => simp only [buildInstanceDecls, List.length_cons, ih]

/-- Over any sequence of generic calls, two of them share their instance exactly when they name
the same one, if and only if their keys tell the two apart or together. -/
theorem instanceDecl_identity_iff (target : Target) (reqs : List InstRequest) :
    (buildInstanceDecls target reqs Memo.empty).length = reqs.length ∧
      ∀ p ∈ reqs.zip (buildInstanceDecls target reqs Memo.empty),
      ∀ q ∈ reqs.zip (buildInstanceDecls target reqs Memo.empty),
        (p.2 = q.2 ↔ SameInstance p.1 q.1) ↔ KeyTells target p.1 q.1 := by
  refine ⟨buildInstanceDecls_length target reqs _, ?_⟩
  intro p hp q hq
  rw [instanceDecl_eq_iff_key target reqs hp hq, KeyTells, SameInstance]
  constructor
  · intro h htempl
    simp only [htempl, true_and] at h ⊢
    rw [← h, not_not]
  · intro h
    refine and_congr_right fun htempl => ?_
    rw [h htempl, not_not]

section Calls

private def callWith (type : CType) : InstRequest := ⟨0x7f3200, [{ type := type }]⟩

/-- The calls `f<int>` and `f<unsigned>` get instances of their own. -/
theorem int_and_unsigned_calls :
    buildInstanceDecls (lp64 fun _ => 0)
        [callWith (.integer .int), callWith (.integer .unsignedInt)] Memo.empty = [0, 1] ∧
      ((0 = 1 ↔ SameInstance (callWith (.integer .int)) (callWith (.integer .unsignedInt))) ↔
        KeyTells (lp64 fun _ => 0) (callWith (.integer .int))
          (callWith (.integer .unsignedInt))) := by
  have hrun : buildInstanceDecls (lp64 fun _ => 0)
      [callWith (.integer .int), callWith (.integer .unsignedInt)] Memo.empty = [0, 1] := by
    decide +kernel
  refine ⟨hrun, ?_⟩
  have hiff := (instanceDecl_identity_iff (lp64 fun _ => 0)
    [callWith (.integer .int), callWith (.integer .unsignedInt)]).2
  rw [hrun] at hiff
  exact hiff (callWith (.integer .int), 0) (by simp) (callWith (.integer .unsignedInt), 1)
    (by simp)

/-- The calls `f<float>` and `f<double>` share one instance. -/
theorem float_and_double_share_instance :
    ¬ ∀ p ∈ [callWith (.real .float), callWith (.real .double)].zip
          (buildInstanceDecls (lp64 fun _ => 0)
            [callWith (.real .float), callWith (.real .double)] Memo.empty),
      ∀ q ∈ [callWith (.real .float), callWith (.real .double)].zip
          (buildInstanceDecls (lp64 fun _ => 0)
            [callWith (.real .float), callWith (.real .double)] Memo.empty),
        (p.2 = q.2 ↔ SameInstance p.1 q.1) := by
  have hrun : buildInstanceDecls (lp64 fun _ => 0)
      [callWith (.real .float), callWith (.real .double)] Memo.empty = [0, 0] := by
    decide +kernel
  rw [hrun]
  intro h
  obtain ⟨-, hsame⟩ := (h (callWith (.real .float), 0) (by simp)
    (callWith (.real .double), 0) (by simp)).mp rfl
  cases hsame with
  | cons htype _ => exact absurd htype.2 (by simp)

end Calls

end CZet.InstanceDecl
