/- source: src/czet.c (safe_name, mkdirs, extract_tar)
   digest: Where the extractor writes: the names that its filter accepts lead out of the base
     directory exactly when they start with "../". -/

import CZet.Driver.Tar
import CZet.Lib.PathNames

set_option autoImplicit false
set_option relaxedAutoImplicit false

namespace CZet.Driver.Tar

open CZet.Lib.PathNames

section SafeNames

/-- "." and ".." between slashes. -/
def pathDots : Dots slash where
  here := [dot]
  up := [dot, dot]
  here_isPart := by decide
  up_isPart := by decide
  here_ne_up := by decide

private def Refused (b : CStr) : Prop := b = [] ∨ b.head? = some slash

private theorem strstr_none {needle s : CStr} (h : strstr needle s = none) (b : CStr) :
    ¬ needle ++ b <:+ s := by
  induction s with
  | nil =>
      intro hsuffix
      obtain ⟨rfl, rfl⟩ := List.append_eq_nil_iff.mp (List.suffix_nil.mp hsuffix)
      cases h
  | cons c s ih =>
      rw [strstr] at h
      split at h
      next => cases h
      next hhere =>
        intro hsuffix
        rcases List.suffix_cons_iff.mp hsuffix with heq | hrest
        · exact hhere (heq ▸ List.prefix_append needle b)
        · exact ih h hrest

private theorem strstr_some {needle s u : CStr} (h : strstr needle s = some u) :
    needle <+: u ∧ u <:+ s ∧ ∀ b, needle ++ b <:+ s → needle ++ b <:+ u := by
  induction s with
  | nil =>
      rw [strstr] at h
      split at h
      next hnil =>
        obtain rfl := Option.some.inj h
        exact ⟨hnil ▸ List.nil_prefix, List.suffix_rfl, fun _ hb => hb⟩
      next => cases h
  | cons c s ih =>
      rw [strstr] at h
      split at h
      next hhere =>
        obtain rfl := Option.some.inj h
        exact ⟨hhere, List.suffix_rfl, fun _ hb => hb⟩
      next hhere =>
        obtain ⟨hinit, hsuffix, hall⟩ := ih h
        refine ⟨hinit, hsuffix.trans (List.suffix_cons c s), fun b hb => ?_⟩
        rcases List.suffix_cons_iff.mp hb with heq | hrest
        · exact absurd (heq ▸ List.prefix_append needle b) hhere
        · exact hall b hrest

/-- The dots of an occurrence of "/.." start no other one. -/
private theorem occurrence_cases {b b' : CStr}
    (h : [slash, dot, dot] ++ b' <:+ [slash, dot, dot] ++ b) :
    b' = b ∨ [slash, dot, dot] ++ b' <:+ b := by
  simp only [List.cons_append, List.nil_append, List.suffix_cons_iff, List.cons.injEq] at h ⊢
  rcases h with ⟨-, -, -, heq⟩ | ⟨hdot, -⟩ | ⟨hdot, -⟩ | hrest
  · exact Or.inl heq
  · exact absurd hdot (by decide)
  · exact absurd hdot (by decide)
  · exact Or.inr hrest

private theorem safeNameLoop_iff (fuel : Nat) (s : CStr) (hfuel : s.length ≤ fuel) :
    safeNameLoop fuel s = true ↔ ∀ b, [slash, dot, dot] ++ b <:+ s → ¬ Refused b := by
  induction fuel generalizing s with
  | zero =>
      obtain rfl := List.length_eq_zero_iff.mp (Nat.le_zero.mp hfuel)
      refine iff_of_true rfl fun b hb => ?_
      cases List.suffix_nil.mp hb
  | succ fuel ih =>
      rw [safeNameLoop]
      cases hfound : strstr [slash, dot, dot] s with
      | none => exact iff_of_true rfl fun b hb => absurd hb (strstr_none hfound b)
      | some u =>
          obtain ⟨⟨rest, rfl⟩, hsuffix, hall⟩ := strstr_some hfound
          have hlen : rest.length ≤ fuel := by
            have hle := hsuffix.length_le
            rw [List.length_append] at hle
            have hthree : [slash, dot, dot].length = 3 := rfl
            omega
          have hnext : ([slash, dot, dot] ++ rest)[3]? = rest.head? := by
            cases rest <;> rfl
          have hdrop : ([slash, dot, dot] ++ rest).drop 3 = rest := rfl
          have hrefused : rest.head? = some slash ∨ rest.head? = none ↔ Refused rest := by
            rw [Refused, List.head?_eq_none_iff, or_comm]
          dsimp only
          rw [hnext, hdrop]
          by_cases hbad : Refused rest
          · rw [if_pos (hrefused.mpr hbad)]
            exact iff_of_false Bool.false_ne_true fun hgood => hgood rest hsuffix hbad
          · rw [if_neg (mt hrefused.mp hbad), ih rest hlen]
            constructor
            · intro hgood b hb
              rcases occurrence_cases (hall b hb) with rfl | hrest
              · exact hbad
              · exact hgood b hrest
            · intro hgood b hb
              exact hgood b ((hb.trans (List.suffix_append _ rest)).trans hsuffix)

/-- The filter accepts the names that are not absolute and in which a part ".." can only be the first
of several. -/
theorem safeName_iff (name : CStr) :
    safeName name = true ↔ name.head? ≠ some slash ∧
      ∀ a b, name = a ++ pathDots.up ++ b → (a = [] ∨ ∃ a', a = a' ++ [slash]) →
        (b = [] ∨ ∃ b', b = slash :: b') → a = [] ∧ b ≠ [] := by
  have hup : pathDots.up = [dot, dot] := rfl
  have hsplit : ∀ a' b : CStr, a' ++ [slash] ++ pathDots.up ++ b =
    a' ++ ([slash, dot, dot] ++ b) := by
    intro a' b
    rw [hup, List.append_assoc, List.append_assoc]
    rfl
  rw [safeName]
  split
  next habs => exact iff_of_false Bool.false_ne_true fun h => h.1 habs
  next habs =>
    split
    next hdots =>
      refine iff_of_false Bool.false_ne_true fun h => ?_
      exact (h.2 [] [] (by rw [hdots]; rfl) (Or.inl rfl) (Or.inl rfl)).2 rfl
    next hdots =>
      rw [safeNameLoop_iff name.length name (Nat.le_refl _), and_iff_right habs]
      constructor
      · rintro hgood a b rfl ha hb
        rcases ha with rfl | ⟨a', rfl⟩
        · refine ⟨rfl, ?_⟩
          rintro rfl
          exact hdots (List.append_nil _)
        · refine absurd ?_ (hgood b ⟨a', (hsplit a' b).symm⟩)
          rcases hb with rfl | ⟨b', rfl⟩
          · exact Or.inl rfl
          · exact Or.inr rfl
      · rintro hgood b ⟨a', rfl⟩ hbad
        have hb : b = [] ∨ ∃ b', b = slash :: b' :=
          hbad.imp_right fun hhead => ⟨b.tail, List.eq_cons_of_mem_head? hhead⟩
        have hfirst := hgood (a' ++ [slash]) b (hsplit a' b).symm (Or.inr ⟨a', rfl⟩) hb
        exact List.append_ne_nil_of_right_ne_nil a' (List.cons_ne_nil slash []) hfirst.1

theorem safeName_of_not_mem {name : CStr} (habs : name.head? ≠ some slash)
    (hup : pathDots.up ∉ name.splitOn slash) : safeName name = true := by
  refine (safeName_iff name).mpr ⟨habs, fun a b heq ha hb => absurd ?_ hup⟩
  exact (mem_splitOn_iff pathDots.up_isPart.2).mpr ⟨a, b, heq, ha, hb⟩

theorem accepted_inside_iff {name : CStr} (h : safeName name = true) :
    StaysInside pathDots name ↔ ¬ [dot, dot, slash] <+: name := by
  constructor
  · rintro hinside ⟨b, rfl⟩
    exact not_staysInside_up b hinside
  · intro hstart
    refine staysInside_of_not_mem fun hmem => hstart ?_
    obtain ⟨a, b, rfl, ha, hb⟩ := (mem_splitOn_iff pathDots.up_isPart.2).mp hmem
    obtain ⟨rfl, hne⟩ := ((safeName_iff _).mp h).2 a b rfl ha hb
    obtain ⟨b', rfl⟩ := hb.resolve_left hne
    exact ⟨b', rfl⟩

end SafeNames

section Emitting

variable {σ α β : Type} {P : Event → Prop}

/-- Every event that is added to the trace has the property. -/
def Emits (P : Event → Prop) (m : StateM (Proc σ) α) : Prop :=
  ∀ s, ∃ added, (m s).2.trace = s.trace ++ added ∧ ∀ e ∈ added, P e

theorem emits_pure (a : α) : Emits (σ := σ) P (pure a) :=
  fun s => ⟨[], (List.append_nil s.trace).symm, fun _ he => absurd he List.not_mem_nil⟩

theorem Emits.bind {m : StateM (Proc σ) α} {k : α → StateM (Proc σ) β} (hm : Emits P m)
    (hk : ∀ a, Emits P (k a)) : Emits P (m >>= k) := by
  intro s
  obtain ⟨first, hfirst, hfirstP⟩ := hm s
  obtain ⟨second, hsecond, hsecondP⟩ := hk (m s).1 (m s).2
  refine ⟨first ++ second, ?_, ?_⟩
  · rw [← List.append_assoc, ← hfirst]
    exact hsecond
  · intro e he
    rcases List.mem_append.mp he with he | he
    · exact hfirstP e he
    · exact hsecondP e he

theorem Emits.map {m : StateM (Proc σ) α} (hm : Emits P m) (f : α → β) : Emits P (f <$> m) :=
  fun s => hm s

theorem Emits.mono {Q : Event → Prop} {m : StateM (Proc σ) α} (hm : Emits P m)
    (hPQ : ∀ e, P e → Q e) : Emits Q m := by
  intro s
  obtain ⟨added, hadded, hP⟩ := hm s
  exact ⟨added, hadded, fun e he => hPQ e (hP e he)⟩

theorem emits_ask {sys : System σ} {c : SysCall} (h : ∀ st, P (.call c (sys c st).1)) :
    Emits P (ask sys c) := by
  intro s
  refine ⟨[.call c (sys c s.state).1], rfl, fun e he => ?_⟩
  rw [List.mem_singleton.mp he]
  exact h s.state

theorem emits_getBytes (read : CZet.Lib.FileReads.Reads) (want : Nat) :
    Emits (σ := σ) P (getBytes read want) :=
  fun s => ⟨[], (List.append_nil s.trace).symm, fun _ he => absurd he List.not_mem_nil⟩

end Emitting

section Calls

/-- The calls that are made about an entry at the path `out`. -/
inductive CallFor (out : CStr) : SysCall → Prop
  | mkdir {p : CStr} : p ≠ [] → (p = out ∨ p ++ [slash] <+: out) → CallFor out (.mkdir p)
  | unlink : CallFor out (.unlink out)
  | symlink (target : CStr) : CallFor out (.symlink target out)
  | openTrunc : CallFor out (.openTrunc out)
  | write (fd : Nat) (data : List UInt8) : CallFor out (.write fd data)
  | close (fd : Nat) : CallFor out (.close fd)

/-- A header for which something is created. -/
def Makes (hdr : List UInt8) : Prop := typeflag hdr ∈ [53, 50, 48, 0, 55]

/-- The base directory, as its caller makes it: a path that does not end in a slash. -/
def IsBase (base : CStr) : Prop := base ≠ [] ∧ base.getLast? ≠ some slash

theorem parentOf_append {a b : CStr} (ha : a ≠ []) (hb : slash ∉ b) :
    parentOf (a ++ slash :: b) = a := by
  have hdrop : (a ++ slash :: b).reverse.dropWhile (· ≠ slash) = slash :: a.reverse := by
    rw [List.reverse_append, List.reverse_cons, List.append_assoc, List.dropWhile_append_of_pos]
    · exact List.dropWhile_cons_of_neg (by simp)
    · intro c hc
      have hne : c ≠ slash := fun heq => hb (heq ▸ List.mem_reverse.mp hc)
      exact decide_eq_true hne
  rw [parentOf, hdrop]
  cases hrev : a.reverse with
  | nil => exact absurd (List.reverse_eq_nil_iff.mp hrev) ha
  | cons c rest =>
      show (c :: rest).reverse = a
      rw [← hrev, List.reverse_reverse]

theorem parentOf_base {base : CStr} (hbase : base ≠ []) (rel : CStr) :
    base <+: parentOf (base ++ slash :: rel) ∧
      parentOf (base ++ slash :: rel) ++ [slash] <+: base ++ slash :: rel := by
  by_cases hslash : slash ∈ rel
  · obtain ⟨tail, front, hrev, htail⟩ := List.eq_append_cons_of_mem (List.mem_reverse.mpr hslash)
    have hrel : rel = front.reverse ++ slash :: tail.reverse := by
      rw [← List.reverse_reverse rel, hrev, List.reverse_append, List.reverse_cons,
        List.append_assoc, List.singleton_append]
    have hlast : slash ∉ tail.reverse := fun hmem => htail (List.mem_reverse.mp hmem)
    have hout : base ++ slash :: rel = (base ++ slash :: front.reverse) ++ slash :: tail.reverse := by
      rw [hrel, List.append_assoc, List.cons_append]
    rw [hout, parentOf_append (List.append_ne_nil_of_left_ne_nil hbase _) hlast]
    exact ⟨List.prefix_append base _, ⟨tail.reverse, by simp⟩⟩
  · rw [parentOf_append hbase hslash]
    exact ⟨List.prefix_rfl, ⟨rel, by simp⟩⟩

variable {σ : Type} {sys : System σ} {read : CZet.Lib.FileReads.Reads} {base out : CStr}
  {P : Event → Prop}

private theorem emits_makeDir {path : CStr}
    (h : ∀ st, P (.call (.mkdir path) (sys (.mkdir path) st).1)) : Emits P (makeDir sys path) := by
  refine (emits_ask h).bind fun a => ?_
  cases a with
  | ok n => exact emits_pure _
  | err e => exact emits_pure _

private theorem emits_mkdirsLoop (done rest : CStr) (hdone : done ≠ [])
    (h : ∀ p, p ≠ [] → (p = done ++ rest ∨ p ++ [slash] <+: done ++ rest) →
      ∀ st, P (.call (.mkdir p) (sys (.mkdir p) st).1)) : Emits P (mkdirsLoop sys done rest) := by
  induction rest generalizing done with
  | nil =>
      rw [mkdirsLoop]
      exact emits_makeDir (h done hdone (Or.inl (List.append_nil done).symm))
  | cons c rest ih =>
      have hassoc : done ++ [c] ++ rest = done ++ c :: rest := by
        rw [List.append_assoc, List.singleton_append]
      have hnext : Emits P (mkdirsLoop sys (done ++ [c]) rest) := by
        refine ih (done ++ [c]) (List.append_ne_nil_of_left_ne_nil hdone [c]) ?_
        rw [hassoc]
        exact h
      rw [mkdirsLoop]
      split
      next hslash =>
        have hinit : done ++ [slash] <+: done ++ c :: rest := by
          rw [← hassoc, hslash]
          exact List.prefix_append _ rest
        refine (emits_makeDir (h done hdone (Or.inr hinit))).bind fun made => ?_
        cases made with
        | false => exact emits_pure _
        | true => exact hnext
      next => exact hnext

theorem mkdirs_cuts (hbase : IsBase base) (rel : CStr) :
    ∃ c rest, (parentOf (base ++ slash :: rel)).rdropWhile (· = slash) = c :: rest ∧
      ∀ p, p = c :: rest ∨ p ++ [slash] <+: c :: rest → p ++ [slash] <+: base ++ slash :: rel := by
  obtain ⟨hinit, hparent⟩ := parentOf_base hbase.1 rel
  generalize parentOf (base ++ slash :: rel) = parent at hinit hparent
  -- without its slashes at the end the parent still has the last byte of the base
  have hstripped : parent.rdropWhile (· = slash) ≠ [] := by
    intro hnil
    have hall := List.rdropWhile_eq_nil_iff.mp hnil
    have hlast := hall (base.getLast hbase.1) (hinit.subset (List.getLast_mem hbase.1))
    exact hbase.2 (by rw [List.getLast?_eq_some_getLast hbase.1, of_decide_eq_true hlast])
  have hcut : parent.rdropWhile (· = slash) ++ [slash] <+: parent ++ [slash] := by
    have hsplit := List.rdropWhile_append_rtakeWhile (p := (· = slash)) (l := parent)
    cases hcut : parent.rtakeWhile (· = slash) with
    | nil =>
        rw [hcut, List.append_nil] at hsplit
        rw [hsplit]
    | cons b bs =>
        have hmem : b ∈ parent.rtakeWhile (· = slash) := hcut ▸ List.mem_cons_self
        have hb : b = slash :=
          of_decide_eq_true (List.mem_rtakeWhile_imp (p := (· = slash)) hmem)
        rw [hcut, hb] at hsplit
        refine ⟨bs ++ [slash], ?_⟩
        conv_rhs => rw [← hsplit]
        simp only [List.append_assoc, List.cons_append, List.nil_append]
  obtain ⟨c, rest, heq⟩ := List.exists_cons_of_ne_nil hstripped
  refine ⟨c, rest, heq, fun p hpath => List.IsPrefix.trans ?_ hparent⟩
  rw [← heq] at hpath
  rcases hpath with rfl | hpath
  · exact hcut
  · exact (hpath.trans (List.rdropWhile_prefix _ _)).trans (List.prefix_append parent [slash])

private theorem emits_mkdirs (hbase : IsBase base) (rel : CStr)
    (h : ∀ c, CallFor (base ++ slash :: rel) c → ∀ st, P (.call c (sys c st).1)) :
    Emits P (mkdirs sys (parentOf (base ++ slash :: rel))) := by
  obtain ⟨c, rest, heq, hcuts⟩ := mkdirs_cuts hbase rel
  rw [mkdirs, heq]
  split
  next => exact emits_pure _
  next =>
    exact emits_mkdirsLoop [c] rest (List.cons_ne_nil c []) fun p hp hpath =>
      h (.mkdir p) (.mkdir hp (Or.inr (hcuts p hpath)))

private theorem emits_skipLoop (fuel left : Nat) : Emits (σ := σ) P (skipLoop read fuel left) := by
  induction fuel generalizing left with
  | zero => exact emits_pure _
  | succ fuel ih =>
      rw [skipLoop]
      split
      · exact emits_pure _
      · refine (emits_getBytes read _).bind fun got => ?_
        split
        · exact emits_pure _
        · exact ih _

private theorem emits_skipPadded (fuel size : Nat) :
    Emits (σ := σ) P (skipPadded read fuel size) := by
  refine (emits_skipLoop fuel size).bind fun r => ?_
  split
  · exact emits_skipLoop fuel _
  · exact emits_pure _

section Entries

variable (h : ∀ c, CallFor out c → ∀ st, P (.call c (sys c st).1))
include h

private theorem emits_writeAll (fd fuel : Nat) (data : List UInt8) :
    Emits P (writeAll sys fd fuel data) := by
  induction fuel generalizing data with
  | zero => exact emits_pure _
  | succ fuel ih =>
      rw [writeAll]
      split
      · exact emits_pure _
      · refine (emits_ask (h _ (.write fd data))).bind fun a => ?_
        split
        · exact ih _
        · exact ih _
        · exact emits_pure _

private theorem emits_copyData (fd fuel size : Nat) :
    Emits P (copyData sys read fd fuel size) := by
  induction fuel generalizing size with
  | zero => exact emits_pure _
  | succ fuel ih =>
      rw [copyData]
      split
      · exact emits_pure _
      · refine (emits_getBytes read _).bind fun got => ?_
        split
        · exact emits_pure _
        · refine (emits_writeAll h fd fuel got).bind fun r => ?_
          split
          · exact ih _
          · exact emits_pure _

private theorem emits_extractLink (hdr : List UInt8) : Emits P (extractLink sys hdr out) := by
  have hlink : Emits P (ask sys (.symlink (linkName hdr) out)) := emits_ask (h _ (.symlink _))
  refine (emits_ask (h _ .unlink)).bind fun a => ?_
  split
  · refine hlink.bind fun a => ?_
    split <;> exact emits_pure _
  · refine hlink.bind fun a => ?_
    split <;> exact emits_pure _
  · exact emits_pure _

private theorem emits_extractFile (fuel size : Nat)
    (hparents : Emits P (mkdirs sys (parentOf out))) :
    Emits P (extractFile sys read fuel size out) := by
  refine hparents.bind fun made => ?_
  split
  · refine (emits_ask (h _ .openTrunc)).bind fun a => ?_
    split
    · exact emits_pure _
    · refine (emits_copyData h _ fuel size).bind fun r => ?_
      split
      · exact emits_pure _
      · refine (emits_ask (h _ (.close _))).bind fun a => ?_
        exact (emits_skipLoop fuel _).bind fun r => emits_pure _
  · exact emits_pure _

end Entries

variable (sys read)

theorem emits_extractEntry (hbase : IsBase base) (fuel : Nat) (hdr : List UInt8)
    (h : Makes hdr → safeName (relName hdr) = true → ∀ c, CallFor (base ++ slash :: relName hdr) c →
      ∀ st, P (.call c (sys c st).1)) : Emits P (extractEntry sys read base fuel hdr) := by
  rw [extractEntry]
  split
  · exact emits_skipPadded fuel _
  split
  · exact emits_pure _
  next hsafe =>
    rw [Bool.not_eq_false] at hsafe
    split
    next hdirectory =>
      have hmakes : Makes hdr := by simp [Makes, hdirectory]
      have hout : base ++ slash :: relName hdr ≠ [] := List.append_ne_nil_of_left_ne_nil hbase.1 _
      exact (emits_makeDir (h hmakes hsafe _ (.mkdir hout (Or.inl rfl)))).map some
    split
    next hlink =>
      have hmakes : Makes hdr := by simp [Makes, hlink]
      exact (emits_extractLink (h hmakes hsafe) hdr).map some
    split
    next hregular =>
      have hmakes : Makes hdr := by
        rcases hregular with hflag | hflag | hflag <;> simp [Makes, hflag]
      exact emits_extractFile (h hmakes hsafe) fuel _ (emits_mkdirs hbase _ (h hmakes hsafe))
    next => exact emits_skipPadded fuel _

/-- Whatever happens is a header or a call about a header that has been interpreted. -/
theorem extractTar_calls (hbase : IsBase base) (fuel : Nat) (s : Proc σ) :
    ∃ added, (extractTar sys read base fuel s).2.trace = s.trace ++ added ∧
      ∀ c a, .call c a ∈ added → (∃ st, a = (sys c st).1) ∧
        ∃ pos hdr, .header pos hdr ∈ added ∧ Makes hdr ∧ safeName (relName hdr) = true ∧
          CallFor (base ++ slash :: relName hdr) c := by
  induction fuel generalizing s with
  | zero => exact ⟨[], (List.append_nil _).symm, fun _ _ he => absurd he List.not_mem_nil⟩
  | succ fuel ih =>
      rw [extractTar_succ sys read base fuel s _ rfl]
      generalize CZet.Lib.FileReads.fread read s.pos hdrLen = hdr
      split
      next => exact ⟨[], (List.append_nil _).symm, fun _ _ he => absurd he List.not_mem_nil⟩
      split
      next => exact ⟨[], (List.append_nil _).symm, fun _ _ he => absurd he List.not_mem_nil⟩
      next =>
        -- the header, then what is done about it, then the headers behind it
        have hentry := emits_extractEntry sys read
          (P := fun e => ∃ c st, e = .call c (sys c st).1 ∧ Makes hdr ∧
            safeName (relName hdr) = true ∧ CallFor (base ++ slash :: relName hdr) c)
          hbase fuel hdr (fun hmakes hsafe c hc st => ⟨c, st, rfl, hmakes, hsafe, hc⟩)
          { s with
            pos := s.pos + hdr.length
            trace := s.trace ++ [.header (s.pos + hdr.length - hdrLen) hdr] }
        generalize extractEntry sys read base fuel hdr _ = result at hentry ⊢
        generalize s.pos + hdr.length - hdrLen = pos at hentry
        obtain ⟨r, s₁⟩ := result
        obtain ⟨entry, htrace, hentryP⟩ := hentry
        dsimp only at htrace
        rw [List.append_assoc, List.singleton_append] at htrace
        have hhere : ∀ rest : List Event, ∀ c a, .call c a ∈ Event.header pos hdr :: entry →
            (∃ st, a = (sys c st).1) ∧ ∃ pos' hdr',
              .header pos' hdr' ∈ (.header pos hdr :: entry) ++ rest ∧ Makes hdr' ∧
                safeName (relName hdr') = true ∧ CallFor (base ++ slash :: relName hdr') c := by
          intro rest c a he
          rcases List.mem_cons.mp he with heq | he
          · cases heq
          · obtain ⟨c', st, heq, hmakes, hsafe, hc⟩ := hentryP _ he
            cases heq
            exact ⟨⟨st, rfl⟩, pos, hdr, List.mem_append_left _ List.mem_cons_self, hmakes, hsafe, hc⟩
        split
        next s₂ heq =>
          obtain ⟨-, rfl⟩ := Prod.mk.inj heq
          obtain ⟨rest, hrest, hrestP⟩ := ih s₁
          refine ⟨(.header pos hdr :: entry) ++ rest, ?_, ?_⟩
          · rw [hrest, htrace, List.append_assoc]
          · intro c a he
            rcases List.mem_append.mp he with he | he
            · exact hhere rest c a he
            · obtain ⟨hst, pos', hdr', hmem, hfor⟩ := hrestP c a he
              exact ⟨hst, pos', hdr', List.mem_append_right _ hmem, hfor⟩
        next =>
          refine ⟨.header pos hdr :: entry, htrace, fun c a he => ?_⟩
          have hthis := hhere [] c a he
          rwa [List.append_nil] at hthis

end Calls

section Confinement

theorem prefix_cases {base rel p : CStr} (h : p ++ [slash] <+: base ++ slash :: rel) :
    p ++ [slash] <+: base ∨ p = base ∨ ∃ r b, rel = r ++ slash :: b ∧ p = base ++ slash :: r := by
  obtain ⟨t, ht⟩ := h
  rw [List.append_assoc, List.singleton_append, List.append_eq_append_iff] at ht
  rcases ht with ⟨c, hbase, hrest⟩ | ⟨c, hp, hrest⟩
  · cases c with
    | nil => exact Or.inr (Or.inl (by rw [hbase, List.append_nil]))
    | cons d c =>
        obtain ⟨hd, -⟩ := List.cons.inj hrest
        exact Or.inl ⟨c, by rw [hbase, ← hd, List.append_assoc, List.singleton_append]⟩
  · cases c with
    | nil => exact Or.inr (Or.inl (by rw [hp, List.append_nil]))
    | cons d c =>
        obtain ⟨hd, hrel⟩ := List.cons.inj hrest
        exact Or.inr (Or.inr ⟨c, t, hrel, by rw [hp, ← hd]⟩)

/-- The path that a call has created, truncated or unlinked. -/
def Event.touched : Event → Option CStr
  | .call (.mkdir p) (.ok _) | .call (.unlink p) (.ok _) | .call (.symlink _ p) (.ok _)
  | .call (.openTrunc p) (.ok _) => some p
  | _ => none

/-- The base directory is there, and what is there is not made. -/
def BaseThere {σ : Type} (sys : System σ) (base : CStr) : Prop :=
  ∀ p, p ≠ [] → (p = base ∨ p ++ [slash] <+: base) → ∀ st n, (sys (.mkdir p) st).1 ≠ .ok n

private theorem touched_on_way {σ : Type} {sys : System σ} {base rel p : CStr} {c : SysCall} {st : σ}
    (hthere : BaseThere sys base) (hc : CallFor (base ++ slash :: rel) c)
    (hp : (Event.call c (sys c st).1).touched = some p) :
    ∃ r, p = base ++ slash :: r ∧ (r = rel ∨ ∃ b, rel = r ++ slash :: b) := by
  obtain ⟨n, hok⟩ : ∃ n, (sys c st).1 = .ok n := by
    cases ha : (sys c st).1 with
    | ok n => exact ⟨n, rfl⟩
    | err e =>
        rw [ha] at hp
        cases hc <;> cases hp
  rw [hok] at hp
  cases hc with
  | mkdir hne hpath =>
      obtain rfl := Option.some.inj hp
      rcases hpath with rfl | hpath
      · exact ⟨rel, rfl, Or.inl rfl⟩
      · rcases prefix_cases hpath with habove | hsame | ⟨r, b, hrel, hr⟩
        · exact absurd hok (hthere _ hne (Or.inr habove) st n)
        · exact absurd hok (hthere _ hne (Or.inl hsame) st n)
        · exact ⟨r, hr, Or.inr ⟨b, hrel⟩⟩
  | unlink => exact ⟨rel, (Option.some.inj hp).symm, Or.inl rfl⟩
  | symlink target => exact ⟨rel, (Option.some.inj hp).symm, Or.inl rfl⟩
  | openTrunc => exact ⟨rel, (Option.some.inj hp).symm, Or.inl rfl⟩
  | write fd data => cases hp
  | close fd => cases hp

/-- The filter lets exactly the names out of the base directory that start with "../", and an
extraction that meets no such name for something that it creates touches nothing outside. -/
theorem extraction_confined_iff {base : CStr} (hbase : IsBase base) :
    (∀ name, safeName name = true →
      (StaysInside pathDots name ↔ ¬ [dot, dot, slash] <+: name)) ∧
    ∀ (σ : Type) (sys : System σ) (read : CZet.Lib.FileReads.Reads) (fuel pos : Nat) (st : σ),
      BaseThere sys base →
      (∀ p hdr, .header p hdr ∈ (extractTar sys read base fuel ⟨pos, st, []⟩).2.trace →
        Makes hdr → ¬ [dot, dot, slash] <+: relName hdr) →
      ∀ e ∈ (extractTar sys read base fuel ⟨pos, st, []⟩).2.trace, ∀ p, e.touched = some p →
        ∃ rel, p = base ++ slash :: rel ∧ StaysInside pathDots rel := by
  refine ⟨fun name => accepted_inside_iff, ?_⟩
  intro σ sys read fuel pos st hthere hstart e he p hp
  obtain ⟨added, htrace, hcalls⟩ := extractTar_calls sys read hbase fuel ⟨pos, st, []⟩
  rw [htrace, List.nil_append] at he hstart
  cases e with
  | header pos' hdr => cases hp
  | call c a =>
      obtain ⟨⟨st', rfl⟩, pos', hdr, hmem, hmakes, hsafe, hc⟩ := hcalls c a he
      obtain ⟨rel, hrel, hway⟩ := touched_on_way hthere hc hp
      have hinside := (accepted_inside_iff hsafe).mpr (hstart pos' hdr hmem hmakes)
      refine ⟨rel, hrel, ?_⟩
      rcases hway with rfl | ⟨b, hb⟩
      · exact hinside
      · rw [hb] at hinside
        exact hinside.of_append

/-- An empty regular file of the given name. -/
def emptyFileHeader (name : CStr) : List UInt8 :=
  name ++ List.replicate (156 - name.length) 0 ++ 48 :: List.replicate 355 0

/-- In the directory "w", which is there with the one above it, everything succeeds. -/
def answering : System Unit := fun c st =>
  (if c = .mkdir [119] ∨ c = .mkdir [119, slash, dot, dot] then .err .eexist else .ok 3, st)

/-- A file in a directory of its own. -/
theorem inner_file_confined :
    StaysInside pathDots [97, slash, 98] ∧
    ∀ e ∈ (extractTar answering (fun pos want => ((emptyFileHeader [97, slash, 98]).drop pos).take
      want)
        [119] 3 ⟨0, (), []⟩).2.trace,
      ∀ p, e.touched = some p → ∃ rel, p = [119] ++ slash :: rel ∧ StaysInside pathDots rel := by
  have hthere : BaseThere answering [119] := by
    intro p hne hp st n hok
    rcases hp with rfl | ⟨t, ht⟩
    · cases hok
    · cases p with
      | nil => exact hne rfl
      | cons c p => simp at ht
  have hbase : IsBase [119] := ⟨by decide, by decide⟩
  have hall := extraction_confined_iff hbase
  refine ⟨(hall.1 _ (by decide)).mpr (by decide), hall.2 Unit answering _ 3 0 () hthere ?_⟩
  have hheaders : ∀ e ∈ (extractTar answering
      (fun pos want => ((emptyFileHeader [97, slash, 98]).drop pos).take want) [119] 3
      ⟨0, (), []⟩).2.trace, (match e with
        | .header _ hdr => decide (¬ [dot, dot, slash] <+: relName hdr)
        | .call _ _ => true) = true := by
    decide +kernel
  exact fun p hdr hmem _ => of_decide_eq_true (hheaders _ hmem)

/-- The name "../x" is accepted, and the file is opened beside the base directory. -/
theorem dotdot_name_escapes :
    safeName [dot, dot, slash, 120] = true ∧ ¬ StaysInside pathDots [dot, dot, slash, 120] ∧
      .call (.openTrunc [119, slash, dot, dot, slash, 120]) (.ok 3) ∈
        (extractTar answering
          (fun pos want => ((emptyFileHeader [dot, dot, slash, 120]).drop pos).take want) [119] 3
          ⟨0, (), []⟩).2.trace := by
  refine ⟨by decide, ?_, by decide +kernel⟩
  exact fun hinside => (accepted_inside_iff (by decide)).mp hinside ⟨[120], rfl⟩

end Confinement

end CZet.Driver.Tar
