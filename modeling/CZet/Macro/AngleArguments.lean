/- source: src/gcc/gcc/c/c-parser.cc (c_czet_try_invoke, angle scanner)
   digest: The arguments between the angle brackets of an invocation: the scanner finds them exactly
     when it stops at a single `>` that closes the invocation. -/

import CZet.Macro.Conservation

set_option autoImplicit false
set_option relaxedAutoImplicit false

namespace CZet

/-- One of the two `>` in a `>>`. -/
def halfRshift (t : CToken) : CToken := { t with type := .greater }

/-- The arguments in front of the matching `>`, and the text behind it, where `ang` angle and `par`
other brackets are open. -/
def angleArgs : Nat → Nat → List CToken → Option (List CToken × List CToken)
  | _, _, [] => none
  | ang, par, t :: ts =>
      if t.type = .eof then none
      else if par = 0 ∧ t.type = .greater ∧ ang = 1 then some ([], ts)
      else if par = 0 ∧ t.type = .rshift ∧ ang = 1 then some ([], halfRshift t :: ts)
      else if par = 0 ∧ t.type = .rshift ∧ ang = 2 then some ([halfRshift t], ts)
      else (angleArgs (angleStep ang par t.type).1 (angleStep ang par t.type).2 ts).map fun r =>
        (t :: r.1, r.2)

/-- The tokens that the parser can still read; outside `tokens_buf` these are in its array. -/
def CParser.readable (env : LexEnv) (p : CParser) : List CToken :=
  if p.inBuf then p.pendingList env else p.tokens

/-- The tokens that move to the front of `tokens_buf` one after the other. -/
def CParser.moving (p : CParser) : Nat := if p.inBuf then p.tokens.length else 0

/-- When the scanner behind `name <` accepts, it passes on the arguments and leaves the text behind
the invocation. -/
def AnglesRespected (env : LexEnv) (p : CParser) (name less : CToken) : Prop :=
  ∀ q inv, scanAngle env (scanFuel p) p [name, less] 1 0 = some (true, q, inv) →
    ∃ args rest, angleArgs 1 0 (p.readable env) = some (args, rest) ∧
      inv.take 1 ++ (inv.drop 2).dropLast = name :: args ∧ q.readable env = rest

/-- The types by which the scanner counts the tokens when `fill` of them are in `tokens_buf`: all but
the last of these by the type of the token behind them. -/
def countedTypes : Nat → List CToken → List CppTtype
  | _, [] => []
  | fill, t :: ts =>
      (if 2 ≤ fill then (ts.head?.getD t).type else t.type) :: countedTypes (fill - 1) ts

/-- The number of types up to the one that brings the count of open angle brackets to zero. -/
def closeTypes : Nat → Nat → List CppTtype → Option Nat
  | _, _, [] => none
  | ang, par, type :: types =>
      if (angleStep ang par type).1 = 0 then some 1
      else (closeTypes (angleStep ang par type).1 (angleStep ang par type).2 types).map (· + 1)

/-- Where the brackets as they are counted close behind tokens that can be consumed, the token
there also closes the invocation by the tokens' own types, and it is a single `>`. -/
def ClosedByGreater (env : LexEnv) (p : CParser) : Prop :=
  ∀ n, closeTypes 1 0 (countedTypes p.moving (p.readable env)) = some n →
    (∀ t ∈ (p.readable env).take n, t.type ≠ .eof ∧ consumable p t = true) →
      closeAngle 1 0 (p.readable env) = some n ∧
        ∃ t, (p.readable env)[n - 1]? = some t ∧ t.type = .greater

section Scan

private theorem scanAngle_array (env : LexEnv) (l : List CToken) (fuel : Nat) (p : CParser)
    (inv : List CToken) (ang par : Nat) (hbuf : p.inBuf = false) (hpend : p.tokens = l)
    (hfuel : l.length < fuel) (hang : ang ≠ 0) :
    match bufferScan (consumable p) 0 ang par l with
    | .closed n => n ≤ l.length ∧ 0 < n ∧ ∃ q,
        scanAngle env fuel p inv ang par = some (true, q, inv ++ l.take n) ∧
          q.tokens = l.drop n ∧ q.inBuf = false
    | _ => ∀ q inv', scanAngle env fuel p inv ang par ≠ some (true, q, inv') := by
  induction l generalizing fuel p inv ang par with
  | nil =>
      obtain ⟨f, rfl⟩ := Nat.exists_eq_succ_of_ne_zero (Nat.ne_of_gt hfuel)
      intro q inv'
      simp [scanAngle, hang, cParserPeekToken, hpend, hbuf]
  | cons t l ih =>
      obtain ⟨f, rfl⟩ := Nat.exists_eq_succ_of_ne_zero (Nat.ne_of_gt (Nat.zero_lt_of_lt hfuel))
      have hpeek : cParserPeekToken env p = some (t, p) := by
        simp [cParserPeekToken, hpend]
      by_cases heof : t.type = .eof
      · simp only [bufferScan, heof, if_true]
        intro q inv'
        simp [scanAngle, hang, hpeek, heof]
      by_cases hok : consumable p t = true
      · obtain ⟨p₂, hconsume, htok, hbuf₂, hcons⟩ : ∃ p₂, cParserConsumeToken p = some p₂ ∧
            p₂.tokens = l ∧ p₂.inBuf = false ∧ consumable p₂ = consumable p := by
          refine ⟨{ p with
            tokens := l
            czetProbe := if p.czetProbing && !p.czetProbeCommitted then p.czetProbe ++ [t]
              else p.czetProbe }, ?_, rfl, hbuf, rfl⟩
          simp [cParserConsumeToken, hpend, hok]
        have hstep : scanAngle env (f + 1) p inv ang par =
            scanAngle env f p₂ (inv ++ [t]) (angleStep ang par t.type).1
              (angleStep ang par t.type).2 := by
          simp only [scanAngle, hang, if_false, hpeek, heof, hconsume, hbuf₂, Bool.false_eq_true]
        simp only [bufferScan, heof, hok, if_false, if_true, Nat.not_le_of_lt (Nat.succ_pos 1)]
        rw [hstep]
        by_cases ha : (angleStep ang par t.type).1 = 0
        · simp only [ha, if_true]
          refine ⟨by simp, by simp, p₂, ?_, htok, hbuf₂⟩
          obtain ⟨g, rfl⟩ : ∃ g, f = g + 1 :=
            ⟨f - 1, by simp only [List.length_cons] at hfuel; omega⟩
          simp [scanAngle]
        · simp only [ha, if_false]
          have hless : l.length < f := by
            simp only [List.length_cons] at hfuel
            omega
          have hrest := ih f p₂ (inv ++ [t]) _ (angleStep ang par t.type).2 hbuf₂ htok hless ha
          rw [hcons] at hrest
          revert hrest
          cases bufferScan (consumable p) 0 (angleStep ang par t.type).1
              (angleStep ang par t.type).2 l with
          | closed n =>
              rintro ⟨hn, hpos, q, hscan, htok', hbuf'⟩
              refine ⟨by simpa using hn, by omega, q, ?_, by simpa using htok', hbuf'⟩
              rw [hscan]
              simp
          | unclosed => exact id
          | stuck => exact id
      · simp only [bufferScan, heof, hok, if_false, Bool.false_eq_true]
        intro q inv'
        simp [scanAngle, hang, hpeek, heof, cParserConsumeToken, hpend, hok]

private theorem scanAngle_accepts (env : LexEnv) (p : CParser) (inv : List CToken) :
    (∀ n, bufferScan (consumable p) p.moving 1 0 (p.readable env) = .closed n →
      n ≤ (p.readable env).length ∧ 0 < n ∧ ∃ q,
        scanAngle env (scanFuel p) p inv 1 0 =
            some (true, q, inv ++ (p.readable env).take n) ∧
          q.readable env = (p.readable env).drop n) ∧
    ∀ q inv', scanAngle env (scanFuel p) p inv 1 0 = some (true, q, inv') →
      ∃ n, bufferScan (consumable p) p.moving 1 0 (p.readable env) = .closed n := by
  unfold CParser.moving CParser.readable
  cases hbuf : p.inBuf with
  | true =>
      have hspec := scanAngle_spec env (p.pendingList env) (scanFuel p) p inv 1 0 hbuf rfl
        (by rw [scanFuel_eq env p]; omega) (by decide)
      simp only [if_true]
      revert hspec
      cases bufferScan (consumable p) p.tokens.length 1 0 (p.pendingList env) with
      | closed n =>
          rintro ⟨hn, hpos, q, hscan, -, hpend, hmode⟩
          refine ⟨?_, fun _ _ _ => ⟨n, rfl⟩⟩
          rintro m ⟨⟩
          refine ⟨hn, hpos, q, hscan, ?_⟩
          rw [hmode.inBuf, hbuf, if_pos rfl, hpend]
      | unclosed =>
          rintro ⟨q, pre, e, ts, hscan, -⟩
          refine ⟨fun n h => (nomatch h), fun q' inv' h => ?_⟩
          rw [hscan] at h
          cases h
      | stuck =>
          intro hscan
          refine ⟨fun n h => (nomatch h), fun q' inv' h => ?_⟩
          rw [hscan] at h
          cases h
  | false =>
      have hspec := scanAngle_array env p.tokens (scanFuel p) p inv 1 0 hbuf rfl
        (by unfold scanFuel; omega) (by decide)
      simp only [Bool.false_eq_true, if_false]
      revert hspec
      cases bufferScan (consumable p) 0 1 0 p.tokens with
      | closed n =>
          rintro ⟨hn, hpos, q, hscan, htok, hbuf'⟩
          refine ⟨?_, fun _ _ _ => ⟨n, rfl⟩⟩
          rintro m ⟨⟩
          refine ⟨hn, hpos, q, hscan, ?_⟩
          rw [hbuf', if_neg Bool.false_ne_true, htok]
      | unclosed =>
          intro hnone
          exact ⟨fun n h => (nomatch h), fun q inv' h => absurd h (hnone q inv')⟩
      | stuck =>
          intro hnone
          exact ⟨fun n h => (nomatch h), fun q inv' h => absurd h (hnone q inv')⟩

end Scan

section Closing

private theorem angleStep_zero {ang par : Nat} {type : CppTtype} (hang : ang ≠ 0) :
    (angleStep ang par type).1 = 0 ↔
      par = 0 ∧ ((type = .greater ∧ ang = 1) ∨ (type = .rshift ∧ (ang = 1 ∨ ang = 2))) := by
  cases type <;> simp only [angleStep, reduceCtorEq, false_and, or_self, and_false, iff_false,
    true_and, false_or, or_false] <;> (try split) <;> omega

private theorem angleArgs_of_greater {ang par n : Nat} {l : List CToken} (hang : ang ≠ 0)
    (hclose : closeAngle ang par l = some n)
    (hgreater : ∃ t, l[n - 1]? = some t ∧ t.type = .greater) :
    angleArgs ang par l = some ((l.take n).dropLast, l.drop n) := by
  induction l generalizing ang par n with
  | nil => simp [closeAngle] at hclose
  | cons t ts ih =>
      rw [closeAngle] at hclose
      rw [angleArgs]
      by_cases heof : t.type = .eof
      · simp [heof] at hclose
      rw [if_neg heof] at hclose ⊢
      by_cases hzero : (angleStep ang par t.type).1 = 0
      · rw [if_pos hzero] at hclose
        obtain rfl := Option.some.inj hclose
        obtain ⟨u, hu, htype⟩ := hgreater
        obtain rfl : t = u := by simpa using hu
        rw [angleStep_zero hang, htype] at hzero
        simp only [reduceCtorEq, true_and, false_and, or_false] at hzero
        rw [if_pos ⟨hzero.1, htype, hzero.2⟩]
        rfl
      · rw [if_neg hzero] at hclose
        obtain ⟨m, hm, rfl⟩ := Option.map_eq_some_iff.mp hclose
        have hpos : 0 < m := (closeAngle_take hm).2.1
        rw [angleStep_zero hang, not_and, not_or] at hzero
        rw [if_neg (fun h => (hzero h.1).1 h.2), if_neg
          (fun h => (hzero h.1).2 ⟨h.2.1, Or.inl h.2.2⟩),
          if_neg (fun h => (hzero h.1).2 ⟨h.2.1, Or.inr h.2.2⟩)]
        have hstay : (angleStep ang par t.type).1 ≠ 0 := by
          rw [ne_eq, angleStep_zero hang, not_and, not_or]
          exact hzero
        obtain ⟨k, rfl⟩ := Nat.exists_eq_succ_of_ne_zero (Nat.ne_of_gt hpos)
        rw [ih hstay hm (by simpa using hgreater)]
        have hne : ts.take (k + 1) ≠ [] := by
          intro hnil
          have hlen := (closeAngle_take hm).1
          have := congrArg List.length hnil
          simp only [List.length_take, List.length_nil] at this
          omega
        simp only [Option.map_some, List.take_succ_cons, List.drop_succ_cons]
        rw [List.dropLast_cons_of_ne_nil hne]

private theorem angleArgs_closes {ang par : Nat} {l args rest : List CToken} (hang : ang ≠ 0)
    (h : angleArgs ang par l = some (args, rest)) :
    ∃ n t, closeAngle ang par l = some n ∧ l[n - 1]? = some t ∧
      ((t.type = .greater ∧ args.length + 1 = n ∧ rest.length = l.length - n) ∨
        args.length + 1 = n ∧ rest.length = l.length - n + 1 ∨
        args.length = n ∧ rest.length = l.length - n) := by
  induction l generalizing ang par args with
  | nil => simp [angleArgs] at h
  | cons t ts ih =>
      rw [angleArgs] at h
      rw [closeAngle]
      by_cases heof : t.type = .eof
      · simp [heof] at h
      rw [if_neg heof] at h ⊢
      by_cases hone : par = 0 ∧ t.type = .greater ∧ ang = 1
      · rw [if_pos hone] at h
        obtain ⟨rfl, rfl⟩ := Prod.mk.inj (Option.some.inj h)
        rw [if_pos ((angleStep_zero hang).mpr ⟨hone.1, Or.inl hone.2⟩)]
        exact ⟨1, t, rfl, rfl, Or.inl ⟨hone.2.1, rfl, by simp⟩⟩
      rw [if_neg hone] at h
      by_cases htwo : par = 0 ∧ t.type = .rshift ∧ ang = 1
      · rw [if_pos htwo] at h
        obtain ⟨rfl, rfl⟩ := Prod.mk.inj (Option.some.inj h)
        rw [if_pos ((angleStep_zero hang).mpr ⟨htwo.1, Or.inr ⟨htwo.2.1, Or.inl htwo.2.2⟩⟩)]
        exact ⟨1, t, rfl, rfl, Or.inr (Or.inl ⟨rfl, by simp⟩)⟩
      rw [if_neg htwo] at h
      by_cases hthree : par = 0 ∧ t.type = .rshift ∧ ang = 2
      · rw [if_pos hthree] at h
        obtain ⟨rfl, rfl⟩ := Prod.mk.inj (Option.some.inj h)
        rw [if_pos ((angleStep_zero hang).mpr ⟨hthree.1, Or.inr ⟨hthree.2.1, Or.inr hthree.2.2⟩⟩)]
        exact ⟨1, t, rfl, rfl, Or.inr (Or.inr ⟨rfl, by simp⟩)⟩
      rw [if_neg hthree] at h
      obtain ⟨⟨args', rest'⟩, hrec, heq⟩ := Option.map_eq_some_iff.mp h
      obtain ⟨rfl, rfl⟩ := Prod.mk.inj heq
      have hstay : (angleStep ang par t.type).1 ≠ 0 := by
        rw [ne_eq, angleStep_zero hang]
        rintro ⟨hpar, hgreater | ⟨hshift, hfirst | hsecond⟩⟩
        · exact hone ⟨hpar, hgreater⟩
        · exact htwo ⟨hpar, hshift, hfirst⟩
        · exact hthree ⟨hpar, hshift, hsecond⟩
      rw [if_neg hstay]
      obtain ⟨n, u, hn, hu, hcases⟩ := ih hstay hrec
      have hpos : 0 < n := (closeAngle_take hn).2.1
      refine ⟨n + 1, u, by rw [hn]; rfl, ?_, ?_⟩
      · obtain ⟨k, rfl⟩ := Nat.exists_eq_succ_of_ne_zero (Nat.ne_of_gt hpos)
        simpa using hu
      · have hrest : (t :: ts).length - (n + 1) = ts.length - n := by simp
        have hargs : (t :: args').length = args'.length + 1 := rfl
        rw [hrest, hargs]
        rcases hcases with ⟨htype, h₁, h₂⟩ | ⟨h₁, h₂⟩ | ⟨h₁, h₂⟩
        · exact Or.inl ⟨htype, congrArg (· + 1) h₁, h₂⟩
        · exact Or.inr (Or.inl ⟨congrArg (· + 1) h₁, h₂⟩)
        · exact Or.inr (Or.inr ⟨congrArg (· + 1) h₁, h₂⟩)

private theorem closeTypes_pos {ang par n : Nat} {types : List CppTtype}
    (h : closeTypes ang par types = some n) : 0 < n := by
  cases types with
  | nil => cases h
  | cons type types =>
      rw [closeTypes] at h
      split at h
      · exact Option.some.inj h ▸ Nat.one_pos
      · obtain ⟨k, -, rfl⟩ := Option.map_eq_some_iff.mp h
        exact Nat.succ_pos k

private theorem bufferScan_closed {ok : CToken → Bool} {fill ang par n : Nat} {l : List CToken} :
    bufferScan ok fill ang par l = .closed n ↔
      closeTypes ang par (countedTypes fill l) = some n ∧
        ∀ t ∈ l.take n, t.type ≠ .eof ∧ ok t = true := by
  induction l generalizing fill ang par n with
  | nil => simp [bufferScan, countedTypes, closeTypes]
  | cons t ts ih =>
      have hhead : ∀ k, (∀ u ∈ (t :: ts).take (k + 1), u.type ≠ .eof ∧ ok u = true) ↔
          (t.type ≠ .eof ∧ ok t = true) ∧ ∀ u ∈ ts.take k, u.type ≠ .eof ∧ ok u = true := by
        intro k
        rw [List.take_succ_cons, List.forall_mem_cons]
      have hfirst : closeTypes ang par (countedTypes fill (t :: ts)) = some n ∧
          (∀ u ∈ (t :: ts).take n, u.type ≠ .eof ∧ ok u = true) →
          t.type ≠ .eof ∧ ok t = true := by
        rintro ⟨hclose, hall⟩
        obtain ⟨k, rfl⟩ := Nat.exists_eq_succ_of_ne_zero (Nat.ne_of_gt (closeTypes_pos hclose))
        exact ((hhead k).mp hall).1
      rw [bufferScan]
      by_cases heof : t.type = .eof
      · rw [if_pos heof]
        exact ⟨fun h => ScanEnd.noConfusion h, fun h => absurd heof (hfirst h).1⟩
      by_cases hok : ok t = true
      · rw [if_neg heof, if_pos hok, countedTypes, closeTypes]
        generalize (if 2 ≤ fill then (ts.head?.getD t).type else t.type) = seen
        by_cases hzero : (angleStep ang par seen).1 = 0
        · simp only [hzero, if_true, ScanEnd.closed.injEq, Option.some.injEq]
          refine ⟨?_, And.left⟩
          rintro rfl
          exact ⟨rfl, (hhead 0).mpr ⟨⟨heof, hok⟩, by simp⟩⟩
        · simp only [hzero, if_false]
          constructor
          · intro h
            cases hrec : bufferScan ok (fill - 1) (angleStep ang par seen).1
                (angleStep ang par seen).2 ts with
            | closed m =>
                rw [hrec] at h
                obtain rfl := ScanEnd.closed.inj h
                obtain ⟨hclose, hall⟩ := ih.mp hrec
                exact ⟨by rw [hclose]; rfl, (hhead m).mpr ⟨⟨heof, hok⟩, hall⟩⟩
            | unclosed =>
                rw [hrec] at h
                cases h
            | stuck =>
                rw [hrec] at h
                cases h
          · rintro ⟨hclose, hall⟩
            obtain ⟨m, hm, rfl⟩ := Option.map_eq_some_iff.mp hclose
            rw [ih.mpr ⟨hm, ((hhead m).mp hall).2⟩]
            rfl
      · rw [if_neg heof, if_neg hok]
        exact ⟨fun h => ScanEnd.noConfusion h, fun h => absurd (hfirst h).2 hok⟩

theorem closeTypes_counted {fill : Nat} (hfill : fill ≤ 1) (ang par : Nat) {l : List CToken}
    (hend : ∀ t ∈ l, t.type ≠ .eof) :
    closeTypes ang par (countedTypes fill l) = closeAngle ang par l := by
  induction l generalizing fill ang par with
  | nil => rfl
  | cons t ts ih =>
      obtain ⟨ht, hts⟩ := List.forall_mem_cons.mp hend
      rw [countedTypes, closeTypes, closeAngle, if_neg (Nat.not_le_of_lt (Nat.lt_succ_of_le hfill)),
        if_neg ht, ih (Nat.le_trans (Nat.sub_le fill 1) hfill) _ _ hts]

end Closing

/-- For every parser behind `name <`: an accepted scan passes on exactly the arguments and leaves
exactly the text behind them, if and only if the brackets close at a single `>`, counted as the
scanner counts them and by the tokens' own types. -/
theorem angles_respected_iff (env : LexEnv) (p : CParser) (name less : CToken) :
    AnglesRespected env p name less ↔ ClosedByGreater env p := by
  obtain ⟨haccept, hclosed⟩ := scanAngle_accepts env p [name, less]
  have hargs : ∀ pre : List CToken, ([name, less] ++ pre).take 1 ++
      (([name, less] ++ pre).drop 2).dropLast = name :: pre.dropLast := fun _ => rfl
  constructor
  · intro h n hn hall
    obtain ⟨hle, hpos, q, hscan, hq⟩ := haccept n (bufferScan_closed.mpr ⟨hn, hall⟩)
    obtain ⟨args, rest, hspec, heq, hrest⟩ := h q _ hscan
    rw [hargs] at heq
    have hlen : args.length + 1 = n := by
      have := congrArg List.length (List.cons.inj heq).2
      simp only [List.length_dropLast, List.length_take] at this
      omega
    have htext : rest.length = (p.readable env).length - n := by
      rw [← hrest, hq, List.length_drop]
    obtain ⟨m, t, hm, ht, hcases⟩ := angleArgs_closes (by decide) hspec
    have hm' := (closeAngle_take hm).1
    rcases hcases with ⟨htype, hm₁, -⟩ | ⟨hm₁, hm₂⟩ | ⟨hm₁, hm₂⟩
    · obtain rfl : m = n := by omega
      exact ⟨hm, t, ht, htype⟩
    · omega
    · omega
  · intro h q inv hscan
    obtain ⟨n, hn⟩ := hclosed q inv hscan
    obtain ⟨-, -, q', hscan', hq⟩ := haccept n hn
    rw [hscan'] at hscan
    cases hscan
    obtain ⟨hcount, hall⟩ := bufferScan_closed.mp hn
    obtain ⟨hclose, hgreater⟩ := h n hcount hall
    exact ⟨_, _, angleArgs_of_greater (by decide) hclose hgreater, hargs _, hq⟩

section NestedBox

/-- The parser behind `NAME <` in `NAME<box<int>>`. -/
def nestedBox : CParser :=
  CParser.start (plainLexer [nameToken "box", punctToken .less, nameToken "int",
    punctToken .rshift])

/-- The scanner takes `box < int` for the arguments of `NAME<box<int>>`. -/
theorem nested_box_cut :
    ¬ AnglesRespected plainEnv nestedBox (nameToken "NAME") (punctToken .less) := by
  intro h
  obtain ⟨args, rest, hspec, hargs, -⟩ := h _ _ rfl
  obtain ⟨rfl, -⟩ := Prod.mk.inj (Option.some.inj hspec)
  have hlen := congrArg List.length hargs
  exact absurd hlen (by decide)

end NestedBox

end CZet
