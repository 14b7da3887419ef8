/- source: src/czet.c (is_wrapped_czet_src, main)
   digest: The command line that the driver hands to the compiler: the choice of the libc and the two
     passes over the user's arguments. -/

import Mathlib.Data.List.Flatten
import Mathlib.Data.List.Infix

set_option autoImplicit false
set_option relaxedAutoImplicit false

namespace CZet.Driver

/-- The characters of a C string in front of its terminator. -/
abbrev CStr := List Char

/-- The loaders of the architecture that the driver is built for. -/
structure Loaders where
  musl : CStr
  glibc : CStr
  ldLinux : CStr

def optLibc : CStr := "-libc=".toList

def optO : CStr := "-o".toList

def isLibc (a : CStr) : Bool := optLibc.isPrefixOf a

/-- `libc` and `lcroot`. -/
structure LibcVars where
  libc : CStr
  lcroot : Option CStr
  deriving DecidableEq

def embeddedLibcs : List CStr := ["musl".toList, "glibc".toList]

/-- One turn of the loop that selects the libc. -/
def libcTurn (v : LibcVars) (a : CStr) : LibcVars :=
  if isLibc a then
    let libc := a.drop 6
    { libc := libc, lcroot := if libc ∉ embeddedLibcs then some libc else v.lcroot }
  else v

def selectLibc (argv : List CStr) : LibcVars := argv.foldl libcTurn ⟨"musl".toList, none⟩

/-- The directory that `include` and `lib` are in, with a slash behind it. -/
def sysroot (cache : CStr) (v : LibcVars) : CStr :=
  match v.lcroot with
  | some root => root ++ "/".toList
  | none => cache ++ "/sysroot/".toList ++ v.libc ++ "/".toList

def sysinc (cache : CStr) (v : LibcVars) : CStr := sysroot cache v ++ "include".toList

def syslib (cache : CStr) (v : LibcVars) : CStr := sysroot cache v ++ "lib".toList

/-- The linker script that is written for glibc: its path and its text. -/
def linkerScript (ld : Loaders) (cache : CStr) (v : LibcVars) : Option (CStr × CStr) :=
  if v.libc = "glibc".toList then
    let lib := syslib cache v
    some (lib ++ "/libc.so".toList,
      "/* GNU ld script */\nGROUP ( ".toList ++ lib ++ "/libc.so.6".toList ++ " ".toList ++ lib ++
        "/libc_nonshared.a".toList ++ " AS_NEEDED ( ".toList ++ lib ++ "/".toList ++ ld.ldLinux ++
        " ) )\n".toList)
  else none

def loader (ld : Loaders) (v : LibcVars) : Option CStr :=
  if v.libc = "musl".toList then some ld.musl
  else if v.libc = "glibc".toList then some ld.glibc
  else none

def utilsA (cache : CStr) (v : LibcVars) : Option CStr :=
  if v.lcroot.isSome then none else some (syslib cache v ++ "/libczet_utils.a".toList)

def isWrappedCzetSrc (a : CStr) : Bool :=
  if a.head? = some '-' ∨ a = [] then false
  else if a.length > 3 ∧ a.drop (a.length - 3) = ".ct".toList then true
  else decide (a.length > 5 ∧ a.drop (a.length - 5) = ".czet".toList)

/-- The variables of the counting pass.  An argument list that a process can be started with is so
short that the `int`s do not overflow. -/
structure ArgCount where
  nuser : Nat := 0
  needstd : Bool := true
  isStatic : Bool := false
  wrapExtra : Nat := 0
  skipNext : Bool := false

def countTurn (c : ArgCount) (a : CStr) : ArgCount :=
  if isLibc a then c
  else
    let c := { c with
      needstd := if "-std".toList.isPrefixOf a then false else c.needstd
      isStatic := if a = "-static".toList then true else c.isStatic
      nuser := c.nuser + 1 }
    if c.skipNext then { c with skipNext := false }
    else if a = optO then { c with skipNext := true }
    else if isWrappedCzetSrc a then { c with wrapExtra := c.wrapExtra + 4 }
    else c

def countArgs (argv : List CStr) : ArgCount := argv.foldl countTurn {}

/-- The options in front of the user's arguments. -/
def fixedArgs (ld : Loaders) (cache : CStr) (v : LibcVars) (c : ArgCount) : List CStr :=
  let gccdir := cache ++ "/gcc/".toList
  let lgdir := cache ++ "/libgcc/".toList
  [gccdir ++ "xgcc".toList, "-B".toList ++ gccdir, "-B".toList ++ lgdir, "-L".toList ++ lgdir,
    "-isystem".toList, cache ++ "/gcc/include".toList, "-isystem".toList, sysinc cache v,
    "-B".toList ++ syslib cache v, "-L".toList ++ syslib cache v] ++
  (if c.isStatic then ["-static".toList]
    else "-static-libgcc".toList ::
      ((loader ld v).map ("-Wl,--dynamic-linker=".toList ++ ·)).toList) ++
  if c.needstd then ["-std=czet".toList] else []

/-- `-x c` in front of an argument and `-x none` behind it. -/
def wrapped (a : CStr) : List CStr :=
  ["-x".toList, "c".toList, a, "-x".toList, "none".toList]

/-- The emitting pass. -/
def emitArgs : Bool → List CStr → List CStr
  | _, [] => []
  | skipNext, a :: argv =>
      if isLibc a then emitArgs skipNext argv
      else if !skipNext && decide (a = optO) then a :: emitArgs true argv
      else if skipNext then a :: emitArgs false argv
      else if isWrappedCzetSrc a then wrapped a ++ emitArgs skipNext argv
      else a :: emitArgs skipNext argv

/-- How many slots are allocated. -/
def allocatedSlots (c : ArgCount) : Nat :=
  14 + (if c.needstd then 1 else 0) + c.nuser + 3 + c.wrapExtra

/-- The slots that are written, with the `NULL` at the end; `argv` are the arguments behind the
name of the program. -/
def writtenSlots (ld : Loaders) (cache : CStr) (argv : List CStr) : List (Option CStr) :=
  let v := selectLibc argv
  (fixedArgs ld cache v (countArgs argv) ++ emitArgs false argv ++ (utilsA cache v).toList).map
    some ++ [none]

section Passes

/-- The user's arguments without the `-libc=` ones. -/
def userArgs (argv : List CStr) : List CStr := argv.filter fun a => !isLibc a

/-- Whether an argument is the operand of a `-o`; `first` says it of the first one. -/
def operand (first : Bool) (user : List CStr) : Nat → Bool
  | 0 => first
  | i + 1 => decide (user[i]? = some optO) && !operand first user i

/-- There is something in front of the `.ct` or `.czet` at the end. -/
def HasStem (a : CStr) : Prop :=
  ∃ stem, stem ≠ [] ∧ (a = stem ++ ".ct".toList ∨ a = stem ++ ".czet".toList)

/-- An argument that names a CZet source. -/
structure IsSource (user : List CStr) (i : Nat) (a : CStr) : Prop where
  stem : HasStem a
  dash : a.head? ≠ some '-'
  operand : operand false user i = false

private theorem drop_eq_iff {a ending : CStr} {n : Nat} (hn : ending.length = n) :
    (a.length > n ∧ a.drop (a.length - n) = ending) ↔ ∃ stem, stem ≠ [] ∧ a = stem ++ ending := by
  constructor
  · rintro ⟨hlen, hdrop⟩
    refine ⟨a.take (a.length - n), ?_, ?_⟩
    · intro hnil
      have hzero := congrArg List.length hnil
      rw [List.length_take, List.length_nil] at hzero
      omega
    · rw [← hdrop, List.take_append_drop]
  · rintro ⟨stem, hstem, rfl⟩
    have hpos := List.length_pos_iff.mpr hstem
    refine ⟨by rw [List.length_append]; omega, ?_⟩
    have hlen : (stem ++ ending).length - n = stem.length := by
      rw [List.length_append]
      omega
    rw [hlen, List.drop_left]

theorem isWrappedCzetSrc_iff (a : CStr) :
    isWrappedCzetSrc a = true ↔ HasStem a ∧ a.head? ≠ some '-' := by
  have hstem : HasStem a ↔ (a.length > 3 ∧ a.drop (a.length - 3) = ".ct".toList) ∨
      (a.length > 5 ∧ a.drop (a.length - 5) = ".czet".toList) := by
    rw [drop_eq_iff (n := 3) rfl, drop_eq_iff (n := 5) rfl, HasStem, ← exists_or]
    exact exists_congr fun stem => and_or_left
  rw [hstem, isWrappedCzetSrc]
  split
  next hskip =>
    refine iff_of_false (by decide) ?_
    rintro ⟨hlong, hdash⟩
    rcases hskip with hskip | rfl
    · exact hdash hskip
    · rcases hlong with ⟨hlong, -⟩ | ⟨hlong, -⟩ <;> exact absurd hlong (Nat.not_lt_zero _)
  next hkeep =>
    have hdash : a.head? ≠ some '-' := fun h => hkeep (Or.inl h)
    split
    next hct => exact iff_of_true rfl ⟨Or.inl hct, hdash⟩
    next hct => rw [decide_eq_true_iff, and_iff_left hdash, or_iff_right hct]

private theorem operand_cons (first : Bool) (a : CStr) (user : List CStr) (i : Nat) :
    operand first (a :: user) (i + 1) = operand (decide (a = optO) && !first) user i := by
  induction i with
  | zero => simp [operand]
  | succ i ih => rw [operand, ih, List.getElem?_cons_succ, operand]

/-- What the emitting pass makes of one argument. -/
def piece (first : Bool) (user : List CStr) (i : Nat) (a : CStr) : List CStr :=
  if operand first user i = false ∧ isWrappedCzetSrc a = true then wrapped a else [a]

private theorem emitArgs_pieces (first : Bool) (argv : List CStr) :
    ∃ pieces : List (List CStr), emitArgs first argv = pieces.flatten ∧
      pieces.length = (userArgs argv).length ∧
      ∀ i a, (userArgs argv)[i]? = some a → pieces[i]? = some (piece first (userArgs argv) i a) := by
  induction argv generalizing first with
  | nil => exact ⟨[], rfl, rfl, fun i a h => by cases h⟩
  | cons b argv ih =>
      by_cases hlibc : isLibc b = true
      · have huser : userArgs (b :: argv) = userArgs argv := by
          rw [userArgs, List.filter_cons_of_neg (by simp [hlibc])]
          rfl
        rw [huser, emitArgs, if_pos hlibc]
        exact ih first
      · have huser : userArgs (b :: argv) = b :: userArgs argv := by
          rw [userArgs, List.filter_cons_of_pos (by simpa using hlibc)]
          rfl
        obtain ⟨pieces, hemit, hlen, hpieces⟩ := ih (decide (b = optO) && !first)
        have hfirst : emitArgs first (b :: argv) =
            piece first (b :: userArgs argv) 0 b ++ emitArgs (decide (b = optO) && !first) argv := by
          rw [emitArgs, if_neg hlibc, piece, operand]
          cases first with
          | true => simp
          | false =>
              by_cases ho : b = optO
              · have hplain : isWrappedCzetSrc optO = false := by decide
                simp [ho, hplain]
              · cases hsrc : isWrappedCzetSrc b <;> simp [ho]
        refine ⟨piece first (b :: userArgs argv) 0 b :: pieces, ?_, ?_, ?_⟩
        · rw [hfirst, hemit, List.flatten_cons]
        · rw [huser, List.length_cons, List.length_cons, hlen]
        · rw [huser]
          intro i a ha
          cases i with
          | zero =>
              obtain rfl := Option.some.inj ha
              rfl
          | succ i =>
              rw [List.getElem?_cons_succ] at ha ⊢
              rw [hpieces i a ha, piece, piece, operand_cons]

private theorem count_emit (c : ArgCount) (argv : List CStr) :
    (argv.foldl countTurn c).nuser = c.nuser + (userArgs argv).length ∧
      (emitArgs c.skipNext argv).length + c.wrapExtra =
        (userArgs argv).length + (argv.foldl countTurn c).wrapExtra := by
  induction argv generalizing c with
  | nil => exact ⟨rfl, rfl⟩
  | cons a argv ih =>
      rw [List.foldl_cons]
      obtain ⟨huser, hslots⟩ := ih (countTurn c a)
      rw [huser]
      by_cases hlibc : isLibc a = true
      · have hturn : countTurn c a = c := by rw [countTurn, if_pos hlibc]
        have hfilter : userArgs (a :: argv) = userArgs argv := by
          rw [userArgs, List.filter_cons_of_neg (by simp [hlibc])]
          rfl
        rw [hturn] at hslots
        rw [hfilter, emitArgs, if_pos hlibc, hturn]
        exact ⟨rfl, hslots⟩
      · have hfilter : userArgs (a :: argv) = a :: userArgs argv := by
          rw [userArgs, List.filter_cons_of_pos (by simpa using hlibc)]
          rfl
        rw [hfilter, emitArgs, if_neg hlibc, List.length_cons]
        rw [countTurn, if_neg hlibc] at hslots ⊢
        cases hskip : c.skipNext with
        | true =>
            simp only [hskip, if_true] at hslots ⊢
            refine ⟨by omega, ?_⟩
            simp only [Bool.not_true, Bool.false_and, Bool.false_eq_true, if_false, List.length_cons]
            omega
        | false =>
            by_cases ho : a = optO
            · simp only [hskip, Bool.false_eq_true, if_false, ho, if_true] at hslots ⊢
              refine ⟨by omega, ?_⟩
              simp only [Bool.not_false, decide_true, Bool.and_true, if_true, List.length_cons]
              omega
            · cases hsrc : isWrappedCzetSrc a with
              | true =>
                  simp only [hskip, Bool.false_eq_true, if_false, ho, hsrc, if_true] at hslots ⊢
                  refine ⟨by omega, ?_⟩
                  simp only [Bool.not_false, decide_false, Bool.and_false, Bool.false_eq_true,
                    if_false, wrapped, List.length_append, List.length_cons, List.length_nil]
                  omega
              | false =>
                  simp only [hskip, Bool.false_eq_true, if_false, ho, hsrc] at hslots ⊢
                  refine ⟨by omega, ?_⟩
                  simp only [Bool.not_false, decide_false, Bool.and_false, Bool.false_eq_true,
                    if_false, List.length_cons]
                  omega

private theorem toList_length_le (o : Option CStr) : o.toList.length ≤ 1 := by
  cases o with
  | none => exact Nat.zero_le 1
  | some a => exact Nat.le_refl 1

private theorem fixedArgs_length (ld : Loaders) (cache : CStr) (v : LibcVars) (c : ArgCount) :
    (fixedArgs ld cache v c).length ≤ 12 + if c.needstd then 1 else 0 := by
  simp only [fixedArgs, List.length_append, List.length_cons, List.length_nil]
  generalize (loader ld v).map ("-Wl,--dynamic-linker=".toList ++ ·) = pinned
  have hpinned := toList_length_le pinned
  split <;> split <;> simp only [List.length_cons, List.length_nil] <;> omega

/-- The two passes agree: the slots that are written fit into those allocated, and the user's
arguments appear in order, the CZet sources among them, and no others, each in `-x c` and
`-x none`. -/
theorem argument_passes_agree (ld : Loaders) (cache : CStr) (argv : List CStr) :
    (writtenSlots ld cache argv).length ≤ allocatedSlots (countArgs argv) ∧
      ∃ pieces : List (List CStr),
        writtenSlots ld cache argv =
          (fixedArgs ld cache (selectLibc argv) (countArgs argv) ++ pieces.flatten ++
            (utilsA cache (selectLibc argv)).toList).map some ++ [none] ∧
        pieces.length = (userArgs argv).length ∧
        ∀ i a, (userArgs argv)[i]? = some a →
          (IsSource (userArgs argv) i a → pieces[i]? = some (wrapped a)) ∧
          (¬ IsSource (userArgs argv) i a → pieces[i]? = some [a]) := by
  obtain ⟨pieces, hemit, hlen, hpieces⟩ := emitArgs_pieces false argv
  refine ⟨?_, pieces, by rw [writtenSlots, hemit], hlen, ?_⟩
  · obtain ⟨huser, hslots⟩ := count_emit {} argv
    simp only [Nat.zero_add, Nat.add_zero] at huser hslots
    have hfixed := fixedArgs_length ld cache (selectLibc argv) (countArgs argv)
    have hutils := toList_length_le (utilsA cache (selectLibc argv))
    simp only [writtenSlots, allocatedSlots, List.length_append, List.length_map,
      List.length_cons, List.length_nil]
    simp only [countArgs] at hfixed ⊢
    omega
  · intro i a ha
    have hsource : IsSource (userArgs argv) i a ↔
        operand false (userArgs argv) i = false ∧ isWrappedCzetSrc a = true := by
      rw [isWrappedCzetSrc_iff]
      exact ⟨fun h => ⟨h.operand, h.stem, h.dash⟩, fun h => ⟨h.2.1, h.2.2, h.1⟩⟩
    rw [hpieces i a ha, piece, hsource]
    exact ⟨fun h => by rw [if_pos h], fun h => by rw [if_neg h]⟩

end Passes

section Selection

/-- What the choice of the libc decides. -/
structure LibcChoice where
  sysinc : CStr
  syslib : CStr
  loader : Option CStr
  script : Option (CStr × CStr)
  archive : Option CStr

def libcChoice (ld : Loaders) (cache : CStr) (argv : List CStr) : LibcChoice :=
  let v := selectLibc argv
  ⟨sysinc cache v, syslib cache v, loader ld v, linkerScript ld cache v, utilsA cache v⟩

/-- Only the last `-libc=` is kept. -/
def dropEarlierLibcs : List CStr → List CStr
  | [] => []
  | a :: argv =>
      if isLibc a ∧ argv.any isLibc then dropEarlierLibcs argv else a :: dropEarlierLibcs argv

/-- The values of the `-libc=` options. -/
def libcValues (argv : List CStr) : List CStr := (argv.filter isLibc).map (·.drop 6)

/-- No sysroot path stands in front of a last `-libc=musl` or `-libc=glibc`. -/
def NoStaleSysroot (argv : List CStr) : Prop :=
  ∀ libc ∈ (libcValues argv).getLast?, libc ∈ embeddedLibcs →
    ∀ value ∈ libcValues argv, value ∈ embeddedLibcs

private theorem foldl_libcTurn (v : LibcVars) (argv : List CStr) : argv.foldl libcTurn v =
    ⟨(libcValues argv).getLast?.getD v.libc,
      ((libcValues argv).filter fun value => decide (value ∉ embeddedLibcs)).getLast?.or
        v.lcroot⟩ := by
  induction argv generalizing v with
  | nil => rfl
  | cons a argv ih =>
      rw [List.foldl_cons, ih]
      by_cases hlibc : isLibc a = true
      · have hvalues : libcValues (a :: argv) = a.drop 6 :: libcValues argv := by
          rw [libcValues, List.filter_cons_of_pos hlibc]
          rfl
        rw [hvalues, libcTurn, if_pos hlibc, List.getLast?_cons, List.filter_cons]
        by_cases hroot : a.drop 6 ∈ embeddedLibcs
        · simp [hroot]
        · simp [hroot, List.getLast?_cons]
      · have hvalues : libcValues (a :: argv) = libcValues argv := by
          rw [libcValues, List.filter_cons_of_neg hlibc]
          rfl
        rw [hvalues, libcTurn, if_neg hlibc]

private theorem libcValues_dropEarlierLibcs (argv : List CStr) :
    libcValues (dropEarlierLibcs argv) = (libcValues argv).getLast?.toList := by
  induction argv with
  | nil => rfl
  | cons a argv ih =>
      by_cases hlibc : isLibc a = true
      · have hcons : ∀ rest, libcValues (a :: rest) = a.drop 6 :: libcValues rest := by
          intro rest
          rw [libcValues, List.filter_cons_of_pos hlibc]
          rfl
        by_cases hany : argv.any isLibc = true
        · obtain ⟨b, hb, hlibcb⟩ := List.any_eq_true.mp hany
          have hmem : b.drop 6 ∈ libcValues argv :=
            List.mem_map_of_mem (List.mem_filter.mpr ⟨hb, hlibcb⟩)
          rw [dropEarlierLibcs, if_pos ⟨hlibc, hany⟩, ih, hcons, List.getLast?_cons]
          cases hlast : (libcValues argv).getLast? with
          | none =>
              rw [List.getLast?_eq_none_iff.mp hlast] at hmem
              cases hmem
          | some libc => rfl
        · have hnone : libcValues argv = [] := by
            rw [libcValues, List.filter_eq_nil_iff.mpr, List.map_nil]
            exact fun b hb hlibcb => hany (List.any_eq_true.mpr ⟨b, hb, hlibcb⟩)
          rw [dropEarlierLibcs, if_neg (fun h => hany h.2), hcons, hcons, ih, hnone]
          rfl
      · have hcons : ∀ rest, libcValues (a :: rest) = libcValues rest := by
          intro rest
          rw [libcValues, List.filter_cons_of_neg hlibc]
          rfl
        rw [dropEarlierLibcs, if_neg (fun h => hlibc h.1), hcons, hcons, ih]

/-- The choice is that of the last `-libc=` alone exactly when no sysroot path is left over from an
earlier one. -/
theorem last_libc_decides_iff (ld : Loaders) (cache : CStr) (argv : List CStr) :
    libcChoice ld cache argv = libcChoice ld cache (dropEarlierLibcs argv) ↔
      NoStaleSysroot argv := by
  have hall := foldl_libcTurn ⟨"musl".toList, none⟩ argv
  have hlast := foldl_libcTurn ⟨"musl".toList, none⟩ (dropEarlierLibcs argv)
  rw [libcValues_dropEarlierLibcs] at hlast
  rw [Option.or_none] at hall hlast
  rw [NoStaleSysroot]
  cases hvalue : (libcValues argv).getLast? with
  | none =>
      rw [hvalue] at hall hlast
      rw [List.getLast?_eq_none_iff.mp hvalue] at hall
      refine iff_of_true ?_ (fun _ h => by cases h)
      simp only [libcChoice, selectLibc, hall, hlast]
      rfl
  | some libc =>
      obtain ⟨before, hbefore⟩ := List.getLast?_eq_some_iff.mp hvalue
      rw [hvalue] at hall hlast
      have hsingle : ∀ d : CStr, ((some libc).toList.getLast?).getD d = libc := fun _ => rfl
      rw [hsingle] at hlast
      by_cases hembedded : libc ∈ embeddedLibcs
      · have hnone :
            ((some libc).toList.filter fun value => decide (value ∉ embeddedLibcs)) = [] := by
          simp [hembedded]
        rw [hnone] at hlast
        constructor
        · -- a stale path leaves the archive out
          intro heq libc' hlibc' _ value hmem
          by_contra hpath
          have harchive := congrArg (fun c => c.archive.isSome) heq
          have hfound : ((libcValues argv).filter fun value =>
              decide (value ∉ embeddedLibcs)).getLast?.isSome = true := by
            rw [List.getLast?_isSome]
            refine List.ne_nil_of_mem (a := value) (List.mem_filter.mpr ⟨hmem, ?_⟩)
            exact decide_eq_true hpath
          simp only [libcChoice, selectLibc, hall, hlast, utilsA, hfound] at harchive
          cases harchive
        · intro hclean
          have hempty : ((libcValues argv).filter fun value =>
              decide (value ∉ embeddedLibcs)) = [] := by
            rw [List.filter_eq_nil_iff]
            intro value hmem
            simpa using hclean libc rfl hembedded value hmem
          rw [hempty] at hall
          simp only [libcChoice, selectLibc, hall, hlast]
          rfl
      · refine iff_of_true ?_ ?_
        · have hkept : ((libcValues argv).filter fun value =>
              decide (value ∉ embeddedLibcs)).getLast? = some libc := by
            rw [hbefore, List.filter_append]
            simp [hembedded]
          rw [hkept] at hall
          have hown : ((some libc).toList.filter fun value =>
              decide (value ∉ embeddedLibcs)).getLast? = some libc := by
            simp [hembedded]
          rw [hown] at hlast
          simp only [libcChoice, selectLibc, hall, hlast]
          rfl
        · intro libc' hlibc' hin
          obtain rfl := Option.some.inj hlibc'
          exact absurd hin hembedded

/-- `-libc=/opt/x -libc=glibc`: the linker script is written into `/opt/x/lib`. -/
theorem stale_sysroot_used : ¬ ∀ (ld : Loaders) (cache : CStr) (argv : List CStr),
    libcChoice ld cache argv = libcChoice ld cache (dropEarlierLibcs argv) := by
  intro h
  have hchoice := h ⟨[], [], []⟩ [] ["-libc=/opt/x".toList, "-libc=glibc".toList]
  have hscript := congrArg (fun c => c.script.map Prod.fst) hchoice
  exact absurd hscript (by decide)

end Selection

end CZet.Driver
