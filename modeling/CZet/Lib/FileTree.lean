/- digest: Directory trees, the calls that build them, also in part, and the calls that remove
     them. -/

import Mathlib.Data.Finmap
import Mathlib.Data.List.Infix

set_option autoImplicit false
set_option relaxedAutoImplicit false

namespace CZet.Lib.FileTree

variable {Name Byte : Type} [DecidableEq Name]

inductive Node (Byte : Type)
  | dir
  | file (data : List Byte)
  | link (target : List Byte)
  deriving DecidableEq

/-- The nodes of a directory by their paths below it; its own node is at the empty path. -/
abbrev Tree (Name Byte : Type) := Finmap fun _ : List Name => Node Byte

def emptyDir : Tree Name Byte := Finmap.singleton [] .dir

def emptyBelow (t : Tree Name Byte) (p : List Name) : Bool :=
  decide (∀ q ∈ t.keys, p <+: q → q = p)

def isDir (t : Tree Name Byte) (p : List Name) : Bool :=
  match t.lookup p with
  | some .dir => true
  | _ => false

/-- A new node, in a directory that exists. -/
def addNode (t : Tree Name Byte) (p : List Name) (n : Node Byte) : Option (Tree Name Byte) :=
  if isDir t p.dropLast then some (t.insert p n) else none

inductive Call (Name Byte : Type)
  | mkdir (p : List Name)
  | unlink (p : List Name)
  | symlink (p : List Name) (target : List Byte)
  | create (p : List Name)
  | write (p : List Name) (data : List Byte)

namespace Call

def path : Call Name Byte → List Name
  | mkdir p | unlink p | symlink p _ | create p | write p _ => p

/-- The whole effect of a call whose failure stops the caller: `mkdir` puts up with a node that
exists, and `unlink` with one that does not. -/
def apply (t : Tree Name Byte) : Call Name Byte → Option (Tree Name Byte)
  | mkdir p =>
      match t.lookup p with
      | some _ => some t
      | none => addNode t p .dir
  | unlink p =>
      match t.lookup p with
      | none => some t
      | some .dir => none
      | some _ => some (t.erase p)
  | symlink p target =>
      match t.lookup p with
      | some _ => none
      | none => addNode t p (.link target)
  | create p =>
      match t.lookup p with
      | some (.file _) => some (t.insert p (.file []))
      | some _ => none
      | none => addNode t p (.file [])
  | write p data =>
      match t.lookup p with
      | some (.file old) => some (t.insert p (.file (old ++ data)))
      | _ => none

end Call

/-- The tree after all calls, when none fails. -/
def finish : List (Call Name Byte) → Tree Name Byte → Option (Tree Name Byte)
  | [], t => some t
  | c :: todo, t => (c.apply t).bind (finish todo)

/-- The next call of a list; a `write` may take only the first `k` bytes, and is repeated for the
rest. -/
def nextCall (k : Nat) : List (Call Name Byte) → Tree Name Byte →
    Option (List (Call Name Byte) × Tree Name Byte)
  | [], _ => none
  | .write p data :: todo, t =>
      ((Call.write p (data.take k)).apply t).map fun t' =>
        (match data.drop k with
          | [] => todo
          | rest => .write p rest :: todo, t')
  | c :: todo, t => (c.apply t).map fun t' => (todo, t')

section Building

variable {t t' : Tree Name Byte} {c : Call Name Byte} {todo : List (Call Name Byte)}

theorem addNode_eq {p : List Name} {n : Node Byte} (h : addNode t p n = some t') :
    t' = t.insert p n := by
  unfold addNode at h
  split at h
  · exact (Option.some.inj h).symm
  · cases h

theorem apply_lookup_ne {q : List Name} (h : c.apply t = some t') (hq : q ≠ c.path) :
    t'.lookup q = t.lookup q := by
  cases c with
  | mkdir p =>
      simp only [Call.apply] at h
      split at h
      · obtain rfl := Option.some.inj h
        rfl
      · obtain rfl := addNode_eq h
        exact Finmap.lookup_insert_of_ne _ hq
  | unlink p =>
      simp only [Call.apply] at h
      split at h
      · obtain rfl := Option.some.inj h
        rfl
      · cases h
      · obtain rfl := Option.some.inj h
        exact Finmap.lookup_erase_ne hq
  | symlink p target =>
      simp only [Call.apply] at h
      split at h
      · cases h
      · obtain rfl := addNode_eq h
        exact Finmap.lookup_insert_of_ne _ hq
  | create p =>
      simp only [Call.apply] at h
      split at h
      · obtain rfl := Option.some.inj h
        exact Finmap.lookup_insert_of_ne _ hq
      · cases h
      · obtain rfl := addNode_eq h
        exact Finmap.lookup_insert_of_ne _ hq
  | write p data =>
      simp only [Call.apply] at h
      split at h
      · obtain rfl := Option.some.inj h
        exact Finmap.lookup_insert_of_ne _ hq
      · cases h

theorem mkdir_lookup {p q : List Name} (h : (Call.mkdir p).apply t = some t') :
    t'.lookup q = t.lookup q ∨ q = p ∧ t.lookup p = none ∧ t'.lookup q = some .dir := by
  simp only [Call.apply] at h
  split at h
  · obtain rfl := Option.some.inj h
    exact Or.inl rfl
  next hnone =>
    obtain rfl := addNode_eq h
    by_cases hq : q = p
    · subst hq
      exact Or.inr ⟨rfl, hnone, Finmap.lookup_insert _⟩
    · exact Or.inl (Finmap.lookup_insert_of_ne _ hq)

theorem mkdir_keeps {p q : List Name} {n : Node Byte} (h : (Call.mkdir p).apply t = some t')
    (hq : t.lookup q = some n) : t'.lookup q = some n := by
  rcases mkdir_lookup (q := q) h with hsame | ⟨rfl, hnone, -⟩
  · exact hsame.trans hq
  · rw [hnone] at hq
    cases hq

theorem mkdir_makes {p : List Name} (h : (Call.mkdir p).apply t = some t')
    (hp : t.lookup p = none ∨ t.lookup p = some .dir) : t'.lookup p = some .dir := by
  rcases hp with hnone | hdir
  · simp only [Call.apply, hnone] at h
    obtain rfl := addNode_eq h
    exact Finmap.lookup_insert _
  · exact mkdir_keeps h hdir

theorem symlink_makes {p : List Name} {target : List Byte}
    (h : (Call.symlink p target).apply t = some t') : t'.lookup p = some (.link target) := by
  simp only [Call.apply] at h
  split at h
  · cases h
  · obtain rfl := addNode_eq h
    exact Finmap.lookup_insert _

theorem create_makes {p : List Name} (h : (Call.create p).apply t = some t') :
    t'.lookup p = some (.file []) := by
  simp only [Call.apply] at h
  split at h
  · obtain rfl := Option.some.inj h
    exact Finmap.lookup_insert _
  · cases h
  · obtain rfl := addNode_eq h
    exact Finmap.lookup_insert _

theorem write_appends {p : List Name} {data : List Byte}
    (h : (Call.write p data).apply t = some t') :
    ∃ old, t.lookup p = some (.file old) ∧ t' = t.insert p (.file (old ++ data)) := by
  simp only [Call.apply] at h
  split at h
  next old hold =>
    obtain rfl := Option.some.inj h
    exact ⟨old, hold, rfl⟩
  next => cases h

theorem write_write (p : List Name) (a b : List Byte) (t : Tree Name Byte) :
    ((Call.write p a).apply t).bind (Call.apply · (.write p b)) =
      (Call.write p (a ++ b)).apply t := by
  simp only [Call.apply]
  split
  · rw [Option.bind_some, Finmap.lookup_insert]
    simp only [Finmap.insert_insert, List.append_assoc]
  · rfl

theorem finish_cons (h : finish (c :: todo) t = some t') :
    ∃ mid, c.apply t = some mid ∧ finish todo mid = some t' :=
  Option.bind_eq_some_iff.mp h

theorem finish_append (a b : List (Call Name Byte)) (t : Tree Name Byte) :
    finish (a ++ b) t = (finish a t).bind (finish b) := by
  induction a generalizing t with
  | nil => rfl
  | cons c a ih =>
      rw [List.cons_append, finish, finish, Option.bind_assoc]
      exact congrArg _ (funext ih)

theorem finish_split {a b : List (Call Name Byte)} (h : finish (a ++ b) t = some t') :
    ∃ mid, finish a t = some mid ∧ finish b mid = some t' := by
  rw [finish_append] at h
  exact Option.bind_eq_some_iff.mp h

/-- A call, whole or in part, leaves the tree that the calls lead to as it is. -/
theorem nextCall_finish {k : Nat} {todo' : List (Call Name Byte)}
    (h : nextCall k todo t = some (todo', t')) : finish todo t = finish todo' t' := by
  unfold nextCall at h
  split at h
  · cases h
  next p data todo =>
    obtain ⟨mid, hone, hpair⟩ := Option.map_eq_some_iff.mp h
    obtain ⟨rfl, rfl⟩ := Prod.mk.inj hpair
    have hsplit := write_write p (data.take k) (data.drop k) t
    rw [List.take_append_drop, hone, Option.bind_some] at hsplit
    split
    next hrest =>
      rw [hrest] at hsplit
      have hdata : data.take k = data := by
        have := List.take_append_drop k data
        rwa [hrest, List.append_nil] at this
      rw [finish, ← hdata, hone, Option.bind_some]
    next =>
      rw [finish, finish, hsplit]
  · obtain ⟨mid, hone, hpair⟩ := Option.map_eq_some_iff.mp h
    obtain ⟨rfl, rfl⟩ := Prod.mk.inj hpair
    rw [finish, hone, Option.bind_some]

theorem nextCall_ne {k : Nat} {todo' : List (Call Name Byte)} {p q : List Name}
    (h : nextCall k todo t = some (todo', t')) (hpath : ∀ c ∈ todo, c.path = p) (hq : q ≠ p) :
    t'.lookup q = t.lookup q ∧ ∀ c ∈ todo', c.path = p := by
  unfold nextCall at h
  split at h
  · cases h
  next r data todo =>
    obtain ⟨mid, hone, hpair⟩ := Option.map_eq_some_iff.mp h
    obtain ⟨rfl, rfl⟩ := Prod.mk.inj hpair
    obtain rfl : r = p := hpath _ List.mem_cons_self
    refine ⟨apply_lookup_ne hone hq, ?_⟩
    intro c hc
    split at hc
    · exact hpath c (List.mem_cons_of_mem _ hc)
    · rcases List.mem_cons.mp hc with rfl | hc
      · rfl
      · exact hpath c (List.mem_cons_of_mem _ hc)
  next c todo _ =>
    obtain ⟨mid, hone, hpair⟩ := Option.map_eq_some_iff.mp h
    obtain ⟨rfl, rfl⟩ := Prod.mk.inj hpair
    refine ⟨apply_lookup_ne hone ?_, fun c hc => hpath c (List.mem_cons_of_mem _ hc)⟩
    rw [hpath c List.mem_cons_self]
    exact hq

end Building

/-- The calls that a recursive removal still has to make. -/
inductive Removal (Name : Type)
  | lstat (p : List Name)
  | unlink (p : List Name)
  | rmdir (p : List Name)

def Removal.path : Removal Name → List Name
  | lstat p | unlink p | rmdir p => p

/-- The next call of a removal. It may fail, which stops nothing; `names` is what the directory
lists, which may change while it is read. -/
def nextRemoval (ok : Bool) (names : List Name) : List (Removal Name) → Option (Tree Name Byte) →
    Option (List (Removal Name) × Option (Tree Name Byte))
  | [], _ => none
  | _ :: todo, none => some (todo, none)
  | .lstat p :: todo, some t =>
      match if ok then t.lookup p else none with
      | none => some (todo, some t)
      | some .dir => some (names.map (fun n => .lstat (p ++ [n])) ++ .rmdir p :: todo, some t)
      | some _ => some (.unlink p :: todo, some t)
  | .unlink p :: todo, some t =>
      match if ok then t.lookup p else none with
      | none => some (todo, some t)
      | some .dir => some (todo, some t)
      | some _ => some (todo, some (t.erase p))
  | .rmdir p :: todo, some t =>
      if ok && isDir t p && emptyBelow t p then
        some (todo, if p = [] then none else some (t.erase p))
      else some (todo, some t)

section Removing

variable {ok : Bool} {names : List Name} {todo todo' : List (Removal Name)}
  {d d' : Option (Tree Name Byte)}

theorem nextRemoval_lookup (h : nextRemoval ok names todo d = some (todo', d')) {t' : Tree Name Byte}
    (ht' : d' = some t') :
    ∃ t, d = some t ∧ ∀ p n, t'.lookup p = some n → t.lookup p = some n := by
  have herase : ∀ (t : Tree Name Byte) q p n, (t.erase q).lookup p = some n →
      t.lookup p = some n := by
    intro t q p n hp
    by_cases hq : p = q
    · rw [hq, Finmap.lookup_erase] at hp
      cases hp
    · rwa [Finmap.lookup_erase_ne hq] at hp
  subst ht'
  unfold nextRemoval at h
  split at h
  · cases h
  · cases h
  next p todo t =>
    refine ⟨t, rfl, ?_⟩
    split at h <;> cases h <;> exact fun _ _ hp => hp
  next p todo t =>
    refine ⟨t, rfl, ?_⟩
    split at h <;> cases h
    · exact fun _ _ hp => hp
    · exact fun _ _ hp => hp
    · exact herase t p
  next p todo t =>
    refine ⟨t, rfl, ?_⟩
    split at h
    · split at h
      · cases h
      · cases h
        exact herase t p
    · cases h
      exact fun _ _ hp => hp

/-- Only the last call of a removal is about the directory itself. -/
def RootLast (todo : List (Removal Name)) : Prop := ∀ r ∈ todo.dropLast, r.path ≠ []

omit [DecidableEq Name] in
theorem rootLast_tail {r : Removal Name} (h : RootLast (r :: todo)) : RootLast todo := by
  intro r' hr'
  cases todo with
  | nil => cases hr'
  | cons r₁ todo => exact h r' (List.mem_cons_of_mem _ hr')

omit [DecidableEq Name] in
theorem rootLast_replace {r : Removal Name} {N : List (Removal Name)} {last : Removal Name}
    (h : RootLast (r :: todo)) (hnew : ∀ r' ∈ N, r'.path ≠ []) (hlast : last.path = r.path) :
    RootLast (N ++ last :: todo) := by
  intro r' hr'
  cases todo with
  | nil =>
      rw [List.dropLast_concat] at hr'
      exact hnew r' hr'
  | cons r₁ todo =>
      rw [List.dropLast_append_of_ne_nil (by simp), List.mem_append, List.dropLast_cons_cons,
        List.mem_cons] at hr'
      rcases hr' with hr' | rfl | hr'
      · exact hnew r' hr'
      · rw [hlast]
        exact h r List.mem_cons_self
      · exact h r' (List.mem_cons_of_mem _ hr')

theorem nextRemoval_root (h : nextRemoval ok names todo d = some (todo', d')) (hroot : RootLast todo)
    (hd : d.isSome = true) : RootLast todo' ∧ (todo' ≠ [] → d'.isSome = true) := by
  unfold nextRemoval at h
  split at h
  · cases h
  · cases hd
  next p todo t =>
    split at h <;> cases h
    · exact ⟨rootLast_tail hroot, fun _ => rfl⟩
    · refine ⟨rootLast_replace hroot ?_ rfl, fun _ => rfl⟩
      intro r hr
      obtain ⟨n, -, rfl⟩ := List.mem_map.mp hr
      simp [Removal.path]
    · exact ⟨rootLast_replace (N := []) hroot (by simp) rfl, fun _ => rfl⟩
  next p todo t =>
    split at h <;> cases h <;> exact ⟨rootLast_tail hroot, fun _ => rfl⟩
  next p todo t =>
    split at h
    · cases h
      refine ⟨rootLast_tail hroot, ?_⟩
      intro hne
      have hp : p ≠ [] := by
        cases todo' with
        | nil => exact absurd rfl hne
        | cons r rest => exact hroot (.rmdir p) List.mem_cons_self
      rw [if_neg hp]
      rfl
    · cases h
      exact ⟨rootLast_tail hroot, fun _ => rfl⟩

end Removing

end CZet.Lib.FileTree
