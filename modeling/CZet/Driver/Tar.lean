/- source: src/czet.c (ndup, mkdirs, safe_name, parse_num, write_all, copy_data, skip_pad_only,
     skip_padded, extract_tar)
   digest: The extractor of the blob: the headers that it reads and the system calls that it makes. -/

import CZet.Lib.FileReads
import Mathlib.Data.List.DropRight

set_option autoImplicit false
set_option relaxedAutoImplicit false

namespace CZet.Driver.Tar

open CZet.Lib.FileReads

section Strings

/-- A C string without its terminator. -/
abbrev CStr := List UInt8

def slash : UInt8 := 47

def dot : UInt8 := 46

/-- `ndup`; the copy ends at its first NUL. -/
def ndup (s : List UInt8) (n : Nat) : CStr := (s.take n).takeWhile (· ≠ 0)

/-- The string from the first occurrence of the other one on. -/
def strstr (needle : CStr) : CStr → Option CStr
  | [] => if needle = [] then some [] else none
  | c :: s => if needle <+: c :: s then some (c :: s) else strstr needle s

/-- The loop of `safe_name` over the occurrences of "/..". -/
def safeNameLoop : Nat → CStr → Bool
  | 0, _ => true
  | fuel + 1, s =>
      match strstr [slash, dot, dot] s with
      | none => true
      | some s =>
          if s[3]? = some slash ∨ s[3]? = none then false
          else safeNameLoop fuel (s.drop 3)

/-- The name is accepted. -/
def safeName (name : CStr) : Bool :=
  if name.head? = some slash then false
  else if name = [dot, dot] then false
  else safeNameLoop name.length name

/-- What stands before the last slash of `out`, or "." when that is nothing. -/
def parentOf (out : CStr) : CStr :=
  match out.reverse.dropWhile (· ≠ slash) with
  | [] => [dot]
  | [_] => [dot]
  | _ :: parent => parent.reverse

def octalLoop : UInt64 → List UInt8 → UInt64
  | v, [] => v
  | v, c :: b =>
      if c = 0 then v
      else if 48 ≤ c ∧ c ≤ 55 then octalLoop ((v <<< 3) ||| (c - 48).toUInt64) b
      else v

def parseNum : List UInt8 → UInt64
  | [] => 0
  | c :: b =>
      if c &&& 0x80 ≠ 0 then
        b.foldl (fun v c => (v <<< 8) ||| c.toUInt64) (c &&& 0x7f).toUInt64
      else octalLoop 0 (c :: b)

end Strings

section Headers

def hdrLen : Nat := 512

def typeflag (hdr : List UInt8) : UInt8 := hdr.getD 156 0

def entrySize (hdr : List UInt8) : UInt64 := parseNum ((hdr.drop 124).take 12)

/-- Prefix and name joined. -/
def relName (hdr : List UInt8) : CStr :=
  let name := ndup hdr 100
  let namePrefix := ndup (hdr.drop 345) 155
  if namePrefix ≠ [] then namePrefix ++ slash :: name else name

def linkName (hdr : List UInt8) : CStr := ndup (hdr.drop 157) 100

end Headers

section Calls

inductive Errno
  | eexist
  | enoent
  | eintr
  | other
  deriving DecidableEq

inductive Answer
  | ok (n : Nat)
  | err (e : Errno)
  deriving DecidableEq

inductive SysCall
  | mkdir (path : CStr)
  | unlink (path : CStr)
  | symlink (target path : CStr)
  | openTrunc (path : CStr)
  | write (fd : Nat) (data : List UInt8)
  | close (fd : Nat)
  deriving DecidableEq

/-- The system answers a call. -/
abbrev System (σ : Type) := SysCall → σ → Answer × σ

inductive Event
  | header (pos : Nat) (hdr : List UInt8)
  | call (c : SysCall) (a : Answer)
  deriving DecidableEq

/-- The extraction under way: the position in the stream, the state of the system, and what has
happened. -/
structure Proc (σ : Type) where
  pos : Nat
  state : σ
  trace : List Event

variable {σ : Type} (sys : System σ) (read : Reads)

theorem bind_run {α β : Type} (m : StateM (Proc σ) α) (k : α → StateM (Proc σ) β) (s : Proc σ) :
    (m >>= k) s = k (m s).1 (m s).2 := rfl

def ask (c : SysCall) : StateM (Proc σ) Answer := fun s =>
  ((sys c s.state).1,
    { s with state := (sys c s.state).2, trace := s.trace ++ [.call c (sys c s.state).1] })

/-- `fread(buf, 1, want, in)` -/
def getBytes (want : Nat) : StateM (Proc σ) (List UInt8) := fun s =>
  (fread read s.pos want, { s with pos := s.pos + (fread read s.pos want).length })

/-- A header is interpreted that ends at the position reached. -/
def interpret (hdr : List UInt8) : StateM (Proc σ) Unit := fun s =>
  ((), { s with trace := s.trace ++ [.header (s.pos - hdrLen) hdr] })

end Calls

section Extracting

variable {σ : Type} (sys : System σ) (read : Reads)

/-- The directory is made or exists. -/
def makeDir (path : CStr) : StateM (Proc σ) Bool := do
  match ← ask sys (.mkdir path) with
  | .ok _ => pure true
  | .err e => pure (e = .eexist)

/-- The loop of `mkdirs`, which cuts the path at its slashes. -/
def mkdirsLoop : CStr → CStr → StateM (Proc σ) Bool
  | done, [] => makeDir sys done
  | done, c :: rest =>
      if c = slash then do
        if ← makeDir sys done then mkdirsLoop (done ++ [c]) rest else pure false
      else mkdirsLoop (done ++ [c]) rest

def pathMax : Nat := 4096

def mkdirs (path : CStr) : StateM (Proc σ) Bool :=
  if path.length = 0 ∨ path.length ≥ pathMax then pure false
  else
    match path.rdropWhile (· = slash) with
    | [] => makeDir sys []
    | c :: rest => mkdirsLoop sys [c] rest

/-- `write_all` for at most `fuel` calls; `none` when they do not suffice. -/
def writeAll (fd : Nat) : Nat → List UInt8 → StateM (Proc σ) (Option Bool)
  | 0, data => pure (if data = [] then some true else none)
  | fuel + 1, data =>
      if data = [] then pure (some true)
      else do
        match ← ask sys (.write fd data) with
        | .ok w => writeAll fd fuel (data.drop w)
        | .err .eintr => writeAll fd fuel data
        | .err _ => pure (some false)

def chunk : Nat := 65536

def copyData (fd : Nat) : Nat → Nat → StateM (Proc σ) (Option Bool)
  | 0, size => pure (if size = 0 then some true else none)
  | fuel + 1, size =>
      if size = 0 then pure (some true)
      else do
        let got ← getBytes read (if size > chunk then chunk else size)
        if got = [] then pure (some false)
        else
          match ← writeAll sys fd fuel got with
          | some true => copyData fd fuel (size - got.length)
          | r => pure r

/-- A loop that reads and forgets; padding is shorter than a header. -/
def skipLoop : Nat → Nat → StateM (Proc σ) (Option Bool)
  | 0, left => pure (if left = 0 then some true else none)
  | fuel + 1, left =>
      if left = 0 then pure (some true)
      else do
        let got ← getBytes read (if left > hdrLen then hdrLen else left)
        if got = [] then pure (some false) else skipLoop fuel (left - got.length)

def padding (size : Nat) : Nat := (512 - size % 512) % 512

def skipPadOnly (fuel size : Nat) : StateM (Proc σ) (Option Bool) :=
  skipLoop read fuel (padding size)

def skipPadded (fuel size : Nat) : StateM (Proc σ) (Option Bool) := do
  match ← skipLoop read fuel size with
  | some true => skipLoop read fuel (padding size)
  | r => pure r

/-- A header of a symbolic link. -/
def extractLink (hdr out : CStr) : StateM (Proc σ) Bool := do
  match ← ask sys (.unlink out) with
  | .err .enoent | .ok _ =>
      match ← ask sys (.symlink (linkName hdr) out) with
      | .ok _ => pure true
      | .err _ => pure false
  | .err _ => pure false

/-- A header of a regular file. -/
def extractFile (fuel size : Nat) (out : CStr) : StateM (Proc σ) (Option Bool) := do
  if ← mkdirs sys (parentOf out) then
    match ← ask sys (.openTrunc out) with
    | .err _ => pure (some false)
    | .ok fd =>
        match ← copyData sys read fd fuel size with
        | none => pure none
        | some copied =>
            let closed ← ask sys (.close fd)
            let skipped ← skipPadOnly read fuel size
            pure (skipped.map fun skipped => copied && (closed matches .ok _) && skipped)
  else pure (some false)

/-- What `extract_tar` does about one header; `none` when the fuel does not suffice. -/
def extractEntry (base : CStr) (fuel : Nat) (hdr : List UInt8) : StateM (Proc σ) (Option Bool) :=
  let size := (entrySize hdr).toNat
  -- long names and long links of GNU
  if typeflag hdr = 76 ∨ typeflag hdr = 75 then skipPadded read fuel size
  else if safeName (relName hdr) = false then pure (some false)
  else
    let out := base ++ slash :: relName hdr
    if typeflag hdr = 53 then some <$> makeDir sys out
    else if typeflag hdr = 50 then some <$> extractLink sys hdr out
    else if typeflag hdr = 48 ∨ typeflag hdr = 0 ∨ typeflag hdr = 55 then
      extractFile sys read fuel size out
    else skipPadded read fuel size

def allzero (hdr : List UInt8) : Bool := hdr.all fun b => decide (b = 0)

/-- `extract_tar` on at most `fuel` headers; `some true` is 0 and `some false` is -1. -/
def extractTar (base : CStr) : Nat → StateM (Proc σ) (Option Bool)
  | 0 => pure none
  | fuel + 1 => do
      let hdr ← getBytes read hdrLen
      if hdr.length < hdrLen then pure (some (decide (hdr.length = 0)))
      else if allzero hdr then pure (some true)
      else
        interpret hdr
        match ← extractEntry sys read base fuel hdr with
        | some true => extractTar base fuel
        | r => pure r

theorem extractTar_succ (base : CStr) (fuel : Nat) (s : Proc σ) (hdr : List UInt8)
    (hhdr : fread read s.pos hdrLen = hdr) :
    extractTar sys read base (fuel + 1) s =
      if hdr.length < hdrLen then
        (some (decide (hdr.length = 0)), { s with pos := s.pos + hdr.length })
      else if allzero hdr then (some true, { s with pos := s.pos + hdr.length })
      else
        match extractEntry sys read base fuel hdr
          { s with
            pos := s.pos + hdr.length
            trace := s.trace ++ [.header (s.pos + hdr.length - hdrLen) hdr] } with
        | (some true, s') => extractTar sys read base fuel s'
        | r => r := by
  have hget : getBytes read hdrLen s = (hdr, { s with pos := s.pos + hdr.length }) := by
    rw [getBytes, hhdr]
  rw [extractTar, bind_run, hget]
  dsimp only
  split
  · rfl
  split
  · rfl
  rw [bind_run, bind_run]
  dsimp only [interpret]
  generalize extractEntry sys read base fuel hdr _ = result
  obtain ⟨r, s'⟩ := result
  cases r with
  | none => rfl
  | some ok => cases ok <;> rfl

end Extracting

end CZet.Driver.Tar
