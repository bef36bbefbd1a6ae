import FFSys.Lib.Bytes
import FFSys.Lib.Cuts

/-!
# Directory scan

Model of the UNIX part of `ffsys/dirscan.h`.

* `ffdirscanFilenameCmpz`, `ffdirscanCmpname` — the order of file names, and of offsets of names.
* `scanStep`, `scan` — the `readdir` loop: the names go to `buf`, each with its NUL, and their offsets
  to `offsets`.
* `ffdirscanOpen` — sorts the offsets and appends them to `buf`.
* `ffdirscanNext`, `ffdirscanReset` — read the offsets back, and through them the names.

Of ffbase, `ffsort` is a parameter with what is known of it (`Ffsort`), `ffs_wildcard` is any function.
Vectors grow.  A read outside of the buffer is a `fault`.
-/

set_option autoImplicit false

namespace FFSys.Dirscan

open FFSys.Lib

abbrev Byte := UInt8

/-! ## The order of names -/

/-- `if (c >= 'A' && c <= 'Z') c |= 0x20`. -/
def lowered (c : Byte) : Nat :=
  if 0x41 ≤ c.toNat ∧ c.toNat ≤ 0x5a then c.toNat ||| 0x20 else c.toNat

/-- The value of a `char`. -/
def charVal (c : Byte) : Int := if c.toNat < 128 then c.toNat else (c.toNat : Int) - 256

/-- `first_diff` after two characters that differ only in case. -/
def caseDiff (x y : Byte) : Int := if charVal x < charVal y then 1 else -1

/-- The loop of `_ffdirscan_filename_cmpz`.  The strings are without their NUL: a NUL differs from any
    other character and is below all of them. -/
def cmpLoop (firstDiff : Int) : List Byte → List Byte → Int
  | [], [] => firstDiff
  | [], _ :: _ => -1
  | _ :: _, [] => 1
  | x :: a, y :: b =>
    if x ≠ y then
      if lowered x < lowered y then -1
      else if lowered y < lowered x then 1
      else cmpLoop (caseDiff x y) a b
    else cmpLoop firstDiff a b

def ffdirscanFilenameCmpz (a b : List Byte) : Int := cmpLoop 0 a b

/-- The NUL-terminated string at `off`. -/
def cstrAt (mem : List Byte) (off : Nat) : Option (List Byte) :=
  if 0 ∈ mem.drop off then some ((mem.drop off).takeWhile (· != 0)) else none

/-- `_ffdirscan_cmpname`, with `FFPATH_ICASE` 0. -/
def ffdirscanCmpname (buf : List Byte) (off₁ off₂ : BitVec 32) : Int :=
  ffdirscanFilenameCmpz ((cstrAt buf off₁.toNat).getD []) ((cstrAt buf off₂.toNat).getD [])

/-- A comparison function that is an order: exchanging the arguments changes the sign, and it is
    transitive. -/
structure Consistent {α : Type} (cmp : α → α → Int) : Prop where
  swap : ∀ a b, cmp b a = -cmp a b
  trans : ∀ a b c, cmp a b ≤ 0 → cmp b c ≤ 0 → cmp a c ≤ 0

/-- `ffsort` on elements of type `ffuint`: with a consistent comparison it sorts. -/
structure Ffsort where
  sort : (BitVec 32 → BitVec 32 → Int) → List (BitVec 32) → List (BitVec 32)
  perm : ∀ cmp l, Consistent cmp → (sort cmp l).Perm l
  sorted : ∀ cmp l, Consistent cmp → (sort cmp l).Pairwise fun a b => cmp a b ≤ 0

/-! ## Opening -/

def FFDIRSCAN_NOSORT : BitVec 32 := 1
def FFDIRSCAN_DOT : BitVec 32 := 2
def FFDIRSCAN_USEWILDCARD : BitVec 32 := 0x10

def hasFlag (flags f : BitVec 32) : Bool := flags &&& f != 0

/-- `d_name` of a directory entry. -/
structure EntryName where
  bytes : List Byte
  nonempty : bytes ≠ []
  noNul : 0 ∉ bytes

/-- The directory: whether `opendir` (or `fdopendir`) succeeds, the entries, and whether `readdir` fails
    after them. -/
structure Dir where
  opened : Bool
  entries : List EntryName
  failed : Bool

/-- The character at `i`; the string ends with a NUL. -/
def charAt (name : List Byte) (i : Nat) : Byte := (name[i]?).getD 0

/-- `"."` or `".."`. -/
def isDots (name : List Byte) : Bool :=
  charAt name 0 == 0x2e &&
    (charAt name 1 == 0 || (charAt name 1 == 0x2e && charAt name 2 == 0))

/-- `ffs_wildcard(pattern, name, flags)`: 0 if the name matches. -/
abbrev FfsWildcard := List Byte → List Byte → Nat → Int

/-- `wcflags`, with `FFPATH_ICASE` 0. -/
def wcflags : Nat := 0

/-- The vectors of the loop. -/
structure Scanned where
  offsets : List (BitVec 32)
  buf : List Byte
  deriving DecidableEq, Repr

section Open

variable (ffsort : Ffsort) (ffsWildcard : FfsWildcard)

/-- The body of the loop for one entry. -/
def scanStep (wildcard : List Byte) (flags : BitVec 32) (s : Scanned) (name : List Byte) : Scanned :=
  if !hasFlag flags FFDIRSCAN_DOT && isDots name then s
  else if hasFlag flags FFDIRSCAN_USEWILDCARD && ffsWildcard wildcard name wcflags != 0 then s
  else ⟨s.offsets ++ [BitVec.ofNat 32 s.buf.length], s.buf ++ (name ++ [0])⟩

def scan (wildcard : List Byte) (flags : BitVec 32) (names : List (List Byte)) : Scanned :=
  names.foldl (scanStep ffsWildcard wildcard flags) ⟨[], []⟩

/-- `struct ffdirscan`. -/
structure Ffdirscan where
  names : List Byte
  len : Nat
  index : Nat
  cur : Nat
  wildcard : List Byte
  deriving DecidableEq, Repr

/-- The offsets as they are in memory. -/
def indexBytes (offsets : List (BitVec 32)) : List Byte :=
  (offsets.map fun o => leBytes 4 o.toNat).flatten

/-- `ffdirscan_open`: the value it returns, and the object after it. -/
def ffdirscanOpen (d : Ffdirscan) (dir : Dir) (flags : BitVec 32) : Int × Ffdirscan :=
  if !dir.opened then (-1, d)
  else
    let s := scan ffsWildcard d.wildcard flags (dir.entries.map EntryName.bytes)
    if dir.failed then (-1, d)
    else
      let offsets :=
        if !hasFlag flags FFDIRSCAN_NOSORT then ffsort.sort (ffdirscanCmpname s.buf) s.offsets
        else s.offsets
      let index := s.buf.length
      let buf := s.buf ++ indexBytes offsets
      (0, { d with names := buf, len := buf.length, index := index, cur := index })

end Open

/-! ## Reading -/

inductive NextName where
  | null
  | fault
  | name (bytes : List Byte)
  deriving DecidableEq, Repr

def ffdirscanNext (d : Ffdirscan) : NextName × Ffdirscan :=
  if d.cur = d.len then (.null, d)
  else match readAt d.names d.cur 4 with
    | none => (.fault, d)
    | some off =>
      match cstrAt d.names off with
      | none => (.fault, { d with cur := d.cur + 4 })
      | some name => (.name name, { d with cur := d.cur + 4 })

def ffdirscanReset (d : Ffdirscan) : Ffdirscan := { d with cur := d.index }

/-- Calls until `NULL`; `none`: a fault, or not at the end after `fuel` calls. -/
def readNames : Nat → Ffdirscan → Option (List (List Byte))
  | 0, _ => none
  | fuel + 1, d =>
    match ffdirscanNext d with
    | (.null, _) => some []
    | (.fault, _) => none
    | (.name name, d') => (readNames fuel d').map (name :: ·)

/-- The object after `n` calls. -/
def afterCalls : Nat → Ffdirscan → Ffdirscan
  | 0, d => d
  | n + 1, d => afterCalls n (ffdirscanNext d).2

end FFSys.Dirscan
