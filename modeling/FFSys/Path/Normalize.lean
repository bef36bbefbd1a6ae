import FFSys.Path.Stack

/-!
# `ffpath_normalize`: the loop over the output buffer

Model of `ffpath_normalize` of `ffsys/path.h` for both builds (`ffWin` is `FF_WIN`):

* `slashesOf`, `effFlags` — the set of separators and the flags with the defaults of the system.
* `ffstrSplitbyany`, `ffsRfindany` — the two string functions the loop calls.
* `normalizeParent` — what a `".."` does.  The function keeps no list of components: it searches
  its own output backwards for the separator before the last component.
* `normalizeStep` / `normalizeLoop` — one iteration and the loop, `ffpathNormalize` — the whole
  function.

`dst` is the list of the first `k` bytes of the output buffer, so that `k` is its length;
nothing above `k` is ever read.  `none` is `return -1`.
-/

set_option autoImplicit false

namespace FFSys.Path

def FFPATH_SLASH_ONLY : BitVec 32 := 1
def FFPATH_SLASH_BACKSLASH : BitVec 32 := 2
def FFPATH_FORCE_SLASH : BitVec 32 := 4
def FFPATH_FORCE_BACKSLASH : BitVec 32 := 8
def FFPATH_SIMPLE : BitVec 32 := 0x10
def FFPATH_DISK_LETTER : BitVec 32 := 0x20
def FFPATH_NO_DISK_LETTER : BitVec 32 := 0x40

/-- `flags & mask`. -/
def hasFlag (flags mask : BitVec 32) : Bool := flags &&& mask != 0

/-- `slashes`. -/
def slashesOf (ffWin : Bool) (flags : BitVec 32) : List Byte :=
  if ffWin && !hasFlag flags (FFPATH_SLASH_BACKSLASH ||| FFPATH_SLASH_ONLY) then [SLASH, BACKSLASH]
  else if hasFlag flags FFPATH_SLASH_BACKSLASH then [SLASH, BACKSLASH]
  else [SLASH]

/-- `flags` after the default of Windows is set. -/
def effFlags (ffWin : Bool) (flags : BitVec 32) : BitVec 32 :=
  if ffWin && !hasFlag flags (FFPATH_DISK_LETTER ||| FFPATH_NO_DISK_LETTER) then
    flags ||| FFPATH_DISK_LETTER
  else flags

/-- The separator written for the separator `b` of the source. -/
def emitSep (flags : BitVec 32) (b : Byte) : Byte :=
  if hasFlag flags FFPATH_FORCE_SLASH then SLASH
  else if hasFlag flags FFPATH_FORCE_BACKSLASH then BACKSLASH
  else b

/-- `ffstr_splitbyany`: the position of the first byte out of `anyof`, what is left of it and
    what is right of it; without one everything is left of it. -/
def ffstrSplitbyany (s anyof : List Byte) : Option Nat × List Byte × List Byte :=
  match s.findIdx? (anyof.contains ·) with
  | none => (none, s, [])
  | some pos => (some pos, s.take pos, s.drop (pos + 1))

/-- `ffs_rfindany`: the position of the last byte out of `anyof`. -/
def ffsRfindany (s anyof : List Byte) : Option Nat :=
  (s.reverse.findIdx? (anyof.contains ·)).map fun i => s.length - 1 - i

/-- What the loop reads and never changes; `flags` are those of `effFlags`. -/
structure NormalizeCfg where
  cap : Nat
  flags : BitVec 32
  slashes : List Byte

/-- The variables of the loop. -/
structure NormalizeSt where
  s : List Byte
  dst : List Byte
  simplify : Bool
  skipDisk : Bool

/-- What a `".."` does to the output: `continue`, or go on and write it. -/
inductive Parent where
  | skip (dst : List Byte)
  | emit (dst : List Byte)
  deriving DecidableEq, Repr

/-- The block `if (ffstr_eqcz(&part, ".."))`. -/
def normalizeParent (c : NormalizeCfg) (dst : List Byte) : Parent :=
  if dst.length ≠ 0 then
    match ffsRfindany (dst.take (dst.length - 1)) c.slashes with
    | none =>
      let prev := dst.take (dst.length - 1)
      if prev = dotComp then .emit []
      else if prev = dotdotComp then .emit dst
      else if dst.length = 1 then .skip dst
      else if hasFlag c.flags FFPATH_DISK_LETTER && prev.getLast? == some COLON then .skip dst
      else .skip []
    | some slash =>
      let prev := (dst.drop (slash + 1)).take (dst.length - 1 - (slash + 1))
      if prev = dotdotComp then .emit dst
      else .skip (dst.take (slash + 1))
  else if hasFlag c.flags FFPATH_SIMPLE then .skip dst
  else .emit dst

/-- The capacity test and the stores at the end of the loop body. -/
def normalizeEmit (c : NormalizeCfg) (st : NormalizeSt) (part : Comp) (sep : Option Byte) :
    Option NormalizeSt :=
  if st.dst.length + part.length + (if sep.isSome then 1 else 0) > c.cap then none
  else some { st with dst := st.dst ++ part ++ (sep.map (emitSep c.flags)).toList }

/-- The loop body from the test for `".."` on. -/
def normalizePart (c : NormalizeCfg) (st : NormalizeSt) (part : Comp) (sep : Option Byte) :
    Option NormalizeSt :=
  if part = dotdotComp then
    match normalizeParent c st.dst with
    | .skip dst => some { st with dst := dst }
    | .emit dst => normalizeEmit c { st with dst := dst } part sep
  else normalizeEmit c st part sep

/-- One iteration of the loop. -/
def normalizeStep (c : NormalizeCfg) (st : NormalizeSt) : Option NormalizeSt :=
  let (pos, part, rest) := ffstrSplitbyany st.s c.slashes
  let sep := pos.bind (st.s[·]?)
  let st := { st with s := rest }
  if st.simplify then
    if part = [] ∨ part = dotComp then some st
    else if st.skipDisk then
      if part.getLast? = some COLON then some { st with skipDisk := false }
      else normalizePart c { st with skipDisk := false } part sep
    else normalizePart c st part sep
  else normalizePart c { st with simplify := true } part sep

/-- `while (s.len != 0)`.  An iteration consumes at least one byte of `s`, so that as many
    iterations as there are bytes are enough. -/
def normalizeLoop (c : NormalizeCfg) : Nat → NormalizeSt → Option (List Byte)
  | 0, st => if st.s = [] then some st.dst else none
  | fuel + 1, st =>
    if st.s = [] then some st.dst
    else match normalizeStep c st with
      | none => none
      | some st => normalizeLoop c fuel st

/-- `ffpath_normalize(dst, cap, src, len, flags)`: the bytes written, or `none` for `-1`. -/
def ffpathNormalize (ffWin : Bool) (cap : Nat) (src : List Byte) (flags : BitVec 32) :
    Option (List Byte) :=
  let slashes := slashesOf ffWin flags
  let flags := effFlags ffWin flags
  if hasFlag flags FFPATH_DISK_LETTER && isPassThrough src then
    if src.length > cap then none else some src
  else
    normalizeLoop ⟨cap, flags, slashes⟩ src.length
      { s := src, dst := [], simplify := hasFlag flags FFPATH_SIMPLE,
        skipDisk := hasFlag flags FFPATH_DISK_LETTER && hasFlag flags FFPATH_SIMPLE }

end FFSys.Path
