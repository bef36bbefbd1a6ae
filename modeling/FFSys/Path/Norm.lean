import Mathlib.Data.List.Basic

/-!
# `ffpath_norm`: the component table and the output loop

Model of `ffpath_norm` of `ffsys/path.h`, statement by statement:

* `normRoot` — the root stores (`"/"`, `"\"`, `"C:\"`) and the offset `p` at which the
  components start.
* `normScan` — the first loop: one table entry per component, the end offset of the component
  in the low 12 bits, `0x1000` for `"."` and `0x2000` for `".."`.
* `normPart` / `normLoop` — the second loop: one component is skipped, emitted, or takes the
  last emitted component away.  The length to take away is read from the table at `cur`.
* `ffpathNorm` — the whole function.

`k` and `cur` are `ffuint`, hence `BitVec 32`: their differences wrap around.  A read of
`parts[]` outside of the array has no value and ends the run with `NormRes.fault`.  A store is
carried out at any index and recorded in `stores`; for every assignment to `k` the exact sum or
difference is recorded in `lens` (negative where the 32-bit value wraps around).
-/

set_option autoImplicit false

namespace FFSys.Path

abbrev Byte := UInt8

/-- A path component. -/
abbrev Comp := List Byte

def SLASH : Byte := 0x2f
def BACKSLASH : Byte := 0x5c
def DOT : Byte := 0x2e
def COLON : Byte := 0x3a

def FFPATH_NORM_UNIX : BitVec 32 := 1
def FFPATH_NORM_WINDOWS : BitVec 32 := 2
def FFPATH_NORM_STRICT : BitVec 32 := 0x10

/-- `FF_COUNT(parts)`. -/
def PARTS_COUNT : Nat := 255

/-- What the splitting loop takes for a separator: `'/'`, and also `'\'` by Windows rules. -/
def isSep (win : Bool) (b : Byte) : Bool := b == SLASH || (win && b == BACKSLASH)

/-- The separator written to the output. -/
def slashOf (win : Bool) : Byte := if win then BACKSLASH else SLASH

/-! ## The output buffer -/

/-- Variables of the output loop, the memory behind `dst`, and the record of what was done. -/
structure NormSt where
  k : BitVec 32
  cur : BitVec 32
  dst : Nat → Byte
  stores : List Nat
  lens : List Int

/-- `dst[i] = b`. -/
def NormSt.store (s : NormSt) (i : Nat) (b : Byte) : NormSt :=
  { s with dst := fun j => if j = i then b else s.dst j, stores := i :: s.stores }

/-- `ffmem_move(dst + i, bytes, n)`. -/
def NormSt.move (s : NormSt) : Nat → List Byte → NormSt
  | _, [] => s
  | i, b :: bs => (s.store i b).move (i + 1) bs

/-- `k += n`. -/
def NormSt.addK (s : NormSt) (n : Nat) : NormSt :=
  { s with k := s.k + BitVec.ofNat 32 n, lens := (s.k.toNat + n : Int) :: s.lens }

/-- `k -= n`. -/
def NormSt.subK (s : NormSt) (n : Nat) : NormSt :=
  { s with k := s.k - BitVec.ofNat 32 n, lens := (s.k.toNat - n : Int) :: s.lens }

/-- How a run ends: `return r`, or a read outside of `parts[]`. -/
inductive NormRes where
  | ret (r : Int)
  | fault
  deriving DecidableEq, Repr

/-! ## Root -/

/-- `"\\.\"`, `"\\?\"`, `"\\host\"`: returned as it is by Windows rules. -/
def isPassThrough (src : List Byte) : Bool :=
  decide (2 < src.length) && src[0]? == some BACKSLASH && src[1]? == some BACKSLASH

/-- `src[0]` is a letter and `src[1]` is `':'`. -/
def isDosPath (src : List Byte) : Bool :=
  match src with
  | c :: d :: _ => decide (0x41 ≤ c &&& 0xdf) && decide (c &&& 0xdf ≤ 0x5a) && d == COLON
  | _ => false

/-- The bytes stored for the root and the number of source bytes they stand for;
    `none` is `return -1`. -/
def normRoot (win : Bool) (cap : Nat) (src : List Byte) : Option (List Byte × Nat) :=
  if win then
    if isDosPath src then
      if 3 > cap then none
      else some ([src.getD 0 0 &&& 0xdf, COLON, BACKSLASH],
        2 + if (src[2]?).any (isSep true) then 1 else 0)
    else if (src[0]?).any (isSep true) then some ([BACKSLASH], 1)
    else some ([], 0)
  else if src[0]? = some SLASH then some ([SLASH], 1)
  else some ([], 0)

/-! ## Component table -/

/-- The table flag of the component that takes the first `r` bytes of `rest`. -/
def partFlag (rest : List Byte) (r : Nat) : Nat :=
  if r = 1 ∧ rest[0]? = some DOT then 0x1000
  else if r = 2 ∧ rest[0]? = some DOT ∧ rest[1]? = some DOT then 0x2000
  else 0

/-- The first loop from offset `p` on; `none` is `return -1`.  An iteration consumes at least
    one byte of `src` (or ends the loop), so `src.length + 1` iterations are enough. -/
def normScan (win : Bool) (src : List Byte) : Nat → Nat → List Nat → Option (List Nat)
  | 0, _, _ => none
  | fuel + 1, p, parts =>
    let rest := src.drop p
    let r := rest.findIdx (isSep win)
    if parts.length = PARTS_COUNT then none
    else
      let parts' := parts ++ [partFlag rest r ||| (p + r)]
      if p + r + 1 > src.length then some parts'
      else normScan win src fuel (p + r + 1) parts'

/-! ## Output loop -/

/-- What the output loop reads and never changes. -/
structure NormCfg where
  strict : Bool
  slash : Byte
  cap : Nat
  src : List Byte
  parts : List Nat
  root : BitVec 32

/-- One iteration either ends the function or goes on to `i++, cur++`. -/
inductive NormStep where
  | stop (r : NormRes) (s : NormSt)
  | next (s : NormSt)

/-- The capacity test and the stores at the end of the loop body. -/
def normEmit (c : NormCfg) (s : NormSt) (off plen : Nat) : NormStep :=
  let sep : BitVec 32 := if s.k ≠ c.root then 1 else 0
  if (s.k + sep + BitVec.ofNat 32 plen).toNat > c.cap then .stop (.ret (-1)) s
  else
    let s1 := if s.k ≠ c.root then (s.store s.k.toNat c.slash).addK 1 else s
    .next ((s1.move s1.k.toNat ((c.src.drop off).take plen)).addK plen)

/-- A `".."` behind something: the entry at `cur` says what `dst` ends with. -/
def normParent (c : NormCfg) (s : NormSt) (off plen : Nat) : NormStep :=
  match c.parts[s.cur.toNat]?, c.parts[(s.cur - 1).toNat]? with
  | some q, some q' =>
    let parentLen := (q &&& 0x0fff) - (q' &&& 0x0fff)
    if q &&& 0x1000 ≠ 0 then normEmit c (s.subK parentLen) off plen
    else if q &&& 0x2000 ≠ 0 then normEmit c s off plen
    else .next { s.subK parentLen with cur := s.cur - 2 }
  | _, _ => .stop .fault s

/-- The body of the second loop for the component that ends at `parts[i]`. -/
def normPart (c : NormCfg) (i : Nat) (s : NormSt) : NormStep :=
  let e := c.parts.getD i 0
  let e' := c.parts.getD (i - 1) 0
  let off := (e' &&& 0x0fff) + if i ≠ 1 then 1 else 0
  let plen := (e &&& 0x0fff) - (e' &&& 0x0fff) - if i ≠ 1 then 1 else 0
  if plen = 0 then .next s
  else if e &&& 0x1000 ≠ 0 then
    if s.k ≠ 0 then .next s else normEmit c s off plen
  else if e &&& 0x2000 ≠ 0 then
    if s.k = c.root then
      if c.strict then .stop (.ret (-1)) s
      else if c.root ≠ 0 then .next s
      else normEmit c s off plen
    else normParent c s off plen
  else normEmit c s off plen

/-- `for (i = 1; i < n; i++, cur++)` with `m` iterations to go. -/
def normLoop (c : NormCfg) : Nat → Nat → NormSt → NormRes × NormSt
  | 0, _, s => (.ret s.k.toInt, s)
  | m + 1, i, s =>
    match normPart c i s with
    | .stop r s' => (r, s')
    | .next s' => normLoop c m (i + 1) { s' with cur := s'.cur + 1 }

/-- The part of the function after the choice of the platform rules. -/
def normRun (win strict : Bool) (dst : Nat → Byte) (cap : Nat) (src : List Byte) :
    NormRes × NormSt :=
  let s0 : NormSt := { k := 0, cur := 0, dst := dst, stores := [], lens := [] }
  if win && isPassThrough src then
    if src.length > cap then (.ret (-1), s0)
    else (.ret (BitVec.ofNat 32 src.length).toInt, s0.move 0 src)
  else
    match normRoot win cap src with
    | none => (.ret (-1), s0)
    | some (rb, p) =>
      let s1 := (s0.move 0 rb).addK rb.length
      if src.length > 4095 then (.ret (-1), s1)
      else
        match normScan win src (src.length + 1) p [p] with
        | none => (.ret (-1), s1)
        | some parts =>
          normLoop ⟨strict, slashOf win, cap, src, parts, s1.k⟩ (parts.length - 1) 1 s1

/-- The flags with the platform's default rules filled in.  `ffWin` says whether the code is
    compiled for Windows (`FF_WIN`). -/
def normFlags (ffWin : Bool) (flags : BitVec 32) : BitVec 32 :=
  if flags &&& (FFPATH_NORM_UNIX ||| FFPATH_NORM_WINDOWS) = 0 then
    flags ||| (if ffWin then FFPATH_NORM_WINDOWS else FFPATH_NORM_UNIX)
  else flags

/-- `ffpath_norm`. -/
def ffpathNorm (ffWin : Bool) (dst : Nat → Byte) (cap : Nat) (src : List Byte)
    (flags : BitVec 32) : NormRes × NormSt :=
  let flags := normFlags ffWin flags
  normRun (flags &&& FFPATH_NORM_WINDOWS != 0) (flags &&& FFPATH_NORM_STRICT != 0) dst cap src

/-- `dst[0..r)`. -/
def outBytes (s : NormSt) (r : Int) : List Byte := (List.range r.toNat).map s.dst

end FFSys.Path
