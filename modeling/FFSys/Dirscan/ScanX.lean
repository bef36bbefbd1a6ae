import FFSys.Dirscan.Complete

/-!
# Extended directory scan

`ffdirscanx_open()` scans a directory without sorting, asks for the file info of every name, and
sets the top bit of the 32-bit offsets of directories.  Then it sorts the offsets in place.

* `ffdsxOpenCmp` — the order of entries; `dsxOpenCmp_consistent`, `dsxOpenCmp_zero_iff`.
* `markEntry`, `markLoop` — the loop that asks for the file info.
* `ffdirscanxOpen`, `ffdirscanxNext`, `ffdirscanxAt` — the functions.
* `entryIsdir_iff`, `entryOff_or` — the top bit and the offset of an entry.
* `filenameCmpz_total_order` — what is a total order.

What `fffile_info_path()` answers is any function of the path.  `none` is a read outside of the
buffer, or a failed assertion.
-/

set_option autoImplicit false

namespace FFSys.Dirscan

open FFSys.Lib

/-! ## Entries -/

def FFDIRSCANX_SORT_DIRS : BitVec 32 := 0x200

/-- `!!(off & 0x80000000)` -/
def entryIsdir (off : BitVec 32) : Bool := off &&& 0x80000000#32 != 0

/-- `off & ~0x80000000` -/
def entryOff (off : BitVec 32) : Nat := (off &&& ~~~0x80000000#32).toNat

/-- The name of an entry, as `nameAt`. -/
def entryName (names : List Byte) (off : BitVec 32) : List Byte := (cstrAt names (entryOff off)).getD []

/-- `_ffdsx_open_cmp` -/
def ffdsxOpenCmp (flags : BitVec 32) (names : List Byte) (l r : BitVec 32) : Int :=
  if !hasFlag flags FFDIRSCANX_SORT_DIRS || (l &&& 0x80000000#32) == (r &&& 0x80000000#32) then
    ffdirscanFilenameCmpz (entryName names l) (entryName names r)
  else if l &&& 0x80000000#32 != 0 then -1
  else 1

/-! ## Opening -/

/-- `struct ffdirscanx`. -/
structure Ffdirscanx where
  ds : Ffdirscan
  flags : BitVec 32
  deriving DecidableEq, Repr

def ffdirscanCount (d : Ffdirscan) : Nat := (d.len - d.index) / 4

def ffdirscanxClose (dx : Ffdirscanx) : Ffdirscanx := { dx with ds := { dx.ds with names := [] } }

/-- `fffile_isdir()`: `(file_attr & S_IFMT) == S_IFDIR`. -/
def fffileIsdir (fileAttr : BitVec 32) : Bool := fileAttr &&& 0xf000#32 == 0x4000#32

/-- `fffile_info_path()`: the attributes of the file, `none` if it fails. -/
abbrev FffileInfoPath := List Byte → Option (BitVec 32)

/-- What `ffsz_copyz()` leaves in a buffer of `cap` bytes. -/
def ffszCopyz (cap : Nat) (sz : List Byte) : List Byte := sz.take (cap - 1)

/-- The path that the loop asks for: `s`. -/
def infoPath (path fn : List Byte) : List Byte := path ++ 0x2f :: ffszCopyz (255 * 4) fn

/-- Bytes that are written to a buffer. -/
def writeAt (mem : List Byte) (off : Nat) (bytes : List Byte) : List Byte :=
  mem.take off ++ bytes ++ mem.drop (off + bytes.length)

/-- The `n` numbers of type `ffuint` at `off`. -/
def wordsAt (mem : List Byte) (off : Nat) : Nat → Option (List (BitVec 32))
  | 0 => some []
  | n + 1 =>
    match readAt mem off 4 with
    | none => none
    | some w => (wordsAt mem (off + 4) n).map (BitVec.ofNat 32 w :: ·)

section Open

variable (ffsort : Ffsort) (ffsWildcard : FfsWildcard) (fffileInfoPath : FffileInfoPath)

/-- The body of the loop: the offset of the entry is behind the cursor. -/
def markEntry (path fn : List Byte) (d : Ffdirscan) : Option Ffdirscan :=
  match fffileInfoPath (infoPath path fn) with
  | none => some d
  | some attr =>
    match readAt d.names (d.cur - 4) 4 with
    | none => none
    | some off =>
      let off := BitVec.ofNat 32 off
      if off &&& 0x80000000#32 ≠ 0 then none
      else if fffileIsdir attr then
        some { d with names := writeAt d.names (d.cur - 4) (leBytes 4 (off ||| 0x80000000#32).toNat) }
      else some d

/-- The loop; also `none` if it is not at the end after `fuel` calls. -/
def markLoop (path : List Byte) : Nat → Ffdirscan → Option Ffdirscan
  | 0, _ => none
  | fuel + 1, d =>
    match ffdirscanNext d with
    | (.null, d') => some d'
    | (.fault, _) => none
    | (.name fn, d') =>
      match markEntry fffileInfoPath path fn d' with
      | none => none
      | some d'' => markLoop path fuel d''

/-- The call of `ffsort()`.  It moves the offsets; the names stay where they are. -/
def sortIndex (flags : BitVec 32) (d : Ffdirscan) : Option Ffdirscan :=
  match wordsAt d.names d.index (ffdirscanCount d) with
  | none => none
  | some index =>
    some { d with
      names := writeAt d.names d.index (indexBytes (ffsort.sort (ffdsxOpenCmp flags d.names) index)) }

/-- `ffdirscanx_open()`; `alloc`: whether `ffmem_alloc()` succeeds. -/
def ffdirscanxOpen (dx : Ffdirscanx) (path : List Byte) (dir : Dir) (alloc : Bool)
    (flags : BitVec 32) : Option (Int × Ffdirscanx) :=
  let r := ffdirscanOpen ffsort ffsWildcard dx.ds dir (flags ||| FFDIRSCAN_NOSORT)
  if r.1 ≠ 0 then some (1, ffdirscanxClose { dx with ds := r.2 })
  else if !alloc then some (1, ffdirscanxClose { dx with ds := r.2 })
  else
    match markLoop fffileInfoPath path (r.2.len + 1) r.2 with
    | none => none
    | some d =>
      match sortIndex ffsort flags { d with cur := d.index } with
      | none => none
      | some d => some (0, ⟨d, flags⟩)

end Open

/-! ## Reading -/

inductive NextEntry where
  | null
  | fault
  | entry (name : List Byte) (isdir : Bool)
  deriving DecidableEq, Repr

/-- The entry whose offset is at `pos`. -/
def entryAt (names : List Byte) (pos : Nat) : NextEntry :=
  match readAt names pos 4 with
  | none => .fault
  | some off =>
    match cstrAt names (entryOff (BitVec.ofNat 32 off)) with
    | none => .fault
    | some name => .entry name (entryIsdir (BitVec.ofNat 32 off))

def ffdirscanxNext (dx : Ffdirscanx) : NextEntry × Ffdirscanx :=
  if dx.ds.cur = dx.ds.len then (.null, dx)
  else (entryAt dx.ds.names dx.ds.cur, { dx with ds := { dx.ds with cur := dx.ds.cur + 4 } })

/-- `ffdirscanx_at()`: the position is a 32-bit number. -/
def ffdirscanxAt (dx : Ffdirscanx) (i : BitVec 32) : NextEntry :=
  let i := BitVec.ofNat 32 (dx.ds.index + i.toNat * 4)
  if i.toNat = dx.ds.len then .null
  else entryAt dx.ds.names i.toNat

/-- Calls until `NULL`; `none`: a fault, or not at the end after `fuel` calls. -/
def readEntries : Nat → Ffdirscanx → Option (List (List Byte × Bool))
  | 0, _ => none
  | fuel + 1, dx =>
    match ffdirscanxNext dx with
    | (.null, _) => some []
    | (.fault, _) => none
    | (.entry name isdir, dx') => (readEntries fuel dx').map ((name, isdir) :: ·)

/-- The object after `n` calls. -/
def afterEntries : Nat → Ffdirscanx → Ffdirscanx
  | 0, dx => dx
  | n + 1, dx => afterEntries n (ffdirscanxNext dx).2

/-! ## The top bit -/

theorem and_topBit (off : BitVec 32) :
    off &&& 0x80000000#32 = if 2 ^ 31 ≤ off.toNat then 0x80000000#32 else 0#32 := by
  have htop : 0x80000000#32 = BitVec.twoPow 32 31 := rfl
  have hmsb : off.getLsbD 31 = decide (2 ^ 31 ≤ off.toNat) :=
    (BitVec.msb_eq_getLsbD_last off).symm.trans (BitVec.msb_eq_decide off)
  rw [htop, BitVec.and_twoPow, hmsb]
  simp only [decide_eq_true_eq]

theorem entryIsdir_iff (off : BitVec 32) : entryIsdir off = true ↔ 2 ^ 31 ≤ off.toNat := by
  unfold entryIsdir
  rw [and_topBit]
  split
  · rename_i h
    exact iff_of_true rfl h
  · rename_i h
    exact iff_of_false (by simp) h

theorem topBit_eq_iff (l r : BitVec 32) :
    (l &&& 0x80000000#32) = (r &&& 0x80000000#32) ↔ entryIsdir l = entryIsdir r := by
  rw [Bool.eq_iff_iff, entryIsdir_iff, entryIsdir_iff, and_topBit, and_topBit]
  by_cases hl : 2 ^ 31 ≤ l.toNat <;> by_cases hr : 2 ^ 31 ≤ r.toNat <;>
    simp only [hl, hr, if_true, if_false] <;> simp

theorem entryOff_eq (off : BitVec 32) : entryOff off = off.toNat % 2 ^ 31 := by
  have hmask : ~~~0x80000000#32 = 0x7fffffff#32 := rfl
  have hsub : (0x7fffffff#32).toNat = 2 ^ 31 - 1 := rfl
  rw [entryOff, hmask, BitVec.toNat_and, hsub, Nat.and_two_pow_sub_one_eq_mod]

/-- A small offset has no top bit. -/
theorem entryIsdir_small {off : BitVec 32} (h : off.toNat < 2 ^ 31) : entryIsdir off = false := by
  rw [← Bool.not_eq_true, entryIsdir_iff]
  omega

theorem toNat_or_topBit {off : BitVec 32} (h : off.toNat < 2 ^ 31) :
    (off ||| 0x80000000#32).toNat = 2 ^ 31 + off.toNat := by
  have hpow : (0x80000000#32).toNat = 2 ^ 31 * 1 := rfl
  rw [BitVec.toNat_or, hpow, Nat.or_comm, ← Nat.two_pow_add_eq_or_of_lt h, Nat.mul_one]

/-- The bit can be set and taken off again. -/
theorem entryOff_or {off : BitVec 32} (h : off.toNat < 2 ^ 31) :
    entryOff (off ||| 0x80000000#32) = entryOff off := by
  rw [entryOff_eq, entryOff_eq, toNat_or_topBit h]
  omega

theorem entryIsdir_or {off : BitVec 32} (h : off.toNat < 2 ^ 31) :
    entryIsdir (off ||| 0x80000000#32) = true := by
  rw [entryIsdir_iff, toNat_or_topBit h]
  omega

/-! ## The order of entries -/

section Order

variable (flags : BitVec 32) (names : List Byte)

theorem dsxOpenCmp_eq (l r : BitVec 32) :
    ffdsxOpenCmp flags names l r =
      if hasFlag flags FFDIRSCANX_SORT_DIRS = true ∧ entryIsdir l ≠ entryIsdir r then
        if entryIsdir l then -1 else 1
      else ffdirscanFilenameCmpz (entryName names l) (entryName names r) := by
  have hbit : ((l &&& 0x80000000#32) == (r &&& 0x80000000#32)) = (entryIsdir l == entryIsdir r) := by
    rw [Bool.eq_iff_iff, beq_iff_eq, beq_iff_eq]
    exact topBit_eq_iff l r
  have hisdir : (l &&& 0x80000000#32 != 0) = entryIsdir l := rfl
  unfold ffdsxOpenCmp
  rw [hbit, hisdir]
  cases hasFlag flags FFDIRSCANX_SORT_DIRS <;> cases entryIsdir l <;> cases entryIsdir r <;> rfl

/-- The comparison is 0 for the same name, and with `FFDIRSCANX_SORT_DIRS` the same kind. -/
theorem dsxOpenCmp_zero_iff (l r : BitVec 32) :
    ffdsxOpenCmp flags names l r = 0 ↔
      (hasFlag flags FFDIRSCANX_SORT_DIRS = true → entryIsdir l = entryIsdir r) ∧
        entryName names l = entryName names r := by
  rw [dsxOpenCmp_eq]
  split
  · rename_i h
    refine iff_of_false ?_ fun hsame => h.2 (hsame.1 h.1)
    split <;> simp
  · rename_i h
    rw [filenameCmpz_eq_zero_iff]
    refine ⟨fun hname => ⟨?_, hname⟩, fun hsame => hsame.2⟩
    intro hflag
    by_contra hne
    exact h ⟨hflag, hne⟩

/-- **The comparison of entries is consistent.** -/
theorem dsxOpenCmp_consistent : Consistent (ffdsxOpenCmp flags names) where
  swap l r := by
    have hname := filenameCmpz_consistent.swap (entryName names l) (entryName names r)
    rw [dsxOpenCmp_eq, dsxOpenCmp_eq, hname]
    cases hasFlag flags FFDIRSCANX_SORT_DIRS <;> cases entryIsdir l <;> cases entryIsdir r <;> simp
  trans a b c := by
    have hname := filenameCmpz_consistent.trans (entryName names a) (entryName names b) (entryName names c)
    rw [dsxOpenCmp_eq, dsxOpenCmp_eq, dsxOpenCmp_eq]
    cases hasFlag flags FFDIRSCANX_SORT_DIRS <;> cases entryIsdir a <;> cases entryIsdir b <;>
      cases entryIsdir c <;> simp <;> exact hname

end Order

/-- **The comparisons are total orders**: that of names; that of entries with
    `FFDIRSCANX_SORT_DIRS`, of the kind and the name; and that of entries without it, of the name
    alone. -/
theorem filenameCmpz_total_order (flags : BitVec 32) (names : List Byte) :
    (∀ a b c : List Byte,
      (ffdirscanFilenameCmpz a b = 0 ↔ a = b) ∧
      ffdirscanFilenameCmpz b a = -ffdirscanFilenameCmpz a b ∧
      (ffdirscanFilenameCmpz a b ≤ 0 → ffdirscanFilenameCmpz b c ≤ 0 →
        ffdirscanFilenameCmpz a c ≤ 0)) ∧
    (∀ l m r : BitVec 32,
      (hasFlag flags FFDIRSCANX_SORT_DIRS = true →
        (ffdsxOpenCmp flags names l r = 0 ↔
          entryIsdir l = entryIsdir r ∧ entryName names l = entryName names r)) ∧
      (hasFlag flags FFDIRSCANX_SORT_DIRS = false →
        (ffdsxOpenCmp flags names l r = 0 ↔ entryName names l = entryName names r)) ∧
      ffdsxOpenCmp flags names r l = -ffdsxOpenCmp flags names l r ∧
      (ffdsxOpenCmp flags names l m ≤ 0 → ffdsxOpenCmp flags names m r ≤ 0 →
        ffdsxOpenCmp flags names l r ≤ 0)) := by
  have hcmp := dsxOpenCmp_consistent flags names
  refine ⟨?_, ?_⟩
  · intro a b c
    exact ⟨filenameCmpz_eq_zero_iff a b, filenameCmpz_consistent.swap a b,
      filenameCmpz_consistent.trans a b c⟩
  · intro l m r
    refine ⟨?_, ?_, hcmp.swap l r, hcmp.trans l m r⟩
    · intro hflag
      rw [dsxOpenCmp_zero_iff]
      exact and_congr_left' ⟨fun h => h hflag, fun h _ => h⟩
    · intro hflag
      rw [dsxOpenCmp_zero_iff, hflag]
      exact and_iff_right nofun

/-- The directory `"a"` and the file `"a"` are different entries, and without `FFDIRSCANX_SORT_DIRS`
    the comparison says that they are equal. -/
theorem dsxOpenCmp_ignores_kind :
    ffdsxOpenCmp 0 [0x61, 0, 0x61, 0] 0x80000000#32 2#32 = 0 ∧
      entryIsdir 0x80000000#32 ≠ entryIsdir 2#32 := by
  decide

end FFSys.Dirscan
