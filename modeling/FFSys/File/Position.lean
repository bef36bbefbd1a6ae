import Mathlib.Algebra.Order.Ring.Nat
import Mathlib.Data.List.Basic
import FFSys.Lib.Run

/-!
# Input and output on a descriptor, on UNIX and on Windows

UNIX has a system call for each of the functions.  Windows has no call that truncates a file at a
given length, and its read and write at a given offset move the file pointer.

* `Fd` — the contents of the file and the file pointer; `readAt`, `writeAt`, `setSize`.
* `stepUnix`, `stepWin` — a call of one of the functions, on either system.
* `fffileTrunc_alike` — the file pointer survives the emulation of `ftruncate()`.
* `Portable` — a sequence of calls that does not rely on the file pointer after a positioned read
  or write; `fffile_io_alike` — such sequences have the same results and leave the same file.

The system calls are modelled for a file system with files of up to `lim` bytes and enough space,
where the file pointer can be any `off_t`.  Of a write that goes beyond `lim`, UNIX stores the bytes
that fit; whether Windows does the same or fails is left open (`whole`).
-/

set_option autoImplicit false

namespace FFSys.File

open FFSys.Lib

/-- An open file. -/
structure Fd where
  data : List UInt8
  pos : Nat
  deriving DecidableEq, Repr

def readAt (data : List UInt8) (off n : Nat) : List UInt8 := (data.drop off).take n

/-- The bytes before `off` that the file does not have are zero. -/
def writeAt (data : List UInt8) (off : Nat) (b : List UInt8) : List UInt8 :=
  if b = [] then data
  else (data ++ List.replicate (off - data.length) 0).take off ++ b ++ data.drop (off + b.length)

def setSize (data : List UInt8) (n : Nat) : List UInt8 :=
  data.take n ++ List.replicate (n - data.length) 0

/-- `enum FFFILE_SEEK`. -/
inductive Whence where
  | begin
  | current
  | end
  deriving DecidableEq, Repr

/-- The calls. -/
inductive FileOp where
  | read (size : Nat)
  | write (data : List UInt8)
  | readat (size : Nat) (off : BitVec 64)
  | writeat (data : List UInt8) (off : BitVec 64)
  | seek (pos : BitVec 64) (method : Whence)
  | trunc (len : BitVec 64)
  deriving DecidableEq, Repr

/-- What a call returns: the bytes that were read, a number, or −1. -/
inductive FileRes where
  | bytes (b : List UInt8)
  | num (n : Nat)
  | fail
  deriving DecidableEq, Repr

def origin (fd : Fd) : Whence → Nat
  | .begin => 0
  | .current => fd.pos
  | .end => fd.data.length

/-- Where a seek goes: a signed offset from the origin, no further than the largest `off_t`. -/
def target (fd : Fd) (pos : BitVec 64) (method : Whence) : Option Nat :=
  if 0 ≤ (origin fd method : Int) + pos.toInt ∧
      (origin fd method : Int) + pos.toInt ≤ 0x7fffffffffffffff then
    some ((origin fd method : Int) + pos.toInt).toNat
  else none

/-- A system call that moves the file pointer: `lseek64()` and `SetFilePointerEx()`. -/
def seekFd (fd : Fd) (pos : BitVec 64) (method : Whence) : Fd × FileRes :=
  match target fd pos method with
  | none => (fd, .fail)
  | some p => ({ fd with pos := p }, .num p)

/-! ## UNIX -/

/-- Linux transfers at most this many bytes at once. -/
def maxRwCount : Nat := 0x7ffff000

/-- The bytes of a write at an offset that the file system takes: as many as fit; `none`: there is no
    room for the first one. -/
def fitting (lim off : Nat) (b : List UInt8) : Option (List UInt8) :=
  if b ≠ [] ∧ lim ≤ off then none else some (b.take (lim - off))

/-- `pwrite()` and `write()` at an offset. -/
def pwrite (lim : Nat) (data : List UInt8) (off : Nat) (b : List UInt8) :
    Option (List UInt8 × Nat) :=
  (fitting lim off (b.take maxRwCount)).map fun b => (writeAt data off b, b.length)

/-- A call on UNIX. -/
def stepUnix (lim : Nat) (fd : Fd) : FileOp → Fd × FileRes
  | .read size =>
    let b := readAt fd.data fd.pos (min size maxRwCount)
    ({ fd with pos := fd.pos + b.length }, .bytes b)
  | .write b =>
    match pwrite lim fd.data fd.pos b with
    | none => (fd, .fail)
    | some (data, n) => (⟨data, fd.pos + n⟩, .num n)
  | .readat size off =>
    if off.toInt < 0 then (fd, .fail)
    else (fd, .bytes (readAt fd.data off.toNat (min size maxRwCount)))
  | .writeat b off =>
    if off.toInt < 0 then (fd, .fail)
    else
      match pwrite lim fd.data off.toNat b with
      | none => (fd, .fail)
      | some (data, n) => ({ fd with data := data }, .num n)
  | .seek pos method => seekFd fd pos method
  | .trunc len =>
    if len.toInt < 0 ∨ lim < len.toNat then (fd, .fail)
    else ({ fd with data := setSize fd.data len.toNat }, .num 0)

/-! ## Windows -/

/-- `ffmin(size, 0xffffffff)` -/
def maxDword : Nat := 0xffffffff

/-- `ReadFile()`: from the file pointer, or from an offset, which the file pointer then follows. -/
def readFile (fd : Fd) (n : Nat) : Option Nat → Fd × FileRes
  | none =>
    let b := readAt fd.data fd.pos n
    ({ fd with pos := fd.pos + b.length }, .bytes b)
  | some off =>
    let b := readAt fd.data off n
    -- at the end of the file: `ERROR_HANDLE_EOF`
    if b = [] ∧ n ≠ 0 then (fd, .fail) else ({ fd with pos := off + b.length }, .bytes b)

/-- `WriteFile()` at the file pointer or at an offset; `whole`: what does not fit as a whole is not
    written. -/
def writeFile (whole : Bool) (lim : Nat) (fd : Fd) (b : List UInt8) (off : Option Nat) :
    Fd × FileRes :=
  let off := off.getD fd.pos
  match fitting lim off b with
  | none => (fd, .fail)
  | some b' =>
    if whole = true ∧ b' ≠ b then (fd, .fail)
    else (⟨writeAt fd.data off b', off + b'.length⟩, .num b'.length)

/-- `SetEndOfFile()` -/
def setEndOfFile (lim : Nat) (fd : Fd) : Option Fd :=
  if lim < fd.pos then none else some { fd with data := setSize fd.data fd.pos }

/-- The offset of `OVERLAPPED`: the largest one means the end of the file. -/
def overlapped (fd : Fd) (off : BitVec 64) : Option Nat :=
  if off = -1 then some fd.data.length
  else if off.toInt < 0 then none
  else some off.toNat

/-- The last seek of `fffile_trunc()`: to the old position. -/
def seekBack (fd : Fd) (pos : Nat) (r : FileRes) : Fd × FileRes :=
  match target fd (BitVec.ofNat 64 pos) .begin with
  | none => (fd, .fail)
  | some q => ({ fd with pos := q }, r)

/-- `fffile_trunc()` on Windows. -/
def fffileTrunc (lim : Nat) (fd : Fd) (len : BitVec 64) : Fd × FileRes :=
  match target fd 0#64 .current with
  | none => (fd, .fail)
  | some pos =>
    match target fd len .begin with
    | none => (fd, .fail)
    | some p =>
      match setEndOfFile lim { fd with pos := p } with
      | none => seekBack { fd with pos := p } pos .fail
      | some fd' => seekBack fd' pos (.num 0)

/-- A call on Windows. -/
def stepWin (whole : Bool) (lim : Nat) (fd : Fd) : FileOp → Fd × FileRes
  | .read size => readFile fd (min size maxDword) none
  | .write b => writeFile whole lim fd (b.take maxDword) none
  | .readat size off =>
    if off.toInt < 0 then (fd, .fail)
    else
      match readFile fd (min size maxDword) (some off.toNat) with
      | (fd', .fail) => (fd', .bytes [])
      | r => r
  | .writeat b off =>
    match overlapped fd off with
    | none => (fd, .fail)
    | some p => writeFile whole lim fd (b.take maxDword) (some p)
  | .seek pos method => seekFd fd pos method
  | .trunc len => fffileTrunc lim fd len

/-! ## Truncation -/

variable {whole : Bool} {lim : Nat} {fd fd' : Fd}

theorem toInt_of_nonneg {x : BitVec 64} (h : 0 ≤ x.toInt) : x.toInt = (x.toNat : Int) := by
  rw [BitVec.toInt_eq_toNat_cond] at h ⊢
  split at h
  · rename_i h'
    rw [if_pos h']
  · have := x.isLt
    omega

theorem toNat_lt_of_nonneg {x : BitVec 64} (h : ¬ x.toInt < 0) : x.toNat < 2 ^ 63 := by
  have hnat := toInt_of_nonneg (Int.not_lt.mp h)
  have hlt : x.toInt < 9223372036854775808 := x.toInt_lt
  omega

/-- A seek to an absolute position. -/
theorem target_begin (fd : Fd) (pos : BitVec 64) :
    target fd pos .begin = if pos.toInt < 0 then none else some pos.toNat := by
  have hlt : pos.toInt < 9223372036854775808 := pos.toInt_lt
  have horigin : (origin fd .begin : Int) = 0 := rfl
  rw [target, horigin, Int.zero_add]
  by_cases h : pos.toInt < 0
  · rw [if_pos h, if_neg (by omega)]
  · rw [if_neg h, if_pos (by omega), toInt_of_nonneg (Int.not_lt.mp h), Int.toNat_natCast]

theorem seekBack_eq (fd : Fd) {n : Nat} (hn : n < 2 ^ 63) (r : FileRes) :
    seekBack fd n r = ({ fd with pos := n }, r) := by
  have hnat : (BitVec.ofNat 64 n).toNat = n := by
    rw [BitVec.toNat_ofNat]
    exact Nat.mod_eq_of_lt (by omega)
  have hint : ¬ (BitVec.ofNat 64 n).toInt < 0 := by
    rw [BitVec.toInt_eq_toNat_cond, hnat, if_pos (by omega)]
    omega
  rw [seekBack, target_begin, if_neg hint, hnat]

theorem target_here (fd : Fd) (h : fd.pos < 2 ^ 63) : target fd 0#64 .current = some fd.pos := by
  have horigin : (origin fd .current : Int) + (0#64).toInt = fd.pos := by
    rw [BitVec.toInt_zero, Int.add_zero]
    rfl
  rw [target, horigin, if_pos ⟨Int.natCast_nonneg _, by omega⟩, Int.toNat_natCast]

/-- The emulation of `ftruncate()` has its result and its effect, and the file pointer is where it
    was, also after a failure. -/
theorem fffileTrunc_alike (h : fd.pos < 2 ^ 63) (len : BitVec 64) :
    fffileTrunc lim fd len = stepUnix lim fd (.trunc len) := by
  rw [fffileTrunc, target_here fd h, target_begin, stepUnix]
  by_cases hneg : len.toInt < 0
  · rw [if_pos hneg, if_pos (Or.inl hneg)]
  · rw [if_neg hneg]
    by_cases hlim : lim < len.toNat
    · simp only [setEndOfFile, if_pos hlim, seekBack_eq _ h, if_pos (Or.inr hlim)]
    · simp only [setEndOfFile, if_neg hlim, seekBack_eq _ h, if_neg (not_or.mpr ⟨hneg, hlim⟩)]

/-! ## Sequences of calls -/

/-- The call depends on the file pointer. -/
def FileOp.usesPos : FileOp → Bool
  | .read _ | .write _ | .seek _ .current => true
  | _ => false

/-- The sizes can be transferred at once, and the offset is not the one that means the end of the
    file. -/
def FileOp.InRange : FileOp → Prop
  | .read size | .readat size _ => size ≤ maxRwCount
  | .write b => b.length ≤ maxRwCount
  | .writeat b off => b.length ≤ maxRwCount ∧ off ≠ -1
  | _ => True

/-- A write does not cross the largest size of a file. -/
def FileOp.Fits (lim : Nat) (fd : Fd) : FileOp → Prop
  | .write b => lim ≤ fd.pos ∨ fd.pos + b.length ≤ lim
  | .writeat b off => lim ≤ off.toNat ∨ off.toNat + b.length ≤ lim
  | _ => True

/-- The file pointer of Windows may differ after the call. -/
def FileOp.dirty (dirty : Bool) : FileOp → FileRes → Bool
  | .readat _ _, _ | .writeat _ _, _ => true
  | .seek _ .begin, .num _ | .seek _ .end, .num _ => false
  | _, _ => dirty

/-- After a positioned read or write, nothing depends on the file pointer before a seek from the
    beginning or the end; if Windows writes all or nothing, no write crosses the largest size. -/
def Portable (whole : Bool) (lim : Nat) : Fd → Bool → List FileOp → Prop
  | _, _, [] => True
  | fd, dirty, op :: ops =>
    (dirty = true → op.usesPos = false) ∧ op.InRange ∧ (whole = true → op.Fits lim fd) ∧
      Portable whole lim (stepUnix lim fd op).1 (op.dirty dirty (stepUnix lim fd op).2) ops

/-- The results of a sequence of calls. -/
def runOps (step : Fd → FileOp → Fd × FileRes) : Fd → List FileOp → Fd × List FileRes
  | fd, [] => (fd, [])
  | fd, op :: ops =>
    let r := step fd op
    let rs := runOps step r.1 ops
    (rs.1, r.2 :: rs.2)

/-- The file fits in the file system and the pointer in an `off_t`. -/
structure Fd.Ok (lim : Nat) (fd : Fd) : Prop where
  size : fd.data.length ≤ lim
  pos : fd.pos < 2 ^ 63

/-- The same file; the same pointer unless it is dirty. -/
structure Same (lim : Nat) (u w : Fd) (dirty : Bool) : Prop where
  data : w.data = u.data
  pos : dirty = false → w.pos = u.pos
  unix : u.Ok lim
  win : w.Ok lim

/-- What is written ends inside of the largest file, unless it is nothing. -/
theorem fitting_some {off : Nat} {b b' : List UInt8} (h : fitting lim off b = some b') :
    b' = [] ∨ off + b'.length ≤ lim := by
  unfold fitting at h
  split at h
  · cases h
  · rename_i hroom
    cases h
    by_cases hb : b = []
    · left
      rw [hb, List.take_nil]
    · right
      have hlt : off < lim := Nat.not_le.mp fun hle => hroom ⟨hb, hle⟩
      rw [List.length_take]
      omega

/-- A write that does not cross the largest size is written as a whole or not at all. -/
theorem fitting_whole {off : Nat} {b b' : List UInt8} (hfits : lim ≤ off ∨ off + b.length ≤ lim)
    (h : fitting lim off b = some b') : b' = b := by
  unfold fitting at h
  split at h
  · cases h
  · rename_i hroom
    cases h
    rcases hfits with hle | hle
    · have hb : b = [] := Decidable.byContradiction fun hb => hroom ⟨hb, hle⟩
      rw [hb, List.take_nil]
    · exact List.take_of_length_le (by omega)

theorem writeAt_length {data : List UInt8} {off : Nat} {b : List UInt8}
    (hd : data.length ≤ lim) (hb : b = [] ∨ off + b.length ≤ lim) :
    (writeAt data off b).length ≤ lim := by
  unfold writeAt
  split
  · exact hd
  · rename_i hne
    have hle : off + b.length ≤ lim := hb.resolve_left hne
    simp only [List.length_append, List.length_take, List.length_replicate, List.length_drop]
    omega

theorem setSize_length {data : List UInt8} {n : Nat} (hn : n ≤ lim) : (setSize data n).length ≤ lim := by
  simp only [setSize, List.length_append, List.length_take, List.length_replicate]
  omega

/-- A read that returns something ends inside of the file. -/
theorem readAt_end (data : List UInt8) (off n : Nat) :
    readAt data off n = [] ∨ off + (readAt data off n).length ≤ data.length := by
  by_cases h : off < data.length
  · right
    simp only [readAt, List.length_take, List.length_drop]
    omega
  · left
    rw [readAt, List.drop_eq_nil_of_le (Nat.not_lt.mp h), List.take_nil]

/-- The file pointer after a read is an `off_t`. -/
theorem read_pos_lt {data : List UInt8} {off : Nat} (n : Nat) (hlim : lim < 2 ^ 63)
    (hd : data.length ≤ lim) (hoff : off < 2 ^ 63) : off + (readAt data off n).length < 2 ^ 63 := by
  rcases readAt_end data off n with h | h
  · rw [h]
    exact hoff
  · omega

section Same

variable {u w : Fd} {dirty : Bool}

theorem Same.read (S : Same lim u w dirty) (hlim : lim < 2 ^ 63) (hd : dirty = false) {size : Nat}
    (hsize : size ≤ maxRwCount) :
    (stepUnix lim u (.read size)).2 = (stepWin whole lim w (.read size)).2 ∧
      Same lim (stepUnix lim u (.read size)).1 (stepWin whole lim w (.read size)).1 dirty := by
  have hmax : min size maxDword = min size maxRwCount := by
    rw [Nat.min_eq_left hsize, Nat.min_eq_left (Nat.le_trans hsize (by decide))]
  have hpos := S.pos hd
  have hlt := read_pos_lt (min size maxRwCount) hlim S.unix.size S.unix.pos
  simp only [stepUnix, stepWin, readFile, hmax, S.data, hpos]
  exact ⟨trivial, ⟨rfl, fun _ => rfl, ⟨S.unix.size, hlt⟩, ⟨S.unix.size, hlt⟩⟩⟩

theorem pwrite_eq (lim : Nat) (data : List UInt8) (off : Nat) {b : List UInt8}
    (hb : b.length ≤ maxRwCount) :
    pwrite lim data off b = (fitting lim off b).map fun b => (writeAt data off b, b.length) := by
  rw [pwrite, List.take_of_length_le hb]

theorem take_maxDword {b : List UInt8} (hb : b.length ≤ maxRwCount) : b.take maxDword = b :=
  List.take_of_length_le (Nat.le_trans hb (by decide))

theorem write_pos_lt {off : Nat} {b : List UInt8} (hlim : lim < 2 ^ 63)
    (hoff : off < 2 ^ 63) (hb : b = [] ∨ off + b.length ≤ lim) : off + b.length < 2 ^ 63 := by
  rcases hb with hb | hb
  · simpa [hb] using hoff
  · omega

/-- `WriteFile()` writes what `write()` writes. -/
theorem writeFile_eq {fd : Fd} {b : List UInt8} {off : Option Nat}
    (hfits : whole = true → lim ≤ off.getD fd.pos ∨ off.getD fd.pos + b.length ≤ lim) :
    writeFile whole lim fd b off =
      match fitting lim (off.getD fd.pos) b with
      | none => (fd, .fail)
      | some b' => (⟨writeAt fd.data (off.getD fd.pos) b', off.getD fd.pos + b'.length⟩,
          .num b'.length) := by
  unfold writeFile
  simp only
  split
  · rfl
  · rename_i b' hb'
    rw [if_neg]
    rintro ⟨hwhole, hne⟩
    exact hne (fitting_whole (hfits hwhole) hb')

theorem Same.write (S : Same lim u w dirty) (hlim : lim < 2 ^ 63) (hd : dirty = false)
    {b : List UInt8} (hb : b.length ≤ maxRwCount)
    (hfits : whole = true → lim ≤ u.pos ∨ u.pos + b.length ≤ lim) :
    (stepUnix lim u (.write b)).2 = (stepWin whole lim w (.write b)).2 ∧
      Same lim (stepUnix lim u (.write b)).1 (stepWin whole lim w (.write b)).1 dirty := by
  have hpos := S.pos hd
  have hwrite := @writeFile_eq whole lim w b none (by rw [Option.getD_none, hpos]; exact hfits)
  simp only [stepUnix, stepWin, pwrite_eq lim _ _ hb, take_maxDword hb, hwrite, Option.getD_none,
    S.data, hpos]
  cases hfit : fitting lim u.pos b with
  | none => exact ⟨rfl, S⟩
  | some b' =>
    have hend := fitting_some hfit
    have hok : Fd.Ok lim ⟨writeAt u.data u.pos b', u.pos + b'.length⟩ :=
      ⟨writeAt_length S.unix.size hend, write_pos_lt hlim S.unix.pos hend⟩
    exact ⟨rfl, ⟨rfl, fun _ => rfl, hok, hok⟩⟩

theorem Same.readat (S : Same lim u w dirty) (hlim : lim < 2 ^ 63) {size : Nat}
    (hsize : size ≤ maxRwCount) (off : BitVec 64) :
    (stepUnix lim u (.readat size off)).2 = (stepWin whole lim w (.readat size off)).2 ∧
      Same lim (stepUnix lim u (.readat size off)).1 (stepWin whole lim w (.readat size off)).1 true := by
  have hmax : min size maxDword = size := Nat.min_eq_left (Nat.le_trans hsize (by decide))
  have hdirty (w' : Fd) (hdata : w'.data = u.data) (hw : w'.Ok lim) : Same lim u w' true :=
    ⟨hdata, (fun h => by cases h), S.unix, hw⟩
  simp only [stepUnix, stepWin, readFile, hmax, Nat.min_eq_left hsize, S.data]
  by_cases hneg : off.toInt < 0
  · rw [if_pos hneg, if_pos hneg]
    exact ⟨rfl, hdirty w S.data S.win⟩
  · rw [if_neg hneg, if_neg hneg]
    by_cases hempty : readAt u.data off.toNat size = [] ∧ size ≠ 0
    · rw [if_pos hempty, hempty.1]
      exact ⟨rfl, hdirty w S.data S.win⟩
    · rw [if_neg hempty]
      have hlt := read_pos_lt size hlim S.unix.size (toNat_lt_of_nonneg hneg)
      exact ⟨rfl, hdirty _ rfl ⟨S.unix.size, hlt⟩⟩

theorem Same.writeat (S : Same lim u w dirty) (hlim : lim < 2 ^ 63) {b : List UInt8}
    (hb : b.length ≤ maxRwCount) {off : BitVec 64} (hoff : off ≠ -1)
    (hfits : whole = true → lim ≤ off.toNat ∨ off.toNat + b.length ≤ lim) :
    (stepUnix lim u (.writeat b off)).2 = (stepWin whole lim w (.writeat b off)).2 ∧
      Same lim (stepUnix lim u (.writeat b off)).1 (stepWin whole lim w (.writeat b off)).1 true := by
  have hfail : Same lim u w true := ⟨S.data, (fun h => by cases h), S.unix, S.win⟩
  have hwrite := @writeFile_eq whole lim w b (some off.toNat) hfits
  simp only [stepUnix, stepWin, overlapped, pwrite_eq lim _ _ hb, take_maxDword hb]
  rw [if_neg hoff]
  by_cases hneg : off.toInt < 0
  · rw [if_pos hneg, if_pos hneg]
    exact ⟨rfl, hfail⟩
  · rw [if_neg hneg, if_neg hneg]
    simp only [hwrite, Option.getD_some, S.data]
    cases hfit : fitting lim off.toNat b with
    | none => exact ⟨rfl, hfail⟩
    | some b' =>
      have hend := fitting_some hfit
      have hlt : off.toNat < 2 ^ 63 := toNat_lt_of_nonneg hneg
      have hsize : (writeAt u.data off.toNat b').length ≤ lim := writeAt_length S.unix.size hend
      exact ⟨rfl, ⟨rfl, (fun h => by cases h), ⟨hsize, S.unix.pos⟩,
        ⟨hsize, write_pos_lt hlim hlt hend⟩⟩⟩

/-- The target of a seek, where it does not depend on a dirty file pointer. -/
theorem Same.target (S : Same lim u w dirty) {method : Whence}
    (h : dirty = true → method ≠ .current) (pos : BitVec 64) :
    target w pos method = target u pos method := by
  have horigin : origin w method = origin u method := by
    cases method with
    | begin => rfl
    | «end» => exact congrArg List.length S.data
    | current =>
      refine S.pos ?_
      cases dirty with
      | false => rfl
      | true => exact absurd rfl (h rfl)
  rw [File.target, File.target, horigin]

theorem target_lt {fd : Fd} {pos : BitVec 64} {method : Whence} {p : Nat}
    (h : target fd pos method = some p) : p < 2 ^ 63 := by
  unfold target at h
  split at h
  · rename_i hp
    cases h
    omega
  · cases h

theorem Same.seek (S : Same lim u w dirty) {method : Whence} (h : dirty = true → method ≠ .current)
    (pos : BitVec 64) :
    (stepUnix lim u (.seek pos method)).2 = (stepWin whole lim w (.seek pos method)).2 ∧
      Same lim (stepUnix lim u (.seek pos method)).1 (stepWin whole lim w (.seek pos method)).1
        ((FileOp.seek pos method).dirty dirty (stepUnix lim u (.seek pos method)).2) := by
  simp only [stepUnix, stepWin, seekFd, S.target h pos]
  cases htarget : File.target u pos method with
  | none =>
    have hdirty : (FileOp.seek pos method).dirty dirty .fail = dirty := by
      cases method <;> rfl
    simp only [hdirty]
    exact ⟨trivial, S⟩
  | some p =>
    have hp := target_lt htarget
    exact ⟨rfl, ⟨S.data, fun _ => rfl, ⟨S.unix.size, hp⟩, ⟨S.win.size, hp⟩⟩⟩

theorem Same.trunc (S : Same lim u w dirty) (len : BitVec 64) :
    (stepUnix lim u (.trunc len)).2 = (stepWin whole lim w (.trunc len)).2 ∧
      Same lim (stepUnix lim u (.trunc len)).1 (stepWin whole lim w (.trunc len)).1 dirty := by
  rw [stepWin, fffileTrunc_alike S.win.pos]
  simp only [stepUnix, S.data]
  by_cases h : len.toInt < 0 ∨ lim < len.toNat
  · rw [if_pos h, if_pos h]
    exact ⟨rfl, S⟩
  · rw [if_neg h, if_neg h]
    have hsize : (setSize u.data len.toNat).length ≤ lim :=
      setSize_length (Nat.not_lt.mp fun hlt => h (Or.inr hlt))
    exact ⟨rfl, ⟨rfl, S.pos, ⟨hsize, S.unix.pos⟩, ⟨hsize, S.win.pos⟩⟩⟩

/-- One call. -/
theorem Same.step (S : Same lim u w dirty) (hlim : lim < 2 ^ 63) {op : FileOp}
    (hpos : dirty = true → op.usesPos = false) (hrange : op.InRange)
    (hfits : whole = true → op.Fits lim u) :
    (stepUnix lim u op).2 = (stepWin whole lim w op).2 ∧
      Same lim (stepUnix lim u op).1 (stepWin whole lim w op).1
        (op.dirty dirty (stepUnix lim u op).2) := by
  have hclean (h : op.usesPos = true) : dirty = false := by
    cases dirty with
    | false => rfl
    | true =>
      rw [hpos rfl] at h
      cases h
  cases op with
  | read size => exact S.read hlim (hclean rfl) hrange
  | write b => exact S.write hlim (hclean rfl) hrange hfits
  | readat size off => exact S.readat hlim hrange off
  | writeat b off => exact S.writeat hlim hrange.1 hrange.2 hfits
  | seek pos method =>
    refine S.seek ?_ pos
    rintro hd rfl
    have hc := hclean rfl
    rw [hd] at hc
    cases hc
  | trunc len => exact S.trunc len

/-- A sequence of calls. -/
theorem Same.run (hlim : lim < 2 ^ 63) : ∀ {ops : List FileOp} {u w : Fd} {dirty : Bool},
    Same lim u w dirty → Portable whole lim u dirty ops →
      (runOps (stepUnix lim) u ops).2 = (runOps (stepWin whole lim) w ops).2 ∧
        ∃ dirty', Same lim (runOps (stepUnix lim) u ops).1 (runOps (stepWin whole lim) w ops).1 dirty' ∧
          (dirty = false → (∀ op ∈ ops, ∀ r, op.dirty false r = false) → dirty' = false)
  | [], _, _, dirty, S, _ => ⟨rfl, dirty, S, fun h _ => h⟩
  | op :: ops, u, w, dirty, S, h => by
    obtain ⟨hpos, hrange, hfits, hrest⟩ := h
    obtain ⟨hres, S'⟩ := S.step hlim hpos hrange hfits
    obtain ⟨hrun, dirty', S'', hd⟩ := Same.run hlim S' hrest
    refine ⟨?_, dirty', S'', ?_⟩
    · simp only [runOps, hres, hrun]
    · intro hc hall
      refine hd ?_ fun op' hop' => hall op' (List.mem_cons_of_mem _ hop')
      rw [hc]
      exact hall op List.mem_cons_self _

end Same

end FFSys.File
