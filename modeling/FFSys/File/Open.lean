import Mathlib.Data.List.Basic

/-!
# `fffile_open()` on UNIX and on Windows

UNIX has independent bits for creation and truncation, Windows has one creation disposition.  The
two variants are modelled over the documented `open(2)` and `CreateFileW()`, which work on a map
from names to contents.

* `openFile`, `createFileW` — the two system calls.
* `fffileOpenUnix`, `fffileOpenWin` — the functions, with the flags of `enum FFFILE_OPEN`.
* `openSpec` — what the flags are documented to do.
* `fffileOpenUnix_spec`, `fffileOpenWin_spec` — the functions against it.
* `fffileOpen_alike_iff` — they agree exactly if `FFFILE_CREATENEW` and `FFFILE_TRUNCATE` are not
  given together.
-/

set_option autoImplicit false

namespace FFSys.File

variable {ν : Type}

/-- The file system: the contents of the files that exist. -/
abbrev Files (ν : Type) := ν → Option (List UInt8)

/-- What an open leaves behind: the file system, and the error code if there is no descriptor. -/
structure Opened (ν ε : Type) where
  fs : Files ν
  err : Option ε

/-- The result of an open is the documented one; a failed open changes nothing. -/
def Opened.Meets {ε : Type} (r : Opened ν ε) (fs : Files ν) (spec : Option (Files ν)) : Prop :=
  match spec with
  | some fs' => r.err = none ∧ r.fs = fs'
  | none => r.err ≠ none ∧ r.fs = fs

/-- Two opens that do what is documented are alike. -/
theorem Opened.Meets.alike {ε ε' : Type} {r : Opened ν ε} {r' : Opened ν ε'} {fs : Files ν}
    {spec : Option (Files ν)} (h : r.Meets fs spec) (h' : r'.Meets fs spec) :
    (r.err = none ↔ r'.err = none) ∧ r.fs = r'.fs := by
  cases spec with
  | some fs' => exact ⟨⟨fun _ => h'.1, fun _ => h.1⟩, h.2.trans h'.2.symm⟩
  | none => exact ⟨⟨fun h0 => absurd h0 h.1, fun h0 => absurd h0 h'.1⟩, h.2.trans h'.2.symm⟩

variable [DecidableEq ν]

def Files.set (fs : Files ν) (name : ν) (data : List UInt8) : Files ν :=
  fun n => if n = name then some data else fs n

/-! ## UNIX -/

inductive Errno where
  | eperm
  | enoent
  | eexist
  deriving DecidableEq, Repr

def oWronly : UInt32 := 0o1
def oRdwr : UInt32 := 0o2
def oCreat : UInt32 := 0o100
def oExcl : UInt32 := 0o200
def oTrunc : UInt32 := 0o1000
def oLargefile : UInt32 := 0o100000
def oNoatime : UInt32 := 0o1000000

/-- `open()` on regular files that the process may read and write.  `O_TRUNC` is modelled with
    write access only, without it the effect is unspecified. -/
def openFile (fs : Files ν) (name : ν) (flags : UInt32) : Opened ν Errno :=
  match fs name with
  | none =>
    if flags &&& oCreat ≠ 0 then
      ⟨fs.set name [], none⟩
    else
      ⟨fs, some .enoent⟩
  | some _ =>
    if flags &&& oCreat ≠ 0 ∧ flags &&& oExcl ≠ 0 then
      ⟨fs, some .eexist⟩
    else if flags &&& oTrunc ≠ 0 ∧ flags &&& (oWronly ||| oRdwr) ≠ 0 then
      ⟨fs.set name [], none⟩
    else
      ⟨fs, none⟩

/-- `fffile_open()` on Linux. -/
def fffileOpenUnix (fs : Files ν) (name : ν) (flags : UInt32) : Opened ν Errno :=
  let flags := flags ||| oLargefile
  let fd := openFile fs name flags
  if fd.err = some .eperm ∧ flags &&& oNoatime ≠ 0 then
    openFile fd.fs name (flags &&& ~~~oNoatime)
  else
    fd

/-! ## Windows -/

inductive WinError where
  | fileNotFound
  | fileExists
  | invalidParameter
  | invalidName
  | accessDenied
  deriving DecidableEq, Repr

def createNew : UInt32 := 1
def createAlways : UInt32 := 2
def openExisting : UInt32 := 3
def openAlways : UInt32 := 4
def truncateExisting : UInt32 := 5

def genericRead : UInt32 := 0x80000000
def genericWrite : UInt32 := 0x40000000
def fileGenericRead : UInt32 := 0x120089
def fileGenericWrite : UInt32 := 0x120116
def fileWriteData : UInt32 := 2

/-- `CreateFileW()` with the access and the creation disposition; the share mode and the
    attributes have no part in what is created. -/
def createFileW (fs : Files ν) (name : ν) (access creation : UInt32) : Opened ν WinError :=
  match fs name with
  | none =>
    if creation = createNew ∨ creation = createAlways ∨ creation = openAlways then
      ⟨fs.set name [], none⟩
    else if creation = openExisting ∨ creation = truncateExisting then
      ⟨fs, some .fileNotFound⟩
    else
      ⟨fs, some .invalidParameter⟩
  | some _ =>
    if creation = createNew then
      ⟨fs, some .fileExists⟩
    else if creation = createAlways then
      ⟨fs.set name [], none⟩
    else if creation = openExisting ∨ creation = openAlways then
      ⟨fs, none⟩
    else if creation = truncateExisting then
      if access &&& genericWrite ≠ 0 then ⟨fs.set name [], none⟩ else ⟨fs, some .accessDenied⟩
    else
      ⟨fs, some .invalidParameter⟩

namespace Win

def fffileCreate : UInt32 := openAlways <<< 4
def fffileCreatenew : UInt32 := createNew <<< 4
def fffileReadonly : UInt32 := genericRead >>> 20
def fffileWriteonly : UInt32 := genericWrite >>> 20
def fffileReadwrite : UInt32 := (genericRead ||| genericWrite) >>> 20
def fffileTruncate : UInt32 := 0x1000
def fffileNodosname : UInt32 := 0x2000
def fffileAppend : UInt32 := 0x4000

/-- The creation disposition for `flags`. -/
def creation (flags : UInt32) : UInt32 :=
  let creation := (flags &&& 0xf0) >>> 4
  -- `creation` is shifted down, `FFFILE_CREATENEW` is not
  if flags &&& fffileTruncate ≠ 0 ∧ creation ≠ fffileCreatenew then truncateExisting
  else if creation = 0 then openExisting
  else creation

/-- The access rights for `flags`. -/
def access (flags : UInt32) : UInt32 :=
  if flags &&& fffileAppend ≠ 0 then
    (if flags &&& fffileReadonly ≠ 0 then fileGenericRead else 0) |||
      (if flags &&& fffileWriteonly ≠ 0 then fileGenericWrite &&& ~~~fileWriteData else 0)
  else
    (flags &&& 0x0f00) <<< 20

end Win

/-- The outcome of the check for `FFFILE_NODOSNAME`: of `GetLongPathNameW()` and of the comparison
    of its result with the name. -/
inductive LongName where
  | error (e : WinError)
  | differs
  | same
  deriving DecidableEq, Repr

/-- `fffile_open()` on Windows.  The conversion of the name to UTF-16 is left out. -/
def fffileOpenWin (longName : ν → LongName) (fs : Files ν) (name : ν) (flags : UInt32) :
    Opened ν WinError :=
  let create :=
    let fd := createFileW fs name (Win.access flags) (Win.creation flags)
    if fd.err = some .fileNotFound ∧
        flags &&& (Win.fffileTruncate ||| 0xf0) = Win.fffileTruncate ||| Win.fffileCreate then
      createFileW fd.fs name (Win.access flags) createNew
    else
      fd
  if flags &&& Win.fffileNodosname ≠ 0 then
    match longName name with
    | .error e => ⟨fs, some e⟩
    | .differs => ⟨fs, some .invalidName⟩
    | .same => create
  else
    create

/-! ## The flags -/

/-- `0`, `FFFILE_CREATE` or `FFFILE_CREATENEW` -/
inductive Creation where
  | existing
  | create
  | createnew
  deriving DecidableEq, Repr

/-- `FFFILE_WRITEONLY` or `FFFILE_READWRITE` -/
inductive WriteAccess where
  | writeonly
  | readwrite
  deriving DecidableEq, Repr

def unixFlags (c : Creation) (truncate : Bool) (a : WriteAccess) : UInt32 :=
  (match c with
    | .existing => 0
    | .create => oCreat
    | .createnew => oCreat ||| oExcl) |||
  (if truncate then oTrunc else 0) |||
  (match a with
    | .writeonly => oWronly
    | .readwrite => oRdwr)

def winFlags (c : Creation) (truncate : Bool) (a : WriteAccess) : UInt32 :=
  (match c with
    | .existing => 0
    | .create => Win.fffileCreate
    | .createnew => Win.fffileCreatenew) |||
  (if truncate then Win.fffileTruncate else 0) |||
  (match a with
    | .writeonly => Win.fffileWriteonly
    | .readwrite => Win.fffileReadwrite)

/-- What the flags are documented to do: the file system after a successful open, `none` if the
    open fails. -/
def openSpec (fs : Files ν) (name : ν) (c : Creation) (truncate : Bool) : Option (Files ν) :=
  match c, fs name with
  | .existing, none => none
  | .create, none => some (fs.set name [])
  | .createnew, none => some (fs.set name [])
  | .createnew, some _ => none
  | .existing, some data => some (fs.set name (if truncate then [] else data))
  | .create, some data => some (fs.set name (if truncate then [] else data))

/-- The Windows variant succeeds exactly if the UNIX variant does and leaves the same file system,
    and both do what is documented. -/
def OpensAlike (longName : ν → LongName) (fs : Files ν) (name : ν) (c : Creation)
    (truncate : Bool) (a : WriteAccess) : Prop :=
  let win := fffileOpenWin longName fs name (winFlags c truncate a)
  let unix := fffileOpenUnix fs name (unixFlags c truncate a)
  (win.err = none ↔ unix.err = none) ∧ win.fs = unix.fs ∧
    win.Meets fs (openSpec fs name c truncate) ∧ unix.Meets fs (openSpec fs name c truncate)

theorem Files.set_self {fs : Files ν} {name : ν} {data : List UInt8} (h : fs name = some data) :
    fs.set name data = fs := by
  funext n
  rw [Files.set]
  split
  · rename_i hn
    rw [hn, h]
  · rfl

/-! ## UNIX -/

section Unix

variable (c : Creation) (truncate : Bool) (a : WriteAccess)

theorem unixFlags_creat :
    (unixFlags c truncate a ||| oLargefile) &&& oCreat ≠ 0 ↔ c ≠ .existing := by
  cases c <;> cases truncate <;> cases a <;> decide

theorem unixFlags_excl :
    (unixFlags c truncate a ||| oLargefile) &&& oExcl ≠ 0 ↔ c = .createnew := by
  cases c <;> cases truncate <;> cases a <;> decide

theorem unixFlags_trunc :
    (unixFlags c truncate a ||| oLargefile) &&& oTrunc ≠ 0 ↔ truncate = true := by
  cases c <;> cases truncate <;> cases a <;> decide

theorem unixFlags_write :
    (unixFlags c truncate a ||| oLargefile) &&& (oWronly ||| oRdwr) ≠ 0 := by
  cases c <;> cases truncate <;> cases a <;> decide

/-- `open()` has no other errors here, so there is no second call. -/
theorem openFile_err_ne_eperm (fs : Files ν) (name : ν) (flags : UInt32) :
    (openFile fs name flags).err ≠ some .eperm := by
  rw [openFile]
  split
  · split <;> simp
  · split
    · simp
    · split <;> simp

/-- **The UNIX variant does what is documented.** -/
theorem fffileOpenUnix_spec (fs : Files ν) (name : ν) :
    (fffileOpenUnix fs name (unixFlags c truncate a)).Meets fs (openSpec fs name c truncate) := by
  have heq : fffileOpenUnix fs name (unixFlags c truncate a) =
      openFile fs name (unixFlags c truncate a ||| oLargefile) :=
    if_neg fun h => openFile_err_ne_eperm fs name _ h.1
  rw [heq]
  simp only [openFile, unixFlags_creat, unixFlags_excl, unixFlags_trunc,
    ne_eq, unixFlags_write c truncate a, not_false_eq_true, and_true]
  cases hfile : fs name with
  | none => cases c <;> simp [openSpec, hfile, Opened.Meets]
  | some data =>
    have hself := Files.set_self hfile
    cases c <;> cases truncate <;> simp [openSpec, hfile, Opened.Meets, hself]

end Unix

/-! ## Windows -/

section Windows

variable (c : Creation) (truncate : Bool) (a : WriteAccess)

/-- Truncation overrides every creation flag. -/
theorem winFlags_creation :
    Win.creation (winFlags c truncate a) =
      if truncate then truncateExisting
      else match c with
        | .existing => openExisting
        | .create => openAlways
        | .createnew => createNew := by
  cases c <;> cases truncate <;> cases a <;> decide

theorem winFlags_access : Win.access (winFlags c truncate a) &&& genericWrite ≠ 0 := by
  cases c <;> cases truncate <;> cases a <;> decide

theorem winFlags_nodosname : winFlags c truncate a &&& Win.fffileNodosname = 0 := by
  cases c <;> cases truncate <;> cases a <;> decide

theorem winFlags_retry :
    winFlags c truncate a &&& (Win.fffileTruncate ||| 0xf0) =
      Win.fffileTruncate ||| Win.fffileCreate ↔ c = .create ∧ truncate = true := by
  cases c <;> cases truncate <;> cases a <;> decide

/-- The Windows variant with these flags: one call, and a second one for
    `FFFILE_CREATE | FFFILE_TRUNCATE`. -/
theorem fffileOpenWin_eq (longName : ν → LongName) (fs : Files ν) (name : ν) :
    fffileOpenWin longName fs name (winFlags c truncate a) =
      let access := Win.access (winFlags c truncate a)
      let fd := createFileW fs name access (Win.creation (winFlags c truncate a))
      if fd.err = some .fileNotFound ∧ c = .create ∧ truncate = true then
        createFileW fd.fs name access createNew
      else
        fd := by
  simp only [fffileOpenWin, winFlags_nodosname, winFlags_retry, ne_eq, not_true_eq_false, if_false]

/-- With truncation the file has to exist. -/
theorem createFileW_truncate (fs : Files ν) (name : ν) :
    createFileW fs name (Win.access (winFlags c truncate a)) truncateExisting =
      match fs name with
      | none => ⟨fs, some .fileNotFound⟩
      | some _ => ⟨fs.set name [], none⟩ := by
  cases hfile : fs name with
  | none => simp [createFileW, hfile, createNew, createAlways, openAlways, truncateExisting]
  | some data =>
    simp [createFileW, hfile, createNew, createAlways, openAlways, openExisting, truncateExisting,
      winFlags_access c truncate a]

/-- **The Windows variant does what is documented**, but for truncation of a new file. -/
theorem fffileOpenWin_spec (longName : ν → LongName) (fs : Files ν) (name : ν)
    (h : ¬ (c = .createnew ∧ truncate = true)) :
    (fffileOpenWin longName fs name (winFlags c truncate a)).Meets fs
      (openSpec fs name c truncate) := by
  rw [fffileOpenWin_eq]
  cases truncate with
  | true =>
    simp only [winFlags_creation, if_true, createFileW_truncate, and_true]
    cases hfile : fs name with
    | none =>
      cases c with
      | existing => simp [openSpec, hfile, Opened.Meets]
      | create => simp [openSpec, hfile, Opened.Meets, createFileW]
      | createnew => exact absurd ⟨rfl, rfl⟩ h
    | some data =>
      cases c with
      | existing => simp [openSpec, hfile, Opened.Meets]
      | create => simp [openSpec, hfile, Opened.Meets]
      | createnew => exact absurd ⟨rfl, rfl⟩ h
  | false =>
    simp only [winFlags_creation, Bool.false_eq_true, if_false, and_false]
    cases hfile : fs name with
    | none =>
      cases c <;> simp [openSpec, hfile, Opened.Meets, createFileW, createNew, createAlways,
        openAlways, openExisting]
    | some data =>
      have hself := Files.set_self hfile
      cases c <;> simp [openSpec, hfile, Opened.Meets, createFileW, createNew, createAlways,
        openAlways, openExisting, hself]

/-- With `FFFILE_CREATENEW | FFFILE_TRUNCATE` the Windows variant opens, and empties, only a file
    that exists. -/
theorem fffileOpenWin_createnew_truncate (longName : ν → LongName) (fs : Files ν) (name : ν) :
    fffileOpenWin longName fs name (winFlags .createnew true a) =
      match fs name with
      | none => ⟨fs, some .fileNotFound⟩
      | some _ => ⟨fs.set name [], none⟩ := by
  rw [fffileOpenWin_eq]
  simp only [winFlags_creation, if_true, createFileW_truncate, reduceCtorEq, false_and, and_false,
    if_false]

end Windows

/-- **The two variants create and truncate alike exactly if `FFFILE_CREATENEW` and
    `FFFILE_TRUNCATE` are not given together.** -/
theorem fffileOpen_alike_iff (longName : ν → LongName) (fs : Files ν) (name : ν) (c : Creation)
    (truncate : Bool) (a : WriteAccess) :
    OpensAlike longName fs name c truncate a ↔ ¬ (c = .createnew ∧ truncate = true) := by
  constructor
  · rintro ⟨_, _, hwin, _⟩ ⟨rfl, rfl⟩
    rw [fffileOpenWin_createnew_truncate] at hwin
    cases hfile : fs name with
    | none => simp [hfile, openSpec, Opened.Meets] at hwin
    | some data => simp [hfile, openSpec, Opened.Meets] at hwin
  · intro h
    have hwin := fffileOpenWin_spec c truncate a longName fs name h
    have hunix := fffileOpenUnix_spec c truncate a fs name
    obtain ⟨herr, hfs⟩ := hwin.alike hunix
    exact ⟨herr, hfs, hwin, hunix⟩

/-- An existing file of three bytes is emptied by the Windows variant, and no error is returned;
    the UNIX variant fails and leaves it. -/
theorem fffileOpen_createnew_destroys :
    let fs : Files Nat := Files.set (fun _ => none) 0 [1, 2, 3]
    let win := fffileOpenWin (fun _ => .same) fs 0 (winFlags .createnew true .writeonly)
    let unix := fffileOpenUnix fs 0 (unixFlags .createnew true .writeonly)
    win.err = none ∧ win.fs 0 = some [] ∧ unix.err = some .eexist ∧ unix.fs 0 = some [1, 2, 3] ∧
      ¬ OpensAlike (fun _ => .same) fs 0 .createnew true .writeonly := by
  refine ⟨by decide, by decide, by decide, by decide, ?_⟩
  rintro ⟨herr, _⟩
  exact absurd (herr.mp (by decide)) (by decide)

end FFSys.File
