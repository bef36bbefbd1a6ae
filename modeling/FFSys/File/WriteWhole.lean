import Mathlib.Data.List.Induction
import FFSys.File.Open
import FFSys.File.Position
import FFSys.File.ReadWhole

/-!
# Whole files: `fffile_writewhole()` and `fffile_readwhole()`

The two functions make a store of the file system: a name is written in one call and read in
another.  A write that cannot open the file leaves it as it is; one that fails after that deletes
the file, if it can.

* `fffileWritewhole` — the function over the file system and `fffile_open()`; `writeSpec`,
  `fffileWritewhole_spec` — what it does for each combination of flags.
* `fileIo` — what the system calls of `fffile_readwhole()` answer in a file system.
* `runWhole`, `lastWrite` — a sequence of writes, and what it leaves under a name.
* `fffile_whole_store` — a read sees exactly the last write that opened the file.
-/

set_option autoImplicit false

namespace FFSys.File

/-! ## The write -/

/-- What the system answers: whether it lets the file be opened, how many bytes are written at most
    (`none` for an error), and whether `close()` and the removal of the file succeed. -/
structure WriteIo where
  opened : Bool
  written : Option Nat
  closed : Bool
  removed : Bool
  deriving DecidableEq, Repr

/-- `write()` at the start of a file: some of the data, over what was there. -/
def writeStart (old d : List UInt8) (io : WriteIo) : List UInt8 × Option Nat :=
  match io.written with
  | none => (old, none)
  | some n =>
    let b := d.take (min n maxRwCount)
    (writeAt old 0 b, some b.length)

section Write

variable {ν : Type} [DecidableEq ν]

def Files.erase (fs : Files ν) (name : ν) : Files ν := fun n => if n = name then none else fs n

def fffileWritewhole (fs : Files ν) (name : ν) (d : List UInt8) (flags : UInt32) (io : WriteIo) :
    Files ν × Int :=
  let flags := if flags = 0 then oCreat ||| oTrunc else flags
  -- an open that the system refuses changes nothing
  if io.opened = false then (fs, -1)
  else
    let r := fffileOpenUnix fs name (flags ||| oWronly)
    if r.err ≠ none then (r.fs, -1)
    else
      let w := writeStart ((r.fs name).getD []) d io
      let fs := r.fs.set name w.1
      -- `rc |= fffile_close(f)`: both are 0 or −1
      if w.2 = some d.length ∧ io.closed = true then (fs, 0)
      else if io.removed = true then (fs.erase name, -1)
      else (fs, -1)

/-- The flags of the caller, without the access. -/
def wholeFlags (c : Creation) (truncate : Bool) : UInt32 :=
  (match c with
    | .existing => 0
    | .create => oCreat
    | .createnew => oCreat ||| oExcl) |||
  (if truncate then oTrunc else 0)

/-- Everything is written and the file is closed. -/
def WriteIo.Good (io : WriteIo) (d : List UInt8) : Prop :=
  (∃ n, io.written = some n ∧ d.length ≤ n) ∧ d.length ≤ maxRwCount ∧ io.closed = true

instance (io : WriteIo) (d : List UInt8) : Decidable (io.Good d) :=
  match h : io.written with
  | none => isFalse (by rintro ⟨⟨n, hn, _⟩, _⟩; rw [h] at hn; cases hn)
  | some m =>
    decidable_of_iff (d.length ≤ m ∧ d.length ≤ maxRwCount ∧ io.closed = true) (by
      constructor
      · rintro ⟨h₁, h₂⟩
        exact ⟨⟨m, h, h₁⟩, h₂⟩
      · rintro ⟨⟨n, hn, hle⟩, h₂⟩
        rw [h] at hn
        cases hn
        exact ⟨hle, h₂⟩)

/-- The write, once the file is open: the data over the old contents, or no file, or what has been
    written before the failure. -/
def writeSpec (fs : Files ν) (name : ν) (d : List UInt8) (io : WriteIo) : Files ν × Int :=
  if io.Good d then (fs.set name (d ++ ((fs name).getD []).drop d.length), 0)
  else if io.removed = true then (fs.erase name, -1)
  else (fs.set name (writeStart ((fs name).getD []) d io).1, -1)

theorem Files.set_erase (fs : Files ν) (name : ν) (d : List UInt8) :
    (fs.set name d).erase name = fs.erase name := by
  funext n
  simp only [Files.erase, Files.set]
  split <;> rfl

theorem writeAt_zero (old b : List UInt8) : writeAt old 0 b = b ++ old.drop b.length := by
  unfold writeAt
  split
  · rename_i h
    simp [h]
  · simp

/-- The check of the function is the condition of the specification. -/
theorem writeStart_good (old d : List UInt8) (io : WriteIo) :
    ((writeStart old d io).2 = some d.length ∧ io.closed = true ↔ io.Good d) ∧
      (io.Good d → (writeStart old d io).1 = d ++ old.drop d.length) := by
  unfold writeStart WriteIo.Good
  cases hw : io.written with
  | none =>
    refine ⟨⟨(fun h => by cases h.1), ?_⟩, ?_⟩
    · rintro ⟨⟨n, hn, _⟩, _⟩
      cases hn
    · rintro ⟨⟨n, hn, _⟩, _⟩
      cases hn
  | some n =>
    simp only [Option.some.injEq, List.length_take]
    constructor
    · constructor
      · rintro ⟨hlen, hclosed⟩
        exact ⟨⟨n, rfl, by omega⟩, by omega, hclosed⟩
      · rintro ⟨⟨m, rfl, hm⟩, hmax, hclosed⟩
        exact ⟨by omega, hclosed⟩
    · rintro ⟨⟨m, rfl, hm⟩, hmax, _⟩
      rw [List.take_of_length_le (by omega), writeAt_zero]

theorem wholeFlags_eq (c : Creation) (truncate : Bool) :
    wholeFlags c truncate ||| oWronly = unixFlags c truncate .writeonly := rfl

theorem wholeFlags_zero (c : Creation) (truncate : Bool) :
    wholeFlags c truncate = 0 ↔ c = .existing ∧ truncate = false := by
  cases c <;> cases truncate <;> decide

/-- What a write does: the flags of the open, where no flags mean `FFFILE_CREATE |
    FFFILE_TRUNCATE`; a failed open changes nothing, a failed write deletes the file, whatever it
    held before, if it can. -/
theorem fffileWritewhole_spec (fs : Files ν) (name : ν) (d : List UInt8) (c : Creation)
    (truncate : Bool) (io : WriteIo) :
    fffileWritewhole fs name d (wholeFlags c truncate) io =
      if io.opened = false then (fs, -1)
      else match (if c = .existing ∧ truncate = false then openSpec fs name .create true
        else openSpec fs name c truncate) with
      | none => (fs, -1)
      | some fs' => writeSpec fs' name d io := by
  have hopen (c : Creation) (truncate : Bool) (r : Opened ν Errno)
      (hr : r.Meets fs (openSpec fs name c truncate)) :
      (if r.err ≠ none then (r.fs, (-1 : Int))
        else
          let w := writeStart ((r.fs name).getD []) d io
          let fs := r.fs.set name w.1
          if w.2 = some d.length ∧ io.closed = true then (fs, 0)
          else if io.removed = true then (fs.erase name, -1)
          else (fs, -1)) =
        match openSpec fs name c truncate with
        | none => (fs, -1)
        | some fs' => writeSpec fs' name d io := by
    cases hspec : openSpec fs name c truncate with
    | none =>
      rw [hspec] at hr
      rw [if_pos hr.1, hr.2]
    | some fs' =>
      rw [hspec] at hr
      obtain ⟨hgood, hdata⟩ := writeStart_good ((fs' name).getD []) d io
      simp only [hr.1, hr.2, ne_eq, not_true_eq_false, if_false, writeSpec]
      by_cases hg : io.Good d
      · rw [if_pos (hgood.mpr hg), if_pos hg, hdata hg]
      · rw [if_neg fun h => hg (hgood.mp h), if_neg hg, Files.set_erase]
  rw [fffileWritewhole]
  by_cases hopened : io.opened = false
  · rw [if_pos hopened, if_pos hopened]
  · rw [if_neg hopened, if_neg hopened]
    by_cases h0 : c = .existing ∧ truncate = false
    · rw [if_pos h0, if_pos ((wholeFlags_zero c truncate).mpr h0)]
      exact hopen .create true _ (fffileOpenUnix_spec .create true .writeonly fs name)
    · rw [if_neg h0, if_neg fun h => h0 ((wholeFlags_zero c truncate).mp h), wholeFlags_eq]
      exact hopen c truncate _ (fffileOpenUnix_spec c truncate .writeonly fs name)

/-! ## The store -/

/-- A call of `fffile_writewhole()` with the default flags. -/
structure WholeOp (ν : Type) where
  name : ν
  data : List UInt8
  io : WriteIo

def runWhole (fs : Files ν) (ops : List (WholeOp ν)) : Files ν :=
  ops.foldl (fun fs op => (fffileWritewhole fs op.name op.data 0 op.io).1) fs

/-- What a write that has opened the file leaves: its data, or no file, or the bytes that have been
    written if the file cannot be removed. -/
def WholeOp.left (op : WholeOp ν) : Option (List UInt8) :=
  if op.io.Good op.data then some op.data
  else if op.io.removed = true then none
  else some (writeStart [] op.data op.io).1

/-- What the last write that has opened the file leaves under the name; `none` if there is no such
    write. -/
def lastWrite (name : ν) (ops : List (WholeOp ν)) : Option (Option (List UInt8)) :=
  (ops.reverse.find? fun op => op.name = name ∧ op.io.opened = true).map WholeOp.left

/-- What is in the file after a failed write is the start of the data. -/
theorem writeStart_isPrefix (d : List UInt8) (io : WriteIo) :
    (writeStart [] d io).1 <+: d ∧ (writeStart [] d io).1.length ≤ maxRwCount := by
  unfold writeStart
  split
  · exact ⟨List.nil_prefix, Nat.zero_le _⟩
  · simp only [writeAt_zero, List.drop_nil, List.append_nil, List.length_take]
    exact ⟨List.take_prefix _ _, by omega⟩

omit [DecidableEq ν] in
/-- A failed write leaves no file or the start of the data. -/
theorem WholeOp.left_failed {op : WholeOp ν} (h : ¬ op.io.Good op.data) :
    op.left = none ∨ ∃ d, op.left = some d ∧ d <+: op.data := by
  rw [WholeOp.left, if_neg h]
  split
  · exact .inl rfl
  · exact .inr ⟨_, rfl, (writeStart_isPrefix op.data op.io).1⟩

omit [DecidableEq ν] in
/-- No write leaves more than one `write()` transfers. -/
theorem WholeOp.left_length {op : WholeOp ν} {d : List UInt8} (h : op.left = some d) :
    d.length ≤ maxRwCount := by
  unfold WholeOp.left at h
  split at h
  · rename_i hg
    cases h
    exact hg.2.1
  · split at h
    · cases h
    · cases h
      exact (writeStart_isPrefix op.data op.io).2

/-- One write with the default flags, once the file is open. -/
theorem writewhole_default (fs : Files ν) (name : ν) (d : List UInt8) (io : WriteIo) :
    fffileWritewhole fs name d 0 io =
      if io.opened = false then (fs, -1)
      else if io.Good d then (fs.set name d, 0)
      else if io.removed = true then (fs.erase name, -1)
      else (fs.set name (writeStart [] d io).1, -1) := by
  have hspec := fffileWritewhole_spec fs name d .existing false io
  have hflags : wholeFlags .existing false = 0 := rfl
  have hopen : openSpec fs name .create true = some (fs.set name []) := by
    unfold openSpec
    cases fs name <;> rfl
  have hset (d : List UInt8) : (fs.set name []).set name d = fs.set name d := by
    funext n
    simp only [Files.set]
    split <;> rfl
  have hempty : ((fs.set name []) name).getD [] = [] := by simp [Files.set]
  have hchoice : (if Creation.existing = .existing ∧ false = false then
      openSpec fs name .create true else openSpec fs name .existing false) =
      some (fs.set name []) := by
    rw [if_pos ⟨rfl, rfl⟩, hopen]
  rw [hflags, hchoice] at hspec
  rw [hspec]
  simp only [writeSpec, Files.set_erase]
  rw [hempty, List.drop_nil, List.append_nil, hset, hset]

/-- What one write leaves under a name. -/
theorem writewhole_left (fs : Files ν) (op : WholeOp ν) (name : ν) :
    (fffileWritewhole fs op.name op.data 0 op.io).1 name =
      if op.name = name ∧ op.io.opened = true then op.left else fs name := by
  rw [writewhole_default]
  cases hopened : op.io.opened with
  | false => simp
  | true =>
    simp only [Bool.true_eq_false, if_false, and_true, WholeOp.left]
    by_cases hname : op.name = name
    · subst hname
      split
      · simp [Files.set]
      · split
        · simp [Files.erase]
        · simp [Files.set]
    · have hne : name ≠ op.name := Ne.symm hname
      split
      · simp [Files.set, hne]
      · split
        · simp [Files.erase, hne]
        · simp [Files.set, hne]

/-- When a write reports success. -/
theorem writewhole_ret (fs : Files ν) (op : WholeOp ν) :
    (fffileWritewhole fs op.name op.data 0 op.io).2 = 0 ↔
      op.io.opened = true ∧ op.io.Good op.data := by
  rw [writewhole_default]
  cases hopened : op.io.opened with
  | false => simp
  | true =>
    simp only [Bool.true_eq_false, if_false, true_and]
    split
    · rename_i hg
      simp [hg]
    · rename_i hg
      split <;> simp [hg]

theorem runWhole_concat (fs : Files ν) (ops : List (WholeOp ν)) (op : WholeOp ν) :
    runWhole fs (ops ++ [op]) = (fffileWritewhole (runWhole fs ops) op.name op.data 0 op.io).1 := by
  simp [runWhole]

/-- What a sequence of writes leaves under a name. -/
theorem runWhole_eq (fs : Files ν) (name : ν) (ops : List (WholeOp ν)) :
    runWhole fs ops name = (lastWrite name ops).getD (fs name) := by
  induction ops using List.reverseRecOn with
  | nil => rfl
  | append_singleton ops op ih =>
    rw [runWhole_concat, writewhole_left, lastWrite, List.reverse_append, List.reverse_singleton,
      List.singleton_append, List.find?_cons]
    by_cases h : op.name = name ∧ op.io.opened = true
    · rw [if_pos h, decide_eq_true h]
      rfl
    · rw [if_neg h, ih, decide_eq_false h]
      rfl

end Write

/-! ## The read -/

/-- What the system answers to a read: whether it lets the file be opened, whether it tells its size,
    and how many bytes one `read()` transfers at most, `none` for an error. -/
structure ReadIo where
  opened : Bool
  sized : Bool
  read : Option Nat
  deriving DecidableEq, Repr

/-- The answers for a file. -/
def fileIo (file : Option (List UInt8)) (io : ReadIo) : FileIo :=
  match file with
  | none => ⟨false, none, none⟩
  | some d =>
    ⟨io.opened, if h : io.sized = true ∧ d.length < 2 ^ 63 then some ⟨d.length, h.2⟩ else none,
      io.read.map fun n => d.take (min n maxRwCount)⟩

/-- The whole file can be read: it is opened, has a size, and one `read()` transfers it. -/
structure ReadIo.Good (io : ReadIo) (d : List UInt8) : Prop where
  opened : io.opened = true
  sized : io.sized = true
  read : ∃ n, io.read = some n ∧ d.length ≤ n
  small : d.length ≤ maxRwCount

theorem fileIo_size {d : List UInt8} {io : ReadIo} (hsized : io.sized = true)
    (h : d.length < 2 ^ 63) : (fffileSize (fileIo (some d) io)).toNat = d.length := by
  have hio : (fileIo (some d) io).size = some ⟨d.length, h⟩ := by
    simp only [fileIo, dif_pos (And.intro hsized h)]
  rw [fffileSize, hio, BitVec.toNat_ofNat]
  refine Nat.mod_eq_of_lt ?_
  change d.length < 2 ^ 64
  omega

/-- A failed query of the size is the largest number. -/
theorem fileIo_unsized {d : List UInt8} {io : ReadIo} (hsized : ¬ io.sized = true) :
    fffileSize (fileIo (some d) io) = -1 := by
  have hio : (fileIo (some d) io).size = none := by
    simp only [fileIo]
    exact dif_neg fun h => hsized h.1
  rw [fffileSize, hio]

/-- The read of a file that there is room for. -/
theorem readInto_file {d : List UInt8} (h : d.length < 2 ^ 63) (io : ReadIo) (v : Ffvec)
    (room : Nat) :
    ((readInto true (fileIo (some d) io) v room d.length).ret = 0 ↔
        (∃ n, io.read = some n ∧ d.length ≤ n) ∧ d.length ≤ maxRwCount) ∧
      ((readInto true (fileIo (some d) io) v room d.length).ret = 0 →
        (readInto true (fileIo (some d) io) v room d.length).dst.buf.take d.length = d ∧
          (readInto true (fileIo (some d) io) v room d.length).dst.len = d.length) := by
  have hbits : ffsizeBits true = 64 := rfl
  cases hread : io.read with
  | none =>
    have hgot : fffileRead (fileIo (some d) io) d.length = none := by
      simp only [fffileRead, fileIo, hread, Option.map_none]
    have hret : (readInto true (fileIo (some d) io) v room d.length).ret ≠ 0 := by
      simp only [readInto, hgot, Option.map_none, asFfsize, hbits]
      rw [if_pos (by omega)]
      simp
    refine ⟨iff_of_false hret ?_, fun h => absurd h hret⟩
    rintro ⟨⟨n, hn, -⟩, -⟩
    cases hn
  | some n =>
    have hgot : fffileRead (fileIo (some d) io) d.length = some (d.take (min n maxRwCount)) := by
      have hle : (d.take (min n maxRwCount)).length ≤ d.length := by
        rw [List.length_take]
        omega
      simp only [fffileRead, fileIo, hread, Option.map_some, List.take_of_length_le hle]
    have hmax : maxRwCount < 2 ^ 64 := by decide
    have hlen : asFfsize true (some (d.take (min n maxRwCount)).length) =
        min (min n maxRwCount) d.length := by
      rw [asFfsize, List.length_take]
      exact Nat.mod_eq_of_lt (by
        rw [hbits]
        omega)
    simp only [readInto, hgot, Option.map_some, Option.getD_some, hlen]
    by_cases hle : d.length ≤ min n maxRwCount
    · have htake : d.take (min n maxRwCount) = d := List.take_of_length_le hle
      rw [if_neg (by omega), htake]
      exact ⟨iff_of_true rfl ⟨⟨n, rfl, by omega⟩, by omega⟩, fun _ => ⟨by simp, rfl⟩⟩
    · rw [if_pos (by omega)]
      refine ⟨iff_of_false (by simp) ?_, fun h => by cases h⟩
      rintro ⟨⟨m, hm, hmle⟩, hmaxle⟩
      cases hm
      omega

/-- A size above the limit. -/
theorem readwhole_limit {realloc : FfvecRealloc} {io : FileIo} {dst : Ffvec} {limit : BitVec 64}
    (h : limit < fffileSize io) : (fffileReadwhole true realloc io dst limit).ret ≠ 0 := by
  unfold fffileReadwhole
  split
  · simp
  · simp [if_pos h]

/-- A file whose size is not told, with a limit that the failure is above. -/
theorem readwhole_unsized (realloc : FfvecRealloc) (dst : Ffvec) {limit : BitVec 64} {d : List UInt8}
    {io : ReadIo} (hsized : ¬ io.sized = true) (hlimit : limit ≠ -1) :
    (fffileReadwhole true realloc (fileIo (some d) io) dst limit).ret ≠ 0 := by
  have hne : limit.toNat ≠ (-1 : BitVec 64).toNat := fun h => hlimit (BitVec.eq_of_toNat_eq h)
  have hlast : (-1 : BitVec 64).toNat = 2 ^ 64 - 1 := by decide
  have hlim := limit.isLt
  apply readwhole_limit
  rw [fileIo_unsized hsized, BitVec.lt_def]
  omega

/-- A file that is opened and not larger than the limit. -/
theorem readwhole_fits (realloc : FfvecRealloc) (dst : Ffvec) {limit : BitVec 64} {d : List UInt8}
    {io : ReadIo} (hopened : io.opened = true) (hsized : io.sized = true) (hd : d.length < 2 ^ 63)
    (hle : d.length ≤ limit.toNat) :
    let r := fffileReadwhole true realloc (fileIo (some d) io) dst limit
    (r.ret = 0 ↔ ((∃ n, io.read = some n ∧ d.length ≤ n) ∧ d.length ≤ maxRwCount) ∧
      realloc.run dst (d.length + 1) ≠ none) ∧
      (r.ret = 0 → r.dst.buf.take r.dst.len = d) := by
  intro r
  have hsz := fileIo_size hsized hd
  have hbits : ffsizeBits true = 64 := rfl
  have hpass : Passes true (fileIo (some d) io) limit := by
    refine ⟨hopened, by rw [hsz]; exact hle, ?_⟩
    rw [hsz, hbits]
    omega
  have hroom : ¬ (fffileSize (fileIo (some d) io)).toNat = 2 ^ ffsizeBits true - 1 := by
    rw [hsz, hbits]
    omega
  have hr : r = _ := fffileReadwhole_eq hpass
  rw [if_neg hroom, hsz] at hr
  cases hrun : realloc.run dst (d.length + 1) with
  | none =>
    rw [hrun] at hr
    have hret : r.ret ≠ 0 := by
      rw [hr]
      simp
    exact ⟨iff_of_false hret fun h => h.2 rfl, fun h => absurd h hret⟩
  | some v =>
    rw [hrun] at hr
    obtain ⟨hret, hdata⟩ := readInto_file hd io v (d.length + 1)
    rw [hr]
    refine ⟨?_, ?_⟩
    · rw [hret]
      exact (and_iff_left (Option.some_ne_none v)).symm
    · intro h
      rw [(hdata h).2, (hdata h).1]

/-- A read of a file. -/
theorem readwhole_file (realloc : FfvecRealloc) (dst : Ffvec) (limit : BitVec 64) (io : ReadIo)
    (hlimit : io.sized = true ∨ limit ≠ -1)
    {file : Option (List UInt8)} (hsize : ∀ d, file = some d → d.length < 2 ^ 63) :
    let r := fffileReadwhole true realloc (fileIo file io) dst limit
    (r.ret = 0 ↔ ∃ d, file = some d ∧ d.length ≤ limit.toNat ∧ io.Good d ∧
      realloc.run dst (d.length + 1) ≠ none) ∧
      (r.ret = 0 → file = some (r.dst.buf.take r.dst.len)) := by
  intro r
  cases file with
  | none =>
    have hret : r.ret ≠ 0 := by simp [r, fffileReadwhole, fileIo]
    exact ⟨iff_of_false hret (by simp), fun h => absurd h hret⟩
  | some d =>
    have hfail (hret : r.ret ≠ 0) (hnot : d.length ≤ limit.toNat → ¬ io.Good d) :
        (r.ret = 0 ↔ ∃ d', some d = some d' ∧ d'.length ≤ limit.toNat ∧ io.Good d' ∧
          realloc.run dst (d'.length + 1) ≠ none) ∧
          (r.ret = 0 → some d = some (r.dst.buf.take r.dst.len)) := by
      refine ⟨iff_of_false hret ?_, fun h => absurd h hret⟩
      rintro ⟨d', hd', hle, hgood, -⟩
      cases hd'
      exact hnot hle hgood
    have hd := hsize d rfl
    by_cases hopened : io.opened = true
    · by_cases hsized : io.sized = true
      · by_cases hle : d.length ≤ limit.toNat
        · obtain ⟨hret, hdata⟩ := readwhole_fits realloc dst hopened hsized hd hle
          refine ⟨hret.trans ?_, fun h => congrArg some (hdata h).symm⟩
          constructor
          · exact fun h => ⟨d, rfl, hle, ⟨hopened, hsized, h.1.1, h.1.2⟩, h.2⟩
          · rintro ⟨d', hd', -, hgood, hrun⟩
            cases hd'
            exact ⟨⟨hgood.read, hgood.small⟩, hrun⟩
        · refine hfail (readwhole_limit ?_) fun h => absurd h hle
          rw [BitVec.lt_def, fileIo_size hsized hd]
          omega
      · exact hfail (readwhole_unsized realloc dst hsized (hlimit.resolve_left hsized)) fun _ hgood =>
          hsized hgood.sized
    · refine hfail ?_ fun _ hgood => hopened hgood.opened
      simp [r, fffileReadwhole, fileIo, hopened]

/-- **Whole files are a store.**  After any sequence of calls of `fffile_writewhole()` with
    default flags, whatever the system answers, a name holds the data of the last write to it that
    could open the file, if this write reported success; if it did not, the name is gone, also when
    there was a file before, or, if it could not be removed, holds the start of the data.
    `fffile_readwhole()` returns exactly what the name holds, and fails only if there is no file, if
    it is larger than the limit or than one `read()`, if the system refuses a call, or if there is
    no memory.  A write of more than one `write()` can transfer always fails. -/
theorem fffile_whole_store {ν : Type} [DecidableEq ν] (fs : Files ν)
    (hfs : ∀ n d, fs n = some d → d.length < 2 ^ 63) (ops : List (WholeOp ν)) (name : ν)
    (realloc : FfvecRealloc) (dst : Ffvec) (limit : BitVec 64) (io : ReadIo)
    (hlimit : io.sized = true ∨ limit ≠ -1) :
    let file := (lastWrite name ops).getD (fs name)
    let r := fffileReadwhole true realloc (fileIo (runWhole fs ops name) io) dst limit
    runWhole fs ops name = file ∧
      (r.ret = 0 → file = some (r.dst.buf.take r.dst.len)) ∧
      (r.ret = 0 ↔ ∃ d, file = some d ∧ d.length ≤ limit.toNat ∧ io.Good d ∧
        realloc.run dst (d.length + 1) ≠ none) ∧
      (∀ (op : WholeOp ν) (fs' : Files ν), (fffileWritewhole fs' op.name op.data 0 op.io).2 = 0 ↔
        op.io.opened = true ∧ op.io.Good op.data) ∧
      (∀ op : WholeOp ν, op.io.Good op.data → op.left = some op.data) ∧
      (∀ op : WholeOp ν, ¬ op.io.Good op.data →
        op.left = none ∨ ∃ d, op.left = some d ∧ d <+: op.data) ∧
      ∀ op : WholeOp ν, maxRwCount < op.data.length → ¬ op.io.Good op.data := by
  intro file r
  have hrun : runWhole fs ops name = file := runWhole_eq fs name ops
  have hsize : ∀ d, runWhole fs ops name = some d → d.length < 2 ^ 63 := by
    intro d hd
    rw [hrun] at hd
    simp only [file, lastWrite] at hd
    cases hfind : ops.reverse.find? fun op => op.name = name ∧ op.io.opened = true with
    | none =>
      rw [hfind] at hd
      exact hfs name d hd
    | some op =>
      rw [hfind] at hd
      have hmax : maxRwCount < 2 ^ 63 := by decide
      exact Nat.lt_of_le_of_lt (WholeOp.left_length hd) hmax
  obtain ⟨h₁, h₂⟩ := readwhole_file realloc dst limit io hlimit hsize
  refine ⟨hrun, ?_, ?_, fun op fs' => writewhole_ret fs' op, ?_, fun op => WholeOp.left_failed, ?_⟩
  · rw [← hrun]
    exact h₂
  · rw [← hrun]
    exact h₁
  · intro op hg
    rw [WholeOp.left, if_pos hg]
  · intro op hlen hg
    have hmax := hg.2.1
    omega

/-- The last write to the name cannot open the file, the one before it fails after the open. -/
def lostWrites : List (WholeOp Bool) :=
  [⟨true, [1, 2], ⟨true, some 2, true, true⟩⟩, ⟨false, [3], ⟨true, some 1, true, true⟩⟩,
    ⟨true, [4, 5], ⟨true, some 1, true, true⟩⟩, ⟨true, [6], ⟨false, some 1, true, true⟩⟩]

theorem fffile_whole_store_lost :
    runWhole (fun _ : Bool => none) lostWrites true = none ∧
    (fffileReadwhole true growing (fileIo (runWhole (fun _ : Bool => none) lostWrites true)
      ⟨true, true, some 10⟩) ⟨[], 0⟩ 10#64).ret ≠ 0 := by
  have h := fffile_whole_store (fun _ : Bool => none) (by simp) lostWrites true growing ⟨[], 0⟩ 10#64
    ⟨true, true, some 10⟩ (.inl rfl)
  have hlast : (lastWrite true lostWrites).getD none = none := by decide
  refine ⟨h.1.trans hlast, ?_⟩
  intro hret
  obtain ⟨d, hd, _⟩ := h.2.2.1.mp hret
  rw [hlast] at hd
  cases hd

end FFSys.File
