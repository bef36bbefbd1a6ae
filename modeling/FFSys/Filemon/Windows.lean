import FFSys.Filemon.Inotify
import FFSys.Lib.Unicode

/-!
# Directory changes on Windows

Model of the decoder in the Windows part of `ffsys/filemon.h`.  One completed request fills the
buffer with a batch of records; the decoder runs over the whole buffer of the caller.

* `fffilemonNext1` — one record: its name is converted to UTF-8, the input goes on at the offset
  of the next record, or is at its end if there is none.
* `fffilemonNext` — the next record of which the watch list has an item; `readAll` — the loop that
  its caller runs while the result is not negative.
* `Record`, `batchBytes` — a batch as the system writes it.
* `readAll_batch` — from a buffer that starts with a batch the loop takes the events of all its
  records in order, except that the last one is lost if less than 4 bytes of the buffer are left
  behind it.
-/

set_option autoImplicit false

namespace FFSys.Filemon.Win

open FFSys.Lib

/-! ## The decoder -/

/-- `sizeof(FILE_NOTIFY_INFORMATION)`: `NextEntryOffset`, `Action`, `FileNameLength`, one unit of
    the name and its padding. -/
def infoSize : Nat := 16

/-- An item of the watch list: a directory, or a file of it. -/
structure Watch where
  dir : Bool
  namez : List Byte
  deriving DecidableEq

/-- What the decoder calls: the conversion of a text to UTF-8, `none` if it fails, and
    `ffstr_grow()`, from a capacity to one for a number of bytes. -/
structure Env where
  wtou : List UInt16 → Option (List Byte)
  grow : Nat → Nat → Option Nat

namespace Env

variable (E : Env)

/-- `ffs_wtou` without a buffer: the size, as an `int`. -/
def ffsWtouSize (w : List UInt16) : Int :=
  match E.wtou w with
  | none => -1
  | some u => (u.length : Int).bmod (2 ^ 32)

/-- `ffs_wtou` into a buffer of `cap` bytes. -/
def ffsWtou (cap : Nat) (w : List UInt16) : Option (List Byte) :=
  (E.wtou w).filter (·.length ≤ cap)

end Env

/-- `input`, `name` and `cap` of the caller. -/
structure Vars where
  input : List Byte
  name : List Byte
  cap : Nat
  deriving DecidableEq

/-- The name of the record at the front of the input. -/
def fileName (input : List Byte) : List UInt16 :=
  bytesUnits ((input.drop 12).take (field input 8).toNat)

/-- Shift the input to the next record, or to its end.  `none`: its length gets negative. -/
def shiftNext (input : List Byte) : Option (List Byte) :=
  let next := (field input 0).toNat
  if input.length < next then none else if next = 0 then some [] else some (input.drop next)

/-- The name of a record, converted into the buffer of the caller.  `.error r`: the result. -/
def convertName (E : Env) (c : Vars) : Except Int (Option Vars) :=
  if field c.input 8 = 0 then .ok (some { c with name := [] })
  else
    let w := fileName c.input
    let r := E.ffsWtouSize w
    if r ≤ 0 then .error (-2)
    else
      match E.grow c.cap r.toNat with
      | none => .error (-2)
      | some cap => .ok ((E.ffsWtou cap w).map fun u => { c with name := u, cap := cap })

/-- `_fffilemon_next1()`.  `none`: the length of the input or of the name gets negative. -/
def fffilemonNext1 (E : Env) (c : Vars) : Option (Int × Vars) :=
  if c.input.length = 0 then some (-1, c)
  else if c.input.length < infoSize then some (-2, c)
  else if c.input.length < infoSize + (field c.input 8).toNat then some (-2, c)
  else
    match convertName E c with
    | .error r => some (r, { c with name := [] })
    | .ok c' => do
      let c' ← c'
      let rest ← shiftNext c.input
      return ((field c.input 4).toInt, { c' with input := rest })

/-- The first item of the watch list that wants the name. -/
def watchOf (ws : List Watch) (name : List Byte) : Option Nat :=
  ws.findIdx? fun w => w.dir || name == w.namez

/-- The result and the event of `fffilemon_next()`. -/
structure Next where
  ret : Int
  events : Int
  vars : Vars
  deriving DecidableEq

/-- `fffilemon_next()`; the number is the fuel.  The event is written only with a watch. -/
def fffilemonNext (E : Env) (ws : List Watch) : Nat → Int → Vars → Option Next
  | 0, _, _ => none
  | fuel + 1, events, c => do
    let (r, c') ← fffilemonNext1 E c
    if r < 0 then return ⟨r, events, c'⟩
    else
      match watchOf ws c'.name with
      | some wd => return ⟨wd, r, c'⟩
      | none => fffilemonNext E ws fuel events c'

/-- What the caller sees of an event. -/
structure Seen where
  wd : Nat
  events : Int
  name : List Byte
  deriving DecidableEq

/-- Calls until the result is negative, and this result. -/
def readAll (E : Env) (ws : List Watch) : Nat → Int → Vars → Option (List Seen × Int × Vars)
  | 0, _, _ => none
  | fuel + 1, events, c => do
    let n ← fffilemonNext E ws (c.input.length + 1) events c
    if n.ret < 0 then return ([], n.ret, n.vars)
    else
      let (l, r, c') ← readAll E ws fuel n.events n.vars
      return (⟨n.ret.toNat, n.events, n.vars.name⟩ :: l, r, c')

/-! ## The system -/

/-- A change.  A name is not empty and is shorter than the longest path. -/
structure Record where
  action : BitVec 32
  name : List Char
  pad : Nat
  action_pos : 0 ≤ action.toInt
  name_ne : name ≠ []
  name_lt : (utf16 name).length < 0x8000
  pad_lt : pad < 4

namespace Record

/-- The field `FileNameLength`. -/
def len (r : Record) : Nat := 2 * (utf16 r.name).length

/-- The bytes of a record; the next one is `next` bytes further. -/
def bytes (r : Record) (next : Nat) : List Byte :=
  leBytes 4 next ++ (leBytes 4 r.action.toNat ++ (leBytes 4 r.len ++ unitBytes (utf16 r.name)))

/-- Where the next record starts. -/
def size (r : Record) : Nat := 12 + r.len + r.pad

/-- What the watch list gets of a change. -/
def seen (ws : List Watch) (r : Record) : Option Seen :=
  (watchOf ws (utf8 r.name)).map fun wd => ⟨wd, r.action.toInt, utf8 r.name⟩

end Record

/-- The batch of one completed request. -/
def batchBytes : List Record → List Byte
  | [] => []
  | [r] => r.bytes 0
  | r :: rs => r.bytes r.size ++ (List.replicate r.pad 0 ++ batchBytes rs)

/-- The events of a batch. -/
def seenAll (ws : List Watch) (es : List Record) : List Seen := es.filterMap (Record.seen ws)

/-- The conversion is right on texts, and there is memory. -/
structure Env.Exact (E : Env) : Prop where
  wtou : ∀ cs, E.wtou (utf16 cs) = some (utf8 cs)
  grow : ∀ cap n, ∃ cap', E.grow cap n = some cap' ∧ n ≤ cap'

variable {E : Env} {ws : List Watch}

/-! ## One record -/

namespace Record

variable (r : Record)

theorem bytes_length (next : Nat) : (r.bytes next).length = 12 + r.len := by
  simp only [bytes, len, List.length_append, leBytes_length, unitBytes_length]
  omega

theorem len_pos : 0 < r.len := by
  have hne : utf16 r.name ≠ [] := mt utf16Encoding.text_eq_nil_iff.mp r.name_ne
  have hpos := List.length_pos_of_ne_nil hne
  simp only [len]
  omega

theorem len_lt : r.len < 0x10000 := by
  have h := r.name_lt
  simp only [len]
  omega

theorem size_lt : r.size < 2 ^ 32 := by
  have h := r.len_lt
  have hp := r.pad_lt
  simp only [size]
  omega

/-- The size of the name in UTF-8, as an `int`. -/
theorem utf8_small : 0 < (utf8 r.name).length ∧ (utf8 r.name).length < 0x18000 := by
  have h₁ := utf16_length_le r.name
  have h₂ := utf8_length_le r.name
  have hlen := r.len_pos
  have hlt := r.name_lt
  simp only [len] at hlen
  omega

/-- The fields of a record at the front of the input. -/
theorem fields {next : Nat} (hnext : next < 2 ^ 32) (rest : List Byte) :
    (field (r.bytes next ++ rest) 0).toNat = next ∧ field (r.bytes next ++ rest) 4 = r.action ∧
      (field (r.bytes next ++ rest) 8).toNat = r.len ∧
      fileName (r.bytes next ++ rest) = utf16 r.name := by
  have hmod : ∀ n, n < 2 ^ 32 → (BitVec.ofNat 32 n).toNat = n := by
    intro n hn
    rw [BitVec.toNat_ofNat, Nat.mod_eq_of_lt hn]
  have hlen : (BitVec.ofNat 32 r.len).toNat = r.len := hmod _ (by have := r.len_lt; omega)
  have h0 : (r.bytes next ++ rest).drop 0 = leBytes 4 (BitVec.ofNat 32 next).toNat ++
      (leBytes 4 r.action.toNat ++ (leBytes 4 (BitVec.ofNat 32 r.len).toNat ++
        (unitBytes (utf16 r.name) ++ rest))) := by
    rw [hmod next hnext, hlen]
    simp only [bytes, List.drop_zero, List.append_assoc]
  have h4 := drop_of_drop h0
  have h8 := drop_of_drop h4
  have h12 := drop_of_drop h8
  simp only [leBytes_length, Nat.zero_add, Nat.reduceAdd] at h4 h8 h12
  have hl : (field (r.bytes next ++ rest) 8).toNat = r.len := by rw [field_of_drop h8, hlen]
  refine ⟨by rw [field_of_drop h0, hmod next hnext], field_of_drop h4, hl, ?_⟩
  have hunits : r.len = (unitBytes (utf16 r.name)).length := (unitBytes_length _).symm
  rw [fileName, hl, h12, hunits, List.take_left' rfl, bytesUnits_unitBytes]

end Record

/-- The name of a record is converted. -/
theorem convertName_record (hE : E.Exact) (r : Record) {next : Nat} (hnext : next < 2 ^ 32)
    (rest name : List Byte) (cap : Nat) :
    ∃ cap', convertName E ⟨r.bytes next ++ rest, name, cap⟩ =
      .ok (some ⟨r.bytes next ++ rest, utf8 r.name, cap'⟩) := by
  obtain ⟨_, _, hlen, hname⟩ := r.fields hnext rest
  obtain ⟨hpos, hlt⟩ := r.utf8_small
  have hsize : E.ffsWtouSize (utf16 r.name) = (utf8 r.name).length := by
    simp only [Env.ffsWtouSize, hE.wtou]
    rw [Int.bmod_def]
    omega
  obtain ⟨cap', hcap, hle⟩ := hE.grow cap (utf8 r.name).length
  have hconv : E.ffsWtou cap' (utf16 r.name) = some (utf8 r.name) := by
    simp only [Env.ffsWtou, hE.wtou, Option.filter_some]
    rw [if_pos (decide_eq_true hle)]
  have hne : field (r.bytes next ++ rest) 8 ≠ 0 := by
    intro h
    have hl := r.len_pos
    rw [h] at hlen
    exact absurd hlen (by simp; omega)
  refine ⟨cap', ?_⟩
  unfold convertName
  simp only [if_neg hne, hname, hsize, Int.toNat_natCast, hcap, hconv, Option.map_some]
  rw [if_neg (by omega)]

/-- One call on the bytes of a record. -/
theorem fffilemonNext1_record (hE : E.Exact) (r : Record) {next : Nat} (hnext : next < 2 ^ 32)
    {rest rest' : List Byte} (hroom : 4 ≤ rest.length)
    (hshift : shiftNext (r.bytes next ++ rest) = some rest') (name : List Byte) (cap : Nat) :
    ∃ cap', fffilemonNext1 E ⟨r.bytes next ++ rest, name, cap⟩ =
      some (r.action.toInt, ⟨rest', utf8 r.name, cap'⟩) := by
  obtain ⟨_, haction, hlen, _⟩ := r.fields hnext rest
  obtain ⟨cap', hconv⟩ := convertName_record hE r hnext rest name cap
  have htotal : (r.bytes next ++ rest).length = 12 + r.len + rest.length := by
    rw [List.length_append, r.bytes_length]
  refine ⟨cap', ?_⟩
  unfold fffilemonNext1
  simp only [hlen, htotal, infoSize, hconv, haction, hshift]
  rw [if_neg (by omega), if_neg (by omega), if_neg (by omega)]
  rfl

/-- Without 4 bytes behind it the last record is an error. -/
theorem fffilemonNext1_short (r : Record) {rest : List Byte} (hroom : rest.length < 4)
    (name : List Byte) (cap : Nat) :
    fffilemonNext1 E ⟨r.bytes 0 ++ rest, name, cap⟩ =
      some (-2, ⟨r.bytes 0 ++ rest, name, cap⟩) := by
  obtain ⟨_, _, hlen, _⟩ := r.fields (Nat.two_pow_pos 32) rest
  have htotal : (r.bytes 0 ++ rest).length = 12 + r.len + rest.length := by
    rw [List.length_append, r.bytes_length]
  unfold fffilemonNext1
  simp only [hlen, htotal, infoSize]
  rw [if_neg (by omega)]
  split
  · rfl
  · rw [if_pos (by omega)]

/-! ## The loops -/

/-- More fuel does not change what a call found. -/
theorem fffilemonNext_mono {events : Int} {n : Next} :
    ∀ {fuel : Nat} {c : Vars} (more : Nat), fffilemonNext E ws fuel events c = some n →
      fffilemonNext E ws (fuel + more) events c = some n := by
  intro fuel
  induction fuel with
  | zero =>
    intro c more h
    cases h
  | succ fuel ih =>
    intro c more h
    rw [Nat.succ_add, fffilemonNext]
    rw [fffilemonNext] at h
    obtain ⟨⟨r, c'⟩, hnext, h⟩ := Option.bind_eq_some_iff.mp h
    rw [hnext]
    simp only [Option.bind_eq_bind, Option.bind_some] at h ⊢
    split at h
    · rename_i hr
      rw [if_pos hr]
      exact h
    · rename_i hr
      rw [if_neg hr]
      cases hw : watchOf ws c'.name with
      | some wd =>
        rw [hw] at h
        exact h
      | none =>
        rw [hw] at h
        exact ih more h

/-- The end of the input, or an error. -/
theorem readAll_stop {c c' : Vars} {r : Int} (hnext : fffilemonNext1 E c = some (r, c'))
    (hr : r < 0) (fuel : Nat) (events : Int) :
    readAll E ws (fuel + 1) events c = some ([], r, c') := by
  have h : fffilemonNext E ws (c.input.length + 1) events c = some ⟨r, events, c'⟩ := by
    simp only [fffilemonNext, hnext, Option.bind_eq_bind, Option.bind_some, if_pos hr]
    rfl
  simp only [readAll, h, Option.bind_eq_bind, Option.bind_some, if_pos hr]
  rfl

/-- A record that an item of the watch list wants. -/
theorem readAll_take {c c' v : Vars} {a r : Int} {wd fuel : Nat} {l : List Seen}
    (hnext : fffilemonNext1 E c = some (a, c')) (ha : 0 ≤ a) (hw : watchOf ws c'.name = some wd)
    (hrest : readAll E ws fuel a c' = some (l, r, v)) (events : Int) :
    readAll E ws (fuel + 1) events c = some (⟨wd, a, c'.name⟩ :: l, r, v) := by
  have h : fffilemonNext E ws (c.input.length + 1) events c = some ⟨wd, a, c'⟩ := by
    simp only [fffilemonNext, hnext, Option.bind_eq_bind, Option.bind_some, hw,
      if_neg (Int.not_lt.mpr ha)]
    rfl
  simp only [readAll, h, Option.bind_eq_bind, Option.bind_some, hrest, Int.toNat_natCast]
  rw [if_neg (by omega)]
  rfl

/-- A record that no item wants. -/
theorem readAll_skip {c c' v : Vars} {a r : Int} {fuel : Nat} {l : List Seen}
    (hnext : fffilemonNext1 E c = some (a, c')) (ha : 0 ≤ a) (hw : watchOf ws c'.name = none)
    (hshort : c'.input.length < c.input.length) {events : Int}
    (hrest : readAll E ws fuel events c' = some (l, r, v)) :
    readAll E ws fuel events c = some (l, r, v) := by
  cases fuel with
  | zero => cases hrest
  | succ fuel =>
    rw [readAll] at hrest
    obtain ⟨n, hn, hrest⟩ := Option.bind_eq_some_iff.mp hrest
    have h : fffilemonNext E ws (c.input.length + 1) events c = some n := by
      have hskip : fffilemonNext E ws (c.input.length + 1) events c =
          fffilemonNext E ws c.input.length events c' := by
        rw [fffilemonNext, hnext]
        simp only [Option.bind_eq_bind, Option.bind_some, if_neg (Int.not_lt.mpr ha), hw]
      obtain ⟨more, hmore⟩ := Nat.exists_eq_add_of_lt hshort
      rw [hskip, hmore, Nat.add_right_comm]
      exact fffilemonNext_mono more hn
    rw [readAll, h]
    exact hrest

/-! ## A batch -/

/-- What is taken of a batch with `room` bytes behind it in the buffer. -/
def heard (es : List Record) (room : Nat) : List Record := if room < 4 then es.dropLast else es

/-- The result that ends the loop. -/
def endOf (room : Nat) : Int := if room < 4 then -2 else -1

theorem batchBytes_cons (r r' : Record) (rs : List Record) :
    batchBytes (r :: r' :: rs) = r.bytes r.size ++ (List.replicate r.pad 0 ++ batchBytes (r' :: rs)) :=
  rfl

/-- A batch has room for the header of its first record. -/
theorem batchBytes_length (r : Record) (rs : List Record) :
    12 ≤ (batchBytes (r :: rs)).length := by
  cases rs with
  | nil =>
    rw [batchBytes, r.bytes_length]
    omega
  | cons r' rs =>
    rw [batchBytes_cons, List.length_append, r.bytes_length]
    omega

/-- To the next record of a batch. -/
theorem shiftNext_batch (r : Record) (rest : List Byte) :
    shiftNext (r.bytes r.size ++ (List.replicate r.pad 0 ++ rest)) = some rest := by
  obtain ⟨hnext, _⟩ := r.fields r.size_lt (List.replicate r.pad 0 ++ rest)
  have hlen : (r.bytes r.size ++ List.replicate r.pad 0).length = r.size := by
    rw [List.length_append, r.bytes_length, List.length_replicate, Record.size]
  simp only [shiftNext, hnext]
  rw [if_neg, if_neg, ← List.append_assoc, List.drop_left' hlen]
  · simp only [Record.size]
    omega
  · rw [← List.append_assoc, List.length_append, hlen]
    omega

/-- Behind the last record of a batch. -/
theorem shiftNext_last (r : Record) (rest : List Byte) :
    shiftNext (r.bytes 0 ++ rest) = some [] := by
  obtain ⟨hnext, _⟩ := r.fields (Nat.two_pow_pos 32) rest
  simp only [shiftNext, hnext]
  rw [if_neg (Nat.not_lt_zero _), if_pos trivial]

theorem seenAll_cons (r : Record) (rs : List Record) :
    seenAll ws (r :: rs) = (r.seen ws).toList ++ seenAll ws rs := by
  simp only [seenAll, List.filterMap_cons]
  cases r.seen ws <;> rfl

/-- One record in the loop. -/
theorem readAll_record {c : Vars} {r : Record} {rest : List Byte} {cap' n : Nat} {l : List Seen}
    {e : Int}
    (hnext : fffilemonNext1 E c = some (r.action.toInt, ⟨rest, utf8 r.name, cap'⟩))
    (hshort : rest.length < c.input.length)
    (hrest : ∀ f events, n ≤ f →
      ∃ v, readAll E ws f events ⟨rest, utf8 r.name, cap'⟩ = some (l, e, v)) (events : Int) :
    ∀ f, n < f → ∃ v, readAll E ws f events c = some ((r.seen ws).toList ++ l, e, v) := by
  intro f hf
  cases hw : watchOf ws (utf8 r.name) with
  | none =>
    obtain ⟨v, hv⟩ := hrest f events (Nat.le_of_lt hf)
    refine ⟨v, ?_⟩
    rw [Record.seen, hw]
    exact readAll_skip hnext r.action_pos hw hshort hv
  | some wd =>
    obtain ⟨f, rfl⟩ : ∃ n, f = n + 1 := ⟨f - 1, by omega⟩
    obtain ⟨v, hv⟩ := hrest f r.action.toInt (by omega)
    refine ⟨v, ?_⟩
    rw [Record.seen, hw]
    exact readAll_take hnext r.action_pos hw hv events

/-- **The decoder inverts a batch.**  Whatever was behind it in the buffer: the loop takes what the
    watch list wants of all records in order and ends with −1, but if the last record has less than
    4 bytes behind it, it is not taken and the end is an error. -/
theorem readAll_batch (hE : E.Exact) (ws : List Watch) (tail : List Byte) :
    ∀ (es : List Record), es ≠ [] → ∀ (fuel : Nat) (events : Int) (name : List Byte) (cap : Nat),
      es.length < fuel → ∃ v, readAll E ws fuel events ⟨batchBytes es ++ tail, name, cap⟩ =
        some (seenAll ws (heard es tail.length), endOf tail.length, v)
  | [], hne => absurd rfl hne
  | [r], _ => by
    intro fuel events name cap hf
    obtain ⟨fuel, rfl⟩ : ∃ n, fuel = n + 1 := ⟨fuel - 1, by simp at hf; omega⟩
    rcases Nat.lt_or_ge tail.length 4 with hroom | hroom
    · rw [heard, endOf, if_pos hroom, if_pos hroom]
      exact ⟨_, readAll_stop (fffilemonNext1_short r hroom name cap) (by omega) fuel events⟩
    · rw [heard, endOf, if_neg (Nat.not_lt.mpr hroom), if_neg (Nat.not_lt.mpr hroom), seenAll_cons]
      obtain ⟨cap', hnext⟩ := fffilemonNext1_record hE r (Nat.two_pow_pos 32) hroom
        (shiftNext_last r tail) name cap
      refine readAll_record (n := 1) hnext ?_ ?_ events _ hf
      · simp only [List.length_append, r.bytes_length, List.length_nil]
        omega
      · intro f events' hf'
        obtain ⟨f, rfl⟩ : ∃ n, f = n + 1 := ⟨f - 1, by omega⟩
        exact ⟨_, readAll_stop rfl (by omega) f events'⟩
  | r :: r' :: rs, _ => by
    intro fuel events name cap hf
    have hbatch := batchBytes_length r' rs
    have hheard : heard (r :: r' :: rs) tail.length = r :: heard (r' :: rs) tail.length := by
      simp only [heard]
      split <;> rfl
    have hshift := shiftNext_batch r (batchBytes (r' :: rs) ++ tail)
    obtain ⟨cap', hnext⟩ := fffilemonNext1_record hE r r.size_lt
      (by simp only [List.length_append]; omega) hshift name cap
    rw [hheard, seenAll_cons, batchBytes_cons, List.append_assoc, List.append_assoc]
    refine readAll_record (n := (r' :: rs).length + 1) hnext ?_ ?_ events _ hf
    · simp only [List.length_append, r.bytes_length]
      omega
    · intro f events' hf'
      exact readAll_batch hE ws tail (r' :: rs) (List.cons_ne_nil _ _) f events' _ _ hf'

end FFSys.Filemon.Win
