import Mathlib.Algebra.Order.Ring.Nat
import Mathlib.Data.List.Basic

/-!
# `fffile_readwhole()`

The function opens a file, asks for its size, makes room for it and a byte more, and reads it.  An
error of the size query is -1 in an unsigned 64-bit variable, and an error of the read becomes an
`ffsize` before it is compared.

* `fffileReadwhole` — the function, with a log of its calls (`FileEvent`).
* `Honest` — what the caller relies on.
* `Wraps` — the size is the largest `ffsize`, and is not rejected.
* `readInto` — the end of the function, for a size that `Passes`; `honest_readInto`,
  `not_honest_readInto`.
* `fffileReadwhole_honest_iff` — the function is honest except then.

What the system calls answer is an input (`FileIo`).  `ffvec_realloc` is any function that makes the
room that it is asked for, or fails.
-/

set_option autoImplicit false

namespace FFSys.File

/-! ## The function -/

/-- `ffvec` of bytes: the buffer, and how much of it is used. -/
structure Ffvec where
  buf : List UInt8
  len : Nat
  deriving DecidableEq, Repr

/-- `ffvec_realloc` of bytes. -/
structure FfvecRealloc where
  run : Ffvec → Nat → Option Ffvec
  /-- The room that was asked for. -/
  room : ∀ v n v', run v n = some v' → n ≤ v'.buf.length

/-- The size of a file, a non-negative `off_t`. -/
structure FileSize where
  val : Nat
  lt : val < 2 ^ 63
  deriving DecidableEq, Repr

/-- What the system answers: whether the file is opened, its size, and the data there is to read. 
    `none`: the call fails. -/
structure FileIo where
  opened : Bool
  size : Option FileSize
  data : Option (List UInt8)
  deriving DecidableEq, Repr

/-- A call: `realloc` that made room for `n` bytes, `read` of `n` bytes that returned `got`. -/
inductive FileEvent where
  | open
  | realloc (n : Nat)
  | read (n : Nat) (got : Option Nat)
  | close
  deriving DecidableEq, Repr

/-- What is returned, `dst` and the calls. -/
structure ReadWhole where
  ret : Int
  dst : Ffvec
  events : List FileEvent
  deriving DecidableEq, Repr

/-- The bits of `ffsize`. -/
def ffsizeBits (ff64 : Bool) : Nat := if ff64 then 64 else 32

/-- `fffile_size` as the unsigned number that it is assigned to. -/
def fffileSize (io : FileIo) : BitVec 64 :=
  match io.size with
  | none => -1
  | some s => BitVec.ofNat 64 s.val

/-- `fffile_read`: some of the data, no more than `n` bytes. -/
def fffileRead (io : FileIo) (n : Nat) : Option (List UInt8) := io.data.map fun data => data.take n

/-- The result of `fffile_read` as an `ffsize`. -/
def asFfsize (ff64 : Bool) : Option Nat → Nat
  | none => 2 ^ ffsizeBits ff64 - 1
  | some n => n % 2 ^ ffsizeBits ff64

def fffileReadwhole (ff64 : Bool) (realloc : FfvecRealloc) (io : FileIo) (dst : Ffvec)
    (limit : BitVec 64) :
    ReadWhole :=
  if !io.opened then ⟨-1, dst, []⟩
  else
    let sz := fffileSize io
    if limit < sz then ⟨-1, dst, [.open, .close]⟩
    else if ff64 = false ∧ 0xffffffff#64 < sz then ⟨-1, dst, [.open, .close]⟩
    else
      let n := (sz + 1#64).toNat % 2 ^ ffsizeBits ff64
      match realloc.run dst n with
      | none => ⟨-1, dst, [.open, .close]⟩
      | some v =>
        let want := sz.toNat % 2 ^ ffsizeBits ff64
        let got := fffileRead io want
        let bytes := got.getD []
        let v := { v with buf := bytes ++ v.buf.drop bytes.length }
        let events := [.open, .realloc n, .read want (got.map List.length), .close]
        if sz.toNat ≠ asFfsize ff64 (got.map List.length) then ⟨-1, v, events⟩
        else ⟨0, { v with len := want }, events⟩

/-! ## Honesty -/

/-- The read leaves a byte of the room that was made in `dst`; after a success the read has returned
    as many bytes as the file has, and these are `dst`; the file is closed if it was opened. -/
structure Honest (io : FileIo) (limit : BitVec 64) (r : ReadWhole) : Prop where
  request : ∀ n got, .read n got ∈ r.events →
    ∃ m, .realloc m ∈ r.events ∧ n + 1 ≤ m ∧ m ≤ r.dst.buf.length
  success : r.ret = 0 → ∃ n size, .read n (some r.dst.len) ∈ r.events ∧ io.size = some size ∧
    r.dst.len = size.val ∧ size.val ≤ limit.toNat
  closed : r.events.count .open = r.events.count .close ∧
    (io.opened = true → r.events.getLast? = some .close)

/-- The size is the largest `ffsize` (on 64-bit systems the failure of the size query, on 32-bit
    systems a size of 4 GiB less a byte), it is within the limit, and there is room for `sz + 1`,
    that is 0, bytes. -/
structure Wraps (ff64 : Bool) (realloc : FfvecRealloc) (io : FileIo) (dst : Ffvec)
    (limit : BitVec 64) : Prop where
  opened : io.opened = true
  largest : (fffileSize io).toNat = 2 ^ ffsizeBits ff64 - 1
  within : (fffileSize io).toNat ≤ limit.toNat
  room : realloc.run dst 0 ≠ none

/-- A failure before the read. -/
theorem honest_early (io : FileIo) (dst : Ffvec) (limit : BitVec 64) :
    Honest io limit ⟨-1, dst, [.open, .close]⟩ := by
  refine ⟨?_, ?_, ?_, ?_⟩
  · intro n got h
    simp at h
  · intro h
    cases h
  · rfl
  · intro _
    rfl

theorem fffileSize_toNat (io : FileIo) :
    (io.size = none ∧ (fffileSize io).toNat = 2 ^ 64 - 1) ∨
      ∃ s, io.size = some s ∧ (fffileSize io).toNat = s.val := by
  unfold fffileSize
  cases hsize : io.size with
  | none => exact .inl ⟨rfl, rfl⟩
  | some s =>
    refine .inr ⟨s, rfl, ?_⟩
    have hlt := s.lt
    rw [BitVec.toNat_ofNat]
    exact Nat.mod_eq_of_lt (by omega)

/-- The result of the read is the number that was asked for only if it is no error. -/
theorem asFfsize_eq {ff64 : Bool} {io : FileIo} {n : Nat} (hn : n < 2 ^ ffsizeBits ff64 - 1)
    (h : asFfsize ff64 ((fffileRead io n).map List.length) = n) :
    (fffileRead io n).map List.length = some n := by
  unfold fffileRead at h ⊢
  cases hdata : io.data with
  | none =>
    rw [hdata, Option.map_none, Option.map_none, asFfsize] at h
    omega
  | some data =>
    rw [hdata, Option.map_some, Option.map_some, asFfsize, List.length_take] at h
    rw [Option.map_some, Option.map_some, List.length_take]
    have hle : min n data.length < 2 ^ ffsizeBits ff64 := by omega
    rw [Nat.mod_eq_of_lt hle] at h
    rw [h]

/-- The room that is asked for: the size and a byte, or nothing for the largest size. -/
theorem room_eq {ff64 : Bool} {sz : BitVec 64} (hsz : sz.toNat < 2 ^ ffsizeBits ff64) :
    (sz + 1#64).toNat % 2 ^ ffsizeBits ff64 =
      if sz.toNat = 2 ^ ffsizeBits ff64 - 1 then 0 else sz.toNat + 1 := by
  have hone : (1#64).toNat = 1 := rfl
  rw [BitVec.toNat_add, hone]
  cases ff64 with
  | true =>
    have hbits : ffsizeBits true = 64 := rfl
    rw [hbits] at hsz ⊢
    split <;> omega
  | false =>
    have hbits : ffsizeBits false = 32 := rfl
    rw [hbits] at hsz ⊢
    split <;> omega

/-- The read of `n` bytes into `v`, for which there was made `room`, and the check of its result. -/
def readInto (ff64 : Bool) (io : FileIo) (v : Ffvec) (room n : Nat) : ReadWhole :=
  let got := fffileRead io n
  let bytes := got.getD []
  let v := { v with buf := bytes ++ v.buf.drop bytes.length }
  let events := [.open, .realloc room, .read n (got.map List.length), .close]
  if n ≠ asFfsize ff64 (got.map List.length) then ⟨-1, v, events⟩
  else ⟨0, { v with len := n }, events⟩

section Runs

variable (ff64 : Bool) (realloc : FfvecRealloc) (io : FileIo) (dst v : Ffvec) (limit : BitVec 64)

/-- The file is opened, and its size is within the limit and fits an `ffsize`. -/
def Passes : Prop :=
  io.opened = true ∧ (fffileSize io).toNat ≤ limit.toNat ∧ (fffileSize io).toNat < 2 ^ ffsizeBits ff64

variable {ff64 realloc io dst v limit}

/-- A size that is not rejected fits an `ffsize`. -/
theorem fits_of_word (h : ¬ (ff64 = false ∧ 0xffffffff#64 < fffileSize io)) :
    (fffileSize io).toNat < 2 ^ ffsizeBits ff64 := by
  cases ff64 with
  | true => exact (fffileSize io).isLt
  | false =>
    have hword : (0xffffffff#64).toNat = 2 ^ 32 - 1 := rfl
    have hbits : ffsizeBits false = 32 := rfl
    have hle : ¬ 0xffffffff#64 < fffileSize io := fun hlt => h ⟨rfl, hlt⟩
    rw [BitVec.lt_def, hword] at hle
    rw [hbits]
    omega

theorem word_of_fits (h : (fffileSize io).toNat < 2 ^ ffsizeBits ff64) :
    ¬ (ff64 = false ∧ 0xffffffff#64 < fffileSize io) := by
  have hword : (0xffffffff#64).toNat = 2 ^ 32 - 1 := rfl
  have hbits : ffsizeBits false = 32 := rfl
  rintro ⟨rfl, hlt⟩
  rw [BitVec.lt_def, hword] at hlt
  rw [hbits] at h
  omega

/-- Otherwise nothing is read. -/
theorem honest_rejected (h : ¬ Passes ff64 io limit) :
    Honest io limit (fffileReadwhole ff64 realloc io dst limit) := by
  unfold fffileReadwhole
  split
  · rename_i hclosed
    refine ⟨?_, ?_, rfl, ?_⟩
    · intro n got hread
      cases hread
    · intro hret
      cases hret
    · intro hopened
      rw [hopened] at hclosed
      cases hclosed
  rename_i hopened
  simp only
  split
  · exact honest_early io dst limit
  rename_i hlimit
  split
  · exact honest_early io dst limit
  rename_i hword
  rw [BitVec.lt_def, Nat.not_lt] at hlimit
  exact absurd ⟨by simpa using hopened, hlimit, fits_of_word hword⟩ h

/-- A size that passes: the room is made, and the file is read. -/
theorem fffileReadwhole_eq (h : Passes ff64 io limit) :
    fffileReadwhole ff64 realloc io dst limit =
      match realloc.run dst
        (if (fffileSize io).toNat = 2 ^ ffsizeBits ff64 - 1 then 0
          else (fffileSize io).toNat + 1) with
      | none => ⟨-1, dst, [.open, .close]⟩
      | some v => readInto ff64 io v
        (if (fffileSize io).toNat = 2 ^ ffsizeBits ff64 - 1 then 0 else (fffileSize io).toNat + 1)
        (fffileSize io).toNat := by
  obtain ⟨hopened, hlimit, hsz⟩ := h
  have hwithin : ¬ limit < fffileSize io := by
    rw [BitVec.lt_def]
    omega
  unfold fffileReadwhole
  simp only [hopened, Bool.not_true, Bool.false_eq_true, if_false, if_neg hwithin,
    if_neg (word_of_fits hsz), room_eq hsz, Nat.mod_eq_of_lt hsz]
  rfl

theorem readInto_events (room n : Nat) :
    (readInto ff64 io v room n).events =
      [.open, .realloc room, .read n ((fffileRead io n).map List.length), .close] := by
  unfold readInto
  dsimp only
  split <;> rfl

/-- The buffer keeps its size, or grows with the bytes that are read. -/
theorem readInto_room (room n : Nat) : v.buf.length ≤ (readInto ff64 io v room n).dst.buf.length := by
  have hlen (bytes : List UInt8) : v.buf.length ≤ (bytes ++ v.buf.drop bytes.length).length := by
    rw [List.length_append, List.length_drop]
    omega
  unfold readInto
  dsimp only
  split
  · exact hlen _
  · exact hlen _

theorem readInto_success {room n : Nat} (h : (readInto ff64 io v room n).ret = 0) :
    n = asFfsize ff64 ((fffileRead io n).map List.length) ∧
      (readInto ff64 io v room n).dst.len = n := by
  unfold readInto at h ⊢
  dsimp only at h ⊢
  split at h
  · cases h
  · rename_i hsame
    rw [if_neg hsame]
    exact ⟨not_not.mp hsame, rfl⟩

/-- **A read with a byte to spare** is honest. -/
theorem honest_readInto (hlimit : (fffileSize io).toNat ≤ limit.toNat)
    (hsz : (fffileSize io).toNat < 2 ^ ffsizeBits ff64 - 1)
    (hroom : (fffileSize io).toNat + 1 ≤ v.buf.length) :
    Honest io limit (readInto ff64 io v ((fffileSize io).toNat + 1) (fffileSize io).toNat) := by
  have hevents := @readInto_events ff64 io v ((fffileSize io).toNat + 1) (fffileSize io).toNat
  have hbuf := @readInto_room ff64 io v ((fffileSize io).toNat + 1) (fffileSize io).toNat
  refine ⟨?_, ?_, ?_, ?_⟩
  · intro n got h
    have hn : n = (fffileSize io).toNat := by
      rw [hevents] at h
      simp at h
      exact h.1
    exact ⟨(fffileSize io).toNat + 1, by rw [hevents]; simp, by omega, hroom.trans hbuf⟩
  · intro hret
    obtain ⟨hsame, hlen⟩ := readInto_success hret
    have hgot := asFfsize_eq hsz hsame.symm
    rcases fffileSize_toNat io with ⟨-, hfail⟩ | ⟨size, hsize, hval⟩
    · -- the failed size query is no smaller than the largest `ffsize`
      cases ff64 with
      | true =>
        have hbits : ffsizeBits true = 64 := rfl
        rw [hbits] at hsz
        omega
      | false =>
        have hbits : ffsizeBits false = 32 := rfl
        rw [hbits] at hsz
        omega
    · refine ⟨(fffileSize io).toNat, size, ?_, hsize, hlen.trans hval, by omega⟩
      rw [hevents, hlen, hgot]
      simp
  · rw [hevents]
    rfl
  · intro _
    rw [hevents]
    rfl

/-- A read into no room is not. -/
theorem not_honest_readInto (n : Nat) : ¬ Honest io limit (readInto ff64 io v 0 n) := by
  intro h
  obtain ⟨m, hm, hle, -⟩ := h.request n ((fffileRead io n).map List.length) (by
    rw [readInto_events]
    simp)
  have hzero : m = 0 := by
    rw [readInto_events] at hm
    simpa using hm
  omega

end Runs

/-- **When `fffile_readwhole` is honest**: always, except if the size query fails, or the file has
    the largest size, and the limit lets this number pass. -/
theorem fffileReadwhole_honest_iff (ff64 : Bool) (realloc : FfvecRealloc) (io : FileIo) (dst : Ffvec)
    (limit : BitVec 64) :
    Honest io limit (fffileReadwhole ff64 realloc io dst limit) ↔
      ¬ Wraps ff64 realloc io dst limit := by
  by_cases hpass : Passes ff64 io limit
  · rw [fffileReadwhole_eq hpass]
    obtain ⟨hopened, hlimit, hsz⟩ := hpass
    by_cases hmax : (fffileSize io).toNat = 2 ^ ffsizeBits ff64 - 1
    · -- `sz + 1` is 0, and the read is asked to fill more than the room that was made
      rw [if_pos hmax]
      cases hrealloc : realloc.run dst 0 with
      | none => exact iff_of_true (honest_early io dst limit) fun h => h.room hrealloc
      | some v =>
        have hwraps : Wraps ff64 realloc io dst limit :=
          ⟨hopened, hmax, hlimit, by rw [hrealloc]; exact Option.some_ne_none v⟩
        exact iff_of_false (not_honest_readInto _) (not_not_intro hwraps)
    · rw [if_neg hmax]
      have hno : ¬ Wraps ff64 realloc io dst limit := fun h => hmax h.largest
      cases hrealloc : realloc.run dst ((fffileSize io).toNat + 1) with
      | none => exact iff_of_true (honest_early io dst limit) hno
      | some v =>
        exact iff_of_true (honest_readInto hlimit (by omega) (realloc.room _ _ _ hrealloc)) hno
  · refine iff_of_true (honest_rejected hpass) fun h => hpass ⟨h.opened, h.within, ?_⟩
    have hpos : 0 < 2 ^ ffsizeBits ff64 := Nat.two_pow_pos _
    rw [h.largest]
    omega

/-- A vector that grows to what it is asked for. -/
def growing : FfvecRealloc where
  run v n := some { v with buf := v.buf ++ List.replicate (n - v.buf.length) 0 }
  room v n v' h := by
    rw [Option.some.injEq] at h
    rw [← h, List.length_append, List.length_replicate]
    omega

/-- The size query and the read fail, without a limit. -/
theorem fffileReadwhole_both_fail :
    fffileReadwhole true growing ⟨true, none, none⟩ ⟨[0], 0⟩ 0xffffffffffffffff#64 =
        ⟨0, ⟨[0], 2 ^ 64 - 1⟩, [.open, .realloc 0, .read (2 ^ 64 - 1) none, .close]⟩ ∧
      ¬ Honest ⟨true, none, none⟩ 0xffffffffffffffff#64
        ⟨0, ⟨[0], 2 ^ 64 - 1⟩, [.open, .realloc 0, .read (2 ^ 64 - 1) none, .close]⟩ := by
  refine ⟨by decide +kernel, fun h => ?_⟩
  obtain ⟨n, size, -, hsize, -⟩ := h.success rfl
  cases hsize

end FFSys.File
