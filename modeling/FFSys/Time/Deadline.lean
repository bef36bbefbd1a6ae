import FFSys.Lib.Signed

/-!
# Deadlines of timed waits

`ffsem_wait()` for Linux and BSD and `ffthread_join()` both make an absolute deadline of the current
time and a timeout.

* `fftimespecAddms`, `ffthreadJoin` — the thread's deadline, and the wait for the thread.
* `ffsemDeadline`, `ffsemWait` — the same of the semaphore.
* `fftimespecAddms_spec` — the thread's deadline is right, for every part of the second.
* `ffsemDeadline_eq` — the semaphore's deadline has no carry.
* `ffsemWait_deadline_iff` — where the two agree.

The answers of the system calls are inputs.  An overflow of `time_t` has no defined result.
-/

set_option autoImplicit false

namespace FFSys.Time

open FFSys.Lib

/-! ## The functions -/

/-- `struct timespec` with 64-bit numbers. -/
@[ext] structure Timespec where
  tvSec : BitVec 64
  tvNsec : BitVec 64
  deriving DecidableEq, Repr

/-- The current time: `clock_gettime` returns less than a second of nanoseconds. -/
structure Now extends Timespec where
  nsec_lt : tvNsec.toNat < 1000000000

/-- `_fftimespec_addms`; `ms` is unsigned, and so are the sums with it. -/
def fftimespecAddms (ts : Timespec) (ms : BitVec 64) : Option Timespec :=
  let sec := ts.tvSec + ms / 1000#64
  let nsec := ts.tvNsec + ms % 1000#64 * 1000#64 * 1000#64
  if (1000000000#64).sle nsec then
    (sadd sec 1#64).map fun sec => ⟨sec, nsec - 1000000000#64⟩
  else some ⟨sec, nsec⟩

/-- The deadline of `ffsem_wait`. -/
def ffsemDeadline (ts : Timespec) (timeMs : BitVec 32) : Option Timespec :=
  (sadd ts.tvSec ((timeMs / 1000#32).setWidth 64)).bind fun sec =>
    (sadd ts.tvNsec ((timeMs % 1000#32 * 1000#32 * 1000#32).setWidth 64)).map fun nsec => ⟨sec, nsec⟩

def EINTR : Int := 4
def EAGAIN : Int := 11
def EBUSY : Int := 16
def EINVAL : Int := 22
def ETIMEDOUT : Int := 110

/-- What a call of a semaphore function returns, and `errno` after it. -/
structure SemRes where
  r : Int
  errno : Int
  deriving DecidableEq, Repr

inductive SemCall where
  | trywait
  | wait
  | timedwait (abs : Timespec)
  deriving DecidableEq, Repr

/-- The semaphore function that `ffsem_wait` calls and the result; without it the function still
    waits. -/
structure SemWait where
  call : Option SemCall
  res : Option SemRes
  deriving DecidableEq, Repr

/-- `do { .. } while (r != 0 && errno == EINTR)` -/
def retry : List SemRes → Option SemRes
  | [] => none
  | a :: as => if a.r ≠ 0 ∧ a.errno = EINTR then retry as else some a

/-- `ffsem_wait` on a semaphore or `FFSEM_NULL`; `none`: the deadline overflows. -/
def ffsemWait (sem : Bool) (now : Timespec) (timeMs : BitVec 32) (answers : List SemRes) :
    Option SemWait :=
  if !sem then some ⟨none, some ⟨-1, EINVAL⟩⟩
  else if timeMs = 0 then
    some ⟨some .trywait, answers.head?.map fun a =>
      if a.r ≠ 0 ∧ a.errno = EAGAIN then ⟨a.r, ETIMEDOUT⟩ else a⟩
  else if timeMs = 0xffffffff then some ⟨some .wait, retry answers⟩
  else (ffsemDeadline now timeMs).map fun ts => ⟨some (.timedwait ts), retry answers⟩

inductive JoinCall where
  | join
  | tryjoin
  | timedjoin (abs : Timespec)
  deriving DecidableEq, Repr

/-- What a call of a join function returns, and the exit code. -/
structure JoinRes where
  r : Int
  result : BitVec 32
  deriving DecidableEq, Repr

/-- The function that `ffthread_join` calls; its own result, `errno` if this is -1, and
    `*exit_code`. -/
structure Join where
  call : JoinCall
  ret : Int
  errno : Option Int
  exitCode : Option (BitVec 32)
  deriving DecidableEq, Repr

/-- `if (r != 0)` and the lines after it. -/
def joinEnd (call : JoinCall) (res : JoinRes) : Join :=
  if res.r ≠ 0 then ⟨call, -1, some res.r, none⟩ else ⟨call, 0, none, some res.result⟩

/-- `ffthread_join`; there are systems without `pthread_tryjoin_np` and without
    `pthread_timedjoin_np`. -/
def ffthreadJoin (haveTry haveTimed : Bool) (now : Timespec) (timeoutMs : BitVec 32) (res : JoinRes) :
    Option Join :=
  if timeoutMs = 0xffffffff then some (joinEnd .join res)
  else if haveTry = true ∧ timeoutMs = 0 then
    some (joinEnd .tryjoin (if res.r = EBUSY then { res with r := ETIMEDOUT } else res))
  else if haveTimed then
    (fftimespecAddms now (timeoutMs.setWidth 64)).map fun ts => joinEnd (.timedjoin ts) res
  else some (joinEnd .join res)

/-! ## Time -/

/-- The nanoseconds since 1970. -/
def Timespec.nanos (ts : Timespec) : Int := ts.tvSec.toInt * 1000000000 + ts.tvNsec.toInt

/-- The nanoseconds are less than a second. -/
structure Timespec.Normal (ts : Timespec) : Prop where
  nonneg : 0 ≤ ts.tvNsec.toInt
  lt : ts.tvNsec.toInt < 1000000000

theorem Now.nsec_toInt (now : Now) : now.tvNsec.toInt = now.tvNsec.toNat :=
  BitVec.toInt_eq_toNat_of_lt (by have h := now.nsec_lt; omega)

/-- The whole seconds of a timeout, in either width. -/
theorem timeout_sec (ms : BitVec 32) :
    (ms / 1000#32).setWidth 64 = ms.setWidth 64 / 1000#64 ∧
      ((ms / 1000#32).setWidth 64).toInt = ((ms.toNat / 1000 : Nat) : Int) := by
  have hlt := ms.isLt
  have hk : (1000#32).toNat = 1000 := rfl
  have hk' : (1000#64).toNat = 1000 := rfl
  have hwide : ((ms / 1000#32).setWidth 64).toNat = ms.toNat / 1000 := by
    rw [BitVec.toNat_setWidth, BitVec.toNat_udiv, hk]
    omega
  refine ⟨?_, ?_⟩
  · apply BitVec.eq_of_toNat_eq
    rw [hwide, BitVec.toNat_udiv, BitVec.toNat_setWidth, hk']
    omega
  · rw [BitVec.toInt_eq_toNat_of_lt (by omega), hwide]

/-- The rest of a timeout in nanoseconds, in either width. -/
theorem timeout_nsec (ms : BitVec 32) :
    (ms % 1000#32 * 1000#32 * 1000#32).setWidth 64 = ms.setWidth 64 % 1000#64 * 1000#64 * 1000#64 ∧
      ((ms % 1000#32 * 1000#32 * 1000#32).setWidth 64).toNat = ms.toNat % 1000 * 1000000 := by
  have hlt := ms.isLt
  have hk : (1000#32).toNat = 1000 := rfl
  have hk' : (1000#64).toNat = 1000 := rfl
  have hr : ms.toNat % 1000 < 1000 := Nat.mod_lt _ (by omega)
  have hwide : ((ms % 1000#32 * 1000#32 * 1000#32).setWidth 64).toNat =
      ms.toNat % 1000 * 1000000 := by
    rw [BitVec.toNat_setWidth, BitVec.toNat_mul, BitVec.toNat_mul, BitVec.toNat_umod, hk]
    generalize ms.toNat % 1000 = r at hr
    rw [Nat.mod_eq_of_lt (show r * 1000 < 2 ^ 32 by omega),
      Nat.mod_eq_of_lt (show r * 1000 * 1000 < 2 ^ 32 by omega)]
    omega
  refine ⟨?_, hwide⟩
  apply BitVec.eq_of_toNat_eq
  rw [hwide, BitVec.toNat_mul, BitVec.toNat_mul, BitVec.toNat_umod, BitVec.toNat_setWidth, hk',
    Nat.mod_eq_of_lt (show ms.toNat < 2 ^ 64 by omega)]
  generalize ms.toNat % 1000 = r at hr
  omega

/-- The sum of the nanoseconds. -/
theorem nsec_sum (now : Now) (ms : BitVec 32) :
    SignedRange 64 (now.tvNsec.toInt + ((ms % 1000#32 * 1000#32 * 1000#32).setWidth 64).toInt) ∧
      (now.tvNsec + (ms % 1000#32 * 1000#32 * 1000#32).setWidth 64).toInt =
        ((now.tvNsec.toNat + ms.toNat % 1000 * 1000000 : Nat) : Int) := by
  have hnow := now.nsec_lt
  have hn := (timeout_nsec ms).2
  have hint : ((ms % 1000#32 * 1000#32 * 1000#32).setWidth 64).toInt =
      ((ms.toNat % 1000 * 1000000 : Nat) : Int) := by
    rw [BitVec.toInt_eq_toNat_of_lt (by omega), hn]
  have hrange : SignedRange 64
      (now.tvNsec.toInt + ((ms % 1000#32 * 1000#32 * 1000#32).setWidth 64).toInt) := by
    rw [hint, now.nsec_toInt]
    exact ⟨by omega, by omega⟩
  refine ⟨hrange, ?_⟩
  rw [(sadd_eq_some hrange).2, hint, now.nsec_toInt]
  omega

/-- The current time and a timeout, added part by part: what `ffsem_wait` computes. -/
def Now.plus (now : Now) (ms : BitVec 32) : Timespec :=
  ⟨now.tvSec + (ms / 1000#32).setWidth 64,
    now.tvNsec + (ms % 1000#32 * 1000#32 * 1000#32).setWidth 64⟩

/-- It is the timeout after the current time. -/
theorem plus_nanos (now : Now) (ms : BitVec 32) (h : now.tvSec.toInt + ms.toNat / 1000 < 2 ^ 63) :
    (now.plus ms).tvSec.toInt = now.tvSec.toInt + ms.toNat / 1000 ∧
      (now.plus ms).nanos = now.nanos + ms.toNat * 1000000 := by
  have hlow := BitVec.le_toInt now.tvSec
  obtain ⟨-, hsecv⟩ := timeout_sec ms
  obtain ⟨-, hnsum⟩ := nsec_sum now ms
  obtain ⟨-, hssum⟩ := sadd_eq_some (x := now.tvSec) (y := (ms / 1000#32).setWidth 64)
    (by rw [hsecv]; exact ⟨by omega, by omega⟩)
  rw [hsecv] at hssum
  refine ⟨by rw [Now.plus, hssum]; omega, ?_⟩
  rw [Timespec.nanos, Timespec.nanos, Now.plus, hssum, hnsum, now.nsec_toInt]
  omega

/-- It is normalised if the nanoseconds do not add up to a second. -/
theorem plus_normal_iff (now : Now) (ms : BitVec 32) :
    (now.plus ms).Normal ↔ now.tvNsec.toNat + ms.toNat % 1000 * 1000000 < 1000000000 := by
  obtain ⟨-, hnsum⟩ := nsec_sum now ms
  refine ⟨?_, ?_⟩
  · intro h
    have hlt := h.lt
    rw [Now.plus, hnsum] at hlt
    omega
  · intro h
    refine ⟨?_, ?_⟩
    · rw [Now.plus, hnsum]
      omega
    · rw [Now.plus, hnsum]
      omega

/-! ## The deadlines -/

/-- `_fftimespec_addms` on the sums. -/
theorem fftimespecAddms_eq (now : Now) (ms : BitVec 32) :
    fftimespecAddms now.toTimespec (ms.setWidth 64) =
      if (1000000000#64).sle (now.plus ms).tvNsec then
        (sadd (now.plus ms).tvSec 1#64).map fun sec => ⟨sec, (now.plus ms).tvNsec - 1000000000#64⟩
      else some (now.plus ms) := by
  simp only [fftimespecAddms, ← (timeout_sec ms).1, ← (timeout_nsec ms).1]
  rfl

/-- Without a carry. -/
theorem fftimespecAddms_normal (now : Now) (ms : BitVec 32) (h : (now.plus ms).Normal) :
    fftimespecAddms now.toTimespec (ms.setWidth 64) = some (now.plus ms) := by
  have hlt := h.lt
  have hbillion : (1000000000#64).toInt = 1000000000 := rfl
  rw [fftimespecAddms_eq, if_neg]
  rw [BitVec.sle_iff_toInt_le, hbillion]
  omega

/-- **The thread's deadline**: it is normalised, and exactly the timeout after the current time. -/
theorem fftimespecAddms_spec (now : Now) (ms : BitVec 32)
    (h : now.tvSec.toInt + ms.toNat / 1000 + 1 < 2 ^ 63) :
    ∃ d, fftimespecAddms now.toTimespec (ms.setWidth 64) = some d ∧ d.Normal ∧
      d.nanos = now.nanos + ms.toNat * 1000000 := by
  have hlow := BitVec.le_toInt now.tvSec
  have hnow := now.nsec_lt
  obtain ⟨hsec, hnanos⟩ := plus_nanos now ms (by omega)
  obtain ⟨-, hnsum⟩ := nsec_sum now ms
  by_cases hnormal : (now.plus ms).Normal
  · exact ⟨_, fftimespecAddms_normal now ms hnormal, hnormal, hnanos⟩
  · rw [plus_normal_iff] at hnormal
    have hnsec : (now.plus ms).tvNsec.toInt =
        ((now.tvNsec.toNat + ms.toNat % 1000 * 1000000 : Nat) : Int) := hnsum
    have hone : (1#64).toInt = 1 := rfl
    have hbillion : (1000000000#64).toInt = 1000000000 := rfl
    obtain ⟨hinc, hincv⟩ := sadd_eq_some (x := (now.plus ms).tvSec) (y := 1#64)
      (by rw [hone, hsec]; exact ⟨by omega, by omega⟩)
    rw [hone] at hincv
    have hsub : ((now.plus ms).tvNsec - 1000000000#64).toInt =
        (now.plus ms).tvNsec.toInt - 1000000000 := by
      rw [BitVec.toInt_sub, hbillion, Int.bmod_eq_of_le (by omega) (by omega)]
    refine ⟨⟨(now.plus ms).tvSec + 1#64, (now.plus ms).tvNsec - 1000000000#64⟩, ?_, ⟨?_, ?_⟩, ?_⟩
    · rw [fftimespecAddms_eq, if_pos, hinc, Option.map_some]
      rw [BitVec.sle_iff_toInt_le, hbillion]
      omega
    · show 0 ≤ ((now.plus ms).tvNsec - 1000000000#64).toInt
      omega
    · show ((now.plus ms).tvNsec - 1000000000#64).toInt < 1000000000
      omega
    · rw [← hnanos, Timespec.nanos, Timespec.nanos, hincv, hsub]
      omega

/-- **The semaphore's deadline**: the sums, if the seconds are in range. -/
theorem ffsemDeadline_eq (now : Now) (ms : BitVec 32) :
    ffsemDeadline now.toTimespec ms =
      if now.tvSec.toInt + ms.toNat / 1000 < 2 ^ 63 then some (now.plus ms) else none := by
  have hlow := BitVec.le_toInt now.tvSec
  have hsec := (timeout_sec ms).2
  obtain ⟨hrange, -⟩ := nsec_sum now ms
  rw [ffsemDeadline, (sadd_eq_some hrange).1]
  split
  · obtain ⟨hsome, -⟩ := sadd_eq_some (x := now.tvSec) (y := (ms / 1000#32).setWidth 64)
      (by rw [hsec]; exact ⟨by omega, by omega⟩)
    rw [hsome, Option.bind_some, Option.map_some]
    rfl
  · rename_i hover
    rw [sadd, if_pos, Option.bind_none]
    rw [saddOverflow_iff, hsec]
    intro hfits
    have hlt := hfits.2
    omega

/-- **Where the two deadlines agree.**  For a timeout that is neither 0 nor infinite, `ffsem_wait()`
    waits until the deadline of `ffthread_join()`, normalised and exactly the timeout after the
    current time, if and only if the nanoseconds do not add up to a second, and the seconds do not
    overflow. -/
theorem ffsemWait_deadline_iff (now : Now) (ms : BitVec 32) (h0 : ms ≠ 0) (hinf : ms ≠ 0xffffffff)
    (haveTry : Bool) (answers : List SemRes) (res : JoinRes) :
    (∃ d w j, ffsemWait true now.toTimespec ms answers = some w ∧ w.call = some (.timedwait d) ∧
      ffthreadJoin haveTry true now.toTimespec ms res = some j ∧ j.call = .timedjoin d ∧
      d.Normal ∧ d.nanos = now.nanos + ms.toNat * 1000000) ↔
    now.tvNsec.toNat + ms.toNat % 1000 * 1000000 < 1000000000 ∧
      now.tvSec.toInt + ms.toNat / 1000 < 2 ^ 63 := by
  have hwait : ffsemWait true now.toTimespec ms answers =
      (ffsemDeadline now.toTimespec ms).map fun ts => ⟨some (.timedwait ts), retry answers⟩ := by
    rw [ffsemWait, if_neg (by decide), if_neg h0, if_neg hinf]
  have hjoin : ffthreadJoin haveTry true now.toTimespec ms res =
      (fftimespecAddms now.toTimespec (ms.setWidth 64)).map fun ts =>
        joinEnd (.timedjoin ts) res := by
    rw [ffthreadJoin, if_neg hinf, if_neg fun h => h0 h.2, if_pos rfl]
  have hcall : ∀ call, (joinEnd call res).call = call := by
    intro call
    unfold joinEnd
    split <;> rfl
  rw [hwait, hjoin, ffsemDeadline_eq]
  refine ⟨?_, ?_⟩
  · rintro ⟨d, w, j, hw, hwd, -, -, hnormal, -⟩
    split at hw
    · rename_i hsec
      rw [Option.map_some, Option.some.injEq] at hw
      rw [← hw, Option.some.injEq, SemCall.timedwait.injEq] at hwd
      rw [← hwd, plus_normal_iff] at hnormal
      exact ⟨hnormal, hsec⟩
    · cases hw
  · rintro ⟨hnsec, hsec⟩
    have hnormal := (plus_normal_iff now ms).mpr hnsec
    rw [if_pos hsec, fftimespecAddms_normal now ms hnormal, Option.map_some, Option.map_some]
    exact ⟨_, _, _, rfl, rfl, rfl, hcall _, hnormal, (plus_nanos now ms hsec).2⟩

/-- A wait for 1500 ms at the start of a second. -/
theorem ffsemWait_deadline_early :
    ∃ d w j, ffsemWait true ⟨1000, 0⟩ 1500 [⟨0, 0⟩] = some w ∧ w.call = some (.timedwait d) ∧
      ffthreadJoin true true ⟨1000, 0⟩ 1500 ⟨0, 0⟩ = some j ∧ j.call = .timedjoin d ∧
      d.Normal ∧ d.nanos = 1001500000000 := by
  obtain ⟨d, w, j, hw, hwd, hj, hjd, hnormal, hnanos⟩ :=
    (ffsemWait_deadline_iff ⟨⟨1000, 0⟩, by decide⟩ 1500 (by decide) (by decide) true
      [⟨0, 0⟩] ⟨0, 0⟩).mpr
      ⟨by decide, by decide⟩
  exact ⟨d, w, j, hw, hwd, hj, hjd, hnormal, hnanos.trans (by decide)⟩

/-- A wait for 1 ms in the last nanosecond of a second. -/
theorem ffsemWait_deadline_late :
    ffsemWait true ⟨1000, 999999999⟩ 1 [⟨-1, EINVAL⟩] =
        some ⟨some (.timedwait ⟨1000, 1000999999⟩), some ⟨-1, EINVAL⟩⟩ ∧
      ¬ (⟨1000, 1000999999⟩ : Timespec).Normal ∧
      ffthreadJoin true true ⟨1000, 999999999⟩ 1 ⟨0, 0⟩ =
        some ⟨.timedjoin ⟨1001, 999999⟩, 0, none, some 0⟩ := by
  refine ⟨by decide +kernel, ?_, by decide +kernel⟩
  intro h
  exact absurd h.lt (by decide)

end FFSys.Time
