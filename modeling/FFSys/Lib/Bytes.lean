import Mathlib.Algebra.Order.Ring.Nat
import Mathlib.Data.List.Basic

/-!
# Little-endian numbers

* `leNat bs` — the number that the bytes `bs` stand for, the first one the lowest.
* `leBytes w n` — the number `n` in `w` bytes.
* `readAt mem off w`, `sliceAt mem off n` — a number and a slice of a buffer; `none` if they are not
  inside of it.
-/

set_option autoImplicit false

namespace FFSys.Lib

def leNat : List UInt8 → Nat
  | [] => 0
  | b :: bs => b.toNat + 256 * leNat bs

def leBytes : Nat → Nat → List UInt8
  | 0, _ => []
  | w + 1, n => UInt8.ofNat n :: leBytes w (n / 256)

theorem leNat_lt : ∀ (bs : List UInt8), leNat bs < 256 ^ bs.length
  | [] => by simp [leNat]
  | b :: bs => by
    have hb := b.toNat_lt
    have ih := leNat_lt bs
    rw [leNat, List.length_cons, Nat.pow_succ]
    omega

@[simp] theorem leBytes_length : ∀ (w n : Nat), (leBytes w n).length = w
  | 0, _ => rfl
  | w + 1, n => by rw [leBytes, List.length_cons, leBytes_length w]

theorem leNat_leBytes : ∀ (w n : Nat), leNat (leBytes w n) = n % 256 ^ w
  | 0, n => by simp [leBytes, leNat, Nat.mod_one]
  | w + 1, n => by
    have hpow : 256 ^ (w + 1) = 256 * 256 ^ w := by rw [Nat.pow_succ, Nat.mul_comm]
    rw [leBytes, leNat, leNat_leBytes w, UInt8.toNat_ofNat', hpow, Nat.mod_mul]

/-- The number in the `w` bytes at `off`. -/
def readAt (mem : List UInt8) (off w : Nat) : Option Nat :=
  if off + w ≤ mem.length then some (leNat ((mem.drop off).take w)) else none

/-- The `n` bytes at `off`. -/
def sliceAt (mem : List UInt8) (off n : Nat) : Option (List UInt8) :=
  if off + n ≤ mem.length then some ((mem.drop off).take n) else none

section Buffer

variable {mem rest : List UInt8} {off : Nat}

theorem length_of_drop {s : List UInt8} (hoff : off ≤ mem.length) (h : mem.drop off = s ++ rest) :
    off + s.length + rest.length = mem.length := by
  have hlen := congrArg List.length h
  rw [List.length_drop, List.length_append] at hlen
  omega

theorem readAt_of_drop {w n : Nat} (hoff : off ≤ mem.length)
    (h : mem.drop off = leBytes w n ++ rest) : readAt mem off w = some (n % 256 ^ w) := by
  have hlen := length_of_drop hoff h
  rw [leBytes_length] at hlen
  rw [readAt, if_pos (by omega), h, List.take_left' (leBytes_length w n), leNat_leBytes]

theorem drop_of_drop {s : List UInt8} (h : mem.drop off = s ++ rest) :
    mem.drop (off + s.length) = rest := by
  rw [← List.drop_drop, h, List.drop_left' rfl]

theorem sliceAt_length {n : Nat} {s : List UInt8} (h : sliceAt mem off n = some s) : s.length = n := by
  unfold sliceAt at h
  split at h
  · cases h
    rw [List.length_take, List.length_drop]
    omega
  · cases h

theorem readAt_lt {w n : Nat} (h : readAt mem off w = some n) : n < 256 ^ w := by
  unfold readAt at h
  split at h
  · cases h
    refine Nat.lt_of_lt_of_le (leNat_lt _) (Nat.pow_le_pow_right (by omega) ?_)
    exact List.length_take_le _ _
  · cases h

end Buffer

end FFSys.Lib
