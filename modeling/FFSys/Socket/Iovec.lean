import Mathlib.Data.List.Basic

/-!
# Buffer arrays: `ffiovec`

An `ffiovec` is a pointer and a length; here it is the bytes it stands for.  Only these two fields
differ between UNIX and Windows (`iov_base`/`iov_len`, `buf`/`len`), the functions are the same.

* `ffiovecShift`, `ffiovecArrayShift` — the functions.
* `ffiovecArrayShift_flatten`, `ffiovecArrayShift_ret` — what is left of the array, and what is
  returned.
* `ffiovecArrayShift_drops` — a shift drops bytes from the front, and two shifts are one.
-/

set_option autoImplicit false

namespace FFSys.Socket

/-- The bytes of a buffer that are not yet shifted out. -/
abbrev Iovec := List UInt8

/-- `ffiovec_shift()`: the buffer without its first `n` bytes, and the number of shifted bytes. -/
def ffiovecShift (iov : Iovec) (n : Nat) : Iovec × Nat :=
  let n := min n iov.length
  (iov.drop n, n)

/-- `ffiovec_array_shift()`: the array after the call and the returned value.  The loop ends at
    the first buffer that is not empty after its shift. -/
def ffiovecArrayShift : List Iovec → Nat → List Iovec × Nat
  | [], _ => ([], 0)
  | v :: iov, skip =>
    let (v', n) := ffiovecShift v skip
    if v'.length ≠ 0 then
      (v' :: iov, 1)
    else
      let (iov', r) := ffiovecArrayShift iov (skip - n)
      (v' :: iov', r)

/-- The first buffer keeps bytes: the loop ends there. -/
theorem ffiovecArrayShift_keep {v : Iovec} {skip : Nat} (iov : List Iovec) (h : skip < v.length) :
    ffiovecArrayShift (v :: iov) skip = (v.drop skip :: iov, 1) := by
  have hmin : min skip v.length = skip := by omega
  have hne : v.length - skip ≠ 0 := by omega
  simp [ffiovecArrayShift, ffiovecShift, hmin, hne]

/-- The first buffer is emptied, or was empty before: the loop goes on. -/
theorem ffiovecArrayShift_skip {v : Iovec} {skip : Nat} (iov : List Iovec) (h : v.length ≤ skip) :
    ffiovecArrayShift (v :: iov) skip =
      ([] :: (ffiovecArrayShift iov (skip - v.length)).1,
        (ffiovecArrayShift iov (skip - v.length)).2) := by
  simp [ffiovecArrayShift, ffiovecShift, h]

/-- **The shifted array is the old one without its first bytes.** -/
theorem ffiovecArrayShift_flatten : ∀ (iov : List Iovec) (skip : Nat),
    (ffiovecArrayShift iov skip).1.flatten = iov.flatten.drop skip
  | [], skip => by simp [ffiovecArrayShift]
  | v :: iov, skip => by
    rcases Nat.lt_or_ge skip v.length with h | h
    · rw [ffiovecArrayShift_keep iov h, List.flatten_cons, List.flatten_cons,
        List.drop_append_of_le_length (Nat.le_of_lt h)]
    · rw [ffiovecArrayShift_skip iov h, List.flatten_cons, List.flatten_cons, List.nil_append,
        ffiovecArrayShift_flatten iov, List.drop_append, List.drop_eq_nil_of_le h, List.nil_append]

/-- **The result says if there are bytes left.** -/
theorem ffiovecArrayShift_ret : ∀ (iov : List Iovec) (skip : Nat),
    (ffiovecArrayShift iov skip).2 = if skip < iov.flatten.length then 1 else 0
  | [], skip => by simp [ffiovecArrayShift]
  | v :: iov, skip => by
    rw [List.flatten_cons, List.length_append]
    rcases Nat.lt_or_ge skip v.length with h | h
    · have hlt : skip < v.length + iov.flatten.length := by omega
      rw [ffiovecArrayShift_keep iov h, if_pos hlt]
    · have hiff : skip - v.length < iov.flatten.length ↔
          skip < v.length + iov.flatten.length := by omega
      rw [ffiovecArrayShift_skip iov h, ffiovecArrayShift_ret iov]
      simp only [hiff]

/-- **A shift drops the first bytes of the array**, all of them if there are not more; it returns 1
    exactly if there are more.  Shifting by `a` and then by `b` is shifting by `a + b`. -/
theorem ffiovecArrayShift_drops (iov : List Iovec) (a b : Nat) :
    (ffiovecArrayShift iov a).1.flatten = iov.flatten.drop (min a iov.flatten.length) ∧
    ((ffiovecArrayShift iov a).2 = 1 ↔ a < iov.flatten.length) ∧
    (ffiovecArrayShift (ffiovecArrayShift iov a).1 b).1.flatten =
      (ffiovecArrayShift iov (a + b)).1.flatten ∧
    (ffiovecArrayShift (ffiovecArrayShift iov a).1 b).2 = (ffiovecArrayShift iov (a + b)).2 := by
  refine ⟨?_, ?_, ?_, ?_⟩
  · rw [ffiovecArrayShift_flatten]
    rcases Nat.le_total a iov.flatten.length with h | h
    · rw [Nat.min_eq_left h]
    · rw [Nat.min_eq_right h, List.drop_length, List.drop_eq_nil_of_le h]
  · rw [ffiovecArrayShift_ret]
    split
    · rename_i h
      exact iff_of_true rfl h
    · rename_i h
      exact iff_of_false (by decide) h
  · rw [ffiovecArrayShift_flatten, ffiovecArrayShift_flatten, ffiovecArrayShift_flatten, List.drop_drop]
  · have hiff : b < iov.flatten.length - a ↔ a + b < iov.flatten.length := by omega
    rw [ffiovecArrayShift_ret, ffiovecArrayShift_ret, ffiovecArrayShift_flatten, List.length_drop]
    simp only [hiff]

end FFSys.Socket
