import Mathlib.Data.BitVec

/-!
# Circular comparison of fixed-width counters

A counter of `w` bits goes round.  The signed difference `(x - y).toInt` compares two counter
values correctly as long as they lie less than half a turn apart:

* `toInt_sub_of_near` — with respect to a common origin `o` from which both are less than half a
  turn away;
* `toInt_ofInt_sub` — with respect to the unbounded integers of which they are the residues.

Without such an assumption there is still an order of urgency with respect to one value `now`:
`lateness now x` is 0 if `x` is after `now` by the signed difference, and counts how far `x` lies
behind `now` otherwise.  By `lateness_add_lt` it decreases with every step that `x` makes forward.
-/

set_option autoImplicit false

namespace FFSys.Lib

variable {w : Nat}

/-- `x` is less than half a turn after `o`. -/
def Near (o x : BitVec w) : Prop := 2 * (x - o).toNat < 2 ^ w

instance (o x : BitVec w) : Decidable (Near o x) := inferInstanceAs (Decidable (_ < _))

theorem toInt_sub_of_near {o x y : BitVec w} (hx : Near o x) (hy : Near o y) :
    (y - x).toInt = ((y - o).toNat : Int) - (x - o).toNat := by
  unfold Near at hx hy
  have hdiff : y - x = (y - o) - (x - o) := by
    exact (sub_sub_sub_cancel_right y x o).symm
  rw [hdiff, BitVec.toInt_sub, BitVec.toInt_eq_toNat_of_lt hx, BitVec.toInt_eq_toNat_of_lt hy]
  apply Int.bmod_eq_of_le_mul_two <;> omega

theorem toInt_ofInt_sub {a b : Int} (h1 : -(2 ^ w : Nat) ≤ (a - b) * 2) (h2 : (a - b) * 2 < (2 ^ w : Nat)) :
    (BitVec.ofInt w a - BitVec.ofInt w b).toInt = a - b := by
  rw [BitVec.toInt_sub, BitVec.toInt_ofInt, BitVec.toInt_ofInt, Int.sub_bmod_bmod, Int.bmod_sub_bmod]
  exact Int.bmod_eq_of_le_mul_two h1 h2

/-- Integers in a window shorter than half a turn have residues near that of its beginning. -/
theorem near_ofInt {a o : Int} (h1 : o ≤ a) (h2 : (a - o) * 2 < (2 ^ w : Nat)) :
    Near (BitVec.ofInt w o) (BitVec.ofInt w a) := by
  have h := toInt_ofInt_sub (w := w) (a := a) (b := o) (by omega) h2
  have hlt := (BitVec.ofInt w a - BitVec.ofInt w o).isLt
  unfold Near
  rw [BitVec.toInt_eq_toNat_cond] at h
  split at h
  · omega
  · omega

/-! ## Lateness -/

/-- How far `x` lies behind `now`, plus 1; 0 if `x` is after `now`. -/
def lateness (now x : BitVec w) : Nat := if 0 < (x - now).toInt then 0 else (now - x).toNat + 1

theorem lateness_of_after {now x : BitVec w} (h : 0 < (x - now).toInt) : lateness now x = 0 := if_pos h

theorem lateness_of_not_after {now x : BitVec w} (h : (x - now).toInt ≤ 0) :
    lateness now x = (now - x).toNat + 1 := if_neg (Int.not_lt.mpr h)

theorem toInt_sub_pos_iff {now x : BitVec w} : 0 < (x - now).toInt ↔ 2 ^ w < 2 * (now - x).toNat := by
  have hlt := (now - x).isLt
  have hneg : x - now = -(now - x) := (neg_sub now x).symm
  rw [hneg, BitVec.toInt_eq_toNat_cond, BitVec.toNat_neg]
  by_cases h0 : (now - x).toNat = 0
  · rw [h0, Nat.sub_zero, Nat.mod_self]
    split <;> omega
  · rw [Nat.mod_eq_of_lt (by omega)]
    split <;> omega

/-- A step forward of less than half a turn either catches up with `now` or leaves `x` less late. -/
theorem lateness_add_lt {now x d : BitVec w} (hx : (x - now).toInt ≤ 0) (hd : 0 < d.toInt) :
    lateness now (x + d) < lateness now x := by
  have hsub : now - (x + d) = now - x - d := (sub_sub now x d).symm
  have hto := BitVec.toNat_sub (now - x) d
  have hl := (now - x).isLt
  have hlate : ¬ 2 ^ w < 2 * (now - x).toNat := by
    rw [← toInt_sub_pos_iff]
    exact Int.not_lt.mpr hx
  have hstep : 0 < d.toNat ∧ 2 * d.toNat < 2 ^ w := by
    have := d.isLt
    rw [BitVec.toInt_eq_toNat_cond] at hd
    split at hd <;> omega
  rw [lateness_of_not_after hx]
  by_cases hafter : 0 < (x + d - now).toInt
  · rw [lateness_of_after hafter]
    omega
  · rw [lateness_of_not_after (Int.not_lt.mp hafter), hsub]
    rw [toInt_sub_pos_iff, hsub] at hafter
    -- a step longer than the lateness would lead past `now`
    by_cases hlong : (now - x).toNat < d.toNat
    · rw [Nat.mod_eq_of_lt (by omega)] at hto
      omega
    · have heq : 2 ^ w - d.toNat + (now - x).toNat = (now - x).toNat - d.toNat + 2 ^ w := by omega
      rw [heq, Nat.add_mod_right, Nat.mod_eq_of_lt (by omega)] at hto
      omega

end FFSys.Lib
