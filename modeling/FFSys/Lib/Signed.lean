import Mathlib.Algebra.Order.Ring.Nat

/-!
# Signed arithmetic

Sums and products of two's complement numbers.  An overflow has no defined result (`none`).

* `sadd`, `smul` — the operations; `sadd_eq_some`, `smul_eq_some` — their value if it is in range.
-/

set_option autoImplicit false

namespace FFSys.Lib

variable {w : Nat}

/-- The sum. -/
def sadd (x y : BitVec w) : Option (BitVec w) := if x.saddOverflow y then none else some (x + y)

/-- The product. -/
def smul (x y : BitVec w) : Option (BitVec w) := if x.smulOverflow y then none else some (x * y)

/-- The number has a representation of `w` bits. -/
def SignedRange (w : Nat) (z : Int) : Prop := -2 ^ (w - 1) ≤ z ∧ z < 2 ^ (w - 1)

theorem saddOverflow_iff (x y : BitVec w) :
    x.saddOverflow y = true ↔ ¬ SignedRange w (x.toInt + y.toInt) := by
  simp only [BitVec.saddOverflow, SignedRange, Bool.or_eq_true, decide_eq_true_eq]
  omega

theorem smulOverflow_iff (x y : BitVec w) :
    x.smulOverflow y = true ↔ ¬ SignedRange w (x.toInt * y.toInt) := by
  simp only [BitVec.smulOverflow, SignedRange, Bool.or_eq_true, decide_eq_true_eq]
  omega

/-- A sum in range. -/
theorem sadd_eq_some {x y : BitVec w} (h : SignedRange w (x.toInt + y.toInt)) :
    sadd x y = some (x + y) ∧ (x + y).toInt = x.toInt + y.toInt := by
  have hno : ¬ x.saddOverflow y = true := by
    rw [saddOverflow_iff, not_not]
    exact h
  exact ⟨if_neg hno, BitVec.toInt_add_of_not_saddOverflow hno⟩

/-- A product in range. -/
theorem smul_eq_some {x y : BitVec w} (h : SignedRange w (x.toInt * y.toInt)) :
    smul x y = some (x * y) ∧ (x * y).toInt = x.toInt * y.toInt := by
  have hno : ¬ x.smulOverflow y = true := by
    rw [smulOverflow_iff, not_not]
    exact h
  exact ⟨if_neg hno, BitVec.toInt_mul_of_not_smulOverflow hno⟩

end FFSys.Lib
