import Mathlib.Algebra.Order.Ring.Nat

/-!
# Alarms

An alarm goes off at a time and then again after each interval, or once if the interval is 0.  A
system that keeps one holds the time of the next expiry and counts the ones that it has passed.

* `Alarm`, `Alarm.advance` — the alarm as it is kept, and the expiries up to a later time.
* `expiries` — how many there are up to a time, in closed form.
* `Alarm.On` — the alarm is the one that was set for `first`, as of now.
* `Alarm.advance_on` — it stays so, and the expiries that are counted add up to the closed form.
-/

set_option autoImplicit false

namespace FFSys.Lib

structure Alarm where
  next : Option Nat
  /-- 0: the alarm goes off once -/
  interval : Nat

/-- The alarm at the time `t`, and the expiries since the last time. -/
def Alarm.advance (a : Alarm) (t : Nat) : Alarm × Nat :=
  match a.next with
  | none => (a, 0)
  | some n =>
    if t < n then (a, 0)
    else if a.interval = 0 then (⟨none, 0⟩, 1)
    else
      let k := (t - n) / a.interval + 1
      (⟨some (n + k * a.interval), a.interval⟩, k)

/-- The expiries up to the time `t` of an alarm that is set for `first`. -/
def expiries (first interval t : Nat) : Nat :=
  if t < first then 0 else if interval = 0 then 1 else (t - first) / interval + 1

/-- The alarm was set for `first` and has counted the expiries up to `now`. -/
def Alarm.On (a : Alarm) (first interval now : Nat) : Prop :=
  a.interval = interval ∧
    a.next = if interval = 0 ∧ first ≤ now then none
      else some (first + expiries first interval now * interval)

theorem expiries_before {first interval t : Nat} (h : t < first) : expiries first interval t = 0 :=
  if_pos h

theorem expiries_once {first t : Nat} (h : first ≤ t) : expiries first 0 t = 1 := by
  unfold expiries
  rw [if_neg (by omega), if_pos rfl]

/-- Where the next expiry is. -/
theorem expiries_bounds (first : Nat) {interval : Nat} (hi : 0 < interval) (t : Nat) :
    t < first + expiries first interval t * interval ∧
      (0 < expiries first interval t → first + (expiries first interval t - 1) * interval ≤ t) := by
  unfold expiries
  by_cases ht : t < first
  · rw [if_pos ht]
    exact ⟨by omega, fun h => absurd h (by omega)⟩
  · rw [if_neg ht, if_neg (by omega), Nat.add_sub_cancel]
    have hdiv := Nat.div_add_mod (t - first) interval
    have hmod := Nat.mod_lt (t - first) hi
    rw [Nat.mul_comm] at hdiv
    rw [Nat.add_mul, Nat.one_mul]
    exact ⟨by omega, fun _ => by omega⟩

/-- The number of expiries is the one with the next of them in the future. -/
theorem expiries_unique {first interval t k : Nat} (hi : 0 < interval)
    (hlt : t < first + k * interval) (hle : 0 < k → first + (k - 1) * interval ≤ t) :
    expiries first interval t = k := by
  obtain ⟨h1, h2⟩ := expiries_bounds first hi t
  have hmono : ∀ a b : Nat, a < b → (a + 1) * interval ≤ b * interval :=
    fun a b hab => Nat.mul_le_mul_right interval hab
  by_contra hne
  rcases Nat.lt_or_gt_of_ne hne with h | h
  · have h3 := hle (by omega)
    have h4 := hmono _ (k - 1 + 1) (by omega : expiries first interval t < k - 1 + 1)
    have h5 : expiries first interval t * interval ≤ (k - 1) * interval :=
      Nat.mul_le_mul_right interval (by omega)
    omega
  · have h3 := h2 (by omega)
    have h5 : k * interval ≤ (expiries first interval t - 1) * interval :=
      Nat.mul_le_mul_right interval (by omega)
    omega

/-- An alarm that has just been set. -/
theorem Alarm.on_set (now after interval : Nat) (h : 0 < after) :
    Alarm.On ⟨some (now + after), interval⟩ (now + after) interval now := by
  refine ⟨rfl, ?_⟩
  rw [if_neg (by omega), expiries_before (by omega), Nat.zero_mul, Nat.add_zero]

/-- **The count is exact.** -/
theorem Alarm.advance_on {a : Alarm} {first interval now t : Nat} (h : a.On first interval now)
    (ht : now ≤ t) :
    (a.advance t).1.On first interval t ∧
      expiries first interval now + (a.advance t).2 = expiries first interval t := by
  obtain ⟨rfl, hnext⟩ := h
  by_cases h0 : a.interval = 0
  · by_cases hf : first ≤ now
    · rw [if_pos ⟨h0, hf⟩] at hnext
      have hadv : a.advance t = (a, 0) := by
        unfold Alarm.advance
        rw [hnext]
      rw [hadv]
      refine ⟨⟨rfl, ?_⟩, ?_⟩
      · rw [if_pos ⟨h0, by omega⟩, hnext]
      · rw [h0, expiries_once hf, expiries_once (by omega)]
        rfl
    · rw [if_neg (by omega), h0, Nat.mul_zero, Nat.add_zero] at hnext
      by_cases htf : t < first
      · have hadv : a.advance t = (a, 0) := by
          unfold Alarm.advance
          rw [hnext]
          exact if_pos htf
        rw [hadv]
        refine ⟨⟨rfl, ?_⟩, ?_⟩
        · rw [if_neg (by omega), hnext, h0, Nat.mul_zero, Nat.add_zero]
        · rw [expiries_before (by omega), expiries_before htf]
          rfl
      · have hadv : a.advance t = (⟨none, 0⟩, 1) := by
          unfold Alarm.advance
          rw [hnext]
          exact (if_neg htf).trans (if_pos h0)
        rw [hadv]
        refine ⟨⟨h0.symm, ?_⟩, ?_⟩
        · rw [if_pos ⟨h0, by omega⟩]
        · rw [h0, expiries_before (by omega), expiries_once (by omega)]
          rfl
  · have hpos : 0 < a.interval := Nat.pos_of_ne_zero h0
    rw [if_neg (by omega)] at hnext
    obtain ⟨hb1, hb2⟩ := expiries_bounds first hpos now
    by_cases htn : t < first + expiries first a.interval now * a.interval
    · have hadv : a.advance t = (a, 0) := by
        unfold Alarm.advance
        rw [hnext]
        exact if_pos htn
      have heq : expiries first a.interval t = expiries first a.interval now :=
        expiries_unique hpos htn fun hk => Nat.le_trans (hb2 hk) ht
      rw [hadv]
      refine ⟨⟨rfl, ?_⟩, heq.symm⟩
      rw [if_neg (by omega), hnext, heq]
    · obtain ⟨n, hn⟩ : ∃ n, n = first + expiries first a.interval now * a.interval := ⟨_, rfl⟩
      obtain ⟨k, hk⟩ : ∃ k, k = (t - n) / a.interval + 1 := ⟨_, rfl⟩
      have hadv : a.advance t = (⟨some (n + k * a.interval), a.interval⟩, k) := by
        unfold Alarm.advance
        rw [hnext, ← hn, hk]
        exact (if_neg (by omega)).trans (if_neg h0)
      have hdiv := Nat.div_add_mod (t - n) a.interval
      have hmod := Nat.mod_lt (t - n) hpos
      rw [Nat.mul_comm] at hdiv
      have hk1 : k * a.interval = (t - n) / a.interval * a.interval + a.interval := by
        rw [hk, Nat.add_mul, Nat.one_mul]
      have hsum : (expiries first a.interval now + k) * a.interval =
          expiries first a.interval now * a.interval + k * a.interval := Nat.add_mul ..
      have heq : expiries first a.interval t = expiries first a.interval now + k := by
        refine expiries_unique hpos (by omega) fun _ => ?_
        have hpred : (expiries first a.interval now + k - 1) * a.interval + a.interval =
            (expiries first a.interval now + k) * a.interval := by
          rw [← Nat.add_one_mul]
          congr 1
          omega
        omega
      rw [hadv]
      refine ⟨⟨rfl, ?_⟩, heq.symm⟩
      rw [if_neg (by omega), heq, hsum, hn, Nat.add_assoc]

end FFSys.Lib
