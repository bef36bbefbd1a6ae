import FFSys.Dirscan.Scan
import Mathlib.Data.List.Sort

/-!
# The order of file names

`_ffdirscan_filename_cmpz` compares without case; of two names that are then the same, the last
difference in case decides, the lower-case one first.

* `cmpLoop_swap`, `cmpLoop_trans` — by induction on the names, for every `first_diff` that the loop
  may have got to.
* `cmpLoop_zero_iff` — only a name and itself are equal.
* `cmpLoop_lastDiff`, `filenameCmpz_tie_iff` — which difference in case decides.
* `cmpname_consistent` — so the comparison of offsets is one that `ffsort` can be used with.
* `insertionFfsort` — a sort for which the assumptions of `Ffsort` hold.
-/

set_option autoImplicit false

namespace FFSys.Dirscan

/-! ## Characters -/

/-- A capital letter and its lower-case letter are 32 apart. -/
theorem lowered_cases (c : Byte) :
    (lowered c = c.toNat + 32 ∧ 0x41 ≤ c.toNat ∧ c.toNat ≤ 0x5a) ∨
      (lowered c = c.toNat ∧ ¬ (0x41 ≤ c.toNat ∧ c.toNat ≤ 0x5a)) := by
  have hor : ∀ n ≤ 0x5a, 0x41 ≤ n → n ||| 0x20 = n + 32 := by decide
  unfold lowered
  split
  · rename_i h
    exact .inl ⟨hor _ h.2 h.1, h⟩
  · rename_i h
    exact .inr ⟨rfl, h⟩

/-- Of three characters that differ only in case, two are the same. -/
theorem lowered_two {x y z : Byte} (hxy : lowered x = lowered y) (hyz : lowered y = lowered z)
    (hne : x ≠ y) (hne' : y ≠ z) : x = z := by
  have hx : x.toNat ≠ y.toNat := fun h => hne (UInt8.toNat_inj.mp h)
  have hz : y.toNat ≠ z.toNat := fun h => hne' (UInt8.toNat_inj.mp h)
  apply UInt8.toNat_inj.mp
  rcases lowered_cases x with hcx | hcx <;> rcases lowered_cases y with hcy | hcy <;>
    rcases lowered_cases z with hcz | hcz <;> omega

theorem caseDiff_swap {x y : Byte} (hne : x ≠ y) : caseDiff y x = -caseDiff x y := by
  have hval : charVal x ≠ charVal y := by
    have hx := x.toNat_lt
    have hy := y.toNat_lt
    have hnat : x.toNat ≠ y.toNat := fun h => hne (UInt8.toNat_inj.mp h)
    unfold charVal
    split <;> split <;> omega
  unfold caseDiff
  split <;> split <;> omega

theorem caseDiff_ne_zero (x y : Byte) : caseDiff x y ≠ 0 := by
  unfold caseDiff
  split <;> decide

/-- `first_diff` after two characters. -/
def nextDiff (firstDiff : Int) (x y : Byte) : Int := if x = y then firstDiff else caseDiff x y

theorem nextDiff_swap (d : Int) (x y : Byte) : nextDiff (-d) y x = -nextDiff d x y := by
  unfold nextDiff
  by_cases h : x = y
  · rw [if_pos h, if_pos h.symm]
  · rw [if_neg h, if_neg (Ne.symm h), caseDiff_swap h]

theorem nextDiff_trans {d₁ d₂ d₃ : Int} {x y z : Byte} (hxy : lowered x = lowered y)
    (hyz : lowered y = lowered z) (hd : d₁ ≤ 0 → d₂ ≤ 0 → d₃ ≤ 0) :
    nextDiff d₁ x y ≤ 0 → nextDiff d₂ y z ≤ 0 → nextDiff d₃ x z ≤ 0 := by
  unfold nextDiff
  intro h₁ h₂
  by_cases hx : x = y
  · subst hx
    rw [if_pos rfl] at h₁
    split at h₂
    · rename_i h
      rw [if_pos h]
      exact hd h₁ h₂
    · rename_i h
      rw [if_neg h]
      exact h₂
  · rw [if_neg hx] at h₁
    by_cases hz : y = z
    · subst hz
      rw [if_neg hx]
      exact h₁
    · -- `x` and `z` are the same: the two differences have opposite signs
      have hxz := lowered_two hxy hyz hx hz
      subst hxz
      rw [if_neg hz, caseDiff_swap hx] at h₂
      have hne := caseDiff_ne_zero x y
      omega

/-! ## Names -/

section Loop

variable {d : Int} {x y : Byte} {a b : List Byte}

theorem cmpLoop_nil_cons : cmpLoop d [] (y :: b) = -1 := rfl

theorem cmpLoop_cons_nil : cmpLoop d (x :: a) [] = 1 := rfl

theorem cmpLoop_lt (h : lowered x < lowered y) : cmpLoop d (x :: a) (y :: b) = -1 := by
  have hne : x ≠ y := by
    rintro rfl
    omega
  rw [cmpLoop, if_pos hne, if_pos h]

theorem cmpLoop_gt (h : lowered y < lowered x) : cmpLoop d (x :: a) (y :: b) = 1 := by
  have hne : x ≠ y := by
    rintro rfl
    omega
  rw [cmpLoop, if_pos hne, if_neg (by omega), if_pos h]

theorem cmpLoop_eq (h : lowered x = lowered y) :
    cmpLoop d (x :: a) (y :: b) = cmpLoop (nextDiff d x y) a b := by
  rw [cmpLoop, nextDiff]
  by_cases hne : x = y
  · rw [if_neg (not_not.mpr hne), if_pos hne]
  · rw [if_pos hne, if_neg (by omega), if_neg (by omega), if_neg hne]

end Loop

theorem cmpLoop_swap (a : List Byte) :
    ∀ (b : List Byte) (d : Int), cmpLoop (-d) b a = -cmpLoop d a b := by
  induction a with
  | nil =>
    intro b d
    cases b <;> rfl
  | cons x a ih =>
    intro b d
    cases b with
    | nil => rfl
    | cons y b =>
      rcases Nat.lt_trichotomy (lowered x) (lowered y) with h | h | h
      · rw [cmpLoop_lt h, cmpLoop_gt h]
        rfl
      · rw [cmpLoop_eq h, cmpLoop_eq h.symm, nextDiff_swap, ih]
      · rw [cmpLoop_gt h, cmpLoop_lt h]

theorem cmpLoop_trans (a : List Byte) :
    ∀ (b c : List Byte) (d₁ d₂ d₃ : Int), (d₁ ≤ 0 → d₂ ≤ 0 → d₃ ≤ 0) →
      cmpLoop d₁ a b ≤ 0 → cmpLoop d₂ b c ≤ 0 → cmpLoop d₃ a c ≤ 0 := by
  induction a with
  | nil =>
    intro b c d₁ d₂ d₃ hd h₁ h₂
    cases c with
    | nil =>
      cases b with
      | nil => exact hd h₁ h₂
      | cons y b =>
        rw [cmpLoop_cons_nil] at h₂
        omega
    | cons z c =>
      rw [cmpLoop_nil_cons]
      decide
  | cons x a ih =>
    intro b c d₁ d₂ d₃ hd h₁ h₂
    cases b with
    | nil =>
      rw [cmpLoop_cons_nil] at h₁
      omega
    | cons y b =>
      cases c with
      | nil =>
        rw [cmpLoop_cons_nil] at h₂
        omega
      | cons z c =>
        have hxy : lowered x ≤ lowered y := by
          apply Nat.not_lt.mp
          intro h
          rw [cmpLoop_gt h] at h₁
          omega
        have hyz : lowered y ≤ lowered z := by
          apply Nat.not_lt.mp
          intro h
          rw [cmpLoop_gt h] at h₂
          omega
        by_cases hlt : lowered x < lowered z
        · rw [cmpLoop_lt hlt]
          decide
        · have hxy' : lowered x = lowered y := by omega
          have hyz' : lowered y = lowered z := by omega
          rw [cmpLoop_eq hxy'] at h₁
          rw [cmpLoop_eq hyz'] at h₂
          rw [cmpLoop_eq (hxy'.trans hyz')]
          exact ih b c _ _ _ (nextDiff_trans hxy' hyz' hd) h₁ h₂

theorem nextDiff_eq_zero_iff (d : Int) (x y : Byte) : nextDiff d x y = 0 ↔ d = 0 ∧ x = y := by
  unfold nextDiff
  split
  · rename_i h
    exact ⟨fun hd => ⟨hd, h⟩, fun hd => hd.1⟩
  · rename_i h
    exact ⟨fun hd => absurd hd (caseDiff_ne_zero x y), fun hd => absurd hd.2 h⟩

theorem cmpLoop_zero_iff (a : List Byte) :
    ∀ (b : List Byte) (d : Int), cmpLoop d a b = 0 ↔ d = 0 ∧ a = b := by
  induction a with
  | nil =>
    intro b d
    cases b with
    | nil => simp [cmpLoop]
    | cons y b => simp [cmpLoop_nil_cons]
  | cons x a ih =>
    intro b d
    cases b with
    | nil => simp [cmpLoop_cons_nil]
    | cons y b =>
      rw [List.cons_eq_cons]
      rcases Nat.lt_trichotomy (lowered x) (lowered y) with h | h | h
      · have hne : x ≠ y := by
          rintro rfl
          omega
        simp [cmpLoop_lt h, hne]
      · rw [cmpLoop_eq h, ih, nextDiff_eq_zero_iff, and_assoc]
      · have hne : x ≠ y := by
          rintro rfl
          omega
        simp [cmpLoop_gt h, hne]

theorem filenameCmpz_eq_zero_iff (a b : List Byte) : ffdirscanFilenameCmpz a b = 0 ↔ a = b := by
  rw [ffdirscanFilenameCmpz, cmpLoop_zero_iff]
  exact and_iff_right rfl

/-! ## The tie-break -/

/-- The position `i` is the first one where the names differ. -/
def FirstDiff (a b : List Byte) (i : Nat) : Prop := a[i]? ≠ b[i]? ∧ ∀ k < i, a[k]? = b[k]?

/-- The position `i` is the last one where the names differ. -/
def LastDiff (a b : List Byte) (i : Nat) : Prop := a[i]? ≠ b[i]? ∧ ∀ k, i < k → a[k]? = b[k]?

/-- The name has a lower-case letter at `i`. -/
def LowerAt (a : List Byte) (i : Nat) : Prop := ∃ c, a[i]? = some c ∧ 0x61 ≤ c.toNat ∧ c.toNat ≤ 0x7a

theorem exists_diff {a b : List Byte} (h : a ≠ b) : ∃ i : Nat, a[i]? ≠ b[i]? := by
  by_contra hno
  apply h
  apply List.ext_getElem?
  intro i
  by_contra hi
  exact hno ⟨i, hi⟩

theorem exists_lastDiff {a b : List Byte} (h : a ≠ b) : ∃ i, LastDiff a b i := by
  obtain ⟨i, hi⟩ := exists_diff h
  -- no difference is past both ends
  have hbound : ∀ k, a[k]? ≠ b[k]? → k ≤ max a.length b.length := by
    intro k hk
    by_contra hgt
    apply hk
    rw [List.getElem?_eq_none (by omega), List.getElem?_eq_none (by omega)]
  refine ⟨Nat.findGreatest (fun k => a[k]? ≠ b[k]?) (max a.length b.length),
    Nat.findGreatest_spec (P := fun k => a[k]? ≠ b[k]?) (hbound i hi) hi, ?_⟩
  intro k hk
  by_contra hne
  exact Nat.findGreatest_is_greatest hk (hbound k hne) hne

/-- Of two characters that differ only in case, the lower-case one comes first. -/
theorem caseDiff_neg_iff {x y : Byte} (hxy : lowered x = lowered y) (hne : x ≠ y) :
    caseDiff x y < 0 ↔ 0x61 ≤ x.toNat ∧ x.toNat ≤ 0x7a := by
  have hnat : x.toNat ≠ y.toNat := fun h => hne (UInt8.toNat_inj.mp h)
  have hx := lowered_cases x
  have hy := lowered_cases y
  unfold caseDiff charVal
  split <;> split at * <;> split at * <;> omega

theorem cmpLoop_self (a : List Byte) : ∀ d : Int, cmpLoop d a a = d := by
  induction a with
  | nil =>
    intro d
    rfl
  | cons x a ih =>
    intro d
    rw [cmpLoop_eq rfl, ih, nextDiff, if_pos rfl]

/-- **The last difference decides**, whatever `first_diff` was before. -/
theorem cmpLoop_lastDiff (a : List Byte) : ∀ (b : List Byte) (d : Int) (j : Nat),
    a.map lowered = b.map lowered → LastDiff a b j → (cmpLoop d a b < 0 ↔ LowerAt a j) := by
  induction a with
  | nil =>
    intro b d j hfold hlast
    have hb : b = [] := by simpa using hfold.symm
    subst hb
    exact absurd rfl hlast.1
  | cons x a ih =>
    intro b d j hfold hlast
    cases b with
    | nil => simp at hfold
    | cons y b =>
      rw [List.map_cons, List.map_cons, List.cons_eq_cons] at hfold
      rw [cmpLoop_eq hfold.1]
      cases j with
      | zero =>
        have hne : x ≠ y := by
          rintro rfl
          exact hlast.1 rfl
        have htail : a = b := by
          apply List.ext_getElem?
          intro k
          simpa using hlast.2 (k + 1) (by omega)
        subst htail
        rw [cmpLoop_self, nextDiff, if_neg hne, caseDiff_neg_iff hfold.1 hne]
        simp [LowerAt]
      | succ j =>
        have hlast' : LastDiff a b j := by
          refine ⟨?_, ?_⟩
          · simpa using hlast.1
          · intro k hk
            simpa using hlast.2 (k + 1) (by omega)
        rw [ih b _ j hfold.2 hlast']
        simp [LowerAt]

/-- **The first difference in case decides exactly if the last one goes the same way.**  The names
    are the same without case. -/
theorem filenameCmpz_tie_iff (a b : List Byte) (hne : a ≠ b) (hfold : a.map lowered = b.map lowered) :
    (∀ i, FirstDiff a b i → (ffdirscanFilenameCmpz a b < 0 ↔ LowerAt a i)) ↔
      ∀ i j, FirstDiff a b i → LastDiff a b j → (LowerAt a i ↔ LowerAt a j) := by
  refine ⟨?_, ?_⟩
  · intro h i j hi hj
    rw [← h i hi]
    exact cmpLoop_lastDiff a b 0 j hfold hj
  · intro h i hi
    obtain ⟨j, hj⟩ := exists_lastDiff hne
    rw [h i j hi hj]
    exact cmpLoop_lastDiff a b 0 j hfold hj

/-- `"aB"` and `"Ab"`: the first difference says that `"aB"` comes first, and it does not. -/
theorem filenameCmpz_tie_wrong :
    [0x61, 0x42].map lowered = [0x41, 0x62].map lowered ∧ FirstDiff [0x61, 0x42] [0x41, 0x62] 0 ∧
      LowerAt [0x61, 0x42] 0 ∧ ¬ ffdirscanFilenameCmpz [0x61, 0x42] [0x41, 0x62] < 0 := by
  refine ⟨by decide, ⟨by decide, ?_⟩, ⟨0x61, rfl, by decide, by decide⟩, by decide⟩
  intro k hk
  omega

/-- `"aBc"` and `"AbC"`: the first and the last of three differences say the same. -/
theorem filenameCmpz_tie_iff_three :
    FirstDiff [0x61, 0x42, 0x63] [0x41, 0x62, 0x43] 0 ∧ LastDiff [0x61, 0x42, 0x63] [0x41, 0x62, 0x43] 2 ∧
      (ffdirscanFilenameCmpz [0x61, 0x42, 0x63] [0x41, 0x62, 0x43] < 0 ↔
        LowerAt [0x61, 0x42, 0x63] 0) := by
  have hfirst : FirstDiff [0x61, 0x42, 0x63] [0x41, 0x62, 0x43] 0 :=
    ⟨by decide, fun _ hk => absurd hk (Nat.not_lt_zero _)⟩
  have hlast : LastDiff [0x61, 0x42, 0x63] [0x41, 0x62, 0x43] 2 := by
    refine ⟨by decide, ?_⟩
    intro k hk
    rw [List.getElem?_eq_none (Nat.succ_le_of_lt hk), List.getElem?_eq_none (Nat.succ_le_of_lt hk)]
  refine ⟨hfirst, hlast, ?_⟩
  apply (filenameCmpz_tie_iff [0x61, 0x42, 0x63] [0x41, 0x62, 0x43] (by decide) (by decide)).mpr ?_ 0 hfirst
  intro i j hi hj
  have hi0 : i = 0 := by
    by_contra hne
    exact absurd (hi.2 0 (by omega)) (by decide)
  have hj2 : j = 2 := by
    rcases Nat.lt_trichotomy j 2 with hlt | heq | hgt
    · exact absurd (hj.2 2 hlt) (by decide)
    · exact heq
    · exact absurd (hlast.2 j hgt) hj.1
  subst hi0 hj2
  exact iff_of_true ⟨0x61, rfl, by decide, by decide⟩ ⟨0x63, rfl, by decide, by decide⟩

theorem filenameCmpz_consistent : Consistent ffdirscanFilenameCmpz where
  swap a b := cmpLoop_swap a b 0
  trans a b c := cmpLoop_trans a b c 0 0 0 fun h _ => h

/-- **The comparison that is given to `ffsort` is consistent.** -/
theorem cmpname_consistent (buf : List Byte) : Consistent (ffdirscanCmpname buf) where
  swap _ _ := filenameCmpz_consistent.swap _ _
  trans _ _ _ := filenameCmpz_consistent.trans _ _ _

/-! ## A sort -/

theorem Consistent.total {α : Type} {cmp : α → α → Int} (h : Consistent cmp) (a b : α) :
    cmp a b ≤ 0 ∨ cmp b a ≤ 0 := by
  have hswap := h.swap a b
  omega

/-- Insertion sort. -/
def insertionFfsort : Ffsort where
  sort cmp l := l.insertionSort fun a b => cmp a b ≤ 0
  perm cmp l _ := List.perm_insertionSort _ l
  sorted cmp l h := by
    have htotal : Std.Total fun a b => cmp a b ≤ 0 := ⟨h.total⟩
    have htrans : IsTrans (BitVec 32) fun a b => cmp a b ≤ 0 := ⟨h.trans⟩
    exact List.pairwise_insertionSort _ l

end FFSys.Dirscan
