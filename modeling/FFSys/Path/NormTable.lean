import Mathlib.Data.Nat.Bitwise
import FFSys.Path.Stack

/-!
# The component table of `ffpath_norm`

`normScan_eq`: the first loop of `ffpath_norm` builds, for the components
`c₀, c₁, …` of the source from offset `p` on, the entries `flag c | end of c`, and gives up
exactly when there are more than 254 of them.

`Table` collects what the second loop reads from those entries: the offset of a component, its
length, its kind, and the distance between two consecutive entries.
-/

set_option autoImplicit false

namespace FFSys.Path

/-! ## Entries -/

/-- Table flag of a component. -/
def compFlag (c : Comp) : Nat :=
  match kindOf c with
  | .dot => 0x1000
  | .dotdot => 0x2000
  | .name => 0

/-- The table entries of components that start at offset `p`. -/
def entries : Nat → List Comp → List Nat
  | _, [] => []
  | p, c :: cs => (compFlag c ||| (p + c.length)) :: entries (p + c.length + 1) cs

/-- The components of `src` from offset `p` on. -/
def compsFrom (win : Bool) (src : List Byte) (p : Nat) : List Comp :=
  (src.drop p).splitOnP (isSep win)

/-- Offset of component `j`, the first one starting at `p`. -/
def startOf (p : Nat) (cs : List Comp) (j : Nat) : Nat :=
  p + ((cs.take j).map (·.length + 1)).sum

@[simp] theorem startOf_zero (p : Nat) (cs : List Comp) : startOf p cs 0 = p := by
  simp [startOf]

theorem startOf_cons (p : Nat) (c : Comp) (cs : List Comp) (j : Nat) :
    startOf p (c :: cs) (j + 1) = startOf (p + c.length + 1) cs j := by
  simp [startOf]; omega

theorem startOf_succ {p : Nat} {cs : List Comp} {j : Nat} {c : Comp} (h : cs[j]? = some c) :
    startOf p cs (j + 1) = startOf p cs j + c.length + 1 := by
  simp [startOf, List.take_add_one, h]; omega

theorem entries_length (p : Nat) (cs : List Comp) : (entries p cs).length = cs.length := by
  induction cs generalizing p with
  | nil => rfl
  | cons c cs ih => simp [entries, ih]

theorem entries_getElem? {cs : List Comp} {j : Nat} {c : Comp} (p : Nat) (h : cs[j]? = some c) :
    (entries p cs)[j]? = some (compFlag c ||| (startOf p cs j + c.length)) := by
  induction cs generalizing p j with
  | nil => simp at h
  | cons d cs ih =>
    cases j with
    | zero =>
      simp only [List.getElem?_cons_zero, Option.some.injEq] at h
      subst h
      simp [entries]
    | succ j =>
      simp only [List.getElem?_cons_succ] at h
      rw [entries, List.getElem?_cons_succ, ih _ h, startOf_cons]

/-! ## The first loop -/

theorem findIdx_eq_length_of_splits {p : Byte → Bool} {c rest : List Byte} {b : Byte}
    (hc : ∀ x ∈ c, p x = false) (hb : p b = true) :
    (c ++ b :: rest).findIdx p = c.length := by
  rw [List.findIdx_append, List.findIdx_eq_length.mpr hc]
  simp [List.findIdx_cons, hb]

/-- A list either has no separator, or is its first component, a separator and the rest. -/
theorem split_cases (p : Byte → Bool) : ∀ l : List Byte,
    (∀ x ∈ l, p x = false) ∨
      ∃ c b rest, l = c ++ b :: rest ∧ (∀ x ∈ c, p x = false) ∧ p b = true
  | [] => Or.inl (by simp)
  | a :: l => by
    cases ha : p a with
    | true => exact Or.inr ⟨[], a, l, rfl, by simp, ha⟩
    | false =>
      rcases split_cases p l with h | ⟨c, b, rest, rfl, hc, hb⟩
      · exact Or.inl (by simpa [ha] using h)
      · exact Or.inr ⟨a :: c, b, rest, rfl, by simpa [ha] using hc, hb⟩

/-- The components from offset `p` on: only one, or one and those behind its separator. -/
theorem compsFrom_cases (win : Bool) {src : List Byte} {p : Nat} (hp : p ≤ src.length) :
    ((∀ x ∈ src.drop p, isSep win x = false) ∧ compsFrom win src p = [src.drop p]) ∨
      ∃ c b, src.drop p = c ++ b :: src.drop (p + c.length + 1) ∧
        (∀ x ∈ c, isSep win x = false) ∧ isSep win b = true ∧ p + c.length + 1 ≤ src.length ∧
        compsFrom win src p = c :: compsFrom win src (p + c.length + 1) := by
  rcases split_cases (isSep win) (src.drop p) with hno | ⟨c, b, rest, hsplit, hc, hb⟩
  · exact Or.inl ⟨hno, List.splitOnP_eq_singleton hno⟩
  · have hrest : src.drop (p + c.length + 1) = rest := by
      rw [show p + c.length + 1 = p + (c.length + 1) by omega, ← List.drop_drop, hsplit]
      simp
    have hl : src.length - p = c.length + 1 + rest.length := by
      have := congrArg List.length hsplit
      simp only [List.length_drop, List.length_append, List.length_cons] at this
      omega
    refine Or.inr ⟨c, b, by rw [hrest, hsplit], hc, hb, by omega, ?_⟩
    unfold compsFrom
    rw [hsplit, List.splitOnP_append_cons_of_forall_mem hc b hb, hrest]

theorem partFlag_eq (c : Comp) (tail : List Byte) :
    partFlag (c ++ tail) c.length = compFlag c := by
  unfold partFlag compFlag kindOf dotComp dotdotComp
  rcases c with _ | ⟨a, _ | ⟨b, _ | ⟨d, c⟩⟩⟩
  · simp
  · by_cases ha : a = DOT <;> simp [ha]
  · by_cases ha : a = DOT <;> by_cases hb : b = DOT <;> simp [ha, hb]
  · simp

/-- **The first loop builds the table of the components**, up to 254 of them. -/
theorem normScan_eq (win : Bool) (src : List Byte) :
    ∀ (fuel p : Nat) (parts : List Nat), p ≤ src.length → src.length - p < fuel →
      parts.length ≤ PARTS_COUNT →
      normScan win src fuel p parts =
        if parts.length + (compsFrom win src p).length ≤ PARTS_COUNT
        then some (parts ++ entries p (compsFrom win src p)) else none := by
  intro fuel
  induction fuel with
  | zero => intro p parts _ hf _; omega
  | succ fuel ih =>
    intro p parts hp hf hlen
    unfold normScan
    simp only
    rcases compsFrom_cases win hp with ⟨hno, hcs⟩ | ⟨c, b, hsplit, hc, hb, hle, hcs⟩
    · -- the last component
      have hidx : (src.drop p).findIdx (isSep win) = (src.drop p).length :=
        List.findIdx_eq_length.mpr hno
      have hflag := partFlag_eq (src.drop p) []
      rw [List.append_nil] at hflag
      have hend : p + (src.drop p).length + 1 > src.length := by
        rw [List.length_drop]; omega
      rw [hidx, hflag, hcs, if_pos hend]
      by_cases hfull : parts.length = PARTS_COUNT
      · rw [if_pos hfull, if_neg (by simp only [List.length_singleton]; omega)]
      · rw [if_neg hfull, if_pos (by simp only [List.length_singleton]; omega)]
        rfl
    · -- a component and its separator
      have hidx : (src.drop p).findIdx (isSep win) = c.length := by
        rw [hsplit]; exact findIdx_eq_length_of_splits hc hb
      have hflag : partFlag (src.drop p) c.length = compFlag c := by
        rw [hsplit]; exact partFlag_eq c _
      rw [hidx, hflag, hcs, if_neg (by omega : ¬ p + c.length + 1 > src.length)]
      by_cases hfull : parts.length = PARTS_COUNT
      · rw [if_pos hfull, if_neg (by simp only [List.length_cons]; omega)]
      · rw [if_neg hfull, ih _ _ hle (by omega) (by simp; omega)]
        simp [entries, Nat.add_assoc, Nat.add_comm 1]

/-! ## What the second loop reads -/

theorem and_mask {f e : Nat} (hf : f = 0x1000 ∨ f = 0x2000 ∨ f = 0) (he : e < 4096) :
    (f ||| e) &&& 0x0fff = e ∧ (f ||| e) &&& 0x1000 = f &&& 0x1000 ∧
      (f ||| e) &&& 0x2000 = f &&& 0x2000 := by
  have h12 : e &&& 0x1000 = 0 := by
    rw [show 0x1000 = 2 ^ 12 from rfl, Nat.and_two_pow, Nat.testBit_lt_two_pow (by omega)]
    rfl
  have h13 : e &&& 0x2000 = 0 := by
    rw [show 0x2000 = 2 ^ 13 from rfl, Nat.and_two_pow, Nat.testBit_lt_two_pow (by omega)]
    rfl
  have hlow : e &&& 0x0fff = e := by
    rw [show 0x0fff = 2 ^ 12 - 1 from rfl, Nat.and_two_pow_sub_one_eq_mod]
    omega
  simp only [Nat.and_or_distrib_right, h12, h13, hlow, Nat.or_zero, and_true]
  rcases hf with rfl | rfl | rfl <;> simp

theorem compFlag_cases (c : Comp) : compFlag c = 0x1000 ∨ compFlag c = 0x2000 ∨ compFlag c = 0 := by
  unfold compFlag
  cases kindOf c <;> simp

theorem compFlag_dot (c : Comp) : compFlag c &&& 0x1000 ≠ 0 ↔ kindOf c = .dot := by
  unfold compFlag
  cases kindOf c <;> simp

theorem compFlag_dotdot (c : Comp) : compFlag c &&& 0x2000 ≠ 0 ↔ kindOf c = .dotdot := by
  unfold compFlag
  cases kindOf c <;> simp

/-- The table of the components `cs` of `src`, the first of which starts at offset `p`. -/
structure Table (src : List Byte) (p : Nat) (cs : List Comp) (parts : List Nat) : Prop where
  eq : parts = p :: entries p cs
  p_lt : p < 4096
  fits : ∀ j c, cs[j]? = some c → startOf p cs j + c.length < 4096
  bytes : ∀ j c, cs[j]? = some c → (src.drop (startOf p cs j)).take c.length = c

variable {src : List Byte} {p : Nat} {cs : List Comp} {parts : List Nat}

theorem Table.length (T : Table src p cs parts) : parts.length = cs.length + 1 := by
  rw [T.eq, List.length_cons, entries_length]

theorem Table.getElem?_succ (T : Table src p cs parts) {j : Nat} {c : Comp} (h : cs[j]? = some c) :
    parts[j + 1]? = some (compFlag c ||| (startOf p cs j + c.length)) := by
  rw [T.eq, List.getElem?_cons_succ, entries_getElem? p h]

theorem Table.getElem?_zero (T : Table src p cs parts) : parts[0]? = some p := by
  rw [T.eq]; rfl

/-- The entry before component `j`, without its flag. -/
theorem Table.low_before (T : Table src p cs parts) {j : Nat} (hj : j ≤ cs.length) :
    ∃ q, parts[j]? = some q ∧
      (q &&& 0x0fff) + (if j = 0 then 0 else 1) = startOf p cs j := by
  cases j with
  | zero =>
    refine ⟨p, T.getElem?_zero, ?_⟩
    have := (and_mask (f := 0) (by simp) T.p_lt).1
    simpa using this
  | succ j =>
    have hget : cs[j]? = some cs[j] := List.getElem?_eq_getElem (by omega)
    refine ⟨_, T.getElem?_succ hget, ?_⟩
    rw [(and_mask (compFlag_cases _) (T.fits j _ hget)).1, startOf_succ hget]
    simp

/-- The entry of component `j`: its end and its kind. -/
theorem Table.entry (T : Table src p cs parts) {j : Nat} {c : Comp} (h : cs[j]? = some c) :
    ∃ q, parts[j + 1]? = some q ∧ q &&& 0x0fff = startOf p cs j + c.length ∧
      (q &&& 0x1000 ≠ 0 ↔ kindOf c = .dot) ∧ (q &&& 0x2000 ≠ 0 ↔ kindOf c = .dotdot) := by
  obtain ⟨hlow, h12, h13⟩ := and_mask (compFlag_cases c) (T.fits j c h)
  refine ⟨_, T.getElem?_succ h, hlow, ?_, ?_⟩
  · rw [h12]; exact compFlag_dot c
  · rw [h13]; exact compFlag_dotdot c

/-! ## The components as parts of the source -/

theorem compsFrom_bytes (win : Bool) (src : List Byte) :
    ∀ (n p : Nat), src.length - p ≤ n → p ≤ src.length → ∀ j c,
      (compsFrom win src p)[j]? = some c →
        (src.drop (startOf p (compsFrom win src p) j)).take c.length = c ∧
        startOf p (compsFrom win src p) j + c.length ≤ src.length ∧
        (∀ b ∈ c, isSep win b = false) := by
  intro n
  induction n with
  | zero =>
    intro p hn hp j c h
    have hd : src.drop p = [] := List.drop_eq_nil_of_le (by omega)
    simp only [compsFrom, hd, List.splitOnP_nil] at h ⊢
    rcases j with _ | j
    · simp only [List.getElem?_cons_zero, Option.some.injEq] at h
      subst h
      simp [hp]
    · simp at h
  | succ n ih =>
    intro p hn hp j c h
    rcases compsFrom_cases win hp with ⟨hno, hcs⟩ | ⟨d, b, hsplit, hd, _, hle, hcs⟩
    · rw [hcs] at h ⊢
      rcases j with _ | j
      · simp only [List.getElem?_cons_zero, Option.some.injEq] at h
        subst h
        refine ⟨by rw [startOf_zero, List.take_length], ?_, hno⟩
        rw [startOf_zero, List.length_drop]; omega
      · simp at h
    · rw [hcs] at h ⊢
      rcases j with _ | j
      · simp only [List.getElem?_cons_zero, Option.some.injEq] at h
        subst h
        rw [startOf_zero]
        exact ⟨by rw [hsplit, List.take_left], by omega, hd⟩
      · rw [List.getElem?_cons_succ] at h
        rw [startOf_cons]
        exact ih _ (by omega) (by omega) j c h

/-- The table of a source of at most 4095 bytes. -/
theorem table_of_comps (win : Bool) {src : List Byte} {p : Nat} (hp : p ≤ src.length)
    (hlen : src.length ≤ 4095) :
    Table src p (compsFrom win src p) (p :: entries p (compsFrom win src p)) := by
  refine ⟨rfl, by omega, fun j c h => ?_, fun j c h => ?_⟩
  · have := (compsFrom_bytes win src _ p (Nat.le_refl _) hp j c h).2.1
    omega
  · exact (compsFrom_bytes win src _ p (Nat.le_refl _) hp j c h).1

/-- The components take up the source and one more separator. -/
theorem startOf_compsFrom_length (win : Bool) (src : List Byte) :
    ∀ (n p : Nat), src.length - p ≤ n → p ≤ src.length →
      startOf p (compsFrom win src p) (compsFrom win src p).length = src.length + 1 := by
  intro n
  induction n with
  | zero =>
    intro p hn hp
    have hd : src.drop p = [] := List.drop_eq_nil_of_le (by omega)
    simp [compsFrom, hd, startOf]; omega
  | succ n ih =>
    intro p hn hp
    rcases compsFrom_cases win hp with ⟨_, hcs⟩ | ⟨d, b, _, _, _, hle, hcs⟩
    · rw [hcs]; simp [startOf]; omega
    · rw [hcs, List.length_cons, startOf_cons]
      exact ih _ (by omega) hle

end FFSys.Path
