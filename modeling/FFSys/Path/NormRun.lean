import FFSys.Path.NormStack

/-!
# `ffpath_norm` from the root to the result

`rootOf` is the root of a path and `compsOf` the components behind it.  An input is rejected
before the second loop (`normRun_tooLarge`) or handed to it with the table of its components
(`normRun_loop`).  `normRun_aligned`: if the table is exact at every `".."`, `ffpath_norm` returns
what the component stack gives under the same limits.
-/

set_option autoImplicit false

namespace FFSys.Path

open FFSys.Lib

/-! ## The root -/

/-- The root of a path and the number of source bytes it stands for. -/
def rootOf (win : Bool) (src : List Byte) : List Byte × Nat :=
  if win then
    if isDosPath src then
      ([src.getD 0 0 &&& 0xdf, COLON, BACKSLASH], 2 + if (src[2]?).any (isSep true) then 1 else 0)
    else if (src[0]?).any (isSep true) then ([BACKSLASH], 1)
    else ([], 0)
  else if src[0]? = some SLASH then ([SLASH], 1)
  else ([], 0)

/-- The components behind the root. -/
def compsOf (win : Bool) (src : List Byte) : List Comp := compsFrom win src (rootOf win src).2

/-- The limits `ffpath_norm` is subject to. -/
def normLimits (win strict : Bool) (cap : Nat) (src : List Byte) : Limits :=
  ⟨strict, cap, (rootOf win src).1, slashOf win⟩

/-- The table of `src` is exact at every `".."`. -/
def NormAligned (win strict : Bool) (cap : Nat) (src : List Byte) : Prop :=
  Aligned (normLimits win strict cap src) (compsOf win src)

instance (win strict : Bool) (cap : Nat) (src : List Byte) :
    Decidable (NormAligned win strict cap src) :=
  inferInstanceAs (Decidable (Aligned _ _))

/-- More than 4095 bytes or more than 254 components. -/
def TooLarge (win : Bool) (src : List Byte) : Prop :=
  4095 < src.length ∨ 254 < (compsOf win src).length

instance (win : Bool) (src : List Byte) : Decidable (TooLarge win src) :=
  inferInstanceAs (Decidable (_ ∨ _))

theorem normRoot_eq (win : Bool) (cap : Nat) (src : List Byte) :
    normRoot win cap src =
      if win = true ∧ isDosPath src = true ∧ cap < 3 then none else some (rootOf win src) := by
  unfold normRoot rootOf
  cases win with
  | false => simp; split <;> rfl
  | true =>
    by_cases hd : isDosPath src = true
    · by_cases hc : 3 > cap <;> simp [hd, hc]
    · by_cases hs : (src[0]?).any (isSep true) = true <;> simp [hd, hs]

theorem isDosPath_spec {src : List Byte} (h : isDosPath src = true) :
    ∃ a rest, src = a :: COLON :: rest ∧ 0x41 ≤ a &&& 0xdf ∧ a &&& 0xdf ≤ 0x5a := by
  unfold isDosPath at h
  split at h
  · rename_i a d rest
    simp only [Bool.and_eq_true, decide_eq_true_eq, beq_iff_eq] at h
    exact ⟨a, rest, by rw [h.2], h.1.1, h.1.2⟩
  · cases h

/-- The root is empty, the separator, or a drive letter with `":"` and the separator. -/
theorem rootOf_cases (win : Bool) (src : List Byte) :
    ((rootOf win src).1 = [] ∨ (rootOf win src).1 = [slashOf win] ∨
      ∃ a, a ≠ slashOf win ∧ a ≠ DOT ∧ (rootOf win src).1 = [a, COLON, slashOf win]) ∧
    (rootOf win src).2 ≤ src.length := by
  unfold rootOf
  cases win with
  | false =>
    by_cases h : src[0]? = some SLASH
    · have : 0 < src.length := (List.getElem?_eq_some_iff.mp h).1
      simp [h, slashOf]; omega
    · simp [h]
  | true =>
    by_cases hd : isDosPath src = true
    · obtain ⟨a, rest, rfl, ha1, ha2⟩ := isDosPath_spec hd
      simp only [hd, if_true]
      refine ⟨Or.inr (Or.inr ⟨a &&& 0xdf, ?_, ?_, rfl⟩), ?_⟩
      · intro he
        rw [he] at ha2
        exact absurd ha2 (by decide)
      · intro he
        rw [he] at ha1
        exact absurd ha1 (by decide)
      · cases rest with
        | nil => simp
        | cons b rest => simp; split <;> omega
    · simp only [hd]
      by_cases hs : (src[0]?).any (isSep true) = true
      · cases src with
        | nil => simp at hs
        | cons b src =>
          simp only [hs, if_true, Bool.false_eq_true, if_false]
          exact ⟨Or.inr (Or.inl rfl), by simp⟩
      · simp [hs]

theorem rootOf_length_le (win : Bool) (src : List Byte) : (rootOf win src).1.length ≤ 3 := by
  rcases (rootOf_cases win src).1 with h | h | ⟨a, _, _, h⟩ <;> rw [h] <;> simp

/-! ## A run on an exact table -/

theorem outBytes_eq {cap rootLen : Nat} {s : NormSt} {out : List Byte} (B : Buf cap rootLen s out) :
    outBytes s out.length = out := by
  apply List.ext_getElem
  · simp [outBytes]
  · intro i h1 h2
    simp only [outBytes, List.getElem_map, List.getElem_range]
    exact B.dst_eq i _ (List.getElem?_eq_getElem h2)

section Run

variable {win strict : Bool} {dst : Nat → Byte} {cap : Nat} {src : List Byte}

/-- The state in which the root is written and the loops have not begun. -/
def rootSt (win : Bool) (dst : Nat → Byte) (src : List Byte) : NormSt :=
  ((NormSt.mk 0 0 dst [] []).move 0 (rootOf win src).1).addK (rootOf win src).1.length

/-- The configuration of the second loop. -/
def normCfg (win strict : Bool) (cap : Nat) (src : List Byte) : NormCfg :=
  ⟨strict, slashOf win, cap, src, (rootOf win src).2 :: entries (rootOf win src).2 (compsOf win src),
    (rootSt win (fun _ => 0) src).k⟩

theorem rootSt_k (win : Bool) (dst : Nat → Byte) (src : List Byte) :
    (rootSt win dst src).k = BitVec.ofNat 32 (rootOf win src).1.length := by
  simp [rootSt, NormSt.addK, move_k]

/-- Inputs rejected before the second loop. -/
theorem normRun_tooLarge (hpt : (win && isPassThrough src) = false)
    (hroot : ¬ (win = true ∧ isDosPath src = true ∧ cap < 3)) (hl : TooLarge win src) :
    normRun win strict dst cap src = (.ret (-1), rootSt win dst src) := by
  unfold normRun
  simp only [hpt, Bool.false_eq_true, if_false, normRoot_eq, if_neg hroot]
  rcases hl with hl | hl
  · rw [if_pos hl]; rfl
  · by_cases h : src.length > 4095
    · rw [if_pos h]; rfl
    · rw [if_neg h, normScan_eq win src _ _ _ (rootOf_cases win src).2 (by omega) (by simp [PARTS_COUNT]),
        if_neg (by
          simp only [compsOf] at hl
          simp only [List.length_singleton, PARTS_COUNT]
          omega)]
      rfl

/-- An admissible input is handed to the second loop with its table. -/
theorem normRun_loop (hpt : (win && isPassThrough src) = false)
    (hroot : ¬ (win = true ∧ isDosPath src = true ∧ cap < 3)) (hl : ¬ TooLarge win src) :
    normRun win strict dst cap src =
      normLoop (normCfg win strict cap src) (compsOf win src).length 1 (rootSt win dst src) := by
  simp only [TooLarge, not_or, Nat.not_lt] at hl
  have hcount := hl.2
  simp only [compsOf] at hcount
  unfold normRun
  simp only [hpt, Bool.false_eq_true, if_false, normRoot_eq, if_neg hroot]
  rw [if_neg (by omega), normScan_eq win src _ _ _ (rootOf_cases win src).2 (by omega)
    (by simp [PARTS_COUNT]), if_pos (by simp only [List.length_singleton, PARTS_COUNT]; omega)]
  have hk : ((NormSt.mk 0 0 dst [] []).move 0 (rootOf win src).1).addK (rootOf win src).1.length
      = rootSt win dst src := rfl
  simp only [hk, rootSt_k]
  simp [normCfg, compsOf, entries_length, rootSt_k]

theorem normCfg_ok (hl : ¬ TooLarge win src) :
    CfgOK (normCfg win strict cap src) (rootOf win src).1 (rootOf win src).2 (compsOf win src) := by
  simp only [TooLarge, not_or, Nat.not_lt] at hl
  have hp := (rootOf_cases win src).2
  have hr := rootOf_length_le win src
  refine ⟨table_of_comps win hp hl.1, ?_, hr, ?_, ?_⟩
  · simp only [normCfg, rootSt_k, BitVec.toNat_ofNat]
    omega
  · simp only [PARTS_COUNT]; omega
  · have h := startOf_compsFrom_length win src _ (rootOf win src).2 (Nat.le_refl _) hp
    simp only [startOf, compsOf] at h ⊢
    omega

theorem rootSt_sim :
    Sim (normCfg win strict cap src) (rootOf win src).1 (compsOf win src) (rootSt win dst src)
      Walk.init := by
  have hr := rootOf_length_le win src
  have B0 : Buf (max cap (rootOf win src).1.length) 0 (NormSt.mk 0 0 dst [] []) [] :=
    ⟨⟨by simp, by simp⟩, rfl, by simp, by simp, by simp⟩
  have B1 := B0.append (rootOf win src).1 (by simp only [List.length_nil]; omega)
    (by simp only [List.length_nil]; omega)
  refine ⟨⟨⟨B1.stores_lt, ?_⟩, ?_, ?_, ?_, ?_⟩, ?_, by simp [Walk.init], ?_, by simp [Walk.init]⟩
  · intro x hx
    simp only [rootSt, NormSt.addK, move_lens, move_k, List.mem_singleton] at hx
    rw [hx]; simp
  · rw [Walk.init, render_nil]; exact B1.k_eq
  · rw [Walk.init, render_nil]; exact B1.dst_eq
  · rw [Walk.init, render_nil]; exact Nat.le_max_right ..
  · rw [Walk.init, render_nil]
  · simp [rootSt, NormSt.addK, move_cur, Walk.init]
  · simp [Walk.init, sepLen]

/-- **On an exact table `ffpath_norm` computes the component stack** under its limits. -/
theorem normRun_aligned (hpt : (win && isPassThrough src) = false)
    (hroot : ¬ (win = true ∧ isDosPath src = true ∧ cap < 3)) (hl : ¬ TooLarge win src)
    (hal : NormAligned win strict cap src) :
    match boundedNorm (normLimits win strict cap src) (compsOf win src) with
    | none => ∃ s, normRun win strict dst cap src = (.ret (-1), s) ∧
        Safe (max cap (rootOf win src).1.length) (rootOf win src).1.length s
    | some st => ∃ s, normRun win strict dst cap src =
          (.ret (render (rootOf win src).1 (slashOf win) st).length, s) ∧
        Buf (max cap (rootOf win src).1.length) (rootOf win src).1.length s
          (render (rootOf win src).1 (slashOf win) st) := by
  have H := @normCfg_ok win strict cap src hl
  have hsim := normLoop_sim H 0 (compsOf win src) (rootSt win dst src) Walk.init rootSt_sim
    (by simp [Walk.init]) hal
  rw [normRun_loop hpt hroot hl]
  have hlim : limitsOf (normCfg win strict cap src) (rootOf win src).1 =
    normLimits win strict cap src := rfl
  rw [hlim] at hsim
  unfold boundedNorm
  cases hf : foldStop (walkStop (normLimits win strict cap src))
      (Walk.next (normLimits win strict cap src).rooted) Walk.init (compsOf win src) with
  | none =>
    rw [hf] at hsim
    exact hsim
  | some w =>
    rw [hf] at hsim
    obtain ⟨s, hs, S⟩ := hsim
    refine ⟨s, ?_, S.buf⟩
    have hlen := S.len
    have htot := H.total
    have hle := startOf_le_total (compsOf win src) w.seen
    have hroot3 := rootOf_length_le win src
    have hk : s.k.toNat = (render (rootOf win src).1 (slashOf win) w.st).length := S.buf.k_eq
    have hsl : (normCfg win strict cap src).slash = slashOf win := rfl
    rw [hsl] at hlen
    have hint : s.k.toInt = ((render (rootOf win src).1 (slashOf win) w.st).length : Int) := by
      rw [BitVec.toInt_eq_toNat_of_lt (by omega), hk]
    simp only [Nat.add_zero] at hs
    rw [show (1 : Nat) = Walk.init.seen + 1 from rfl, hs, normLoop, hint]

end Run

end FFSys.Path
