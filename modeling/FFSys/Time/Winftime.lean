import FFSys.Lib.Signed

/-!
# Windows file times

`fftime_from_winftime()` and `fftime_to_winftime()` convert between `fftime`, seconds and
nanoseconds since 1970, and `FILETIME`, a number of 100 ns intervals since 1601 in two halves.

* `fftimeFromWinftime`, `fftimeToWinftime` — the functions.
* `Winftime.value`, `Fftime.ticks` — the number of intervals of either.
* `fromWinftime_spec`, `toWinftime_spec` — the functions keep it, up to a remainder of nanoseconds.
* `winftime_roundTrip` — the conversions undo each other.
-/

set_option autoImplicit false

namespace FFSys.Time

open FFSys.Lib

/-! ## The functions -/

/-- `fftime`; `sec` is signed. -/
@[ext] structure Fftime where
  sec : BitVec 64
  nsec : BitVec 32
  deriving DecidableEq, Repr

/-- `fftime_winftime` -/
@[ext] structure Winftime where
  lo : BitVec 32
  hi : BitVec 32
  deriving DecidableEq, Repr

/-- 100-ns intervals within 1600..1970 -/
def FFTIME_100NS : BitVec 64 := 116444736000000000

def fftimeFromWinftime (ft : Winftime) : Fftime :=
  let i := ft.hi.setWidth 64 <<< 32 ||| ft.lo.setWidth 64
  if FFTIME_100NS < i then
    let i := i - FFTIME_100NS
    ⟨i / 10000000#64, (i % 10000000#64 * 100#64).setWidth 32⟩
  else ⟨0, 0⟩

/-- The products and the first sum are signed, `none` is an overflow of them; the second sum is
    unsigned. -/
def fftimeToWinftime (t : Fftime) : Option Winftime :=
  (smul t.sec 1000000#64).bind fun us =>
    (smul us 10#64).bind fun ticks =>
      (sadd ticks ((t.nsec / 100#32).setWidth 64)).bind fun sum =>
        let d := sum + FFTIME_100NS
        some ⟨d.setWidth 32, (d >>> 32).setWidth 32⟩

/-! ## Intervals -/

/-- The 64-bit `FILETIME` value. -/
def Winftime.value (ft : Winftime) : Nat := ft.hi.toNat * 2 ^ 32 + ft.lo.toNat

/-- The `FILETIME` value of a time. -/
def Fftime.ticks (t : Fftime) : Int :=
  t.sec.toInt * 10000000 + t.nsec.toNat / 100 + 116444736000000000

/-- The nanoseconds since 1970. -/
def Fftime.nanos (t : Fftime) : Int := t.sec.toInt * 1000000000 + t.nsec.toNat

/-- A `FILETIME` since 1970, as a signed number. -/
structure Winftime.InRange (ft : Winftime) : Prop where
  le : 116444736000000000 ≤ ft.value
  lt : ft.value < 2 ^ 63

/-- A time since 1970 that has such a `FILETIME`. -/
structure Fftime.InRange (t : Fftime) : Prop where
  sec : 0 ≤ t.sec.toInt
  nsec : t.nsec.toNat < 1000000000
  lt : t.ticks < 2 ^ 63

/-- `t` with whole intervals. -/
def Fftime.rounded (t : Fftime) : Fftime := ⟨t.sec, t.nsec / 100#32 * 100#32⟩

/-- `((ffuint64)ft->hi << 32) | ft->lo` -/
theorem joined_toNat (ft : Winftime) :
    (ft.hi.setWidth 64 <<< 32 ||| ft.lo.setWidth 64).toNat = ft.value := by
  have hlo := ft.lo.isLt
  have hhi := ft.hi.isLt
  have hhi' : ft.hi.toNat % 2 ^ 64 = ft.hi.toNat := Nat.mod_eq_of_lt (by omega)
  have hlo' : ft.lo.toNat % 2 ^ 64 = ft.lo.toNat := Nat.mod_eq_of_lt (by omega)
  rw [BitVec.toNat_or, BitVec.toNat_shiftLeft, BitVec.toNat_setWidth, BitVec.toNat_setWidth, hhi',
    hlo', Nat.shiftLeft_eq, Nat.mod_eq_of_lt (by omega), Nat.mul_comm, ← Nat.two_pow_add_eq_or_of_lt hlo,
    Winftime.value, Nat.mul_comm]

/-- `(ffuint)d` and `(ffuint)(d >> 32)` -/
theorem split_value (d : BitVec 64) :
    (⟨d.setWidth 32, (d >>> 32).setWidth 32⟩ : Winftime).value = d.toNat := by
  have hd := d.isLt
  simp only [Winftime.value, BitVec.toNat_setWidth, BitVec.toNat_ushiftRight,
    Nat.shiftRight_eq_div_pow]
  omega

/-- A `FILETIME` is its value. -/
theorem value_inj {ft ft' : Winftime} (h : ft.value = ft'.value) : ft = ft' := by
  have hlo := ft.lo.isLt
  have hlo' := ft'.lo.isLt
  unfold Winftime.value at h
  ext1
  · apply BitVec.eq_of_toNat_eq
    omega
  · apply BitVec.eq_of_toNat_eq
    omega

theorem epoch_toNat : FFTIME_100NS.toNat = 116444736000000000 := rfl

/-- **From a `FILETIME`**: the seconds and the nanoseconds of its intervals. -/
theorem fromWinftime_spec {ft : Winftime} (h : ft.InRange) :
    (fftimeFromWinftime ft).InRange ∧ (fftimeFromWinftime ft).nsec.toNat % 100 = 0 ∧
      (fftimeFromWinftime ft).ticks = ft.value := by
  have hle := h.le
  have hlt := h.lt
  have hi := joined_toNat ft
  unfold fftimeFromWinftime
  generalize ft.hi.setWidth 64 <<< 32 ||| ft.lo.setWidth 64 = i at hi
  simp only
  split
  · have hsub : (i - FFTIME_100NS).toNat = ft.value - 116444736000000000 := by
      rw [BitVec.toNat_sub, epoch_toNat, hi]
      omega
    generalize i - FFTIME_100NS = n at hsub
    have hdiv : (n / 10000000#64).toNat = n.toNat / 10000000 := by
      rw [BitVec.toNat_udiv]
      rfl
    have hsec : (n / 10000000#64).toInt = ((n.toNat / 10000000 : Nat) : Int) := by
      rw [BitVec.toInt_eq_toNat_of_lt (by omega), hdiv]
    have hnsec : ((n % 10000000#64 * 100#64).setWidth 32).toNat = n.toNat % 10000000 * 100 := by
      have htens : (10000000#64).toNat = 10000000 := rfl
      have hhundred : (100#64).toNat = 100 := rfl
      rw [BitVec.toNat_setWidth, BitVec.toNat_mul, BitVec.toNat_umod, htens, hhundred]
      omega
    have hticks : (⟨n / 10000000#64, (n % 10000000#64 * 100#64).setWidth 32⟩ : Fftime).ticks =
        ft.value := by
      rw [Fftime.ticks, hsec, hnsec]
      omega
    refine ⟨⟨?_, ?_, ?_⟩, ?_, hticks⟩
    · rw [hsec]
      omega
    · rw [hnsec]
      omega
    · rw [hticks]
      omega
    · rw [hnsec]
      omega
  · rename_i hepoch
    rw [BitVec.lt_def, epoch_toNat, hi] at hepoch
    have hzero : (⟨0, 0⟩ : Fftime).ticks = 116444736000000000 := rfl
    refine ⟨⟨by decide, by decide, ?_⟩, rfl, ?_⟩
    · rw [hzero]
      omega
    · rw [hzero]
      omega

/-- **To a `FILETIME`**: no sum and no product overflows, and the intervals are those of the time. -/
theorem toWinftime_spec {t : Fftime} (h : t.InRange) :
    ∃ ft, fftimeToWinftime t = some ft ∧ (ft.value : Int) = t.ticks := by
  have hsec := h.sec
  have hnsec := h.nsec
  have hlt := h.lt
  unfold Fftime.ticks at hlt
  have hms : (1000000#64).toInt = 1000000 := rfl
  have hten : (10#64).toInt = 10 := rfl
  have hq : (t.nsec / 100#32).toNat = t.nsec.toNat / 100 := by
    rw [BitVec.toNat_udiv]
    rfl
  have hquot : ((t.nsec / 100#32).setWidth 64).toInt = ((t.nsec.toNat / 100 : Nat) : Int) := by
    have hwide : ((t.nsec / 100#32).setWidth 64).toNat = t.nsec.toNat / 100 := by
      rw [BitVec.toNat_setWidth, hq]
      omega
    rw [BitVec.toInt_eq_toNat_of_lt (by omega), hwide]
  obtain ⟨hus, husv⟩ := smul_eq_some (x := t.sec) (y := 1000000#64)
    (by rw [hms]; unfold SignedRange; omega)
  rw [hms] at husv
  obtain ⟨hticks, hticksv⟩ := smul_eq_some (x := t.sec * 1000000#64) (y := 10#64)
    (by rw [hten, husv]; unfold SignedRange; omega)
  rw [hten, husv] at hticksv
  obtain ⟨hsum, hsumv⟩ := sadd_eq_some (x := t.sec * 1000000#64 * 10#64)
    (y := (t.nsec / 100#32).setWidth 64) (by rw [hquot, hticksv]; unfold SignedRange; omega)
  rw [hquot, hticksv] at hsumv
  have hbound := (t.sec * 1000000#64 * 10#64 + (t.nsec / 100#32).setWidth 64).isLt
  have hnat := BitVec.toInt_eq_toNat_cond (t.sec * 1000000#64 * 10#64 + (t.nsec / 100#32).setWidth 64)
  generalize t.sec * 1000000#64 * 10#64 + (t.nsec / 100#32).setWidth 64 =
    sum at hsum hsumv hbound hnat
  refine ⟨⟨(sum + FFTIME_100NS).setWidth 32, ((sum + FFTIME_100NS) >>> 32).setWidth 32⟩, ?_, ?_⟩
  · rw [fftimeToWinftime, hus, Option.bind_some, hticks, Option.bind_some, hsum, Option.bind_some]
  · rw [split_value, BitVec.toNat_add, epoch_toNat, Fftime.ticks]
    rw [hsumv] at hnat
    split at hnat <;> omega

/-! ## Round trips -/

/-- Times of whole intervals are determined by them. -/
theorem eq_rounded {t u : Fftime} (ht : t.InRange) (hu : u.InRange) (hwhole : u.nsec.toNat % 100 = 0)
    (h : u.ticks = t.ticks) : u = t.rounded := by
  have htn := ht.nsec
  have hun := hu.nsec
  unfold Fftime.ticks at h
  have hhundred : (100#32).toNat = 100 := rfl
  have hnsec : (t.nsec / 100#32 * 100#32).toNat = t.nsec.toNat / 100 * 100 := by
    rw [BitVec.toNat_mul, BitVec.toNat_udiv, hhundred]
    omega
  ext1
  · apply BitVec.eq_of_toInt_eq
    show u.sec.toInt = t.sec.toInt
    omega
  · apply BitVec.eq_of_toNat_eq
    show u.nsec.toNat = (t.nsec / 100#32 * 100#32).toNat
    omega

/-- From a `FILETIME` to a time and back. -/
theorem toWinftime_fromWinftime {ft : Winftime} (h : ft.InRange) :
    fftimeToWinftime (fftimeFromWinftime ft) = some ft := by
  obtain ⟨hrange, -, hticks⟩ := fromWinftime_spec h
  obtain ⟨ft', hto, hvalue⟩ := toWinftime_spec hrange
  have heq : ft' = ft := by
    apply value_inj
    omega
  rw [hto, heq]

/-- The `FILETIME` of a time since 1970 is in range. -/
theorem inRange_of_ticks {t : Fftime} {ft : Winftime} (h : t.InRange)
    (hvalue : (ft.value : Int) = t.ticks) :
    ft.InRange := by
  have hsec := h.sec
  have hlt := h.lt
  unfold Fftime.ticks at hlt hvalue
  exact ⟨by omega, by omega⟩

/-- From a time to a `FILETIME` and back. -/
theorem fromWinftime_toWinftime {t : Fftime} {ft : Winftime} (h : t.InRange)
    (hvalue : (ft.value : Int) = t.ticks) : fftimeFromWinftime ft = t.rounded := by
  obtain ⟨hrange, hwhole, hticks⟩ := fromWinftime_spec (inRange_of_ticks h hvalue)
  exact eq_rounded h hrange hwhole (hticks.trans hvalue)

/-- **The conversions undo each other.**  A `FILETIME` since 1970 is a time with whole intervals and
    comes back; a time since 1970 has its `FILETIME`, without an overflow, and comes back without
    the remainder of an interval.  Both conversions keep the order. -/
theorem winftime_roundTrip :
    (∀ ft : Winftime, ft.InRange →
      (fftimeFromWinftime ft).nsec.toNat < 1000000000 ∧
        fftimeToWinftime (fftimeFromWinftime ft) = some ft) ∧
    (∀ t : Fftime, t.InRange →
      ∃ ft, fftimeToWinftime t = some ft ∧ (ft.value : Int) = t.ticks ∧
        fftimeFromWinftime ft = t.rounded) ∧
    (∀ ft ft' : Winftime, ft.InRange → ft'.InRange → ft.value ≤ ft'.value →
      (fftimeFromWinftime ft).nanos ≤ (fftimeFromWinftime ft').nanos) ∧
    (∀ (t t' : Fftime) (ft ft' : Winftime), t.InRange → t'.InRange → t.nanos ≤ t'.nanos →
      fftimeToWinftime t = some ft → fftimeToWinftime t' = some ft' → ft.value ≤ ft'.value) := by
  refine ⟨?_, ?_, ?_, ?_⟩
  · intro ft h
    exact ⟨(fromWinftime_spec h).1.nsec, toWinftime_fromWinftime h⟩
  · intro t h
    obtain ⟨ft, hto, hvalue⟩ := toWinftime_spec h
    exact ⟨ft, hto, hvalue, fromWinftime_toWinftime h hvalue⟩
  · intro ft ft' h h' hle
    obtain ⟨hrange, hwhole, hticks⟩ := fromWinftime_spec h
    obtain ⟨hrange', hwhole', hticks'⟩ := fromWinftime_spec h'
    unfold Fftime.ticks at hticks hticks'
    unfold Fftime.nanos
    omega
  · intro t t' ft ft' h h' hle hto hto'
    obtain ⟨u, hu, hvalue⟩ := toWinftime_spec h
    obtain ⟨u', hu', hvalue'⟩ := toWinftime_spec h'
    rw [hto, Option.some.injEq] at hu
    rw [hto', Option.some.injEq] at hu'
    subst hu hu'
    unfold Fftime.ticks at hvalue hvalue'
    unfold Fftime.nanos at hle
    omega

/-- One second, 150 ns after 1970. -/
theorem winftime_roundTrip_second :
    (⟨1, 150⟩ : Fftime).InRange ∧
      ∃ ft, fftimeToWinftime ⟨1, 150⟩ = some ft ∧ ft.value = 116444736010000001 ∧
        fftimeFromWinftime ft = ⟨1, 100⟩ := by
  have hrange : (⟨1, 150⟩ : Fftime).InRange := ⟨by decide, by decide, by decide⟩
  obtain ⟨ft, hto, hvalue, hfrom⟩ := winftime_roundTrip.2.1 ⟨1, 150⟩ hrange
  refine ⟨hrange, ft, hto, ?_, hfrom⟩
  have hticks : (⟨1, 150⟩ : Fftime).ticks = 116444736010000001 := rfl
  omega

end FFSys.Time
