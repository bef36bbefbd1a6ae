import FFSys.Winreg.Write

/-!
# Reading a registry value

* `RegValue` — a value of a key; its size is a DWORD.  `query` — `RegQueryValueExW`.
* `ffwinregRead` — `ffwinreg_read` against a value that stays as it is: from the stack buffer, the
  caller's buffer or a temporary one, text is converted into the caller's buffer or a new one.
* `Gives` — 1 is returned with a text; `ReadsText` — what a caller may expect, with any buffer.
* `ffwinregRead_text_iff` — the texts that are read so: those of fewer than 2^31 bytes, as the
  number of bytes is kept in an `int`.
-/

set_option autoImplicit false

namespace FFSys.Winreg

open FFSys.Lib

/-! ## The function -/

structure RegValue where
  type : UInt32
  content : List UInt8
  small : content.length < 2 ^ 32

/-- `ffwinreg_val`: `data` is what the buffer has from its start, as far as it is written; `none` is
    NULL. -/
structure RegVal where
  type : UInt32
  data : Option (List UInt8)
  datalen : Nat

structure Read where
  ret : Int
  val : RegVal

/-- What `ffwinreg_read` calls: the conversion of the name (`ffs_utow`), the value of that name, the
    conversion to UTF-8 (`ffs_wtou`), and the allocation of a number of bytes. -/
structure ReadEnv where
  nameUtow : List UInt8 → Option (List UInt16)
  value : List UInt16 → Option RegValue
  wtou : List UInt16 → Option (List UInt8)
  alloc : Nat → Bool

/-- Where `valptr` points to. -/
inductive Place where
  | stack
  | user
  | outbuf
  deriving DecidableEq

/-- A conversion to `int`. -/
def toInt (n : Int) : Int := n.bmod (2 ^ 32)

/-- A conversion of an `int` to `ffsize`. -/
def toSize (r : Int) : Nat := (r % 2 ^ 64).toNat

/-- Bytes written over what a buffer has. -/
def overwrite (old new : List UInt8) : List UInt8 := new ++ old.drop new.length

/-- A terminating NUL is not part of the text. -/
def trimNul (w : List UInt16) : List UInt16 := if w.getLast? = some 0 then w.dropLast else w

namespace ReadEnv

variable (e : ReadEnv)

/-- `ffs_wtou` without a buffer: the size. -/
def ffsWtouSize (w : List UInt16) : Int :=
  match e.wtou w with
  | none => -1
  | some u => u.length

/-- `ffs_wtou` into a buffer of `cap` bytes. -/
def ffsWtou (cap : Nat) (w : List UInt16) : Option (List UInt8) :=
  match e.wtou w with
  | none => none
  | some u => if u.length ≤ cap then some u else none

/-- The conversion of `w` into the buffer of `val`; `size` is the size of the value. -/
def convert (type : UInt32) (val : RegVal) (w : List UInt16) (size : Nat) : Read :=
  match e.ffsWtou val.datalen w with
  | none => ⟨0, type, val.data, size / 2 * 4⟩
  | some u =>
    let data := val.data.map fun old => overwrite old u
    let r := toInt u.length
    if r < 0 then ⟨0, type, data, size / 2 * 4⟩ else ⟨1, type, data, toSize r⟩

/-- Text `d` at `valptr`. -/
def readText (type : UInt32) (val : RegVal) (valptr : Place) (d : List UInt8) : Read :=
  let w := trimNul (bytesUnits d)
  match val.data with
  | none =>
    let r := toInt (e.ffsWtouSize w)
    if e.alloc (toSize r) then e.convert type ⟨val.type, some [], toSize r⟩ w d.length else ⟨-1, val⟩
  | some _ =>
    -- the caller's buffer is both: its wide characters are moved to a temporary one
    if valptr = .user then
      if e.alloc d.length then e.convert type val w d.length else ⟨-1, val⟩
    else e.convert type val w d.length

/-- Data `d` of another type at `valptr`; `out` says whether the temporary buffer is allocated. -/
def readData (type : UInt32) (val : RegVal) (out : Bool) (d : List UInt8) : Read :=
  match val.data with
  | none => if out || e.alloc d.length then ⟨1, type, some d, d.length⟩ else ⟨-1, val⟩
  | some data => ⟨1, type, some data, d.length⟩

/-- The loop, for a buffer of `size` bytes at `valptr`.  The number is the fuel: a temporary buffer
    is allocated once. -/
def readLoop (v : Option RegValue) : Nat → RegVal → Place → Bool → Nat → Option Read
  | 0, _, _, _, _ => none
  | fuel + 1, val, valptr, out, size =>
    match v with
    | none => some ⟨-1, val⟩
    | some v =>
      if v.content.length ≤ size then
        let val' := if valptr = .user then
          { val with data := val.data.map fun old => overwrite old v.content } else val
        if ffwinregIsstr v.type then some (e.readText v.type val' valptr v.content)
        else some (e.readData v.type val' out v.content)
      else if ffwinregIsstr v.type && out then some ⟨0, v.type, val.data, v.content.length / 2 * 4⟩
      else if !ffwinregIsstr v.type && (val.data.isSome || out) then
        some ⟨0, v.type, val.data, v.content.length⟩
      else if e.alloc v.content.length then readLoop v fuel val .outbuf true v.content.length
      else some ⟨-1, val⟩

end ReadEnv

/-- `ffwinreg_read`.  If the name cannot be converted, 0 is returned and the type is not set. -/
def ffwinregRead (e : ReadEnv) (name : List UInt8) (val : RegVal) : Option Read :=
  match e.nameUtow name with
  | none => some ⟨0, val⟩
  | some wname =>
    match val.data with
    | none => e.readLoop (e.value wname) 2 val .stack false 256
    | some _ => e.readLoop (e.value wname) 2 val .user false (val.datalen % 2 ^ 32)

/-! ## Texts -/

/-- 1 is returned, with the text `s`. -/
def Gives (out : Option Read) (s : List UInt8) : Prop :=
  ∃ r data, out = some r ∧ r.ret = 1 ∧ r.val.data = some data ∧ r.val.datalen = s.length ∧
    data.take s.length = s

/-- The text is read without a buffer and into one that is large enough; otherwise 0 is returned
    with the size of a buffer into which it is read. -/
def ReadsText (e : ReadEnv) (name : List UInt8) (val : RegVal) (s : List UInt8) : Prop :=
  (val.data = none ∨ s.length ≤ val.datalen → Gives (ffwinregRead e name val) s) ∧
  (¬ (val.data = none ∨ s.length ≤ val.datalen) → ∃ r, ffwinregRead e name val = some r ∧ r.ret = 0 ∧
    ∀ type old, Gives (ffwinregRead e name ⟨type, some old, r.val.datalen⟩) s)

theorem toInt_of_lt {n : Nat} (h : n < 2 ^ 31) : toInt n = n :=
  Int.bmod_eq_of_le (by omega) (by omega)

theorem toSize_natCast {n : Nat} (h : n < 2 ^ 31) : toSize n = n := by
  unfold toSize
  omega

theorem toInt_lt (n : Int) : toInt n < 2 ^ 31 := by
  have hbound := Int.bmod_lt (x := n) (m := 2 ^ 32) (by decide)
  unfold toInt
  omega

/-- A size that does not fit an `int` is lost in it: a buffer of that size is too small. -/
theorem toSize_toInt_lt {n : Nat} (h : 2 ^ 31 ≤ n) (hpos : ¬ toInt n < 0) : toSize (toInt n) < n := by
  have hlt := toInt_lt n
  unfold toSize
  omega

theorem take_overwrite (old new : List UInt8) : (overwrite old new).take new.length = new :=
  List.take_left

section Convert

variable {e : ReadEnv} {w : List UInt16} {u : List UInt8}

theorem ffsWtou_fits (hwtou : e.wtou w = some u) {cap : Nat} (h : u.length ≤ cap) :
    e.ffsWtou cap w = some u := by
  rw [ReadEnv.ffsWtou, hwtou]
  exact if_pos h

theorem ffsWtou_short (hwtou : e.wtou w = some u) {cap : Nat} (h : cap < u.length) :
    e.ffsWtou cap w = none := by
  rw [ReadEnv.ffsWtou, hwtou]
  exact if_neg (Nat.not_le.mpr h)

theorem convert_short (hwtou : e.wtou w = some u) {type : UInt32} {val : RegVal}
    (h : val.datalen < u.length) (size : Nat) :
    e.convert type val w size = ⟨0, type, val.data, size / 2 * 4⟩ := by
  rw [ReadEnv.convert, ffsWtou_short hwtou h]

/-- Any text, by its number of bytes as an `int`. -/
theorem convert_ok (hwtou : e.wtou w = some u) {type : UInt32} {val : RegVal}
    (h : u.length ≤ val.datalen) (hpos : ¬ toInt u.length < 0) (size : Nat) :
    e.convert type val w size =
      ⟨1, type, val.data.map fun old => overwrite old u, toSize (toInt u.length)⟩ := by
  rw [ReadEnv.convert, ffsWtou_fits hwtou h]
  exact if_neg hpos

/-- A text of fewer than 2^31 bytes that fits. -/
theorem convert_fits (hwtou : e.wtou w = some u) (hsmall : u.length < 2 ^ 31) {type : UInt32}
    {val : RegVal} (h : u.length ≤ val.datalen) (size : Nat) :
    e.convert type val w size = ⟨1, type, val.data.map fun old => overwrite old u, u.length⟩ := by
  have hint : toInt u.length = u.length := toInt_of_lt hsmall
  rw [convert_ok hwtou h (by omega), hint, toSize_natCast hsmall]

theorem convert_negative (hwtou : e.wtou w = some u) {type : UInt32} {val : RegVal}
    (h : u.length ≤ val.datalen) (hneg : toInt u.length < 0) (size : Nat) :
    e.convert type val w size = ⟨0, type, val.data.map fun old => overwrite old u, size / 2 * 4⟩ := by
  rw [ReadEnv.convert, ffsWtou_fits hwtou h]
  exact if_pos hneg

theorem gives_iff {ret : Int} {type : UInt32} {data : Option (List UInt8)} {n : Nat}
    {s : List UInt8} :
    Gives (some ⟨ret, type, data, n⟩) s ↔
      ret = 1 ∧ n = s.length ∧ ∃ d, data = some d ∧ d.take s.length = s := by
  constructor
  · rintro ⟨r, d, hr, hret, hd, hn, htake⟩
    cases hr
    exact ⟨hret, hn, d, hd, htake⟩
  · rintro ⟨hret, hn, d, hd, htake⟩
    exact ⟨_, d, rfl, hret, hd, hn, htake⟩

theorem not_gives_ret {ret : Int} {val : RegVal} {s : List UInt8} (h : ret ≠ 1) :
    ¬ Gives (some ⟨ret, val⟩) s :=
  fun hgives => h (gives_iff.mp hgives).1

theorem not_gives_length {ret : Int} {type : UInt32} {data : Option (List UInt8)} {n : Nat}
    {s : List UInt8} (h : n ≠ s.length) : ¬ Gives (some ⟨ret, type, data, n⟩) s :=
  fun hgives => h (gives_iff.mp hgives).2.1

/-- A buffer that is too small, or a size that is negative: no text is given. -/
theorem convert_fails (hwtou : e.wtou w = some u) {cap : Nat}
    (h : cap < u.length ∨ toInt u.length < 0) (type old : UInt32) (data : Option (List UInt8))
    (size : Nat) (s : List UInt8) :
    ¬ Gives (some (e.convert type ⟨old, data, cap⟩ w size)) s := by
  rcases Nat.lt_or_ge cap u.length with hshort | hfits
  · rw [convert_short hwtou hshort]
    exact not_gives_ret Int.zero_ne_one
  · rw [convert_negative hwtou hfits (h.resolve_left (Nat.not_lt.mpr hfits))]
    exact not_gives_ret Int.zero_ne_one

/-- A text of 2^31 bytes or more is not given. -/
theorem convert_large (hwtou : e.wtou w = some u) (hlarge : 2 ^ 31 ≤ u.length) (type : UInt32)
    (val : RegVal) (size : Nat) : ¬ Gives (some (e.convert type val w size)) u := by
  by_cases h : val.datalen < u.length ∨ toInt u.length < 0
  · exact convert_fails hwtou h _ _ _ _ _
  · rw [not_or, Nat.not_lt] at h
    have hlt : toSize (toInt u.length) < u.length := toSize_toInt_lt hlarge h.2
    rw [convert_ok hwtou h.1 h.2]
    exact not_gives_length (Nat.ne_of_lt hlt)

theorem ffsWtouSize_eq (hwtou : e.wtou w = some u) : e.ffsWtouSize w = u.length := by
  rw [ReadEnv.ffsWtouSize, hwtou]

end Convert

/-! ## A call -/

section Call

variable {e : ReadEnv} {v : RegValue} {u : List UInt8}

/-- The text branch converts into the buffer of `val`, or into a new one of the size of the text as
    an `int`. -/
theorem readText_eq (halloc : ∀ n, n < 2 ^ 63 → e.alloc n = true) (type : UInt32) (val : RegVal)
    (valptr : Place) {d : List UInt8} (hd : d.length < 2 ^ 32) :
    (∃ old, val.data = some old ∧
      e.readText type val valptr d = e.convert type val (trimNul (bytesUnits d)) d.length) ∨
    (val.data = none ∧
      e.readText type val valptr d =
        if e.alloc (toSize (toInt (e.ffsWtouSize (trimNul (bytesUnits d))))) then
          e.convert type ⟨val.type, some [], toSize (toInt (e.ffsWtouSize (trimNul (bytesUnits d))))⟩
            (trimNul (bytesUnits d)) d.length
        else ⟨-1, val⟩) := by
  unfold ReadEnv.readText
  cases hdata : val.data with
  | none => exact Or.inr ⟨rfl, rfl⟩
  | some old =>
    refine Or.inl ⟨old, rfl, ?_⟩
    simp only [halloc d.length (by omega), if_true]
    split <;> rfl

/-- Against a string the loop ends in the text branch, with the caller's buffer as large as it was. -/
theorem ffwinregRead_eq {name : List UInt8} {wname : List UInt16}
    (hname : e.nameUtow name = some wname) (hv : e.value wname = some v)
    (hstr : ffwinregIsstr v.type = true) (halloc : ∀ n, n < 2 ^ 63 → e.alloc n = true)
    (val : RegVal) :
    ∃ val' valptr, ffwinregRead e name val = some (e.readText v.type val' valptr v.content) ∧
      val'.datalen = val.datalen ∧ (val'.data = none ↔ val.data = none) := by
  have hloop (fuel : Nat) (valptr : Place) (out : Bool) {size : Nat}
      (hsize : v.content.length ≤ size) :
      ∃ val', e.readLoop (some v) (fuel + 1) val valptr out size =
        some (e.readText v.type val' valptr v.content) ∧
        val'.datalen = val.datalen ∧ (val'.data = none ↔ val.data = none) := by
    refine ⟨if valptr = .user then
        { val with data := val.data.map fun old => overwrite old v.content } else val, ?_, ?_, ?_⟩
    · rw [ReadEnv.readLoop]
      simp only [hsize, hstr, if_true]
    · split <;> rfl
    · split
      · exact Option.map_eq_none_iff
      · exact Iff.rfl
  have hmore (valptr : Place) {size : Nat} (hsize : size < v.content.length) :
      e.readLoop (some v) 2 val valptr false size =
        e.readLoop (some v) 1 val .outbuf true v.content.length := by
    have hsmall := v.small
    rw [ReadEnv.readLoop]
    simp only [Nat.not_le.mpr hsize, hstr, halloc v.content.length (by omega), if_false, if_true,
      Bool.and_false, Bool.not_true, Bool.false_and, Bool.false_eq_true]
  have hany (valptr : Place) (size : Nat) :
      ∃ val' valptr', e.readLoop (some v) 2 val valptr false size =
      some (e.readText v.type val' valptr' v.content) ∧ val'.datalen = val.datalen ∧
        (val'.data = none ↔ val.data = none) := by
    rcases Nat.lt_or_ge size v.content.length with hlt | hge
    · obtain ⟨val', h⟩ := hloop 0 .outbuf true (Nat.le_refl _)
      exact ⟨val', .outbuf, (hmore valptr hlt).trans h.1, h.2⟩
    · obtain ⟨val', h⟩ := hloop 1 valptr false hge
      exact ⟨val', valptr, h⟩
  rw [ffwinregRead, hname]
  cases hdata : val.data with
  | none =>
    have h := hany .stack 256
    rw [hdata] at h
    simpa only [hdata, hv] using h
  | some old =>
    have h := hany .user (val.datalen % 2 ^ 32)
    rw [hdata] at h
    simpa only [hdata, hv] using h

variable {name : List UInt8} {wname : List UInt16} (hname : e.nameUtow name = some wname)
  (hv : e.value wname = some v) (hstr : ffwinregIsstr v.type = true)
  (halloc : ∀ n, n < 2 ^ 63 → e.alloc n = true)
  (hwtou : e.wtou (trimNul (bytesUnits v.content)) = some u)

include hname hv hstr halloc hwtou

/-- A string of fewer than 2^31 bytes in UTF-8, without a buffer or with one that is large enough. -/
theorem ffwinregRead_gives (hsmall : u.length < 2 ^ 31) {val : RegVal}
    (hbuf : val.data = none ∨ u.length ≤ val.datalen) : Gives (ffwinregRead e name val) u := by
  have hint : toInt u.length = u.length := toInt_of_lt hsmall
  obtain ⟨val', valptr, hrun, hlen, hnone⟩ := ffwinregRead_eq hname hv hstr halloc val
  rw [hrun]
  rcases readText_eq halloc v.type val' valptr v.small with ⟨old, hdata, htext⟩ | ⟨hdata, htext⟩
  · have hne : val.data ≠ none := fun h => by rw [hnone.mpr h] at hdata; cases hdata
    rw [htext, convert_fits hwtou hsmall (hlen ▸ hbuf.resolve_left hne), hdata]
    exact ⟨_, overwrite old u, rfl, rfl, rfl, rfl, take_overwrite old u⟩
  · rw [htext, ffsWtouSize_eq hwtou, hint, toSize_natCast hsmall, if_pos (halloc _ (by omega)),
      convert_fits hwtou hsmall (Nat.le_refl _)]
    exact ⟨_, overwrite [] u, rfl, rfl, rfl, rfl, take_overwrite [] u⟩

/-- A buffer that is too small. -/
theorem ffwinregRead_short {val : RegVal} (hbuf : ¬ (val.data = none ∨ u.length ≤ val.datalen)) :
    ∃ r, ffwinregRead e name val = some r ∧ r.ret = 0 ∧ r.val.datalen = v.content.length / 2 * 4 := by
  rw [not_or, Nat.not_le] at hbuf
  obtain ⟨val', valptr, hrun, hlen, hnone⟩ := ffwinregRead_eq hname hv hstr halloc val
  rcases readText_eq halloc v.type val' valptr v.small with ⟨old, hdata, htext⟩ | ⟨hdata, -⟩
  · rw [hrun, htext, convert_short hwtou (hlen ▸ hbuf.2)]
    exact ⟨_, rfl, rfl, rfl⟩
  · exact absurd (hnone.mp hdata) hbuf.1

/-- A string of 2^31 bytes or more is not read with any buffer. -/
theorem ffwinregRead_large (hlarge : 2 ^ 31 ≤ u.length) (val : RegVal) :
    ¬ Gives (ffwinregRead e name val) u := by
  obtain ⟨val', valptr, hrun, -, -⟩ := ffwinregRead_eq hname hv hstr halloc val
  rw [hrun]
  rcases readText_eq halloc v.type val' valptr v.small with ⟨old, -, htext⟩ | ⟨-, htext⟩
  · rw [htext]
    exact convert_large hwtou hlarge _ _ _
  · rw [htext]
    split
    · exact convert_large hwtou hlarge _ _ _
    · exact not_gives_ret (by omega)

/-- Without a buffer there is one text that can be given. -/
theorem ffwinregRead_none {val : RegVal} (hnone : val.data = none) {text : List UInt8}
    (h : Gives (ffwinregRead e name val) text) : u.length < 2 ^ 31 ∧ text = u := by
  obtain ⟨val', valptr, hrun, -, hdata'⟩ := ffwinregRead_eq hname hv hstr halloc val
  rcases readText_eq halloc v.type val' valptr v.small with ⟨old, hdata, -⟩ | ⟨-, htext⟩
  · rw [hdata'.mpr hnone] at hdata
    cases hdata
  · rw [hrun, htext, ffsWtouSize_eq hwtou] at h
    rcases Nat.lt_or_ge u.length (2 ^ 31) with hsmall | hlarge
    · have hint : toInt u.length = u.length := toInt_of_lt hsmall
      rw [hint, toSize_natCast hsmall, if_pos (halloc _ (by omega)),
        convert_fits hwtou hsmall (Nat.le_refl _)] at h
      obtain ⟨-, hlen, d, hd, htake⟩ := gives_iff.mp h
      rw [← Option.some.inj hd, ← hlen, take_overwrite] at htake
      exact ⟨hsmall, htake.symm⟩
    · split at h
      · have hno : toSize (toInt u.length) < u.length ∨ toInt u.length < 0 := by
          by_cases hneg : toInt u.length < 0
          · exact Or.inr hneg
          · exact Or.inl (toSize_toInt_lt hlarge hneg)
        exact absurd h (convert_fails hwtou hno _ _ _ _ _)
      · exact absurd h (not_gives_ret (by omega))

end Call

/-! ## A text and its terminator -/

theorem trimNul_concat (w : List UInt16) : trimNul (w ++ [0]) = w := by
  rw [trimNul, List.getLast?_concat, if_pos rfl, List.dropLast_concat]

/-- The characters of a value with its terminator. -/
theorem trimNul_units (w : List UInt16) : trimNul (bytesUnits (unitBytes (w ++ [0]))) = w := by
  rw [bytesUnits_unitBytes, trimNul_concat]

/-- **Reading a text.**  A value with the UTF-16 form of a text and a NUL is read as that text,
    without a buffer and with one of any size, exactly if the text has fewer than 2^31 bytes in
    UTF-8. -/
theorem ffwinregRead_text_iff (e : ReadEnv) {name : List UInt8} {wname : List UInt16} {v : RegValue}
    (cs : List Char) (hname : e.nameUtow name = some wname) (hv : e.value wname = some v)
    (htype : v.type = REG_SZ) (hcontent : v.content = unitBytes (utf16 cs ++ [0]))
    (hwtou : e.wtou (utf16 cs) = some (utf8 cs)) (halloc : ∀ n, n < 2 ^ 63 → e.alloc n = true)
    (val : RegVal) :
    ReadsText e name val (utf8 cs) ↔ (utf8 cs).length < 2 ^ 31 := by
  have hstr : ffwinregIsstr v.type = true := by rw [htype]; rfl
  have hw : e.wtou (trimNul (bytesUnits v.content)) = some (utf8 cs) := by
    rw [hcontent, trimNul_units, hwtou]
  constructor
  · intro h
    by_contra hlarge
    rw [Nat.not_lt] at hlarge
    by_cases hbuf : val.data = none ∨ (utf8 cs).length ≤ val.datalen
    · exact ffwinregRead_large hname hv hstr halloc hw hlarge val (h.1 hbuf)
    · obtain ⟨r, -, -, hagain⟩ := h.2 hbuf
      exact ffwinregRead_large hname hv hstr halloc hw hlarge _ (hagain 0 [])
  · intro hsmall
    refine ⟨ffwinregRead_gives hname hv hstr halloc hw hsmall, fun hbuf => ?_⟩
    obtain ⟨r, hrun, hret, hlen⟩ := ffwinregRead_short hname hv hstr halloc hw hbuf
    refine ⟨r, hrun, hret, fun type old => ?_⟩
    refine ffwinregRead_gives hname hv hstr halloc hw hsmall (Or.inr ?_)
    have hle := utf8_length_le cs
    rw [hlen, hcontent, unitBytes_length, List.length_append, List.length_singleton]
    change (utf8 cs).length ≤ _
    omega

/-- The value of a text. -/
def textValue (cs : List Char) (h : 2 * ((utf16 cs).length + 1) < 2 ^ 32) : RegValue :=
  ⟨REG_SZ, unitBytes (utf16 cs ++ [0]),
    by rw [unitBytes_length, List.length_append, List.length_singleton]; exact h⟩

/-- A key where every name has the value `v`, and a system that converts the text `cs`. -/
def readOf (v : RegValue) (cs : List Char) : ReadEnv where
  nameUtow name := some (name.map fun b => UInt16.ofNat b.toNat)
  value _ := some v
  wtou w := if w = utf16 cs then some (utf8 cs) else none
  alloc n := decide (n < 2 ^ 63)

theorem readOf_wtou (v : RegValue) (cs : List Char) :
    (readOf v cs).wtou (utf16 cs) = some (utf8 cs) := if_pos rfl

/-- "Value" into a buffer of 4 bytes. -/
theorem ffwinregRead_text_short :
    ReadsText (readOf (textValue ['V', 'a', 'l', 'u', 'e'] (by decide))
        ['V', 'a', 'l', 'u', 'e']) [0x4e]
      ⟨0, some [], 4⟩ (utf8 ['V', 'a', 'l', 'u', 'e']) :=
  (ffwinregRead_text_iff _ ['V', 'a', 'l', 'u', 'e'] rfl rfl rfl rfl (readOf_wtou _ _)
    (fun _ hn => decide_eq_true hn)
    ⟨0, some [], 4⟩).mpr (by decide)

theorem replicate_lengths (n : Nat) :
    (utf8 (List.replicate n '€')).length = 3 * n ∧ (utf16 (List.replicate n '€')).length = n := by
  induction n with
  | zero => exact ⟨rfl, rfl⟩
  | succ n ih =>
    have h8 : (String.utf8EncodeChar '€').length = 3 := rfl
    have h16 : (utf16Char '€').length = 1 := rfl
    simp only [utf8, utf16, List.replicate_succ, List.flatMap_cons, List.length_append] at ih ⊢
    omega

theorem replicate_lost {n : Nat} (hlarge : 2 ^ 31 ≤ 3 * n) (hsmall : 2 * (n + 1) < 2 ^ 32) :
    ∃ h, ¬ ReadsText (readOf (textValue (List.replicate n '€') h) (List.replicate n '€')) [0x4e]
      ⟨0, none, 0⟩
      (utf8 (List.replicate n '€')) := by
  obtain ⟨h8, h16⟩ := replicate_lengths n
  refine ⟨by omega, fun hreads => ?_⟩
  refine ffwinregRead_large rfl rfl rfl (fun _ hn => decide_eq_true hn) ?_ (by omega) _
    (hreads.1 (Or.inl rfl))
  rw [textValue, trimNul_units, readOf_wtou]

/-- 715827883 characters of three bytes, 2^31 + 1 bytes. -/
theorem ffwinregRead_huge_lost :
    ∃ h, ¬ ReadsText
      (readOf (textValue (List.replicate 715827883 '€') h) (List.replicate 715827883 '€')) [0x4e]
      ⟨0, none, 0⟩ (utf8 (List.replicate 715827883 '€')) :=
  replicate_lost (by omega) (by omega)

end FFSys.Winreg
