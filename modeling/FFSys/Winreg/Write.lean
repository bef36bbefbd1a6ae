import FFSys.Lib.Unicode

/-!
# Writing a registry value

* `WBuf` — a buffer of wide characters and what is written to it; `WBuf.push` — the next one, or a
  store outside of it.
* `ffsAllocBufUtow` — `ffs_alloc_buf_utow`: a text in the given buffer, or in a new one of exactly
  its size.
* `ffwinregWrite` — `ffwinreg_write`, which appends a NUL to the text; a store outside of the buffer
  is `none`.
* `ffwinregWrite_inside_iff` — the lengths for which the NUL is inside of the buffer: a text of 256
  units fills the stack buffer, and any longer one fills the buffer that is allocated for it.
-/

set_option autoImplicit false

namespace FFSys.Winreg

open FFSys.Lib

/-! ## The functions -/

def REG_SZ : UInt32 := 1

def REG_EXPAND_SZ : UInt32 := 2

/-- `ffwinreg_isstr`. -/
def ffwinregIsstr (type : UInt32) : Bool := type == REG_SZ || type == REG_EXPAND_SZ

structure WBuf where
  cap : Nat
  text : List UInt16
  fits : text.length ≤ cap

def WBuf.push (b : WBuf) (c : UInt16) : Option WBuf :=
  if h : b.text.length < b.cap then
    some ⟨b.cap, b.text ++ [c], by rw [List.length_append, List.length_singleton]; exact h⟩
  else none

/-- What `ffwinreg_write` calls: the conversion of the name (`ffsz_alloc_buf_utow`) and of a text
    (`ffutf8_to_utf16`), the allocation of a number of bytes, and `RegSetValueExW`. -/
structure WriteEnv where
  nameUtow : List UInt8 → Option (List UInt16)
  utow : List UInt8 → Option (List UInt16)
  alloc : Nat → Bool
  regSetValueExW : List UInt16 → UInt32 → List UInt8 → Nat

/-- What is returned, and the bytes that `RegSetValueExW` got if it was called. -/
structure Written where
  ret : Int
  passed : Option (List UInt8)

namespace WriteEnv

variable (e : WriteEnv)

/-- `ffutf8_to_utf16` into a buffer of `cap` wide characters. -/
def ffutf8ToUtf16 (cap : Nat) (s : List UInt8) : Option WBuf :=
  match e.utow s with
  | none => none
  | some w => if h : w.length ≤ cap then some ⟨cap, w, h⟩ else none

/-- `ffs_alloc_buf_utow` with a buffer of `cap` wide characters. -/
def ffsAllocBufUtow (cap : Nat) (s : List UInt8) : Option WBuf :=
  match e.ffutf8ToUtf16 cap s with
  | some b => some b
  | none =>
    match e.utow s with
    | none => none
    | some w => if e.alloc (2 * w.length) then e.ffutf8ToUtf16 w.length s else none

/-- The size for `RegSetValueExW` is a DWORD. -/
def setValue (wname : List UInt16) (type : UInt32) (d : List UInt8) : Written :=
  let passed := d.take (d.length % 2 ^ 32)
  ⟨if e.regSetValueExW wname type passed = 0 then 0 else -1, some passed⟩

end WriteEnv

/-- `ffwinreg_write`. -/
def ffwinregWrite (e : WriteEnv) (name : List UInt8) (type : UInt32) (data : List UInt8) :
    Option Written :=
  match e.nameUtow name with
  | none => some ⟨-1, none⟩
  | some wname =>
    if ffwinregIsstr type then
      match e.ffsAllocBufUtow 256 data with
      | none => some ⟨-1, none⟩
      | some wval =>
        match wval.push 0 with
        | none => none
        | some wval => some (e.setValue wname type (unitBytes wval.text))
    else some (e.setValue wname type data)

/-! ## The terminator -/

section Write

variable {e : WriteEnv} {s : List UInt8} {w : List UInt16}

theorem ffutf8ToUtf16_fits (hutow : e.utow s = some w) {cap : Nat} (h : w.length ≤ cap) :
    e.ffutf8ToUtf16 cap s = some ⟨cap, w, h⟩ := by
  rw [WriteEnv.ffutf8ToUtf16, hutow]
  exact dif_pos h

/-- A text that does not fit gets a buffer of its size. -/
theorem ffsAllocBufUtow_long (hutow : e.utow s = some w) {cap : Nat} (h : cap < w.length) :
    e.ffsAllocBufUtow cap s =
      if e.alloc (2 * w.length) then some ⟨w.length, w, Nat.le_refl _⟩ else none := by
  have hno : e.ffutf8ToUtf16 cap s = none := by
    rw [WriteEnv.ffutf8ToUtf16, hutow]
    exact dif_neg (Nat.not_le.mpr h)
  rw [WriteEnv.ffsAllocBufUtow, hno, hutow]
  simp only [ffutf8ToUtf16_fits hutow (Nat.le_refl _)]

theorem ffsAllocBufUtow_short (hutow : e.utow s = some w) {cap : Nat} (h : w.length ≤ cap) :
    e.ffsAllocBufUtow cap s = some ⟨cap, w, h⟩ := by
  rw [WriteEnv.ffsAllocBufUtow, ffutf8ToUtf16_fits hutow h]

/-- A text shorter than the stack buffer. -/
theorem ffwinregWrite_short {name : List UInt8} {wname : List UInt16} {type : UInt32}
    (hname : e.nameUtow name = some wname) (htype : ffwinregIsstr type = true)
    (hutow : e.utow s = some w) (h : w.length < 256) :
    ffwinregWrite e name type s = some (e.setValue wname type (unitBytes (w ++ [0]))) := by
  have hpush : (⟨256, w, by omega⟩ : WBuf).push 0 =
      some ⟨256, w ++ [0], by rw [List.length_append, List.length_singleton]; exact h⟩ := dif_pos h
  rw [ffwinregWrite, hname, ffsAllocBufUtow_short hutow (by omega : w.length ≤ 256)]
  simp only [htype, if_true, hpush]

/-- A text that fills its buffer. -/
theorem ffwinregWrite_full {name : List UInt8} {wname : List UInt16} {type : UInt32}
    (hname : e.nameUtow name = some wname) (htype : ffwinregIsstr type = true) {b : WBuf}
    (hbuf : e.ffsAllocBufUtow 256 s = some b) (h : b.cap ≤ b.text.length) :
    ffwinregWrite e name type s = none := by
  have hpush : b.push 0 = none := dif_neg (Nat.not_lt.mpr h)
  rw [ffwinregWrite, hname, hbuf]
  simp only [htype, if_true, hpush]

theorem setValue_passed {wname : List UInt16} {type : UInt32} {d : List UInt8}
    (h : d.length < 2 ^ 32) :
    (e.setValue wname type d).passed = some d := by
  rw [WriteEnv.setValue, Nat.mod_eq_of_lt h, List.take_length]

end Write

/-- **The terminator of a written string** is inside of the buffer, and the string is passed with
    it, exactly if the text has fewer than 256 units, or the write fails before: the name cannot be
    converted, or the buffer for a text of more than 256 units cannot be allocated. -/
theorem ffwinregWrite_inside_iff (e : WriteEnv) (name : List UInt8) {type : UInt32} (cs : List Char)
    (htype : ffwinregIsstr type = true) (hutow : e.utow (utf8 cs) = some (utf16 cs)) :
    (∃ out, ffwinregWrite e name type (utf8 cs) = some out ∧
      ∀ d, out.passed = some d → d = unitBytes (utf16 cs ++ [0])) ↔
      e.nameUtow name = none ∨ (utf16 cs).length < 256 ∨
        (256 < (utf16 cs).length ∧ e.alloc (2 * (utf16 cs).length) = false) := by
  cases hname : e.nameUtow name with
  | none =>
    refine iff_of_true ⟨⟨-1, none⟩, ?_, fun d h => by cases h⟩ (Or.inl rfl)
    rw [ffwinregWrite, hname]
  | some wname =>
    rcases Nat.lt_trichotomy (utf16 cs).length 256 with hlt | heq | hgt
    · refine iff_of_true ⟨_, ffwinregWrite_short hname htype hutow hlt, fun d hd => ?_⟩
        (Or.inr (Or.inl hlt))
      rw [setValue_passed
        (by rw [unitBytes_length, List.length_append, List.length_singleton]; omega)] at hd
      exact (Option.some.inj hd).symm
    · have hrun : ffwinregWrite e name type (utf8 cs) = none :=
        ffwinregWrite_full hname htype (ffsAllocBufUtow_short hutow (Nat.le_of_eq heq))
          (Nat.le_of_eq heq.symm)
      rw [hrun]
      refine iff_of_false ?_ ?_
      · rintro ⟨out, h, -⟩
        cases h
      · rintro (h | h | ⟨h, -⟩)
        · cases h
        · omega
        · omega
    · cases halloc : e.alloc (2 * (utf16 cs).length) with
      | false =>
        refine iff_of_true ⟨⟨-1, none⟩, ?_, fun d h => by cases h⟩ (Or.inr (Or.inr ⟨hgt, rfl⟩))
        rw [ffwinregWrite, hname, ffsAllocBufUtow_long hutow hgt]
        simp [htype, halloc]
      | true =>
        have hbuf : e.ffsAllocBufUtow 256 (utf8 cs) =
            some ⟨(utf16 cs).length, utf16 cs, Nat.le_refl _⟩ := by
          rw [ffsAllocBufUtow_long hutow hgt, halloc]
          rfl
        rw [ffwinregWrite_full hname htype hbuf (Nat.le_refl _)]
        refine iff_of_false ?_ ?_
        · rintro ⟨out, h, -⟩
          cases h
        · rintro (h | h | ⟨-, h⟩)
          · cases h
          · omega
          · cases h

/-- A system that converts the text `cs`, and stores everything. -/
def writeOf (cs : List Char) : WriteEnv where
  nameUtow name := some (name.map fun b => UInt16.ofNat b.toNat)
  utow s := if s = utf8 cs then some (utf16 cs) else none
  alloc _ := true
  regSetValueExW _ _ _ := 0

/-- "Value" under the name "N". -/
theorem ffwinregWrite_inside_short :
    ∃ out, ffwinregWrite (writeOf ['V', 'a', 'l', 'u', 'e']) [0x4e] REG_SZ
      (utf8 ['V', 'a', 'l', 'u', 'e']) = some out ∧
      ∀ d, out.passed = some d → d = unitBytes (utf16 ['V', 'a', 'l', 'u', 'e'] ++ [0]) :=
  (ffwinregWrite_inside_iff (writeOf ['V', 'a', 'l', 'u', 'e']) [0x4e]
    ['V', 'a', 'l', 'u', 'e'] rfl rfl).mpr
    (Or.inr (Or.inl (by decide)))

/-- 256 letters fill the stack buffer. -/
theorem ffwinregWrite_full_outside :
    ¬ ∃ out, ffwinregWrite (writeOf (List.replicate 256 'a')) [0x4e] REG_SZ
      (utf8 (List.replicate 256 'a')) = some out ∧
      ∀ d, out.passed = some d → d = unitBytes (utf16 (List.replicate 256 'a') ++ [0]) := by
  have hrun : (ffwinregWrite (writeOf (List.replicate 256 'a')) [0x4e] REG_SZ
      (utf8 (List.replicate 256 'a'))).isNone = true := by decide +kernel
  rintro ⟨out, h, -⟩
  rw [h] at hrun
  cases hrun

end FFSys.Winreg
