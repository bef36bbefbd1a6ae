import FFSys.Lib.Bytes
import FFSys.Std.Utf8

/-!
# Keys received from a terminal

Model of `ffstd_key_parse_unix` and `ffstd_paste_read` of `ffsys/std.h`:

* `key3b7e`, `key4148`, `keyFin` — the labels `I_3b_or_7e`, `I_41_48` and `fin`.
* `keyEscape` — the branches for `ESC`, on the window of 8 bytes that is filled up with zeros.
* `ffstdKeyParseUnix` — the whole function; `ffstdPasteRead`.
-/

set_option autoImplicit false

namespace FFSys.Std

open FFSys.Lib

/-! ## Key codes -/

def ESC : Byte := 0x1b

def FFKEY_VIRT : BitVec 32 := 0x08000000
def FFKEY_DEL : BitVec 32 := 0x08000001
def FFKEY_INS : BitVec 32 := 0x08000002
def FFKEY_UP : BitVec 32 := 0x08000003
def FFKEY_DOWN : BitVec 32 := 0x08000004
def FFKEY_RIGHT : BitVec 32 := 0x08000005
def FFKEY_LEFT : BitVec 32 := 0x08000006
def FFKEY_HOME : BitVec 32 := 0x08000007
def FFKEY_END : BitVec 32 := 0x08000008
def FFKEY_PGUP : BitVec 32 := 0x08000009
def FFKEY_PGDN : BitVec 32 := 0x0800000a
def FFKEY_F1 : BitVec 32 := 0x0800000b
def FFKEY_F2 : BitVec 32 := 0x0800000c
def FFKEY_F3 : BitVec 32 := 0x0800000d
def FFKEY_F4 : BitVec 32 := 0x0800000e
def FFKEY_F5 : BitVec 32 := 0x0800000f
def FFKEY_F6 : BitVec 32 := 0x08000010
def FFKEY_F7 : BitVec 32 := 0x08000011
def FFKEY_F8 : BitVec 32 := 0x08000012
def FFKEY_F9 : BitVec 32 := 0x08000013
def FFKEY_F10 : BitVec 32 := 0x08000014
def FFKEY_F11 : BitVec 32 := 0x08000015
def FFKEY_F12 : BitVec 32 := 0x08000016
def FFKEY_TEXT_PASTED : BitVec 32 := 0x08000017

def FFKEY_CTRL : BitVec 32 := 0x01000000
def FFKEY_SHIFT : BitVec 32 := 0x02000000
def FFKEY_ALT : BitVec 32 := 0x04000000

def keysMod : List (BitVec 32) :=
  [0, 0, FFKEY_SHIFT >>> 24, FFKEY_ALT >>> 24, (FFKEY_SHIFT ||| FFKEY_ALT) >>> 24, FFKEY_CTRL >>> 24,
    (FFKEY_CTRL ||| FFKEY_SHIFT) >>> 24, (FFKEY_CTRL ||| FFKEY_ALT) >>> 24,
    (FFKEY_CTRL ||| FFKEY_SHIFT ||| FFKEY_ALT) >>> 24]

def keysF5F8 : List (BitVec 32) :=
  [0, 0, 0, 0, 0, FFKEY_F5 &&& 0xff, 0, FFKEY_F6 &&& 0xff, FFKEY_F7 &&& 0xff, FFKEY_F8 &&& 0xff]

def keysF9F12 : List (BitVec 32) :=
  [FFKEY_F9 &&& 0xff, FFKEY_F10 &&& 0xff, 0, FFKEY_F11 &&& 0xff, FFKEY_F12 &&& 0xff]

def keys3x : List (BitVec 32) :=
  [0, 0, FFKEY_INS &&& 0xff, FFKEY_DEL &&& 0xff, 0, FFKEY_PGUP &&& 0xff, FFKEY_PGDN &&& 0xff]

def keys4x : List (BitVec 32) :=
  [0, FFKEY_UP &&& 0xff, FFKEY_DOWN &&& 0xff, FFKEY_RIGHT &&& 0xff, FFKEY_LEFT &&& 0xff, 0,
    FFKEY_END &&& 0xff, 0, FFKEY_HOME &&& 0xff]

/-- `table[b - base]`. -/
def keyAt (table : List (BitVec 32)) (b base : Byte) : BitVec 32 :=
  table.getD (b.toNat - base.toNat) 0

/-- `lo <= b && b <= hi`. -/
def within (lo hi b : Byte) : Bool := decide (lo ≤ b) && decide (b ≤ hi)

/-! ## `ffstd_key_parse_unix` -/

/-- The value returned, and `*read` if it is assigned. -/
structure KeyRes where
  ret : BitVec 32
  read : Option Nat
  deriving DecidableEq, Repr

/-- `return -1`. -/
def keyError : BitVec 32 := 0xffffffff

/-- `ffmem_copy(&i, bytes, n)`: the low bytes of `i` are replaced. -/
def memCopy (i : Nat) (bytes : List Byte) : BitVec 32 :=
  BitVec.ofNat 32 (i / 256 ^ bytes.length * 256 ^ bytes.length + leNat bytes)

/-- `d[i]`: the first 8 bytes of the data, filled up with zeros. -/
def window (data : List Byte) (i : Nat) : Byte := (data.take 8).getD i 0

/-- `fin:` -/
def keyFin (r : BitVec 32) (i : Nat) : KeyRes :=
  ⟨if r ≠ 0 then FFKEY_VIRT ||| r else keyError, some (i + 1)⟩

/-- `I_3b_or_7e:` -/
def key3b7e (d : Nat → Byte) (r : BitVec 32) (i : Nat) : KeyRes :=
  if d i = 0x3b then
    if within 0x32 0x38 (d (i + 1)) then
      if d (i + 2) = 0x7e then keyFin (r ||| keyAt keysMod (d (i + 1)) 0x30 <<< 24) (i + 2)
      else ⟨keyError, none⟩
    else ⟨keyError, none⟩
  else if d i = 0x7e then keyFin r i
  else ⟨keyError, none⟩

/-- `I_41_48:` -/
def key4148 (d : Nat → Byte) (r : BitVec 32) (i : Nat) : KeyRes :=
  if within 0x41 0x48 (d i) then keyFin (r ||| keyAt keys4x (d i) 0x40) i
  else ⟨keyError, none⟩

/-- `ESC O`. -/
def keySs3 (d : Nat → Byte) : KeyRes :=
  if within 0x32 0x38 (d 2) then
    if within 0x50 0x53 (d 3) then
      keyFin (keyAt keysMod (d 2) 0x30 <<< 24 ||| (FFKEY_F1 + BitVec.ofNat 32 (d 3).toNat - 0x50)) 3
    else ⟨keyError, none⟩
  else if within 0x50 0x53 (d 2) then keyFin (FFKEY_F1 + BitVec.ofNat 32 (d 2).toNat - 0x50) 2
  else ⟨keyError, none⟩

/-- `ESC [`. -/
def keyCsi (d : Nat → Byte) : KeyRes :=
  if d 2 = 0x31 then
    if within 0x35 0x39 (d 3) then key3b7e d (keyAt keysF5F8 (d 3) 0x30) 4
    else if d 3 = 0x3b then
      if within 0x32 0x38 (d 4) then key4148 d (keyAt keysMod (d 4) 0x30 <<< 24) 5
      else ⟨keyError, none⟩
    else ⟨keyError, none⟩
  else if d 2 = 0x32 ∧ d 3 = 0x30 ∧ (d 4 = 0x30 ∨ d 4 = 0x31) ∧ d 5 = 0x7e then
    ⟨FFKEY_TEXT_PASTED, some 6⟩
  else if d 2 = 0x32 ∧ within 0x30 0x34 (d 3) then key3b7e d (keyAt keysF9F12 (d 3) 0x30) 4
  else if within 0x32 0x36 (d 2) then key3b7e d (keyAt keys3x (d 2) 0x30) 3
  else key4148 d 0 2

/-- A character of at most `limit` bytes; `i` is the code point, overwritten by its bytes. -/
def keyChar (U : Ffutf8) (data : List Byte) (limit : Int) (key : BitVec 32) (skip : Nat) : KeyRes :=
  let r := (U.decode data).1
  let i := (U.decode data).2
  if r < 0 then ⟨0, none⟩
  else if r = 0 ∨ r > limit then ⟨keyError, none⟩
  else ⟨key ||| memCopy i (data.take r.toNat), some (skip + r.toNat)⟩

/-- The part after `if (data[0] != 0x1b)`. -/
def keyEscape (U : Ffutf8) (data : List Byte) : KeyRes :=
  let d := window data
  if d 1 = 0x4f then keySs3 d
  else if d 1 = 0x5b then keyCsi d
  else keyChar U (data.drop 1) 3 FFKEY_ALT 1

/-- `ffstd_key_parse_unix(data, len, read)`. -/
def ffstdKeyParseUnix (U : Ffutf8) (data : List Byte) : KeyRes :=
  match data with
  | [] => ⟨0, none⟩
  | b :: _ => if b ≠ ESC then keyChar U data 4 0 0 else keyEscape U data

/-! ## `ffstd_paste_read` -/

/-- `"\x1b[201~"`. -/
def pasteEnd : List Byte := [ESC, 0x5b, 0x32, 0x30, 0x31, 0x7e]

/-- `ffs_findstr`: the position of the first occurrence. -/
def ffsFindstr (pat : List Byte) : List Byte → Option Nat
  | [] => if pat = [] then some 0 else none
  | b :: bs => if pat.isPrefixOf (b :: bs) then some 0 else (ffsFindstr pat bs).map (· + 1)

/-- `ffstd_paste_read(d, len, text)`: the value returned, an `ffuint`, and the length of the text,
    which starts at `d + 6`; `none` if it is not assigned. -/
def ffstdPasteRead (d : List Byte) : BitVec 32 × Option (BitVec 64) :=
  match ffsFindstr pasteEnd d with
  | some r =>
    if r < 6 then (0, none)
    else (BitVec.ofNat 32 (r + 6), some (BitVec.ofNat 64 r - 6))
  | none => (0, some (BitVec.ofNat 64 d.length - 6))

/-- The bytes of the text. -/
def pasteText (d : List Byte) (len : BitVec 64) : List Byte := (d.drop 6).take len.toNat

end FFSys.Std
