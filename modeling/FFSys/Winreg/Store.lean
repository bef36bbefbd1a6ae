import FFSys.Winreg.Read
import Mathlib.Data.List.Induction
import Mathlib.Logic.Function.Basic

/-!
# A registry key as a store

The values of a key, written with `ffwinreg_write()`, deleted with `ffwinreg_del()` and read with
`ffwinreg_read()` and `ffwinreg_readstr()`.  The system finds a value by its name, in which it does
not tell some characters apart.

* `KeyOp`, `runKey` — a sequence of writes and deletions, on the values of the key.
* `ffwinregReadstr`, `ffwinregDel` — the functions over those of the other modules.
* `ReadsValue` — what a read has to give of a value.
* `ffwinreg_store` — after any sequence a name has the last value written to it and not deleted
  since, with its type, and it is read as it was written.
-/

set_option autoImplicit false

namespace FFSys.Winreg

open FFSys.Lib

/-! ## Writes and deletions -/

/-- A value as the program has it: a text with one of the types of strings, or the bytes of any
    other type. -/
inductive Datum where
  | text (expand : Bool) (cs : List Char)
  | other (type : UInt32) (bytes : List UInt8) (notStr : ffwinregIsstr type = false)

namespace Datum

def type : Datum → UInt32
  | .text expand _ => if expand then REG_EXPAND_SZ else REG_SZ
  | .other type _ _ => type

/-- The buffer that is passed to `ffwinreg_write()`. -/
def data : Datum → List UInt8
  | .text _ cs => utf8 cs
  | .other _ bytes _ => bytes

/-- A text has room for its terminator in the stack buffer; a size is a DWORD. -/
def Fits : Datum → Prop
  | .text _ cs => (utf16 cs).length < 256
  | .other _ bytes _ => bytes.length < 2 ^ 32

/-- The bytes that are stored. -/
def stored : Datum → List UInt8
  | .text _ cs => unitBytes (utf16 cs ++ [0])
  | .other _ bytes _ => bytes

end Datum

/-- The conversions between texts, `none` if one fails, and the allocation of a number of bytes. -/
structure Texts where
  utow : List UInt8 → Option (List UInt16)
  wtou : List UInt16 → Option (List UInt8)
  alloc : Nat → Bool

/-- The conversions are right on texts, and there is memory. -/
structure Texts.Exact (x : Texts) : Prop where
  utow : ∀ cs, x.utow (utf8 cs) = some (utf16 cs)
  wtou : ∀ cs, x.wtou (utf16 cs) = some (utf8 cs)
  alloc : ∀ n, n < 2 ^ 63 → x.alloc n = true

/-- A call of `ffwinreg_write()` or of `ffwinreg_del()` for a value of the key itself; `err` is the
    answer of the system. -/
inductive KeyOp where
  | write (name : List Char) (d : Datum) (err : Nat)
  | del (name : List Char) (err : Nat)

section Key

variable {κ : Type} [DecidableEq κ] (fold : List UInt16 → κ) (x : Texts)

/-- The system when it writes. -/
def Texts.writeEnv (err : Nat) : WriteEnv := ⟨x.utow, x.utow, x.alloc, fun _ _ _ => err⟩

/-- The system when it reads the values `k`. -/
def Texts.readEnv (k : κ → Option RegValue) : ReadEnv :=
  ⟨x.utow, fun wname => k (fold wname), x.wtou, x.alloc⟩

/-- The bytes that `RegSetValueExW` got are stored under the name. -/
def setKey (k : κ → Option RegValue) (name : List UInt8) (type : UInt32) (d : List UInt8) :
    κ → Option RegValue :=
  match x.utow name with
  | none => k
  | some wname =>
    if h : d.length < 2 ^ 32 then Function.update k (fold wname) (some ⟨type, d, h⟩) else k

/-- `ffwinreg_del()` with an empty subkey and a name. -/
def ffwinregDel (k : κ → Option RegValue) (name : List UInt8) (err : Nat) :
    Int × (κ → Option RegValue) :=
  match x.utow name with
  | none => (-1, k)
  | some wname => if err = 0 then (0, Function.update k (fold wname) none) else (err, k)

/-- One call.  `none`: a store outside of a buffer. -/
def runOp (k : κ → Option RegValue) : KeyOp → Option (κ → Option RegValue)
  | .write name d err =>
    match ffwinregWrite (x.writeEnv err) (utf8 name) d.type d.data with
    | none => none
    | some ⟨ret, passed⟩ =>
      match passed with
      | some bytes => some (if ret = 0 then setKey fold x k (utf8 name) d.type bytes else k)
      | none => some k
  | .del name err => some (ffwinregDel fold x k (utf8 name) err).2

def runKey : (κ → Option RegValue) → List KeyOp → Option (κ → Option RegValue)
  | k, [] => some k
  | k, op :: ops => (runOp fold x k op).bind fun k => runKey k ops

end Key

/-- `ffwinreg_readstr()`: 0 with a text, or -1. -/
def ffwinregReadstr (e : ReadEnv) (name : List UInt8) : Option (Int × List UInt8) :=
  (ffwinregRead e name ⟨0, none, 0⟩).map fun r =>
    if r.ret ≠ 1 ∨ ffwinregIsstr r.val.type = false then (-1, [])
    else (0, (r.val.data.getD []).take r.val.datalen)

/-! ## What a name has -/

def Datum.regValue (d : Datum) : Option RegValue :=
  if h : d.stored.length < 2 ^ 32 then some ⟨d.type, d.stored, h⟩ else none

namespace KeyOp

def name : KeyOp → List Char
  | .write name _ _ => name
  | .del name _ => name

def err : KeyOp → Nat
  | .write _ _ err => err
  | .del _ err => err

def Fits : KeyOp → Prop
  | .write _ d _ => d.Fits
  | .del _ _ => True

/-- What the system has for the name of the operation. -/
def result : KeyOp → Option RegValue
  | .write _ d _ => d.regValue
  | .del _ _ => none

end KeyOp

section Key

variable {κ : Type} [DecidableEq κ] {fold : List UInt16 → κ} {x : Texts}

/-- The last operation that the system accepted for the name. -/
def lastOp (fold : List UInt16 → κ) (name : List Char) (ops : List KeyOp) : Option KeyOp :=
  ops.reverse.find? fun op => op.err = 0 ∧ fold (utf16 op.name) = fold (utf16 name)

theorem lastOp_cons (name : List Char) (op : KeyOp) (ops : List KeyOp) :
    lastOp fold name (op :: ops) = (lastOp fold name ops).or
      (if op.err = 0 ∧ fold (utf16 op.name) = fold (utf16 name) then some op else none) := by
  rw [lastOp, List.reverse_cons, List.find?_append]
  congr 1
  rw [List.find?_singleton]
  simp only [decide_eq_true_eq]

theorem stored_length {d : Datum} (h : d.Fits) : d.stored.length < 2 ^ 32 := by
  cases d with
  | text expand cs =>
    have hlen : (utf16 cs).length < 256 := h
    rw [Datum.stored, unitBytes_length, List.length_append, List.length_singleton]
    omega
  | other type bytes hstr => exact h

theorem regValue_fits {d : Datum} (h : d.Fits) :
    d.regValue = some ⟨d.type, d.stored, stored_length h⟩ := dif_pos (stored_length h)

theorem isstr_text (expand : Bool) (cs : List Char) :
    ffwinregIsstr (Datum.text expand cs).type = true := by
  cases expand <;> rfl

/-- A write hands the stored form to the system. -/
theorem ffwinregWrite_datum (hx : x.Exact) (name : List Char) {d : Datum} (h : d.Fits) (err : Nat) :
    ffwinregWrite (x.writeEnv err) (utf8 name) d.type d.data =
      some ⟨if err = 0 then 0 else -1, some d.stored⟩ := by
  have hname : (x.writeEnv err).nameUtow (utf8 name) = some (utf16 name) := hx.utow name
  have hset : ∀ bytes : List UInt8, bytes.length < 2 ^ 32 →
      (x.writeEnv err).setValue (utf16 name) d.type bytes =
        ⟨if err = 0 then 0 else -1, some bytes⟩ := by
    intro bytes hlen
    rw [WriteEnv.setValue, Nat.mod_eq_of_lt hlen, List.take_length]
    rfl
  cases d with
  | text expand cs =>
    have hutow : (x.writeEnv err).utow (utf8 cs) = some (utf16 cs) := hx.utow cs
    have hpassed := hset _ (stored_length h)
    simp only [Datum.stored] at hpassed ⊢
    rw [Datum.data, ffwinregWrite_short hname (isstr_text expand cs) hutow h, hpassed]
  | other type bytes hstr =>
    have hpassed := hset bytes h
    rw [ffwinregWrite, hname]
    simp only [Datum.type, Datum.data, Datum.stored] at hpassed ⊢
    simp only [hstr, hpassed, Bool.false_eq_true, if_false]

/-- One call: the name has what the operation leaves, and no other name changes. -/
theorem runOp_spec (fold : List UInt16 → κ) (hx : x.Exact) {op : KeyOp} (h : op.Fits) (k : κ → Option RegValue) :
    runOp fold x k op =
      some (if op.err = 0 then Function.update k (fold (utf16 op.name)) op.result else k) := by
  cases op with
  | write name d err =>
    have hset : setKey fold x k (utf8 name) d.type d.stored =
        Function.update k (fold (utf16 name)) d.regValue := by
      rw [setKey, hx.utow, regValue_fits h]
      exact dif_pos (stored_length h)
    rw [runOp, ffwinregWrite_datum hx name h err]
    by_cases herr : err = 0
    · have hop : (KeyOp.write name d err).err = 0 := herr
      rw [if_pos hop, if_pos herr]
      exact congrArg some hset
    · have hop : ¬ (KeyOp.write name d err).err = 0 := herr
      rw [if_neg hop, if_neg herr]
      rfl
  | del name err =>
    rw [runOp, ffwinregDel, hx.utow]
    by_cases herr : err = 0
    · have hop : (KeyOp.del name err).err = 0 := herr
      rw [if_pos hop]
      simp only [if_pos herr]
      rfl
    · have hop : ¬ (KeyOp.del name err).err = 0 := herr
      rw [if_neg hop]
      simp only [if_neg herr]

/-- Induction on the operations. -/
theorem runKey_spec (fold : List UInt16 → κ) (hx : x.Exact) : ∀ (ops : List KeyOp) (k : κ → Option RegValue),
    (∀ op ∈ ops, op.Fits) → ∃ k', runKey fold x k ops = some k' ∧ ∀ name,
      k' (fold (utf16 name)) = (match lastOp fold name ops with
        | some op => op.result
        | none => k (fold (utf16 name)))
  | [], k, _ => ⟨k, rfl, fun _ => rfl⟩
  | op :: ops, k, h => by
    have hop := runOp_spec fold hx (h op List.mem_cons_self) k
    obtain ⟨k', hrun, hk'⟩ := runKey_spec fold hx ops
      (if op.err = 0 then Function.update k (fold (utf16 op.name)) op.result else k)
      fun op' hop' => h op' (List.mem_cons_of_mem _ hop')
    refine ⟨k', ?_, ?_⟩
    · rw [runKey, hop]
      exact hrun
    · intro name
      rw [hk', lastOp_cons]
      cases lastOp fold name ops with
      | some op' => rfl
      | none =>
        rw [Option.none_or]
        by_cases herr : op.err = 0
        · rw [if_pos herr]
          by_cases hsame : fold (utf16 op.name) = fold (utf16 name)
          · rw [if_pos ⟨herr, hsame⟩, ← hsame]
            exact Function.update_self _ _ _
          · rw [if_neg fun hc => hsame hc.2]
            exact Function.update_of_ne (Ne.symm hsame) _ _
        · rw [if_neg herr, if_neg fun hc => herr hc.1]

end Key

/-! ## Reading -/

/-- The bytes are read without a buffer and into one that is large enough; otherwise 0 is returned
    with their number. -/
def ReadsBytes (e : ReadEnv) (name : List UInt8) (val : RegVal) (bytes : List UInt8) : Prop :=
  (val.data = none ∨ bytes.length ≤ val.datalen → Gives (ffwinregRead e name val) bytes) ∧
  (¬ (val.data = none ∨ bytes.length ≤ val.datalen) →
    ∃ r, ffwinregRead e name val = some r ∧ r.ret = 0 ∧ r.val.datalen = bytes.length)

/-- What a read has to give of a value. -/
def ReadsValue (e : ReadEnv) (name : List UInt8) (val : RegVal) (d : Datum) : Prop :=
  (∃ r, ffwinregRead e name val = some r ∧ r.val.type = d.type) ∧
    match d with
    | .text _ cs => ReadsText e name val (utf8 cs)
    | .other _ bytes _ => ReadsBytes e name val bytes

/-- What `ffwinreg_readstr()` has to give of a value. -/
def Datum.readstr : Datum → Int × List UInt8
  | .text _ cs => (0, utf8 cs)
  | .other _ _ _ => (-1, [])

section Read

variable {e : ReadEnv} {name : List UInt8} {wname : List UInt16} {v : RegValue}

theorem convert_type (type : UInt32) (val : RegVal) (w : List UInt16) (size : Nat) :
    (e.convert type val w size).val.type = type := by
  cases h : e.ffsWtou val.datalen w with
  | none =>
    rw [ReadEnv.convert, h]
  | some u =>
    have hrun : e.convert type val w size =
        if toInt u.length < 0 then ⟨0, type, val.data.map fun old => overwrite old u, size / 2 * 4⟩
        else ⟨1, type, val.data.map fun old => overwrite old u, toSize (toInt u.length)⟩ := by
      rw [ReadEnv.convert, h]
    rw [hrun]
    split <;> rfl

/-- A string is read with its type. -/
theorem ffwinregRead_type (hname : e.nameUtow name = some wname) (hv : e.value wname = some v)
    (hstr : ffwinregIsstr v.type = true) (halloc : ∀ n, n < 2 ^ 63 → e.alloc n = true)
    (hsize : e.alloc (toSize (toInt (e.ffsWtouSize (trimNul (bytesUnits v.content))))) = true)
    (val : RegVal) : ∃ r, ffwinregRead e name val = some r ∧ r.val.type = v.type := by
  obtain ⟨val', valptr, hrun, -, -⟩ := ffwinregRead_eq hname hv hstr halloc val
  refine ⟨_, hrun, ?_⟩
  rcases readText_eq halloc v.type val' valptr v.small with ⟨old, -, htext⟩ | ⟨-, htext⟩
  · rw [htext, convert_type]
  · rw [htext, if_pos hsize, convert_type]

/-- Bytes of another type, from the buffer that they fit. -/
theorem readData_gives (halloc : ∀ n, n < 2 ^ 63 → e.alloc n = true) (val : RegVal) (out : Bool)
    (hval : ∀ old, val.data = some old → old.take v.content.length = v.content) :
    Gives (some (e.readData v.type val out v.content)) v.content ∧
      (e.readData v.type val out v.content).val.type = v.type := by
  have hsmall := v.small
  unfold ReadEnv.readData
  cases hdata : val.data with
  | none =>
    simp only [halloc v.content.length (by omega), Bool.or_true, if_true, and_true]
    exact gives_iff.mpr ⟨rfl, rfl, v.content, rfl, List.take_length⟩
  | some old =>
    exact ⟨gives_iff.mpr ⟨rfl, rfl, old, rfl, hval old hdata⟩, rfl⟩

/-- A value of another type. -/
theorem ffwinregRead_bytes (hname : e.nameUtow name = some wname) (hv : e.value wname = some v)
    (hstr : ffwinregIsstr v.type = false) (halloc : ∀ n, n < 2 ^ 63 → e.alloc n = true)
    {val : RegVal} (hlen : val.datalen < 2 ^ 32) :
    ReadsBytes e name val v.content ∧
      ∃ r, ffwinregRead e name val = some r ∧ r.val.type = v.type := by
  have hsmall := v.small
  rw [ReadsBytes, ffwinregRead, hname]
  simp only [hv]
  cases hdata : val.data with
  | none =>
    simp only
    by_cases hstack : v.content.length ≤ 256
    · have hrun : e.readLoop (some v) 2 val .stack false 256 =
          some (e.readData v.type val false v.content) := by
        rw [ReadEnv.readLoop]
        simp only [hstack, hstr, reduceCtorEq, if_true, if_false, Bool.false_eq_true]
      obtain ⟨hgives, htype⟩ := readData_gives halloc val false
        (fun old h => by rw [hdata] at h; cases h)
      rw [hrun]
      exact ⟨⟨fun _ => hgives, fun h => absurd (Or.inl trivial) h⟩, _, rfl, htype⟩
    · have hrun : e.readLoop (some v) 2 val .stack false 256 =
          some (e.readData v.type val true v.content) := by
        rw [ReadEnv.readLoop]
        simp only [hstack, hstr, hdata, halloc v.content.length (by omega), if_true, if_false,
          Bool.false_and, Bool.false_eq_true, Bool.not_false, Bool.true_and, Bool.or_false,
          Option.isSome_none]
        rw [ReadEnv.readLoop]
        simp only [Nat.le_refl, hstr, reduceCtorEq, if_true, if_false, Bool.false_eq_true]
      obtain ⟨hgives, htype⟩ := readData_gives halloc val true
        (fun old h => by rw [hdata] at h; cases h)
      rw [hrun]
      exact ⟨⟨fun _ => hgives, fun h => absurd (Or.inl trivial) h⟩, _, rfl, htype⟩
  | some old =>
    simp only [Nat.mod_eq_of_lt hlen]
    by_cases hfits : v.content.length ≤ val.datalen
    · have hrun : e.readLoop (some v) 2 val .user false val.datalen =
          some (e.readData v.type { val with data := some (overwrite old v.content) } false
            v.content) := by
        rw [ReadEnv.readLoop]
        simp only [hfits, hstr, hdata, if_true, if_false, Bool.false_eq_true, Option.map_some]
      obtain ⟨hgives, htype⟩ := readData_gives halloc
        { val with data := some (overwrite old v.content) } false
        (fun old' h => by cases h; exact take_overwrite old v.content)
      rw [hrun]
      exact ⟨⟨fun _ => hgives, fun h => absurd (Or.inr hfits) h⟩, _, rfl, htype⟩
    · have hrun : e.readLoop (some v) 2 val .user false val.datalen =
          some ⟨0, v.type, val.data, v.content.length⟩ := by
        rw [ReadEnv.readLoop]
        simp only [hfits, hstr, hdata, if_true, if_false, Bool.false_and, Bool.false_eq_true,
          Bool.not_false, Bool.true_and, Bool.true_or, Option.isSome_some]
      rw [hrun]
      refine ⟨⟨fun h => ?_, fun _ => ⟨_, rfl, rfl, rfl⟩⟩, _, rfl, rfl⟩
      rcases h with h | h
      · cases h
      · exact absurd h hfits

end Read

section Key

variable {κ : Type} {fold : List UInt16 → κ} {x : Texts}

/-- A stored value is read as it was written. -/
theorem reads_stored (hx : x.Exact) {k : κ → Option RegValue} {name : List Char} {d : Datum}
    (h : d.Fits) (hk : k (fold (utf16 name)) = d.regValue) (val : RegVal)
    (hlen : val.datalen < 2 ^ 32) : ReadsValue (x.readEnv fold k) (utf8 name) val d := by
  have hname : (x.readEnv fold k).nameUtow (utf8 name) = some (utf16 name) := hx.utow name
  have hv : (x.readEnv fold k).value (utf16 name) =
      some ⟨d.type, d.stored, stored_length h⟩ := hk.trans (regValue_fits h)
  cases d with
  | text expand cs =>
    have hw : (x.readEnv fold k).wtou (trimNul (bytesUnits (unitBytes (utf16 cs ++ [0])))) =
        some (utf8 cs) := by
      rw [trimNul_units]
      exact hx.wtou cs
    have hfits : (utf16 cs).length < 256 := h
    have hle := utf8_length_le cs
    have hsmall : (utf8 cs).length < 2 ^ 31 := by omega
    have hint : toInt (utf8 cs).length = (utf8 cs).length := toInt_of_lt hsmall
    have hstr := isstr_text expand cs
    refine ⟨ffwinregRead_type hname hv hstr hx.alloc ?_ val, ?_, fun hbuf => ?_⟩
    · simp only [Datum.stored]
      rw [ffsWtouSize_eq hw, hint, toSize_natCast hsmall]
      exact hx.alloc _ (by omega)
    · exact ffwinregRead_gives hname hv hstr hx.alloc hw hsmall
    · obtain ⟨r, hrun, hret, hdatalen⟩ := ffwinregRead_short hname hv hstr hx.alloc hw hbuf
      refine ⟨r, hrun, hret, fun type old => ?_⟩
      refine ffwinregRead_gives hname hv hstr hx.alloc hw hsmall (Or.inr ?_)
      rw [hdatalen]
      simp only [Datum.stored, unitBytes_length, List.length_append, List.length_singleton]
      omega
  | other type bytes hstr =>
    obtain ⟨hread, htype⟩ := ffwinregRead_bytes hname hv hstr hx.alloc hlen
    exact ⟨htype, hread⟩

theorem gives_text {s : List UInt8} {out : Option Read} (h : Gives out s) :
    ∃ r, out = some r ∧ r.ret = 1 ∧ (r.val.data.getD []).take r.val.datalen = s := by
  obtain ⟨r, data, hr, hret, hdata, hlen, htake⟩ := h
  refine ⟨r, hr, hret, ?_⟩
  rw [hdata, hlen]
  exact htake

/-- `ffwinreg_readstr()` gives the texts, and nothing of another type. -/
theorem ffwinregReadstr_stored (hx : x.Exact) {k : κ → Option RegValue} {name : List Char}
    {d : Datum} (h : d.Fits) (hk : k (fold (utf16 name)) = d.regValue) :
    ffwinregReadstr (x.readEnv fold k) (utf8 name) =
      some d.readstr := by
  have hread := reads_stored hx h hk ⟨0, none, 0⟩ (by decide)
  cases d with
  | text expand cs =>
    obtain ⟨⟨r, hr, htype⟩, htext⟩ := hread
    obtain ⟨r', hr', hret, htake⟩ := gives_text (htext.1 (Or.inl rfl))
    rw [hr] at hr'
    cases hr'
    have hstr : ¬ (r.ret ≠ 1 ∨ ffwinregIsstr r.val.type = false) := by
      rw [htype, isstr_text, hret]
      simp
    rw [ffwinregReadstr, hr, Option.map_some, if_neg hstr, htake, Datum.readstr]
  | other type bytes hstr =>
    obtain ⟨⟨r, hr, htype⟩, -⟩ := hread
    have hno : r.ret ≠ 1 ∨ ffwinregIsstr r.val.type = false := Or.inr (htype ▸ hstr)
    rw [ffwinregReadstr, hr, Option.map_some, if_pos hno, Datum.readstr]

variable [DecidableEq κ]

/-- **A registry key is a store.**  After any sequence of writes and deletions, whatever the
    system answers and whichever names it takes for one: a name has the last value that was
    written to it and not deleted since.  A text of fewer than 256 UTF-16 units is read back with
    its type, without a buffer or with one of any size, where 0 is returned with a size that is
    enough if it is too small; so are the bytes of any other type, where the size is exact;
    `ffwinreg_readstr()` gives the texts only.  A deleted value is not read. -/
theorem ffwinreg_store (fold : List UInt16 → κ) (x : Texts) (hx : x.Exact)
    (k : κ → Option RegValue) (ops : List KeyOp) (hfit : ∀ op ∈ ops, op.Fits) :
    ∃ k', runKey fold x k ops = some k' ∧ ∀ name,
      match lastOp fold name ops with
      | some (.write _ d _) =>
        (∀ val, val.datalen < 2 ^ 32 → ReadsValue (x.readEnv fold k') (utf8 name) val d) ∧
          ffwinregReadstr (x.readEnv fold k') (utf8 name) = some d.readstr
      | some (.del _ _) => ∀ val, ffwinregRead (x.readEnv fold k') (utf8 name) val = some ⟨-1, val⟩
      | none => k' (fold (utf16 name)) = k (fold (utf16 name)) := by
  obtain ⟨k', hrun, hk'⟩ := runKey_spec fold hx ops k hfit
  refine ⟨k', hrun, fun name => ?_⟩
  have hname := hk' name
  cases hlast : lastOp fold name ops with
  | none =>
    rw [hlast] at hname
    exact hname
  | some op =>
    rw [hlast] at hname
    cases op with
    | write name' d err =>
      have hd : d.Fits := hfit _ (List.mem_reverse.mp (List.mem_of_find?_eq_some hlast))
      exact ⟨fun val hlen => reads_stored hx hd hname val hlen, ffwinregReadstr_stored hx hd hname⟩
    | del name' err =>
      intro val
      have hutow : (x.readEnv fold k').nameUtow (utf8 name) = some (utf16 name) := hx.utow name
      have hnone : (x.readEnv fold k').value (utf16 name) = none := hname
      rw [ffwinregRead, hutow]
      simp only [hnone]
      cases val.data <;> rfl

end Key

/-- Conversions of texts, with memory for them. -/
def texts : Texts where
  utow s := (utf8Decode s).map utf16
  wtou w := (utf16Decode w).map utf8
  alloc _ := true

theorem texts_exact : texts.Exact where
  utow cs := by simp only [texts, utf8Decode_utf8, Option.map_some]
  wtou cs := by simp only [texts, utf16Decode_utf16, Option.map_some]
  alloc _ _ := rfl

/-- A text written over a number; the second text is refused. -/
theorem ffwinreg_store_last :
    ∃ k', runKey id texts (fun _ => none)
        [.write ['N'] (.other 4 [1, 0, 0, 0] rfl) 0, .write ['N'] (.text true ['%', '€']) 0,
          .write ['N'] (.text false ['a']) 5] = some k' ∧
      ffwinregReadstr (texts.readEnv id k') (utf8 ['N']) = some (0, utf8 ['%', '€']) := by
  obtain ⟨k', hrun, hk'⟩ := ffwinreg_store id texts texts_exact (fun _ => none)
    [.write ['N'] (.other 4 [1, 0, 0, 0] rfl) 0, .write ['N'] (.text true ['%', '€']) 0,
      .write ['N'] (.text false ['a']) 5]
    (by
      intro op hop
      simp only [List.mem_cons, List.not_mem_nil, or_false] at hop
      rcases hop with rfl | rfl | rfl <;> simp only [KeyOp.Fits, Datum.Fits] <;> decide)
  exact ⟨k', hrun, (hk' ['N']).2⟩

end FFSys.Winreg
