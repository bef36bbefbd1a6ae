import Mathlib.Data.List.Infix
import FFSys.Lib.Bytes
import FFSys.Winreg.Read

/-!
# Enumerating registry values

* `KeyValue` — a value of a key with its name; `Steady` — a key whose values stay as they are.
* `ffwinregEnumNextval` — `ffwinreg_enum_nextval`, with `ffwinregValStr` (`_ffwinreg_val_str`),
  which makes text of a value: of a number or of bytes with `ffs_format_r0`, of a string as it is.
* `AgreesWithRead` — the text is the one that `ffwinreg_read` gives for the value.
* `enum_read_agree_iff` — where this is so: `ffwinreg_read` drops the last character of a string if
  it is a NUL; `_ffwinreg_val_str` takes `(len - 1) / 2` characters, which drops the last one of an
  even size whatever it is, and none of an odd size.
-/

set_option autoImplicit false

namespace FFSys.Winreg

open FFSys.Lib

/-! ## The functions -/

/-- Names of values have at most 16383 characters. -/
structure KeyValue where
  name : List UInt16
  value : RegValue
  short : name.length < 2 ^ 14

/-- What `RegEnumValueW` says. -/
inductive EnumAnswer where
  | entry (kv : KeyValue)
  | moreData
  | noMoreItems
  | error (code : Nat)

def REG_BINARY : UInt32 := 3
def REG_DWORD : UInt32 := 4
def REG_QWORD : UInt32 := 11

/-- An argument of `ffs_format_r0`. -/
inductive FormatArg where
  | num (n : Nat)
  | bytes (b : List UInt8)
  deriving DecidableEq, Repr

/-- What the enumeration calls: the entry of an index, for buffers of so many characters and bytes;
    the largest sizes of names and values (`RegQueryInfoKeyW`); and the text of a format. -/
structure EnumEnv extends ReadEnv where
  regEnumValueW : UInt32 → UInt32 → UInt32 → EnumAnswer
  regQueryInfoKeyW : Option (UInt32 × UInt32)
  format : String → List FormatArg → List UInt8

/-- `ffwinreg_enum`: the option `FFWINREG_ENUM_VALSTR`, the capacities of the buffers, and what is in
    the buffer of the data. -/
structure Enum where
  idx : UInt32
  valstr : Bool
  wname : UInt32
  wval : UInt32
  name : Nat
  value : Nat
  wvalPtr : Nat → UInt8

/-- Why there is no entry: no more of them, an error, or a failed `FF_ASSERT`. -/
inductive EnumEnd where
  | noMore
  | failed
  | assertion
  deriving DecidableEq, Repr

/-- What `ffwinreg_enum_nextval` gives out. -/
structure Entry where
  name : List UInt8
  value : List UInt8
  type : UInt32

def grow (cap n : UInt32) : UInt32 := if cap < n then n else cap

namespace EnumEnv

variable (e : EnumEnv)

/-- `ffs_wtou` with its result in an `int`, and `FF_ASSERT(r >= 0)`. -/
def wtouAsserted (cap : Nat) (w : List UInt16) : Except EnumEnd (List UInt8) :=
  match e.ffsWtou cap w with
  | none => .error .assertion
  | some u =>
    let r := toInt u.length
    if r < 0 then .error .assertion else .ok (u.take (toSize r))

/-- `ffs_format_r0`: the text, if it fits. -/
def ffsFormatR0 (cap : Nat) (fmt : String) (args : List FormatArg) : List UInt8 :=
  if (e.format fmt args).length ≤ cap then e.format fmt args else []

/-- `_ffwinreg_val_str`: the text of a value, and the capacity of its buffer.  A number is read from
    the start of the buffer `ptr`, whatever the size of the data `d` is. -/
def ffwinregValStr (ptr : Nat → UInt8) (type : UInt32) (cap : Nat) (d : List UInt8) :
    Except EnumEnd (List UInt8 × Nat) :=
  if type = REG_DWORD then
    let i := leNat ((List.range 4).map ptr)
    .ok (e.ffsFormatR0 cap "0x%08xu (%u)" [.num i, .num i], cap)
  else if type = REG_QWORD then
    let i := leNat ((List.range 8).map ptr)
    .ok (e.ffsFormatR0 cap "0x%016xU (%U)" [.num i, .num i], cap)
  else if type = REG_BINARY then
    if e.alloc (d.length * 2) then
      let cap := max cap (d.length * 2)
      .ok (e.ffsFormatR0 cap "%*xb" [.num d.length, .bytes d], cap)
    else .error .failed
  else if ffwinregIsstr type then
    if d.length = 0 then .ok ([], cap)
    else if e.alloc (d.length / 2 * 4) then
      let cap := max cap (d.length / 2 * 4)
      (e.wtouAsserted cap ((bytesUnits d).take ((d.length - 1) / 2))).map fun text => (text, cap)
    else .error .failed
  -- `ERROR_INVALID_DATA`
  else .error .failed

/-- The loop of `ffwinreg_enum_nextval`; the number is the fuel. -/
def enumLoop : Nat → Enum → Option (Except EnumEnd KeyValue × Enum)
  | 0, _ => none
  | fuel + 1, st =>
    match e.regEnumValueW st.idx st.wname st.wval with
    | .entry kv =>
      let d := kv.value.content
      some (.ok kv, { st with wvalPtr := fun i => d.getD i (st.wvalPtr i) })
    | .moreData =>
      match e.regQueryInfoKeyW with
      | none => some (.error .failed, st)
      | some (nameMax, valMax) =>
        if e.alloc ((nameMax + 1).toNat * 2) && e.alloc valMax.toNat then
          enumLoop fuel { st with wname := grow st.wname (nameMax + 1), wval := grow st.wval valMax }
        else some (.error .failed, st)
    | .noMoreItems => some (.error .noMore, st)
    | .error _ => some (.error .failed, st)

end EnumEnv

/-- `ffwinreg_enum_nextval`. -/
def ffwinregEnumNextval (e : EnumEnv) (fuel : Nat) (st : Enum) :
    Option (Except EnumEnd Entry × Enum) :=
  match e.enumLoop fuel st with
  | none => none
  | some (.error r, st) => some (.error r, st)
  | some (.ok kv, st) =>
    let nameSize := kv.name.length * 4
    if e.alloc nameSize then
      let st := { st with name := max st.name nameSize }
      match e.wtouAsserted st.name kv.name with
      | .error r => some (.error r, st)
      | .ok name =>
        if st.valstr then
          match e.ffwinregValStr st.wvalPtr kv.value.type st.value kv.value.content with
          | .error r => some (.error r, st)
          | .ok (text, cap) =>
            some (.ok ⟨name, text, kv.value.type⟩, { st with value := cap, idx := st.idx + 1 })
        else some (.ok ⟨name, kv.value.content, kv.value.type⟩, { st with idx := st.idx + 1 })
    else some (.error .failed, st)

/-! ## A steady key -/

def maxOf (f : KeyValue → Nat) (values : List KeyValue) : Nat := (values.map f).foldr max 0

theorem le_maxOf (f : KeyValue → Nat) {values : List KeyValue} {kv : KeyValue} (h : kv ∈ values) :
    f kv ≤ maxOf f values := by
  induction values with
  | nil => cases h
  | cons v values ih =>
    have hcons : maxOf f (v :: values) = max (f v) (maxOf f values) := rfl
    rcases List.mem_cons.mp h with rfl | h
    · omega
    · have hle := ih h
      omega

/-- A key with these values, and nothing that changes them. -/
structure Steady (e : EnumEnv) (values : List KeyValue) : Prop where
  entry : ∀ (idx nameCap valCap : UInt32) kv, values[idx.toNat]? = some kv →
    e.regEnumValueW idx nameCap valCap =
      if kv.name.length + 1 ≤ nameCap.toNat ∧ kv.value.content.length ≤ valCap.toNat then .entry kv
      else .moreData
  info : ∃ nameMax valMax : UInt32, e.regQueryInfoKeyW = some (nameMax, valMax) ∧
    nameMax.toNat = maxOf (fun kv => kv.name.length) values ∧
    valMax.toNat = maxOf (fun kv => kv.value.content.length) values ∧ nameMax.toNat < 2 ^ 14
  value : ∀ kv ∈ values, e.value kv.name = some kv.value

theorem grow_le (cap n : UInt32) : n.toNat ≤ (grow cap n).toNat := by
  unfold grow
  split
  · exact Nat.le_refl _
  · rename_i h
    rw [UInt32.lt_iff_toNat_lt] at h
    omega

section Loop

variable {e : EnumEnv} {values : List KeyValue} {kv : KeyValue}

/-- An entry is there at once, or after the buffers have grown; its data are at the start of the
    buffer. -/
theorem enumLoop_ready (hkey : Steady e values) (halloc : ∀ n, n < 2 ^ 63 → e.alloc n = true)
    {st : Enum} (hkv : values[st.idx.toNat]? = some kv) (fuel : Nat) :
    ∃ st', e.enumLoop (fuel + 2) st = some (.ok kv, st') ∧ st'.valstr = st.valstr ∧
      st'.value = st.value ∧ ∀ i, st'.wvalPtr i = kv.value.content.getD i (st.wvalPtr i) := by
  have hfirst := hkey.entry st.idx st.wname st.wval kv hkv
  rw [EnumEnv.enumLoop, hfirst]
  split
  · rename_i kv' h
    split at h
    · cases h
      exact ⟨_, rfl, rfl, rfl, fun _ => rfl⟩
    · cases h
  · obtain ⟨nameMax, valMax, hinfo, hname, hval, hshort⟩ := hkey.info
    have hmem : kv ∈ values := List.mem_of_getElem? hkv
    have hnameMax : (nameMax + 1).toNat = nameMax.toNat + 1 := by
      have h1 : (1 : UInt32).toNat = 1 := rfl
      rw [UInt32.toNat_add, h1]
      omega
    have hn := le_maxOf (fun kv => kv.name.length) hmem
    have hv := le_maxOf (fun kv => kv.value.content.length) hmem
    have hgn := grow_le st.wname (nameMax + 1)
    have hgv := grow_le st.wval valMax
    have hlt := valMax.toNat_lt
    have ha1 := halloc ((nameMax + 1).toNat * 2) (by omega)
    have ha2 := halloc valMax.toNat (by omega)
    have hagain := hkey.entry st.idx (grow st.wname (nameMax + 1)) (grow st.wval valMax) kv hkv
    rw [if_pos ⟨by omega, by omega⟩] at hagain
    simp only [hinfo, ha1, ha2, Bool.and_true, if_true]
    rw [EnumEnv.enumLoop]
    simp only [hagain]
    exact ⟨_, rfl, rfl, rfl, fun _ => rfl⟩
  · rename_i h
    split at h <;> cases h
  · rename_i c h
    split at h <;> cases h

end Loop

/-! ## The text -/

section Text

variable {e : EnumEnv}

theorem wtouAsserted_ok {w : List UInt16} {u : List UInt8} (hwtou : e.wtou w = some u) {cap : Nat}
    (hcap : u.length ≤ cap) (hsmall : u.length < 2 ^ 31) : e.wtouAsserted cap w = .ok u := by
  have hint : toInt u.length = u.length := toInt_of_lt hsmall
  rw [EnumEnv.wtouAsserted, ffsWtou_fits hwtou hcap]
  simp only [hint, toSize_natCast hsmall, List.take_length]
  exact if_neg (by omega)

theorem ffsWtou_some {w : List UInt16} {cap : Nat} {u : List UInt8} (h : e.ffsWtou cap w = some u) :
    e.wtou w = some u := by
  unfold ReadEnv.ffsWtou at h
  cases hwtou : e.wtou w with
  | none => rw [hwtou] at h; cases h
  | some u' =>
    rw [hwtou] at h
    simp only at h
    split at h
    · exact h
    · cases h

/-- What the assertion lets through. -/
theorem wtouAsserted_eq {w : List UInt16} {cap : Nat} {text : List UInt8}
    (h : e.wtouAsserted cap w = .ok text) :
    ∃ u, e.wtou w = some u ∧ u.length ≠ 2 ^ 31 ∧ (u.length < 2 ^ 31 → text = u) := by
  unfold EnumEnv.wtouAsserted at h
  cases hfits : e.ffsWtou cap w with
  | none =>
    rw [hfits] at h
    cases h
  | some u =>
    rw [hfits] at h
    simp only at h
    refine ⟨u, ffsWtou_some hfits, fun hlen => ?_, fun hsmall => ?_⟩
    · have hneg : toInt u.length < 0 := by
        rw [hlen]
        decide
      rw [if_pos hneg] at h
      cases h
    · have hint : toInt u.length = u.length := toInt_of_lt hsmall
      rw [hint, if_neg (by omega), toSize_natCast hsmall, List.take_length] at h
      exact (Except.ok.inj h).symm

variable {values : List KeyValue} {kv : KeyValue} {st : Enum}

/-- The call gives an entry with this text for its value. -/
def EnumGives (e : EnumEnv) (fuel : Nat) (st : Enum) (text : List UInt8) : Prop :=
  ∃ entry st', ffwinregEnumNextval e fuel st = some (.ok entry, st') ∧ entry.value = text

/-- The text of an entry is that of its value. -/
theorem enumGives_iff (hkey : Steady e values) (halloc : ∀ n, n < 2 ^ 63 → e.alloc n = true)
    (hkv : values[st.idx.toNat]? = some kv) (hvalstr : st.valstr = true) {ns : List Char}
    (hns : kv.name = utf16 ns) (hwtou : e.wtou (utf16 ns) = some (utf8 ns)) (fuel : Nat)
    (text : List UInt8) :
    EnumGives e (fuel + 2) st text ↔
      ∃ cap, e.ffwinregValStr (fun i => kv.value.content.getD i (st.wvalPtr i)) kv.value.type st.value
        kv.value.content = .ok (text, cap) := by
  obtain ⟨st', hloop, hstr', hvalue', hptr'⟩ := enumLoop_ready hkey halloc hkv fuel
  have hptr : st'.wvalPtr = fun i => kv.value.content.getD i (st.wvalPtr i) := funext hptr'
  have hshort := kv.short
  have hlen := utf8_length_le ns
  rw [hns] at hshort
  have hname : e.wtouAsserted (max st'.name (kv.name.length * 4)) kv.name = .ok (utf8 ns) := by
    rw [hns]
    exact wtouAsserted_ok hwtou (by omega) (by omega)
  have hrun : ffwinregEnumNextval e (fuel + 2) st =
      match e.ffwinregValStr st'.wvalPtr kv.value.type st.value kv.value.content with
      | .error r => some (.error r, { st' with name := max st'.name (kv.name.length * 4) })
      | .ok (text, cap) => some (.ok ⟨utf8 ns, text, kv.value.type⟩,
          { st' with name := max st'.name (kv.name.length * 4), value := cap, idx := st'.idx + 1 }) := by
    rw [ffwinregEnumNextval, hloop]
    simp only [halloc (kv.name.length * 4) (by rw [hns]; omega), if_true, hname, hstr', hvalstr,
      hvalue']
  rw [EnumGives, hrun, hptr]
  cases hval : e.ffwinregValStr (fun i => kv.value.content.getD i (st.wvalPtr i)) kv.value.type st.value
    kv.value.content with
  | error r =>
    refine iff_of_false ?_ ?_
    · rintro ⟨entry, st'', h, -⟩
      cases h
    · rintro ⟨cap, h⟩
      cases h
  | ok p =>
    constructor
    · rintro ⟨entry, st'', h, rfl⟩
      cases h
      exact ⟨p.2, rfl⟩
    · rintro ⟨cap, h⟩
      cases h
      exact ⟨_, _, rfl, rfl⟩

end Text

/-! ## The terminator -/

/-- The text without a NUL at its end. -/
def trimText (cs : List Char) : List Char := if cs.getLast? = some '\x00' then cs.dropLast else cs

/-- An even size has a NUL at its end, if it is not zero; before an odd byte there is none. -/
def Terminated (cs : List Char) (odd : List UInt8) : Prop :=
  if odd = [] then cs = [] ∨ cs.getLast? = some '\x00' else cs.getLast? ≠ some '\x00'

theorem utf16_nul (cs : List Char) : utf16 (cs ++ ['\x00']) = utf16 cs ++ [0] := List.flatMap_append

theorem trimNul_utf16 (cs : List Char) : trimNul (utf16 cs) = utf16 (trimText cs) := by
  have hlast : (utf16 cs).getLast? = some 0 ↔ cs.getLast? = some '\x00' :=
    Encoding.getLast_text_iff (E := utf16Encoding) (by decide) rfl
  unfold trimNul trimText
  by_cases h : cs.getLast? = some '\x00'
  · obtain ⟨init, rfl⟩ := List.getLast?_eq_some_iff.mp h
    rw [if_pos (hlast.mpr h), if_pos h, utf16_nul, List.dropLast_concat, List.dropLast_concat]
  · rw [if_neg fun hu => h (hlast.mp hu), if_neg h]

section Strings

variable {e : EnumEnv} {ptr : Nat → UInt8} {type : UInt32} {cs : List Char}

/-- Strings are not numbers or bytes. -/
theorem valStr_string (hstr : ffwinregIsstr type = true) (cap : Nat) (d : List UInt8) :
    e.ffwinregValStr ptr type cap d =
      if d.length = 0 then .ok ([], cap)
      else if e.alloc (d.length / 2 * 4) then
        (e.wtouAsserted (max cap (d.length / 2 * 4)) ((bytesUnits d).take ((d.length - 1) / 2))).map
          fun text => (text, max cap (d.length / 2 * 4))
      else .error .failed := by
  have htype : type = REG_SZ ∨ type = REG_EXPAND_SZ := by
    simpa [ffwinregIsstr] using hstr
  rcases htype with rfl | rfl <;> rfl

/-- The text of a string is made of its first `(len - 1) / 2` characters. -/
theorem ffwinregValStr_eq (halloc : ∀ n, n < 2 ^ 63 → e.alloc n = true)
    (hstr : ffwinregIsstr type = true) (cap : Nat) {d : List UInt8} (hd : d.length < 2 ^ 32)
    (hne : d.length ≠ 0) :
    e.ffwinregValStr ptr type cap d =
      (e.wtouAsserted (max cap (d.length / 2 * 4)) ((bytesUnits d).take ((d.length - 1) / 2))).map
        fun text => (text, max cap (d.length / 2 * 4)) := by
  rw [valStr_string hstr, if_neg hne, if_pos (halloc _ (by omega))]

theorem map_ok {w : List UInt16} {cap : Nat} {text : List UInt8} {n : Nat}
    (h : (e.wtouAsserted cap w).map (fun text => (text, cap)) = .ok (text, n)) :
    e.wtouAsserted cap w = .ok text := by
  cases hw : e.wtouAsserted cap w with
  | error r =>
    rw [hw] at h
    cases h
  | ok text' =>
    rw [hw] at h
    cases h
    rfl

theorem take_even (w : List UInt16) :
    (bytesUnits (unitBytes w)).take (((unitBytes w).length - 1) / 2) = w.dropLast := by
  rw [bytesUnits_unitBytes, unitBytes_length, List.dropLast_eq_take]
  congr 1
  omega

theorem take_odd (w : List UInt16) (b : UInt8) :
    (bytesUnits (unitBytes w ++ [b])).take (((unitBytes w ++ [b]).length - 1) / 2) = w := by
  rw [bytesUnits_unitBytes_append w (by simp), List.length_append, unitBytes_length,
    List.length_singleton, List.take_of_length_le (by omega)]

/-- The sizes of a text and of a value in which it is. -/
theorem fits_value {t : List Char} {n : Nat} (h : (utf16 t).length ≤ n) (cap : Nat) :
    (utf8 t).length ≤ max cap (n * 4) := by
  have hle := utf8_length_le t
  omega

/-- **Where the terminator is as expected**, the text of a value is the one without it. -/
theorem valStr_same (halloc : ∀ n, n < 2 ^ 63 → e.alloc n = true) (hstr : ffwinregIsstr type = true)
    (cap : Nat) (hwtou : ∀ t, t <+: cs → e.wtou (utf16 t) = some (utf8 t)) {odd : List UInt8}
    (hodd : odd.length ≤ 1) (hd : (unitBytes (utf16 cs) ++ odd).length < 2 ^ 32)
    (hterm : Terminated cs odd) (hsmall : (utf8 (trimText cs)).length < 2 ^ 31) :
    ∃ n, e.ffwinregValStr ptr type cap (unitBytes (utf16 cs) ++ odd) = .ok (utf8 (trimText cs), n) := by
  unfold Terminated at hterm
  unfold trimText at hsmall ⊢
  rcases odd_cases hodd with rfl | ⟨b, rfl⟩
  · rw [if_pos rfl] at hterm
    rcases hterm with rfl | hlast
    · refine ⟨cap, ?_⟩
      rw [valStr_string hstr]
      rfl
    · obtain ⟨init, rfl⟩ := List.getLast?_eq_some_iff.mp hlast
      rw [if_pos hlast, List.dropLast_concat] at hsmall
      rw [if_pos hlast, List.dropLast_concat]
      rw [List.append_nil] at hd ⊢
      rw [utf16_nul] at hd ⊢
      rw [ffwinregValStr_eq halloc hstr cap hd (by rw [unitBytes_length]; simp), take_even,
        List.dropLast_concat,
        wtouAsserted_ok (hwtou init (List.prefix_append _ _)) (fits_value ?_ cap) hsmall]
      · exact ⟨_, rfl⟩
      · rw [unitBytes_length, List.length_append]
        omega
  · rw [if_neg (List.cons_ne_nil _ _)] at hterm
    rw [if_neg hterm] at hsmall ⊢
    rw [ffwinregValStr_eq halloc hstr cap hd (by simp), take_odd,
      wtouAsserted_ok (hwtou cs List.prefix_rfl) (fits_value ?_ cap) hsmall]
    · exact ⟨_, rfl⟩
    · rw [List.length_append, unitBytes_length]
      omega

theorem utf16Char_cases (c : Char) : (∃ u, utf16Char c = [u]) ∨ ∃ hi lo, utf16Char c = [hi, lo] := by
  unfold utf16Char
  split
  · exact Or.inl ⟨_, rfl⟩
  · exact Or.inr ⟨_, _, rfl⟩

/-- Half of a pair at the end of a text is converted to less than the pair, if at all. -/
def CutPair (e : EnumEnv) (cs : List Char) : Prop :=
  ∀ t c hi lo, cs = t ++ [c] → utf16Char c = [hi, lo] → ∀ u, e.wtou (utf16 t ++ [hi]) = some u →
    u.length < (utf8 cs).length

/-- Without its last unit a text is converted to less. -/
theorem wtou_dropLast (hwtou : ∀ t, t <+: cs → e.wtou (utf16 t) = some (utf8 t))
    (hcut : CutPair e cs) (hne : cs ≠ []) {u : List UInt8}
    (hu : e.wtou (utf16 cs).dropLast = some u) : u.length < (utf8 cs).length := by
  obtain ⟨init, c, rfl⟩ := (List.eq_nil_or_concat cs).resolve_left hne
  rw [List.concat_eq_append] at hu hwtou hcut ⊢
  have happ : utf16 (init ++ [c]) = utf16 init ++ utf16Char c := by simp [utf16]
  rcases utf16Char_cases c with ⟨x, hx⟩ | ⟨hi, lo, hx⟩
  · rw [happ, hx, List.dropLast_concat, hwtou init (List.prefix_append _ _)] at hu
    have hpos : 0 < (String.utf8EncodeChar c).length := by
      have hlen := char_lengths c
      omega
    rw [← Option.some.inj hu]
    simp only [utf8, List.flatMap_append, List.flatMap_singleton, List.length_append]
    omega
  · have hdrop : (utf16 init ++ [hi, lo]).dropLast = utf16 init ++ [hi] := by
      rw [← List.singleton_append, ← List.append_assoc, List.dropLast_concat]
    rw [happ, hx, hdrop] at hu
    exact hcut init c hi lo rfl hx u hu

/-- **Where the terminator is not as expected**, the text of a value is another one. -/
theorem valStr_other (halloc : ∀ n, n < 2 ^ 63 → e.alloc n = true)
    (hstr : ffwinregIsstr type = true) (cap : Nat)
    (hwtou : ∀ t, t <+: cs → e.wtou (utf16 t) = some (utf8 t)) (hcut : CutPair e cs)
    {odd : List UInt8} (hodd : odd.length ≤ 1) (hd : (unitBytes (utf16 cs) ++ odd).length < 2 ^ 32)
    (hterm : ¬ Terminated cs odd) (hsmall : (utf8 (trimText cs)).length < 2 ^ 31) (n : Nat) :
    e.ffwinregValStr ptr type cap (unitBytes (utf16 cs) ++ odd) ≠ .ok (utf8 (trimText cs), n) := by
  unfold Terminated at hterm
  unfold trimText at hsmall ⊢
  intro h
  rcases odd_cases hodd with rfl | ⟨b, rfl⟩
  · rw [if_pos rfl, not_or] at hterm
    obtain ⟨hne, hlast⟩ := hterm
    have hlen : (unitBytes (utf16 cs)).length ≠ 0 := by
      have hpos := List.length_pos_of_ne_nil fun hnil =>
        hne (Encoding.text_eq_nil_iff (E := utf16Encoding) |>.mp hnil)
      rw [unitBytes_length]
      change 0 < (utf16 cs).length at hpos
      omega
    rw [if_neg hlast] at h hsmall
    rw [List.append_nil] at hd h
    rw [ffwinregValStr_eq halloc hstr cap hd hlen, take_even] at h
    obtain ⟨u, hu, -, heq⟩ := wtouAsserted_eq (map_ok h)
    have hlt := wtou_dropLast hwtou hcut hne hu
    have hsame := congrArg List.length (heq (by omega))
    omega
  · rw [if_neg (List.cons_ne_nil _ _), not_not] at hterm
    rw [if_pos hterm] at h hsmall
    rw [ffwinregValStr_eq halloc hstr cap hd (by simp), take_odd] at h
    obtain ⟨u, hu, hlimit, heq⟩ := wtouAsserted_eq (map_ok h)
    rw [hwtou cs List.prefix_rfl] at hu
    obtain ⟨init, rfl⟩ := List.getLast?_eq_some_iff.mp hterm
    have hnul : utf8 (init ++ ['\x00']) = utf8 init ++ [0] := List.flatMap_append
    have hlen : (utf8 (init ++ ['\x00'])).length = (utf8 init).length + 1 := by
      rw [hnul, List.length_append, List.length_singleton]
    rw [List.dropLast_concat] at hsmall heq
    rw [← Option.some.inj hu] at hlimit heq
    have hsame := congrArg List.length (heq (by omega))
    omega

end Strings

/-! ## Both functions -/

/-- The text of the entry is what `ffwinreg_read` gives for the value, with every buffer that is
    large enough. -/
def AgreesWithRead (e : EnumEnv) (fuel : Nat) (st : Enum) (name : List UInt8) : Prop :=
  ∃ text, EnumGives e fuel st text ∧
    ∀ val : RegVal, val.data = none ∨ text.length ≤ val.datalen →
      Gives (ffwinregRead e.toReadEnv name val) text

/-- **Enumeration and direct read agree** on a string value exactly if its terminator is as its size
    tells (the last character of an even size, and not there before an odd byte), and the text has
    fewer than 2^31 bytes. -/
theorem enum_read_agree_iff {e : EnumEnv} {values : List KeyValue} (hkey : Steady e values)
    (halloc : ∀ n, n < 2 ^ 63 → e.alloc n = true) (fuel : Nat) {st : Enum}
    (hvalstr : st.valstr = true) {kv : KeyValue} (hkv : values[st.idx.toNat]? = some kv)
    (hstr : ffwinregIsstr kv.value.type = true) {name : List UInt8}
    (hname : e.nameUtow name = some kv.name) (ns : List Char) (hns : kv.name = utf16 ns)
    (cs : List Char) (odd : List UInt8) (hodd : odd.length ≤ 1)
    (hcontent : kv.value.content = unitBytes (utf16 cs) ++ odd)
    (hwtou : ∀ t, t = ns ∨ t <+: cs → e.wtou (utf16 t) = some (utf8 t)) (hcut : CutPair e cs) :
    AgreesWithRead e (fuel + 2) st name ↔
      Terminated cs odd ∧ (utf8 (trimText cs)).length < 2 ^ 31 := by
  have hvalue := hkey.value kv (List.mem_of_getElem? hkv)
  have hd : (unitBytes (utf16 cs) ++ odd).length < 2 ^ 32 := hcontent ▸ kv.value.small
  have hpre : ∀ t, t <+: cs → e.wtou (utf16 t) = some (utf8 t) := fun t ht => hwtou t (Or.inr ht)
  have htrim : trimText cs <+: cs := by
    unfold trimText
    split
    · exact List.dropLast_prefix cs
    · exact List.prefix_rfl
  have hread : e.wtou (trimNul (bytesUnits kv.value.content)) = some (utf8 (trimText cs)) := by
    rw [hcontent, bytesUnits_unitBytes_append (utf16 cs) hodd, trimNul_utf16, hpre _ htrim]
  have hgives (text : List UInt8) :=
    enumGives_iff hkey halloc hkv hvalstr hns (hwtou ns (Or.inl rfl)) fuel text
  constructor
  · rintro ⟨text, henum, hreads⟩
    obtain ⟨hsmall, rfl⟩ :=
      ffwinregRead_none hname hvalue hstr halloc hread rfl (hreads ⟨0, none, 0⟩ (Or.inl rfl))
    obtain ⟨n, hval⟩ := (hgives _).mp henum
    refine ⟨?_, hsmall⟩
    by_contra hterm
    rw [hcontent] at hval
    exact valStr_other halloc hstr st.value hpre hcut hodd hd hterm hsmall n hval
  · rintro ⟨hterm, hsmall⟩
    refine ⟨utf8 (trimText cs), (hgives _).mpr ?_, fun val hbuf => ?_⟩
    · rw [hcontent]
      exact valStr_same halloc hstr st.value hpre hodd hd hterm hsmall
    · exact ffwinregRead_gives hname hvalue hstr halloc hread hsmall hbuf

/-! ## A key with one value -/

def enumOf (kv : KeyValue) (texts : List (List Char)) : EnumEnv where
  nameUtow name := some (name.map fun b => UInt16.ofNat b.toNat)
  value w := if w = kv.name then some kv.value else none
  wtou w := (texts.find? fun t => utf16 t == w).map utf8
  alloc n := decide (n < 2 ^ 63)
  regEnumValueW idx nameCap valCap :=
    if idx.toNat = 0 then
      if kv.name.length + 1 ≤ nameCap.toNat ∧ kv.value.content.length ≤ valCap.toNat then .entry kv
      else .moreData
    else .noMoreItems
  regQueryInfoKeyW := some (UInt32.ofNat kv.name.length, UInt32.ofNat kv.value.content.length)
  format _ _ := []

theorem steady_enumOf (kv : KeyValue) (texts : List (List Char)) : Steady (enumOf kv texts) [kv] where
  entry idx nameCap valCap kv' h := by
    have hlt := (List.getElem?_eq_some_iff.mp h).1
    rw [List.length_singleton] at hlt
    have hidx : idx.toNat = 0 := by omega
    rw [hidx, List.getElem?_cons_zero, Option.some.injEq] at h
    rw [← h]
    exact if_pos hidx
  info := by
    have hshort := kv.short
    have hsmall := kv.value.small
    refine ⟨_, _, rfl, ?_, ?_, ?_⟩
    · rw [UInt32.toNat_ofNat', maxOf, List.map_singleton, List.foldr_cons, List.foldr_nil]
      omega
    · rw [UInt32.toNat_ofNat', maxOf, List.map_singleton, List.foldr_cons, List.foldr_nil]
      omega
    · rw [UInt32.toNat_ofNat']
      omega
  value kv' h := by
    rw [List.mem_singleton.mp h]
    exact if_pos rfl

/-- The string value "N" of these characters. -/
def stringValue (cs : List Char) (h : 2 * (utf16 cs).length < 2 ^ 32) : KeyValue :=
  ⟨[0x4e], ⟨REG_SZ, unitBytes (utf16 cs), by rw [unitBytes_length]; exact h⟩, by decide⟩

/-- The start of an enumeration. -/
def enumBegin : Enum := ⟨0, true, 256, 256, 256, 256, fun _ => 0⟩

/-- "hi" with its terminator. -/
theorem enum_read_agree_terminated :
    AgreesWithRead (enumOf (stringValue ['h', 'i', '\x00'] (by decide))
        [['N'], ['h', 'i'], ['h', 'i', '\x00'], ['h'], []])
      2 enumBegin [0x4e] := by
  refine (enum_read_agree_iff (steady_enumOf _ _) (fun _ hn => decide_eq_true hn) 0 rfl rfl rfl rfl
    ['N'] rfl ['h', 'i', '\x00'] [] (by decide) (List.append_nil _).symm ?_ ?_).mpr
    ⟨Or.inr rfl, by decide⟩
  · rintro t (rfl | ht)
    · rfl
    · have hall : ∀ t ∈ ['h', 'i', '\x00'].inits,
          (enumOf (stringValue ['h', 'i', '\x00'] (by decide))
            [['N'], ['h', 'i'], ['h', 'i', '\x00'], ['h'], []]).wtou (utf16 t) = some (utf8 t) := by
        decide +kernel
      exact hall t ((List.mem_inits _ _).mpr ht)
  · intro t c hi lo h hpair
    have hc : some c = some '\x00' := by
      rw [← @List.getLast?_concat _ t, ← h]
      rfl
    rw [Option.some.inj hc] at hpair
    cases hpair

/-- "hi" without a terminator: the enumeration gives "h". -/
theorem enum_read_unterminated :
    ¬ AgreesWithRead (enumOf (stringValue ['h', 'i'] (by decide)) [['N'], ['h', 'i'], ['h'], []])
      2 enumBegin [0x4e] := by
  rintro ⟨text, ⟨entry, st', hrun, rfl⟩, hreads⟩
  have henum : (ffwinregEnumNextval
      (enumOf (stringValue ['h', 'i'] (by decide)) [['N'], ['h', 'i'], ['h'], []]) 2
      enumBegin).map (fun r => r.1.toOption.map Entry.value) = some (some [0x68]) := by decide +kernel
  have hread : (ffwinregRead
      (enumOf (stringValue ['h', 'i'] (by decide)) [['N'], ['h', 'i'], ['h'], []]).toReadEnv
      [0x4e] ⟨0, none, 0⟩).map (fun r => r.val.datalen) = some 2 := by decide +kernel
  rw [hrun] at henum
  have hvalue : entry.value = [0x68] := Option.some.inj (Option.some.inj henum)
  obtain ⟨r, data, hr, -, -, hlen, -⟩ := hreads ⟨0, none, 0⟩ (Or.inl rfl)
  rw [hr, Option.map_some, hlen, hvalue] at hread
  cases hread

end FFSys.Winreg
