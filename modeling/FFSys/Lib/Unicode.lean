import FFSys.Lib.Bytes

/-!
# UTF-8 and UTF-16

Texts are lists of characters, that is of Unicode scalar values.

* `utf8`, `utf16` — the two encodings of a text.
* `Encoding` — what they have in common: an ASCII character is one unit, the units of other
  characters are not ASCII; `utf8Encoding`, `utf16Encoding`.
* `Encoding.mem_text_iff` — an ASCII unit is in the encoding exactly if its character is in the
  text.
* `Encoding.exists_split` — an ASCII unit is where a character starts.
* `unitBytes`, `bytesUnits` — UTF-16 in bytes.
* `utf16_length_le`, `utf8_length_le` — the lengths of the two.
* `utf16Decode`, `utf8Decode` — the text of units and of bytes; they invert the encodings.
-/

set_option autoImplicit false

namespace FFSys.Lib

/-! ## Encodings -/

/-- The bytes of a text. -/
def utf8 (cs : List Char) : List UInt8 := cs.flatMap String.utf8EncodeChar

/-- A character below 2^16 is one unit, any other one is a pair of surrogates. -/
def utf16Char (c : Char) : List UInt16 :=
  if c.toNat < 0x10000 then [UInt16.ofNat c.toNat]
  else [UInt16.ofNat (0xd800 + (c.toNat - 0x10000) / 0x400),
    UInt16.ofNat (0xdc00 + (c.toNat - 0x10000) % 0x400)]

/-- The 16-bit units of a text. -/
def utf16 (cs : List Char) : List UInt16 := cs.flatMap utf16Char

/-- An encoding with units of type `α`. -/
structure Encoding (α : Type) where
  char : Char → List α
  code : α → Nat
  inj : ∀ u v, code u = code v → u = v
  ascii : ∀ c, c.toNat < 0x80 → ∃ u, char c = [u] ∧ code u = c.toNat
  high : ∀ c, 0x80 ≤ c.toNat → ∀ u ∈ char c, 0x80 ≤ code u
  ne_nil : ∀ c, char c ≠ []

namespace Encoding

variable {α : Type} (E : Encoding α)

def text (cs : List Char) : List α := cs.flatMap E.char

@[simp] theorem text_nil : E.text [] = [] := rfl

@[simp] theorem text_cons (c : Char) (cs : List Char) :
    E.text (c :: cs) = E.char c ++ E.text cs := rfl

@[simp] theorem text_append (cs cs' : List Char) : E.text (cs ++ cs') = E.text cs ++ E.text cs' := by
  simp [text]

variable {E}

/-- A unit of an ASCII code is the unit of its character. -/
theorem mem_char_iff {c : Char} {u : α} (hu : E.code u < 0x80) :
    u ∈ E.char c ↔ c.toNat = E.code u := by
  rcases Nat.lt_or_ge c.toNat 0x80 with hc | hc
  · obtain ⟨v, hv, hcode⟩ := E.ascii c hc
    rw [hv, List.mem_singleton, ← hcode]
    exact ⟨fun h => by rw [h], fun h => E.inj _ _ h.symm⟩
  · refine iff_of_false ?_ ?_
    · intro h
      have hhigh := E.high c hc u h
      omega
    · omega

/-- An ASCII unit is in the encoding exactly if its character is in the text. -/
theorem mem_text_iff {cs : List Char} {u : α} (hu : E.code u < 0x80) :
    u ∈ E.text cs ↔ ∃ c ∈ cs, c.toNat = E.code u := by
  simp only [text, List.mem_flatMap, mem_char_iff hu]

/-- The first unit is one of the first character. -/
theorem head_mem {c : Char} {l : List α} {u : α} (h : (E.char c ++ l)[0]? = some u) :
    u ∈ E.char c := by
  rw [List.getElem?_append_left (List.length_pos_of_ne_nil (E.ne_nil c))] at h
  exact List.mem_of_getElem? h

/-- The character of an ASCII unit. -/
theorem char_eq_singleton {c : Char} {u : α} (hu : E.code u < 0x80) (h : c.toNat = E.code u) :
    E.char c = [u] := by
  obtain ⟨v, hv, hcode⟩ := E.ascii c (by omega)
  rw [hv, E.inj v u (hcode.trans h)]

theorem text_eq_nil_iff {cs : List Char} : E.text cs = [] ↔ cs = [] := by
  cases cs with
  | nil => exact iff_of_true rfl rfl
  | cons c cs =>
    refine iff_of_false (fun h => ?_) (List.cons_ne_nil _ _)
    rw [text_cons] at h
    exact E.ne_nil c (List.append_eq_nil_iff.mp h).1

/-- The last unit. -/
theorem getLast_text_iff {cs : List Char} {u : α} {d : Char} (hu : E.code u < 0x80)
    (hd : d.toNat = E.code u) :
    (E.text cs).getLast? = some u ↔ cs.getLast? = some d := by
  rcases List.eq_nil_or_concat cs with rfl | ⟨init, c, rfl⟩
  · exact iff_of_false (fun h => by cases h) (fun h => by cases h)
  · rw [List.concat_eq_append, text_append, text_cons, text_nil, List.append_nil,
      List.getLast?_append_of_ne_nil _ (E.ne_nil c), List.getLast?_concat, Option.some.injEq]
    constructor
    · intro h
      have hc := (mem_char_iff hu).mp (List.mem_of_getLast? h)
      exact Char.toNat_inj.mp (hc.trans hd.symm)
    · rintro rfl
      rw [char_eq_singleton hu hd]
      rfl

/-- An ASCII unit is where a character starts. -/
theorem exists_split {u : α} (hu : E.code u < 0x80) (cs : List Char) :
    ∀ (i : Nat), (E.text cs)[i]? = some u →
    ∃ a c b, cs = a ++ c :: b ∧ c.toNat = E.code u ∧ (E.text a).length = i := by
  induction cs with
  | nil => exact fun i h => by cases h
  | cons c cs ih =>
    intro i h
    rw [text_cons] at h
    rcases Nat.lt_or_ge i (E.char c).length with hlt | hge
    · rw [List.getElem?_append_left hlt] at h
      have hc := (mem_char_iff hu).mp (List.mem_of_getElem? h)
      rw [char_eq_singleton hu hc, List.length_singleton] at hlt
      exact ⟨[], c, cs, rfl, hc, by rw [text_nil, List.length_nil]; omega⟩
    · rw [List.getElem?_append_right hge] at h
      obtain ⟨a, d, b, rfl, hd, hlen⟩ := ih _ h
      exact ⟨c :: a, d, b, rfl, hd, by rw [text_cons, List.length_append]; omega⟩

end Encoding

/-! ## The two encodings -/

theorem utf8EncodeChar_high {c : Char} (h : 0x80 ≤ c.toNat) :
    ∀ u ∈ String.utf8EncodeChar c, 0x80 ≤ u.toNat := by
  have hv : ¬ c.val.toNat ≤ 0x7f := by
    have hc : 0x80 ≤ c.val.toNat := h
    omega
  intro u hu
  unfold String.utf8EncodeChar at hu
  simp only [if_neg hv] at hu
  split at hu
  · simp only [List.mem_cons, List.not_mem_nil, or_false] at hu
    rcases hu with rfl | rfl <;> simp only [UInt8.toNat_ofNat'] <;> omega
  · split at hu
    · simp only [List.mem_cons, List.not_mem_nil, or_false] at hu
      rcases hu with rfl | rfl | rfl <;> simp only [UInt8.toNat_ofNat'] <;> omega
    · simp only [List.mem_cons, List.not_mem_nil, or_false] at hu
      rcases hu with rfl | rfl | rfl | rfl <;> simp only [UInt8.toNat_ofNat'] <;> omega

theorem utf8EncodeChar_ascii {c : Char} (h : c.toNat < 0x80) :
    String.utf8EncodeChar c = [UInt8.ofNat c.toNat] := by
  have hv : c.val.toNat ≤ 0x7f := by
    have hc : c.val.toNat < 0x80 := h
    omega
  unfold String.utf8EncodeChar
  simp only [if_pos hv]
  rfl

theorem toNat_lt (c : Char) : c.toNat < 0x110000 := by
  have h := c.valid
  unfold UInt32.isValidChar Nat.isValidChar at h
  have hc : c.toNat = c.val.toNat := rfl
  omega

theorem utf16Char_high {c : Char} (h : 0x80 ≤ c.toNat) : ∀ u ∈ utf16Char c, 0x80 ≤ u.toNat := by
  have hlt := toNat_lt c
  intro u hu
  unfold utf16Char at hu
  split at hu
  · rw [List.mem_singleton.mp hu, UInt16.toNat_ofNat']
    omega
  · rcases List.mem_pair.mp hu with rfl | rfl <;> rw [UInt16.toNat_ofNat'] <;> omega

def utf8Encoding : Encoding UInt8 where
  char := String.utf8EncodeChar
  code := UInt8.toNat
  inj _ _ h := UInt8.toNat_inj.mp h
  ascii c h := ⟨_, utf8EncodeChar_ascii h, by rw [UInt8.toNat_ofNat']; omega⟩
  high _ h := utf8EncodeChar_high h
  ne_nil _ := String.utf8EncodeChar_ne_nil

def utf16Encoding : Encoding UInt16 where
  char := utf16Char
  code := UInt16.toNat
  inj _ _ h := UInt16.toNat_inj.mp h
  ascii c h := ⟨UInt16.ofNat c.toNat, if_pos (by omega), by rw [UInt16.toNat_ofNat']; omega⟩
  high _ h := utf16Char_high h
  ne_nil c := by
    unfold utf16Char
    split <;> exact List.cons_ne_nil _ _

/-! ## Lengths -/

/-- One or two units; a character has no less bytes than units, and up to three bytes for a unit. -/
theorem char_lengths (c : Char) :
    1 ≤ (utf16Char c).length ∧ (utf16Char c).length ≤ (String.utf8EncodeChar c).length ∧
      (String.utf8EncodeChar c).length ≤ 3 * (utf16Char c).length := by
  have hval : c.val.toNat = c.toNat := rfl
  unfold utf16Char String.utf8EncodeChar
  simp only [hval]
  split
  · split
    · simp
    · split
      · simp
      · rw [if_pos (by omega)]
        simp
  · rw [if_neg (by omega), if_neg (by omega), if_neg (by omega)]
    simp

theorem utf16_length_le (cs : List Char) : (utf16 cs).length ≤ (utf8 cs).length := by
  induction cs with
  | nil => exact Nat.le_refl _
  | cons c cs ih =>
    have hc := char_lengths c
    simp only [utf16, utf8, List.flatMap_cons, List.length_append] at ih ⊢
    omega

theorem utf8_length_le (cs : List Char) : (utf8 cs).length ≤ 3 * (utf16 cs).length := by
  induction cs with
  | nil => exact Nat.le_refl _
  | cons c cs ih =>
    have hc := char_lengths c
    simp only [utf16, utf8, List.flatMap_cons, List.length_append] at ih ⊢
    omega

/-! ## Bytes of UTF-16 -/

/-- The bytes of 16-bit units, the low one first. -/
def unitBytes (w : List UInt16) : List UInt8 := w.flatMap fun u => leBytes 2 u.toNat

/-- The 16-bit units in bytes; an odd one at the end is in none. -/
def bytesUnits : List UInt8 → List UInt16
  | lo :: hi :: bs => UInt16.ofNat (leNat [lo, hi]) :: bytesUnits bs
  | _ => []

theorem unitBytes_cons (u : UInt16) (w : List UInt16) :
    unitBytes (u :: w) = leBytes 2 u.toNat ++ unitBytes w := rfl

@[simp] theorem unitBytes_length (w : List UInt16) : (unitBytes w).length = 2 * w.length := by
  induction w with
  | nil => rfl
  | cons u w ih =>
    rw [unitBytes_cons, List.length_append, leBytes_length, ih, List.length_cons]
    omega

/-- No byte, or an odd one. -/
theorem odd_cases {odd : List UInt8} (hodd : odd.length ≤ 1) : odd = [] ∨ ∃ b, odd = [b] := by
  rcases Nat.le_one_iff_eq_zero_or_eq_one.mp hodd with h | h
  · exact Or.inl (List.length_eq_zero_iff.mp h)
  · exact Or.inr (List.length_eq_one_iff.mp h)

theorem bytesUnits_unitBytes_append (w : List UInt16) {odd : List UInt8} (hodd : odd.length ≤ 1) :
    bytesUnits (unitBytes w ++ odd) = w := by
  induction w with
  | nil => rcases odd_cases hodd with rfl | ⟨b, rfl⟩ <;> rfl
  | cons u w ih =>
    have hu : UInt16.ofNat (leNat (leBytes 2 u.toNat)) = u := by
      have hlt := u.toNat_lt
      rw [leNat_leBytes, Nat.mod_eq_of_lt (by omega), UInt16.ofNat_toNat]
    rw [unitBytes_cons, List.append_assoc]
    exact congrArg₂ List.cons hu ih

theorem bytesUnits_unitBytes (w : List UInt16) : bytesUnits (unitBytes w) = w := by
  have h := @bytesUnits_unitBytes_append w [] (Nat.zero_le 1)
  rwa [List.append_nil] at h

/-! ## Decoding -/

/-- The text of UTF-16 units; half a surrogate pair is an error. -/
def utf16Decode : List UInt16 → Option (List Char)
  | [] => some []
  | [u] => if 0xd800 ≤ u.toNat ∧ u.toNat < 0xe000 then none else some [Char.ofNat u.toNat]
  | u :: v :: w =>
    if 0xd800 ≤ u.toNat ∧ u.toNat < 0xe000 then
      if u.toNat < 0xdc00 ∧ 0xdc00 ≤ v.toNat ∧ v.toNat < 0xe000 then
        (utf16Decode w).map
          (Char.ofNat (0x10000 + (u.toNat - 0xd800) * 0x400 + (v.toNat - 0xdc00)) :: ·)
      else none
    else (utf16Decode (v :: w)).map (Char.ofNat u.toNat :: ·)

/-- A unit that is no surrogate. -/
theorem utf16Decode_unit {u : UInt16} (h : ¬ (0xd800 ≤ u.toNat ∧ u.toNat < 0xe000))
    (w : List UInt16) :
    utf16Decode (u :: w) = (utf16Decode w).map (Char.ofNat u.toNat :: ·) := by
  cases w with
  | nil =>
    simp only [utf16Decode, if_neg h, Option.map_some]
  | cons v w => rw [utf16Decode, if_neg h]

theorem char_range (c : Char) :
    c.toNat < 0xd800 ∨ 0xdfff < c.toNat ∧ c.toNat < 0x110000 := c.valid

/-- The units of a character. -/
theorem utf16Decode_char (c : Char) (w : List UInt16) :
    utf16Decode (utf16Char c ++ w) = (utf16Decode w).map (c :: ·) := by
  have hc := char_range c
  unfold utf16Char
  split
  · rename_i hsmall
    have hu : (UInt16.ofNat c.toNat).toNat = c.toNat := by
      rw [UInt16.toNat_ofNat', Nat.mod_eq_of_lt (by omega)]
    rw [List.singleton_append, utf16Decode_unit (by omega), hu, Char.ofNat_toNat]
  · rename_i hbig
    have hu : (UInt16.ofNat (0xd800 + (c.toNat - 0x10000) / 0x400)).toNat =
        0xd800 + (c.toNat - 0x10000) / 0x400 := by
      rw [UInt16.toNat_ofNat', Nat.mod_eq_of_lt (by omega)]
    have hv : (UInt16.ofNat (0xdc00 + (c.toNat - 0x10000) % 0x400)).toNat =
        0xdc00 + (c.toNat - 0x10000) % 0x400 := by
      rw [UInt16.toNat_ofNat', Nat.mod_eq_of_lt (by omega)]
    have hsum : 0x10000 + (0xd800 + (c.toNat - 0x10000) / 0x400 - 0xd800) * 0x400 +
        (0xdc00 + (c.toNat - 0x10000) % 0x400 - 0xdc00) = c.toNat := by omega
    have hhigh : 0xd800 ≤ 0xd800 + (c.toNat - 0x10000) / 0x400 ∧
        0xd800 + (c.toNat - 0x10000) / 0x400 < 0xe000 := by omega
    have hpair : 0xd800 + (c.toNat - 0x10000) / 0x400 < 0xdc00 ∧
        0xdc00 ≤ 0xdc00 + (c.toNat - 0x10000) % 0x400 ∧
        0xdc00 + (c.toNat - 0x10000) % 0x400 < 0xe000 := by omega
    rw [List.cons_append, List.singleton_append, utf16Decode, hu, hv, if_pos hhigh, if_pos hpair,
      hsum, Char.ofNat_toNat]

theorem utf16Decode_utf16 (cs : List Char) : utf16Decode (utf16 cs) = some cs := by
  induction cs with
  | nil => rfl
  | cons c cs ih =>
    have hcons : utf16 (c :: cs) = utf16Char c ++ utf16 cs := rfl
    rw [hcons, utf16Decode_char, ih]
    rfl

/-- The text of UTF-8 bytes. -/
def utf8Decode (s : List UInt8) : Option (List Char) :=
  (ByteArray.utf8Decode? s.toByteArray).map Array.toList

theorem utf8Decode_utf8 (cs : List Char) : utf8Decode (utf8 cs) = some cs := by
  have h : (utf8 cs).toByteArray = cs.utf8Encode := by
    rw [utf8, List.utf8Encode]
  rw [utf8Decode, h, List.utf8Decode?_utf8Encode]
  rfl

end FFSys.Lib
