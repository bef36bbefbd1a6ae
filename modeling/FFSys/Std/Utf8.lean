import Mathlib.Algebra.Order.Ring.Nat
import Mathlib.Data.List.Basic

/-!
# What is relied on of `ffutf8_decode`

`ffutf8_decode` is a function of the base library.  `Ffutf8` lists the facts that the key parser
uses: which byte sequences are complete characters, and what the function returns for data that
starts with one, for the beginning of one, and for anything else.  Nothing is said about overlong
forms, surrogates and sequences of more than 4 bytes: they may be `Valid` or not.

* `Ffutf8.cases` — the three cases are all there is; `Ffutf8.unique` — no complete sequence is the
  beginning of another one.
* `bitUtf8` — a decoder that looks at the bit patterns `0xxxxxxx`, `110xxxxx`, `1110xxxx`,
  `11110xxx` and `10xxxxxx` only, and has all these properties.
-/

set_option autoImplicit false

namespace FFSys.Std

abbrev Byte := UInt8

/-- `ffutf8_decode`: the value it returns and the code point it stores.  `Valid` are the complete
    sequences it knows, `code` their code points. -/
structure Ffutf8 where
  decode : List Byte → Int × Nat
  Valid : List Byte → Prop
  code : List Byte → Nat
  valid_ne : ∀ s, Valid s → s ≠ []
  /-- ASCII bytes, and no other byte, stand for themselves. -/
  ascii : ∀ b : Byte, Valid [b] ↔ b < 0x80
  /-- Longer sequences are made of bytes `1xxxxxxx`, and `0xff` is none of them. -/
  high : ∀ s, Valid s → 2 ≤ s.length → ∀ b ∈ s, 0x80 ≤ b ∧ b ≠ 0xff
  /-- A code point has fewer bits than the sequence that it is coded with. -/
  code_lt : ∀ s, Valid s → code s < 256 ^ s.length
  decode_valid : ∀ s rest, Valid s → decode (s ++ rest) = ((s.length : Int), code s)
  /-- Bytes are missing. -/
  decode_missing : ∀ s p, Valid s → p <+: s → p ≠ s → (decode p).1 < 0
  decode_malformed : ∀ p, (∀ s, Valid s → ¬ s <+: p ∧ ¬ p <+: s) → (decode p).1 = 0

namespace Ffutf8

variable (U : Ffutf8)

/-- Data starts with a complete sequence, or is the beginning of one, or is malformed. -/
theorem cases (p : List Byte) :
    (∃ s rest, U.Valid s ∧ p = s ++ rest) ∨
      (∃ s, U.Valid s ∧ p <+: s ∧ p ≠ s ∧ (U.decode p).1 < 0) ∨
      ((U.decode p).1 = 0 ∧ ∀ s, U.Valid s → ¬ s <+: p ∧ ¬ p <+: s) := by
  rcases Classical.em (∀ s, U.Valid s → ¬ s <+: p ∧ ¬ p <+: s) with h | h
  · exact .inr (.inr ⟨U.decode_malformed p h, h⟩)
  · simp only [not_forall, not_and_or, not_not] at h
    obtain ⟨s, hs, h⟩ := h
    rcases Classical.em (s <+: p) with hp | hp
    · obtain ⟨rest, rfl⟩ := hp
      exact .inl ⟨s, rest, hs, rfl⟩
    · have hps := h.resolve_left hp
      have hne : p ≠ s := by
        rintro rfl
        exact hp List.prefix_rfl
      exact .inr (.inl ⟨s, hs, hps, hne, U.decode_missing s p hs hps hne⟩)

variable {U}

/-- No complete sequence is the beginning of another one. -/
theorem unique {s t : List Byte} (hs : U.Valid s) (ht : U.Valid t) (h : s <+: t) : s = t := by
  by_contra hne
  have h1 := U.decode_missing t s ht h hne
  have h2 := U.decode_valid s [] hs
  rw [List.append_nil] at h2
  rw [h2] at h1
  simp only at h1
  omega

/-- A sequence that starts with an ASCII byte is this byte. -/
theorem eq_of_ascii {s : List Byte} {b : Byte} (hs : U.Valid s) (hb : b < 0x80)
    (h : s.head? = some b) : s = [b] := by
  cases s with
  | nil => cases h
  | cons x xs =>
    simp only [List.head?_cons, Option.some.injEq] at h
    subst h
    exact (unique ((U.ascii x).mpr hb) hs (List.prefix_append [x] xs)).symm

/-- An ASCII byte occurs only as a sequence of its own. -/
theorem eq_of_mem_ascii {s : List Byte} {b : Byte} (hs : U.Valid s) (hb : b < 0x80)
    (h : b ∈ s) : s = [b] := by
  match s, hs, h with
  | [x], hs, h =>
    simp only [List.mem_singleton] at h
    rw [h]
  | x :: y :: ys, hs, h =>
    have hx := (U.high _ hs (by simp) b h).1
    exact absurd hb (by simpa using hx)

end Ffutf8

/-! ## A decoder of bit patterns -/

/-- The length that the first byte announces; 0 if it is no first byte. -/
def leadLen (b : Byte) : Nat :=
  if b < 0x80 then 1
  else if b < 0xc0 then 0
  else if b < 0xe0 then 2
  else if b < 0xf0 then 3
  else if b < 0xf8 then 4
  else 0

/-- `10xxxxxx`. -/
def isCont (b : Byte) : Bool := decide (0x80 ≤ b) && decide (b < 0xc0)

/-- The bits of the first byte that belong to the code point. -/
def leadBits (b : Byte) : Nat :=
  if b < 0x80 then b.toNat
  else if b < 0xe0 then b.toNat % 32
  else if b < 0xf0 then b.toNat % 16
  else b.toNat % 8

def bitCode : List Byte → Nat
  | [] => 0
  | b :: bs => bs.foldl (fun n c => n * 64 + c.toNat % 64) (leadBits b)

def bitValid (s : List Byte) : Bool :=
  match s with
  | [] => false
  | b :: bs => bs.all isCont && bs.length + 1 == leadLen b

def bitDecode (p : List Byte) : Int × Nat :=
  match p with
  | [] => (-1, 0)
  | b :: bs =>
    if leadLen b = 0 then (0, 0)
    else if (bs.take (leadLen b - 1)).all isCont then
      if bs.length + 1 < leadLen b then (-1, 0)
      else ((leadLen b : Int), bitCode (b :: bs.take (leadLen b - 1)))
    else (0, 0)

theorem foldl_code_lt : ∀ (bs : List Byte) (n : Nat),
    bs.foldl (fun n c => n * 64 + c.toNat % 64) n < (n + 1) * 64 ^ bs.length
  | [], n => by simp
  | b :: bs, n => by
    rw [List.foldl_cons, List.length_cons, Nat.pow_succ]
    have ih := foldl_code_lt bs (n * 64 + b.toNat % 64)
    have hle : (n * 64 + b.toNat % 64 + 1) * 64 ^ bs.length ≤ (n + 1) * 64 * 64 ^ bs.length :=
      Nat.mul_le_mul_right _ (by omega)
    calc _ < (n * 64 + b.toNat % 64 + 1) * 64 ^ bs.length := ih
      _ ≤ (n + 1) * 64 * 64 ^ bs.length := hle
      _ = (n + 1) * (64 ^ bs.length * 64) := by rw [Nat.mul_assoc, Nat.mul_comm 64]

theorem bitCode_lt {s : List Byte} (h : s ≠ []) : bitCode s < 256 ^ s.length := by
  cases s with
  | nil => exact absurd rfl h
  | cons b bs =>
    have hb : leadBits b < 256 := by
      have := b.toNat_lt
      unfold leadBits
      split
      · exact this
      · split
        · omega
        · split <;> omega
    have hfold := foldl_code_lt bs (leadBits b)
    have hpow : 64 ^ bs.length ≤ 256 ^ bs.length := Nat.pow_le_pow_left (by omega) _
    rw [bitCode, List.length_cons, Nat.pow_succ, Nat.mul_comm]
    exact Nat.lt_of_lt_of_le hfold (Nat.mul_le_mul (by omega) hpow)

theorem leadLen_eq_one {b : Byte} : leadLen b = 1 ↔ b < 0x80 := by
  unfold leadLen
  split
  · simp_all
  · rename_i h
    simp only [h, iff_false]
    split
    · decide
    · split
      · decide
      · split
        · decide
        · split <;> decide

/-- The first byte of a longer sequence. -/
theorem leadLen_high {b : Byte} (h : 2 ≤ leadLen b) : 0x80 ≤ b ∧ b ≠ 0xff := by
  constructor
  · by_contra hlt
    have := leadLen_eq_one.mpr (by simpa using hlt)
    omega
  · rintro rfl
    revert h
    decide

theorem isCont_high {b : Byte} (h : isCont b = true) : 0x80 ≤ b ∧ b ≠ 0xff := by
  simp only [isCont, Bool.and_eq_true, decide_eq_true_eq] at h
  refine ⟨h.1, ?_⟩
  rintro rfl
  exact absurd h.2 (by decide)

theorem bitValid_cons {b : Byte} {bs : List Byte} :
    bitValid (b :: bs) = true ↔ (∀ c ∈ bs, isCont c = true) ∧ bs.length + 1 = leadLen b := by
  simp [bitValid]

/-- The decoder of bit patterns has the properties that are relied on. -/
def bitUtf8 : Ffutf8 where
  decode := bitDecode
  Valid := fun s => bitValid s = true
  code := bitCode
  valid_ne := by
    rintro s hs rfl
    cases hs
  ascii := by
    intro b
    rw [bitValid_cons, ← leadLen_eq_one]
    exact ⟨fun h => h.2.symm, fun h => ⟨by simp, h.symm⟩⟩
  high := by
    intro s hs hlen x hx
    cases s with
    | nil => cases hx
    | cons b bs =>
      rw [bitValid_cons] at hs
      rcases List.mem_cons.mp hx with rfl | hx
      · exact leadLen_high (by rw [← hs.2]; exact hlen)
      · exact isCont_high (hs.1 x hx)
  code_lt := by
    intro s hs
    apply bitCode_lt
    rintro rfl
    cases hs
  decode_valid := by
    intro s rest hs
    cases s with
    | nil => cases hs
    | cons b bs =>
      rw [bitValid_cons] at hs
      have htake : (bs ++ rest).take (leadLen b - 1) = bs := by
        rw [← hs.2]
        simp
      rw [List.cons_append, bitDecode, if_neg (by omega), htake, if_pos (by simpa using hs.1),
        if_neg (by rw [List.length_append]; omega), ← hs.2]
      rfl
  decode_missing := by
    intro s p hs hp hne
    cases p with
    | nil => decide
    | cons b bs =>
      obtain ⟨rest, rfl⟩ := hp
      rw [List.cons_append, bitValid_cons] at hs
      have hrest : rest ≠ [] := by
        rintro rfl
        simp at hne
      have hpos := List.length_pos_iff.mpr hrest
      rw [List.length_append] at hs
      have htake : bs.take (leadLen b - 1) = bs := List.take_of_length_le (by omega)
      rw [bitDecode, if_neg (by omega), htake, if_pos, if_pos (by omega)]
      · decide
      · rw [List.all_eq_true]
        exact fun c hc => hs.1 c (List.mem_append_left rest hc)
  decode_malformed := by
    intro p hp
    cases p with
    | nil => exact absurd List.nil_prefix (hp [0x41] (by decide)).2
    | cons b bs =>
      rw [bitDecode]
      split
      · rfl
      · rename_i hlead
        split
        · rename_i hall
          rw [List.all_eq_true] at hall
          split
          · -- the bytes that are missing may be any
            rename_i hlt
            have htake : bs.take (leadLen b - 1) = bs := List.take_of_length_le (by omega)
            rw [htake] at hall
            have hs : bitValid (b :: (bs ++ List.replicate (leadLen b - 1 - bs.length) 0x80)) = true := by
              rw [bitValid_cons]
              constructor
              · intro c hc
                rcases List.mem_append.mp hc with hc | hc
                · exact hall c hc
                · rw [List.eq_of_mem_replicate hc]
                  decide
              · simp only [List.length_append, List.length_replicate]
                omega
            exact absurd ⟨_, rfl⟩ (hp _ hs).2
          · rename_i hlt
            have hs : bitValid (b :: bs.take (leadLen b - 1)) = true := by
              rw [bitValid_cons]
              refine ⟨hall, ?_⟩
              rw [List.length_take]
              omega
            exact absurd ⟨bs.drop (leadLen b - 1), by simp⟩ (hp _ hs).1
        · rfl

end FFSys.Std
