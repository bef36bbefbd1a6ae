import FFSys.Std.KeyPrefix

/-!
# A key does not depend on the bytes behind it

`ffstd_key_parse_unix` copies up to 8 bytes into a window that is filled up with zeros, so that
every branch sees bytes that do not belong to the key.

* `ReadAlone` — the bytes read lie in the data, and all data that begins with them gives the same
  key and the same number of bytes.
* `escRun_take` — the automaton does not look behind the key; `char_readAlone` — neither does the
  character decoder.
* `ffstdKeyParse_readAlone` — every accepted key is read alone.
-/

set_option autoImplicit false

namespace FFSys.Std

open FFSys.Lib

/-- The parser `f` reads the key of `data` from its first bytes alone. -/
def ReadAlone (f : List Byte → KeyRes) (data : List Byte) : Prop :=
  ∃ n, (f data).read = some n ∧ 1 ≤ n ∧ n ≤ data.length ∧
    ∀ other, data.take n <+: other → f other = f data

/-- A parser that has the same result on all data that begins with `w`. -/
theorem readAlone_of_append {f : List Byte → KeyRes} {w : List Byte} {key : BitVec 32}
    (hw : w ≠ []) (h : ∀ rest, f (w ++ rest) = ⟨key, some w.length⟩) (rest : List Byte) :
    ReadAlone f (w ++ rest) := by
  refine ⟨w.length, by rw [h], List.length_pos_of_ne_nil hw, by simp, ?_⟩
  rw [List.take_left' rfl]
  rintro other ⟨more, rfl⟩
  rw [h, h]

/-- The automaton has read the key, and nothing behind it. -/
theorem escRun_take {key : BitVec 32} : ∀ {st : EscState} {l : List Byte} {n : Nat},
    escRun st l = .done key n → n ≤ l.length ∧ escRun st (l.take n) = .done key n
  | st, [], n, h => by cases h
  | st, b :: bs, n, h => by
    obtain ⟨b', bs', heq, ⟨hstep, rfl⟩ | ⟨st', m, hstep, hrun, rfl⟩⟩ := escRun_done_cases h
    · cases heq
      refine ⟨by simp, ?_⟩
      rw [List.take_succ_cons, List.take_zero, escRun, hstep]
    · cases heq
      obtain ⟨hlen, htake⟩ := escRun_take hrun
      refine ⟨by simpa using hlen, ?_⟩
      rw [List.take_succ_cons, escRun, hstep]
      simp only
      rw [htake]
      rfl

section ReadAlone

variable {U : Ffutf8}

/-- An escape sequence. -/
theorem escape_readAlone {c : Byte} {st : EscState} {l : List Byte}
    (hm : ∀ l, Matches (ffstdKeyParseUnix U (ESC :: c :: l)) 2 (escRun st l))
    (h : Accepted U (ESC :: c :: l)) : ReadAlone (ffstdKeyParseUnix U) (ESC :: c :: l) := by
  have hl := hm l
  cases hr : escRun st l with
  | more => rw [hr] at hl; exact absurd hl h.2
  | bad => rw [hr] at hl; exact absurd hl h.2
  | done key n =>
    obtain ⟨hlen, htake⟩ := escRun_take hr
    have hlenw : (l.take n).length = n := by
      rw [List.length_take]
      omega
    have hval : ∀ rest, ffstdKeyParseUnix U (ESC :: c :: l.take n ++ rest) =
        ⟨key, some (ESC :: c :: l.take n).length⟩ := by
      intro rest
      have hrest := hm (l.take n ++ rest)
      rw [escRun_done_append rest htake] at hrest
      rw [List.length_cons, List.length_cons, hlenw, Nat.add_assoc, Nat.add_comm n]
      exact hrest
    have := readAlone_of_append (by simp) hval (l.drop n)
    rwa [List.cons_append, List.cons_append, List.take_append_drop] at this

/-- A character of at most `limit` bytes behind the bytes `pre`. -/
theorem char_readAlone {pre p : List Byte} {limit : Nat} {key : BitVec 32}
    (hf : ∀ q : List Byte, q.head? = p.head? →
      ffstdKeyParseUnix U (pre ++ q) = keyChar U q limit key pre.length)
    (h : Accepted U (pre ++ p)) : ReadAlone (ffstdKeyParseUnix U) (pre ++ p) := by
  unfold Accepted at h
  rw [hf p rfl] at h
  obtain ⟨s, rest, hs, rfl, hlen⟩ := isKey_char h
  have hne := U.valid_ne s hs
  have hval : ∀ rest, ffstdKeyParseUnix U (pre ++ s ++ rest) =
      ⟨key ||| BitVec.ofNat 32 (leNat s), some (pre ++ s).length⟩ := by
    intro rest'
    rw [List.append_assoc, hf (s ++ rest') (by simp [List.head?_append_of_ne_nil _ hne]),
      keyChar_valid rest' hs (by omega), List.length_append]
  have := readAlone_of_append (by simp [hne]) hval rest
  rwa [List.append_assoc] at this

end ReadAlone

/-- **A key is read from its own bytes.**  If data is accepted, the bytes read lie in it, and all
    data that begins with these bytes gives the same key and the same number of bytes. -/
theorem ffstdKeyParse_readAlone (U : Ffutf8) (data : List Byte) (h : Accepted U data) :
    ReadAlone (ffstdKeyParseUnix U) data := by
  rcases data with _ | ⟨b, l⟩
  · exact absurd rfl h.1
  by_cases hb : b = ESC
  · subst hb
    by_cases h1 : l.head? = some 0x4f
    · obtain ⟨l, rfl⟩ := List.head?_eq_some_iff.mp h1
      exact escape_readAlone (parse_ss3 U) h
    by_cases h2 : l.head? = some 0x5b
    · obtain ⟨l, rfl⟩ := List.head?_eq_some_iff.mp h2
      exact escape_readAlone (parse_csi U) h
    · refine @char_readAlone U [ESC] l 3 FFKEY_ALT ?_ h
      intro q hq
      exact parse_alt U q (by rwa [hq]) (by rwa [hq])
  · refine @char_readAlone U [] (b :: l) 4 0 ?_ h
    intro q hq
    cases q with
    | nil => cases hq
    | cons a q =>
      have ha : a ≠ ESC := by
        simp only [List.head?_cons, Option.some.injEq] at hq
        rw [hq]
        exact hb
      exact parse_char U q ha

/-- `ESC [ A`, which is followed by `B`. -/
theorem ffstdKeyParse_readAlone_up :
    ReadAlone (ffstdKeyParseUnix bitUtf8) [ESC, 0x5b, 0x41, 0x42] :=
  ffstdKeyParse_readAlone bitUtf8 [ESC, 0x5b, 0x41, 0x42]
    (show IsKey (ffstdKeyParseUnix bitUtf8 [ESC, 0x5b, 0x41, 0x42]).ret by decide +kernel)

end FFSys.Std
