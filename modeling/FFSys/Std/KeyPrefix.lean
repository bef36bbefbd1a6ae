import Mathlib.Tactic.IntervalCases
import FFSys.Std.Escape

/-!
# When a key is reported as incomplete

`ffstd_key_parse_unix` returns 0 for "not enough data".  It should do so exactly for the proper
beginnings of the byte strings that it accepts.

* `Accepted`, `Incomplete` — what the code accepts, and the beginnings of it.
* `Misreported` — three kinds of data: a NUL, whose key is the code 0 itself; the beginning of a
  character that is too long to be accepted; and an escape sequence of at least two bytes that is
  not complete (by the automaton of the comment), for which the code returns `-1`.
* `ffstdKeyParse_incomplete_iff` — on all other data, and only there, 0 is exact.
-/

set_option autoImplicit false

namespace FFSys.Std

open FFSys.Lib

/-- The value returned is a key. -/
def IsKey (r : BitVec 32) : Prop := r ≠ 0 ∧ r ≠ keyError

instance (r : BitVec 32) : Decidable (IsKey r) := inferInstanceAs (Decidable (_ ∧ _))

def Accepted (U : Ffutf8) (data : List Byte) : Prop := IsKey (ffstdKeyParseUnix U data).ret

/-- A proper prefix of accepted data that is not accepted itself. -/
def Incomplete (U : Ffutf8) (data : List Byte) : Prop :=
  (∃ ext, data <+: ext ∧ data ≠ ext ∧ Accepted U ext) ∧ ¬ Accepted U data

/-- The beginning of complete characters all of which have more than `limit` bytes. -/
def LongChar (U : Ffutf8) (limit : Nat) (p : List Byte) : Prop :=
  (∃ s, U.Valid s ∧ p <+: s ∧ p ≠ s) ∧ ∀ s, U.Valid s → p <+: s → p ≠ s → limit < s.length

/-- Behind an `ESC`. -/
def MisreportedEsc (U : Ffutf8) : List Byte → Prop
  | [] => False
  | c :: l =>
    if c = 0x4f then escRun .ss3 l = .more
    else if c = 0x5b then escRun .csi l = .more
    else LongChar U 3 (c :: l)

/-- The data for which the code mistakes complete and incomplete keys. -/
def Misreported (U : Ffutf8) : List Byte → Prop
  | [] => False
  | b :: l => if b = ESC then MisreportedEsc U l else b = 0 ∨ LongChar U 4 (b :: l)

/-- 0 is exact at `p` for a parser `f`. -/
def ExactAt (f : List Byte → BitVec 32) (p : List Byte) : Prop :=
  f p = 0 ↔ (∃ x, x ≠ [] ∧ IsKey (f (p ++ x))) ∧ ¬ IsKey (f p)

theorem incomplete_iff {U : Ffutf8} {data : List Byte} :
    Incomplete U data ↔ (∃ x, x ≠ [] ∧ Accepted U (data ++ x)) ∧ ¬ Accepted U data := by
  refine and_congr_left fun _ => ⟨?_, ?_⟩
  · rintro ⟨ext, ⟨x, rfl⟩, hne, hacc⟩
    refine ⟨x, ?_, hacc⟩
    rintro rfl
    simp at hne
  · rintro ⟨x, hx, hacc⟩
    refine ⟨data ++ x, ⟨x, rfl⟩, ?_, hacc⟩
    intro heq
    exact hx (by simpa using heq)

/-- A key is never incomplete. -/
theorem exactAt_key {f : List Byte → BitVec 32} {p : List Byte} (h : IsKey (f p)) : ExactAt f p :=
  iff_of_false h.1 (fun hr => hr.2 h)

/-- An error that no further data repairs is not incomplete. -/
theorem exactAt_error {f : List Byte → BitVec 32} {p : List Byte} (h : f p = keyError)
    (hx : ∀ x, ¬ IsKey (f (p ++ x))) : ExactAt f p := by
  apply iff_of_false (by rw [h]; decide)
  rintro ⟨⟨x, -, hk⟩, -⟩
  exact hx x hk

/-! ## Characters -/

section Char

variable {U : Ffutf8} {limit : Nat} {key : BitVec 32} {skip : Nat}

theorem isKey_char {p : List Byte} (h : IsKey (keyChar U p limit key skip).ret) :
    ∃ s rest, U.Valid s ∧ p = s ++ rest ∧ s.length ≤ limit := by
  rcases U.cases p with ⟨s, rest, hs, rfl⟩ | ⟨s, -, -, -, hneg⟩ | ⟨hzero, -⟩
  · refine ⟨s, rest, hs, rfl, ?_⟩
    by_contra hlong
    rw [keyChar_long rest hs (by omega)] at h
    exact h.2 rfl
  · rw [keyChar_missing hneg] at h
    exact absurd rfl h.1
  · rw [keyChar_malformed hzero] at h
    exact absurd rfl h.2

/-- A complete character, and what follows it, is not the beginning of a character. -/
theorem not_longChar {s : List Byte} (hs : U.Valid s) (rest : List Byte) :
    ¬ LongChar U limit (s ++ rest) := by
  rintro ⟨⟨t, ht, hpt, hne⟩, -⟩
  have hst : s <+: t := (List.prefix_append s rest).trans hpt
  have heq := Ffutf8.unique hs ht hst
  subst heq
  exact hne (hpt.eq_of_length_le (by simp))

/-- A key after more data: a complete character starts it. -/
theorem prefix_of_isKey {p x : List Byte} (h : IsKey (keyChar U (p ++ x) limit key skip).ret) :
    ∃ t, U.Valid t ∧ t.length ≤ limit ∧ (p <+: t ∨ t <+: p) := by
  obtain ⟨t, rest, ht, heq, hlen⟩ := isKey_char h
  refine ⟨t, ht, hlen, ?_⟩
  exact List.prefix_or_prefix_of_prefix (List.prefix_append p x) (heq ▸ List.prefix_append t rest)

section Exact

variable {nul : Prop}

/-- At a complete character. -/
theorem keyChar_exact_complete {s : List Byte} (hs : U.Valid s) (rest : List Byte)
    (hkey : ∀ s, U.Valid s → s.length ≤ limit → ¬ (nul ∧ s = [0]) →
      IsKey (key ||| BitVec.ofNat 32 (leNat s)))
    (hnul : nul → key = 0 ∧ 1 ≤ limit) :
    ExactAt (fun x => (keyChar U x limit key skip).ret) (s ++ rest) ↔
      ¬ ((nul ∧ (s ++ rest).head? = some 0) ∨ LongChar U limit (s ++ rest)) := by
  have hlong := @not_longChar U limit s hs rest
  have happ : ∀ x, s ++ rest ++ x = s ++ (rest ++ x) := fun x => List.append_assoc s rest x
  rw [List.head?_append_of_ne_nil _ (U.valid_ne s hs)]
  by_cases hlen : s.length ≤ limit
  · have hval : ∀ x, (keyChar U (s ++ x) limit key skip).ret = key ||| BitVec.ofNat 32 (leNat s) :=
      fun x => by rw [keyChar_valid x hs (by omega)]
    by_cases hn : nul ∧ s = [0]
    · obtain ⟨hn, rfl⟩ := hn
      have hret : ∀ x, (keyChar U ([0] ++ x) limit key skip).ret = 0 := by
        intro x
        rw [hval x, (hnul hn).1]
        decide
      refine iff_of_false ?_ (fun h => h (.inl ⟨hn, rfl⟩))
      intro hex
      obtain ⟨⟨x, -, hk⟩, -⟩ := hex.mp (hret rest)
      simp only [happ] at hk
      exact hk.1 (hret _)
    · refine iff_of_true (exactAt_key ?_) ?_
      · simp only [hval]
        exact hkey s hs hlen hn
      · rintro (⟨hn', hhead⟩ | hl)
        · exact hn ⟨hn', Ffutf8.eq_of_ascii hs (by decide) hhead⟩
        · exact hlong hl
  · have hret : ∀ x, (keyChar U (s ++ x) limit key skip).ret = keyError :=
      fun x => by rw [keyChar_long x hs (by omega)]
    refine iff_of_true (exactAt_error (hret rest) ?_) ?_
    · intro x hk
      simp only [happ] at hk
      exact hk.2 (hret _)
    · rintro (⟨hn', hhead⟩ | hl)
      · rw [Ffutf8.eq_of_ascii hs (by decide) hhead] at hlen
        exact hlen (hnul hn').2
      · exact hlong hl

/-- The beginning of a longer character does not start with an ASCII byte. -/
theorem head_of_begin {p s : List Byte} {b : Byte} (hs : U.Valid s) (hps : p <+: s) (hne : p ≠ s)
    (hb : b < 0x80) : p.head? ≠ some b := by
  intro hhead
  cases p with
  | nil => cases hhead
  | cons c l =>
    obtain ⟨rest, rfl⟩ := hps
    have heq := Ffutf8.eq_of_ascii hs hb hhead
    simp only [List.cons_append, List.cons.injEq, List.append_eq_nil_iff] at heq
    exact hne (by rw [heq.2.2, List.append_nil])

/-- At the beginning of a character. -/
theorem keyChar_exact_begin {p s : List Byte} (hp : p ≠ []) (hs : U.Valid s) (hps : p <+: s)
    (hne : p ≠ s) (hret : (keyChar U p limit key skip).ret = 0)
    (hkey : ∀ s, U.Valid s → s.length ≤ limit → ¬ (nul ∧ s = [0]) →
      IsKey (key ||| BitVec.ofNat 32 (leNat s))) :
    ExactAt (fun x => (keyChar U x limit key skip).ret) p ↔
      ¬ ((nul ∧ p.head? = some 0) ∨ LongChar U limit p) := by
  constructor
  · rintro hex (hn | ⟨-, hl⟩)
    · exact head_of_begin hs hps hne (by decide) hn.2
    · obtain ⟨⟨x, hx, hk⟩, -⟩ := hex.mp hret
      obtain ⟨t, ht, hlen, h | h⟩ := prefix_of_isKey hk
      · have hpt : p ≠ t := by
          rintro rfl
          exact hne (Ffutf8.unique ht hs hps)
        exact absurd hlen (Nat.not_le_of_lt (hl t ht h hpt))
      · have hts := Ffutf8.unique ht hs (h.trans hps)
        subst hts
        exact hne (hps.eq_of_length_le h.length_le)
  · intro hn
    refine iff_of_true hret ⟨?_, fun hk => hk.1 hret⟩
    have hshort : ∃ t, U.Valid t ∧ p <+: t ∧ p ≠ t ∧ t.length ≤ limit := by
      by_contra hnone
      refine hn (.inr ⟨⟨s, hs, hps, hne⟩, fun t ht hpt hne' => ?_⟩)
      by_contra hle
      exact hnone ⟨t, ht, hpt, hne', by omega⟩
    obtain ⟨t, ht, ⟨x, rfl⟩, hne', hlen⟩ := hshort
    have hx : x ≠ [] := by
      rintro rfl
      simp at hne'
    refine ⟨x, hx, ?_⟩
    have hval := @keyChar_valid U _ [] ht limit (by omega) key skip
    rw [List.append_nil] at hval
    simp only [hval]
    apply hkey _ ht hlen
    rintro ⟨-, heq⟩
    have hlen' := congrArg List.length heq
    have h1 := List.length_pos_iff.mpr hp
    have h2 := List.length_pos_iff.mpr hx
    simp only [List.length_append, List.length_singleton] at hlen'
    omega

/-- At data that no character starts with. -/
theorem keyChar_exact_malformed {p : List Byte} (hp : p ≠ [])
    (hret : (keyChar U p limit key skip).ret = keyError)
    (hno : ∀ s, U.Valid s → ¬ s <+: p ∧ ¬ p <+: s) :
    ExactAt (fun x => (keyChar U x limit key skip).ret) p ↔
      ¬ ((nul ∧ p.head? = some 0) ∨ LongChar U limit p) := by
  have hzero : U.Valid [0] := (U.ascii 0).mpr (by decide)
  refine iff_of_true (exactAt_error hret ?_) ?_
  · intro x hk
    obtain ⟨t, ht, -, h | h⟩ := prefix_of_isKey hk
    · exact (hno t ht).2 h
    · exact (hno t ht).1 h
  · rintro (⟨-, hhead⟩ | ⟨⟨t, ht, hpt, -⟩, -⟩)
    · cases p with
      | nil => exact hp rfl
      | cons b l =>
        simp only [List.head?_cons, Option.some.injEq] at hhead
        subst hhead
        exact (hno [0] hzero).1 (List.prefix_append [0] l)
    · exact (hno t ht).2 hpt

/-- The characters of a key parser: 0 is exact at `p` if and only if `p` neither starts with the
    NUL that has the key 0 nor is the beginning of characters that are too long. -/
theorem keyChar_exact {p : List Byte} (hp : p ≠ [])
    (hkey : ∀ s, U.Valid s → s.length ≤ limit → ¬ (nul ∧ s = [0]) →
      IsKey (key ||| BitVec.ofNat 32 (leNat s)))
    (hnul : nul → key = 0 ∧ 1 ≤ limit) :
    ExactAt (fun x => (keyChar U x limit key skip).ret) p ↔
      ¬ ((nul ∧ p.head? = some 0) ∨ LongChar U limit p) := by
  rcases U.cases p with ⟨s, rest, hs, rfl⟩ | ⟨s, hs, hps, hne, hneg⟩ | ⟨hmal, hno⟩
  · exact keyChar_exact_complete hs rest hkey hnul
  · exact keyChar_exact_begin hp hs hps hne (by rw [keyChar_missing hneg]) hkey
  · exact keyChar_exact_malformed hp (by rw [keyChar_malformed hmal]) hno

end Exact

end Char

/-! ## Escape sequences -/

/-- Bit 31 of what is known of the key is not set. -/
def EscState.Low : EscState → Prop
  | .ss3Mod r => r.getLsbD 31 = false
  | .letter r => r.getLsbD 31 = false
  | .tilde r => r.getLsbD 31 = false
  | .semi r => r.getLsbD 31 = false
  | .tildeMod r => r.getLsbD 31 = false
  | _ => True

/-- `FFKEY_VIRT` is set, bit 31 is not. -/
def IsVirt (key : BitVec 32) : Prop := key.getLsbD 27 = true ∧ key.getLsbD 31 = false

theorem IsVirt.isKey {key : BitVec 32} (h : IsVirt key) : IsKey key := by
  constructor
  · rintro rfl
    exact absurd h.1 (by decide)
  · rintro rfl
    exact absurd h.2 (by decide)

def EscNext.Low : EscNext → Prop
  | .goto st => st.Low
  | .accept key => IsVirt key
  | .reject => True

theorem keyAt_low {table : List (BitVec 32)} (h : table.all (fun r => !r.getLsbD 31) = true)
    (b base : Byte) : (keyAt table b base).getLsbD 31 = false := by
  unfold keyAt
  rw [List.getD_eq_getElem?_getD]
  cases hn : table[b.toNat - base.toNat]? with
  | none => decide
  | some r => simpa using List.all_eq_true.mp h r (List.mem_of_getElem? hn)

theorem modBits_low (b : Byte) : (modBits b).getLsbD 31 = false := by
  unfold modBits keyAt
  rw [List.getD_eq_getElem?_getD]
  cases hn : keysMod[b.toNat - UInt8.toNat 0x30]? with
  | none => decide
  | some r =>
    have hall : keysMod.all (fun r => !(r <<< 24).getLsbD 31) = true := by decide +kernel
    have hr := List.all_eq_true.mp hall r (List.mem_of_getElem? hn)
    rwa [Bool.not_eq_true'] at hr

theorem f1_low {b : Byte} (h : within 0x50 0x53 b = true) :
    (FFKEY_F1 + BitVec.ofNat 32 b.toNat - 0x50).getLsbD 31 = false := by
  rw [within_iff] at h
  have h1 : 0x50 ≤ b.toNat := h.1
  have h2 : b.toNat ≤ 0x53 := h.2
  generalize b.toNat = n at *
  interval_cases n <;> decide

theorem virt_or {r : BitVec 32} (h : r.getLsbD 31 = false) : IsVirt (FFKEY_VIRT ||| r) := by
  constructor
  · rw [BitVec.getLsbD_or, show FFKEY_VIRT.getLsbD 27 = true by decide, Bool.true_or]
  · rw [BitVec.getLsbD_or, h, Bool.or_false]
    decide

theorem escFin_low {r : BitVec 32} (h : r.getLsbD 31 = false) : (escFin r).Low := by
  unfold escFin
  split
  · exact virt_or h
  · trivial

theorem or_low {r r' : BitVec 32} (h : r.getLsbD 31 = false) (h' : r'.getLsbD 31 = false) :
    (r ||| r').getLsbD 31 = false := by
  rw [BitVec.getLsbD_or, h, h', Bool.or_false]

theorem tildeStep_low {r : BitVec 32} (h : r.getLsbD 31 = false) (b : Byte) : (tildeStep r b).Low := by
  unfold tildeStep
  split
  · exact h
  · split
    · exact escFin_low h
    · trivial

theorem escStep_low {st : EscState} (h : st.Low) (b : Byte) : (escStep st b).Low := by
  have h3x := @keyAt_low keys3x (by decide +kernel) b 0x30
  have h4x := @keyAt_low keys4x (by decide +kernel) b 0x40
  have h5 := @keyAt_low keysF5F8 (by decide +kernel) b 0x30
  have h9 := @keyAt_low keysF9F12 (by decide +kernel) b 0x30
  cases st with
  | ss3 =>
    rw [escStep]
    split
    · exact modBits_low b
    · split
      · exact escFin_low (f1_low ‹_›)
      · trivial
  | ss3Mod r =>
    rw [escStep]
    split
    · exact escFin_low (or_low h (f1_low ‹_›))
    · trivial
  | csi =>
    rw [escStep]
    split
    · trivial
    · split
      · trivial
      · split
        · exact h3x
        · split
          · exact escFin_low h4x
          · trivial
  | csi1 =>
    rw [escStep]
    split
    · exact h5
    · split
      · trivial
      · trivial
  | csi1Semi =>
    rw [escStep]
    split
    · exact modBits_low b
    · trivial
  | letter r =>
    rw [escStep]
    split
    · exact escFin_low (or_low h h4x)
    · trivial
  | csi2 =>
    rw [escStep]
    split
    · trivial
    · split
      · exact h9
      · exact tildeStep_low (by decide) b
  | csi20 =>
    rw [escStep]
    split
    · trivial
    · exact tildeStep_low (by decide) b
  | paste =>
    rw [escStep]
    split
    · exact ⟨by decide, by decide⟩
    · trivial
  | tilde r => exact tildeStep_low h b
  | semi r =>
    rw [escStep]
    split
    · exact or_low h (modBits_low b)
    · trivial
  | tildeMod r =>
    rw [escStep]
    split
    · exact virt_or h
    · trivial

/-- Every key of the automaton is a virtual key. -/
theorem escRun_isVirt : ∀ {st : EscState} {l : List Byte} {key : BitVec 32} {n : Nat}, st.Low →
    escRun st l = .done key n → IsVirt key
  | st, [], _, _, _, h => by cases h
  | st, b :: bs, key, n, hlow, h => by
    have hnext := escStep_low hlow b
    obtain ⟨b', bs', heq, ⟨hstep, -⟩ | ⟨st', m, hstep, hrun, -⟩⟩ := escRun_done_cases h
    · cases heq
      rw [hstep] at hnext
      exact hnext
    · cases heq
      rw [hstep] at hnext
      exact escRun_isVirt hnext hrun

/-- Behind `ESC O` and `ESC [`: 0 is exact if and only if the automaton is at its end. -/
theorem escape_exact {f : List Byte → KeyRes} {st : EscState} (hst : st.Low)
    (hf : ∀ l, Matches (f l) 2 (escRun st l)) (l : List Byte) :
    ExactAt (fun l => (f l).ret) l ↔ ¬ escRun st l = .more := by
  have hl := hf l
  have hdone : ∀ {l key n}, escRun st l = .done key n → IsKey (f l).ret := by
    intro l key n h
    have hl := hf l
    rw [h] at hl
    rw [hl]
    exact (escRun_isVirt hst h).isKey
  cases hrun : escRun st l with
  | done key n => exact iff_of_true (exactAt_key (hdone hrun)) (by simp)
  | bad =>
    rw [hrun] at hl
    refine iff_of_true (exactAt_error hl ?_) (by simp)
    intro x hk
    have hx := hf (l ++ x)
    rw [escRun_bad_append x hrun] at hx
    exact hk.2 hx
  | more =>
    rw [hrun] at hl
    refine iff_of_false ?_ (by simp)
    intro hex
    obtain ⟨x, key, n, hx, hd⟩ := escRun_live hrun
    have hzero := hex.mpr ⟨⟨x, hx, hdone hd⟩, fun hk => hk.2 hl⟩
    simp only at hzero
    rw [hl] at hzero
    exact absurd hzero (by decide)

/-! ## The whole function -/

theorem exactAt_congr {f g : List Byte → BitVec 32} {p q : List Byte} (h : ∀ x, f (p ++ x) = g (q ++ x)) :
    ExactAt f p ↔ ExactAt g q := by
  have h0 := h []
  rw [List.append_nil, List.append_nil] at h0
  unfold ExactAt
  simp only [h, h0]

/-- A single `ESC` is the beginning of a key. -/
theorem escAlone_exact (U : Ffutf8) : ExactAt (fun d => (ffstdKeyParseUnix U d).ret) [ESC] := by
  have hneg : (U.decode []).1 < 0 :=
    U.decode_missing [0x41] [] ((U.ascii 0x41).mpr (by decide)) List.nil_prefix (by simp)
  have hret : (ffstdKeyParseUnix U [ESC]).ret = 0 := by
    rw [parse_alt U [] (by simp) (by simp), keyChar_missing hneg]
  have hup := parse_csi U [0x41]
  rw [show escRun .csi [0x41] = .done FFKEY_UP 1 by decide, Matches] at hup
  refine iff_of_true hret ⟨⟨[0x5b, 0x41], by simp, ?_⟩, fun hk => hk.1 hret⟩
  show IsKey (ffstdKeyParseUnix U [ESC, 0x5b, 0x41]).ret
  rw [hup]
  decide

/-- The branches for `ESC`. -/
theorem exactAt_escape (U : Ffutf8) (l : List Byte) :
    ExactAt (fun d => (ffstdKeyParseUnix U d).ret) (ESC :: l) ↔ ¬ MisreportedEsc U l := by
  cases l with
  | nil => exact iff_of_true (escAlone_exact U) (fun h => h)
  | cons c l =>
    rw [MisreportedEsc]
    split
    · rename_i hc
      subst hc
      have hex := @escape_exact (fun l => ffstdKeyParseUnix U (ESC :: 0x4f :: l)) .ss3 trivial
        (parse_ss3 U) l
      rw [← hex]
      exact exactAt_congr (g := fun l => (ffstdKeyParseUnix U (ESC :: 0x4f :: l)).ret) fun x => rfl
    · rename_i hc1
      split
      · rename_i hc
        subst hc
        have hex := @escape_exact (fun l => ffstdKeyParseUnix U (ESC :: 0x5b :: l)) .csi trivial
          (parse_csi U) l
        rw [← hex]
        exact exactAt_congr (g := fun l => (ffstdKeyParseUnix U (ESC :: 0x5b :: l)).ret) fun x => rfl
      · rename_i hc2
        have hex := @keyChar_exact U 3 FFKEY_ALT 1 False (c :: l) (by simp)
          (fun s _ hlen _ => ⟨(altKey_ne hlen).2.1, (altKey_ne hlen).1⟩) False.elim
        simp only [false_and, false_or] at hex
        rw [← hex]
        refine exactAt_congr (g := fun x => (keyChar U x 3 FFKEY_ALT 1).ret) fun x => ?_
        exact congrArg KeyRes.ret
          (parse_alt U (c :: l ++ x) (by simpa using hc1) (by simpa using hc2))

/-- **"Not enough data" is exact on all data but three kinds.**  For every non-empty byte string:
    the code returns 0 if and only if the string is an incomplete key, exactly when the string does
    not start with NUL, is not the beginning of characters that are too long only, and is not an
    escape sequence of two bytes or more that the automaton has not completed. -/
theorem ffstdKeyParse_incomplete_iff (U : Ffutf8) (data : List Byte) (hdata : data ≠ []) :
    ((ffstdKeyParseUnix U data).ret = 0 ↔ Incomplete U data) ↔ ¬ Misreported U data := by
  rw [incomplete_iff]
  show ExactAt (fun d => (ffstdKeyParseUnix U d).ret) data ↔ _
  obtain ⟨b, l, rfl⟩ := List.exists_cons_of_ne_nil hdata
  rw [Misreported]
  split
  · rename_i hb
    rw [hb]
    exact exactAt_escape U l
  · rename_i hb
    have hex := @keyChar_exact U 4 0 0 True (b :: l) (by simp)
      (fun s hs hlen hn => by
        rw [zero_or]
        exact ⟨(charKey_ne hs hlen).2.1 (fun h => hn ⟨trivial, h⟩), (charKey_ne hs hlen).1⟩)
      (fun _ => ⟨rfl, by omega⟩)
    simp only [true_and, List.head?_cons, Option.some.injEq] at hex
    rw [← hex]
    refine exactAt_congr (g := fun x => (keyChar U x 4 0 0).ret) fun x => ?_
    exact congrArg KeyRes.ret (parse_char U (l ++ x) hb)

/-- The first byte of a two-byte character. -/
theorem ffstdKeyParse_incomplete_char :
    (ffstdKeyParseUnix bitUtf8 [0xd0]).ret = 0 ↔ Incomplete bitUtf8 [0xd0] := by
  apply (ffstdKeyParse_incomplete_iff bitUtf8 [0xd0] (by simp)).mpr
  rintro (h | ⟨-, h⟩)
  · exact absurd h (by decide)
  · have hlong := h [0xd0, 0xaf] (show bitValid [0xd0, 0xaf] = true by decide) (by decide) (by decide)
    exact absurd hlong (by decide)

/-- `ESC [`, the beginning of `ESC [ A`, is reported as an error. -/
theorem ffstdKeyParse_split_sequence :
    ¬ ∀ (U : Ffutf8) (data : List Byte), data ≠ [] →
      ((ffstdKeyParseUnix U data).ret = 0 ↔ Incomplete U data) := by
  intro h
  have hret : (ffstdKeyParseUnix bitUtf8 [ESC, 0x5b]).ret = keyError := by decide +kernel
  have hup : Accepted bitUtf8 [ESC, 0x5b, 0x41] := by
    show IsKey (ffstdKeyParseUnix bitUtf8 [ESC, 0x5b, 0x41]).ret
    decide +kernel
  have hzero := (h bitUtf8 [ESC, 0x5b] (by simp)).mpr
    ⟨⟨[ESC, 0x5b, 0x41], by decide, by simp, hup⟩, fun hacc => hacc.2 hret⟩
  rw [hret] at hzero
  exact absurd hzero (by decide)

end FFSys.Std
