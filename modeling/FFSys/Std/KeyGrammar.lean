import FFSys.Std.KeyPrefix
import FFSys.Std.KeyStream

/-!
# The grammar of the escape sequences

The comment before `ffstd_key_parse_unix` gives the sequences as a tree with ranges of bytes.  Some
bytes of the ranges denote no key.

* `treeForms` — the key positions of the tree; `Generated` — the sequences of the tree with a key
  at their key position.
* `FollowsGrammar` — a key is returned exactly for these sequences, with the bits of the modifiers
  and the length of the sequence.
* `ss3_begins`, `csi_begins` — a key is only returned for a sequence of the tree.
* `ffstdKeyParse_grammar_iff` — the code follows the grammar exactly on the data that does not begin
  with modifiers and a position that denotes no key: `r` is tested after the modifiers were
  or-ed into it.
-/

set_option autoImplicit false

namespace FFSys.Std

open FFSys.Lib

deriving instance DecidableEq for SeqForm

/-! ## The tree -/

/-- `lo..hi`. -/
def byteRange (lo hi : Byte) : List Byte :=
  (List.range' lo.toNat (hi.toNat + 1 - lo.toNat)).map UInt8.ofNat

/-- The key positions of the tree. -/
def treeForms : List SeqForm :=
  (byteRange 0x50 0x53).map .ss3 ++
  (byteRange 0x35 0x39).map (fun b => .tilde [0x31, b]) ++
  (byteRange 0x30 0x34).map (fun b => .tilde [0x32, b]) ++
  (byteRange 0x32 0x36).map (fun b => .tilde [b]) ++
  (byteRange 0x41 0x48).map .letter

/-- The position denotes a key. -/
def SeqForm.Defined (f : SeqForm) : Prop := ∃ k : VirtKey, k.form = f

/-- The sequences of the tree whose key position denotes a key, and their keys. -/
inductive Generated : List Byte → BitVec 32 → Prop
  | virt (k : VirtKey) (m : Mods) (h : k.form ∈ treeForms) :
      Generated (ESC :: k.form.tail m) (k.code ||| m.bits)
  | pasteStart : Generated pasteStart FFKEY_TEXT_PASTED
  | pasteEnd : Generated pasteEnd FFKEY_TEXT_PASTED

/-- The data begins with a sequence of the tree that has a modifier and denotes no key. -/
def ModifiedHole (data : List Byte) : Prop :=
  ∃ f ∈ treeForms, ¬ f.Defined ∧ ∃ m : Mods, m ≠ .none ∧ ESC :: f.tail m <+: data

/-- The code returns a key exactly for the sequences of the grammar. -/
structure FollowsGrammar (U : Ffutf8) (data : List Byte) : Prop where
  accepts : IsKey (ffstdKeyParseUnix U data).ret ↔ ∃ w key, Generated w key ∧ w <+: data
  result : ∀ w key, Generated w key → w <+: data → ffstdKeyParseUnix U data = ⟨key, some w.length⟩
  low : IsKey (ffstdKeyParseUnix U data).ret →
    FFKEY_DEL &&& 0xff ≤ (ffstdKeyParseUnix U data).ret &&& 0xff ∧
      (ffstdKeyParseUnix U data).ret &&& 0xff ≤ FFKEY_TEXT_PASTED &&& 0xff

theorem mem_byteRange {lo hi b : Byte} (h : within lo hi b = true) : b ∈ byteRange lo hi := by
  rw [within_iff] at h
  refine List.mem_map.mpr ⟨b.toNat, ?_, by simp⟩
  rw [List.mem_range'_1]
  omega

/-- The modifiers of a digit. -/
theorem mods_of_digit {b : Byte} (h : within 0x32 0x38 b = true) :
    ∃ m : Mods, m ≠ .none ∧ m.digit = b := by
  have hall : ∀ b ∈ byteRange 0x32 0x38, ∃ c s a : Bool,
      Mods.mk c s a ≠ .none ∧ (Mods.mk c s a).digit = b := by decide +kernel
  obtain ⟨c, s, a, hm⟩ := hall b (mem_byteRange h)
  exact ⟨⟨c, s, a⟩, hm⟩

/-- The tables have a key at the positions that denote one, and only there. -/
theorem defined_of_table :
    (∀ b ∈ byteRange 0x50 0x53, (SeqForm.ss3 b).Defined) ∧
    (∀ b ∈ byteRange 0x35 0x39, keyAt keysF5F8 b 0x30 ≠ 0 → (SeqForm.tilde [0x31, b]).Defined) ∧
    (∀ b ∈ byteRange 0x30 0x34, keyAt keysF9F12 b 0x30 ≠ 0 → (SeqForm.tilde [0x32, b]).Defined) ∧
    (∀ b ∈ byteRange 0x32 0x36, keyAt keys3x b 0x30 ≠ 0 → (SeqForm.tilde [b]).Defined) ∧
    (∀ b ∈ byteRange 0x41 0x48, keyAt keys4x b 0x40 ≠ 0 → (SeqForm.letter b).Defined) := by
  have hdef : ∀ f : SeqForm, (∃ k ∈ VirtKey.all, k.form = f) → f.Defined := by
    rintro f ⟨k, -, hk⟩
    exact ⟨k, hk⟩
  refine ⟨fun b hb => hdef _ ?_, fun b hb h => hdef _ ?_, fun b hb h => hdef _ ?_,
    fun b hb h => hdef _ ?_, fun b hb h => hdef _ ?_⟩
  · revert b
    decide +kernel
  · revert b
    decide +kernel
  · revert b
    decide +kernel
  · revert b
    decide +kernel
  · revert b
    decide +kernel

/-! ## A key is only returned for a sequence of the tree -/

/-- Behind `ESC` there is a sequence of the tree; without modifiers it denotes a key. -/
def Begins (l : List Byte) : Prop :=
  (∃ f ∈ treeForms, ∃ m : Mods, (m = .none → f.Defined) ∧ f.tail m <+: l) ∨
    [0x5b, 0x32, 0x30, 0x30, 0x7e] <+: l ∨ [0x5b, 0x32, 0x30, 0x31, 0x7e] <+: l

section Begins

variable {l : List Byte} {key r : BitVec 32} {n : Nat} {b : Byte}

theorem escFin_accept (h : escFin r = .accept key) : r ≠ 0 := by
  rintro rfl
  cases h

theorem escFin_ne_goto {st : EscState} : escFin r ≠ .goto st := by
  unfold escFin
  split <;> simp

/-- The last byte behind a modifier: a state that accepts a range of bytes and nothing else. -/
theorem range_ends {lo hi : Byte} {st : EscState} {f : Byte → BitVec 32}
    (hst : ∀ b, escStep st b = if within lo hi b then escFin (f b) else .reject)
    (h : escRun st l = .done key n) : ∃ b rest, l = b :: rest ∧ within lo hi b = true := by
  obtain ⟨b, rest, rfl, ⟨hstep, -⟩ | ⟨st', _, hstep, -⟩⟩ := escRun_done_cases h
  · rw [hst] at hstep
    split at hstep
    · rename_i hb
      exact ⟨b, rest, rfl, hb⟩
    · cases hstep
  · rw [hst] at hstep
    split at hstep
    · exact absurd hstep escFin_ne_goto
    · cases hstep

theorem ss3_begins (h : escRun .ss3 l = .done key n) : Begins (0x4f :: l) := by
  have hform : ∀ f m, within 0x50 0x53 f = true → (SeqForm.ss3 f).tail m <+: 0x4f :: l →
      Begins (0x4f :: l) := by
    intro f m hf hpre
    have hmem := mem_byteRange hf
    refine Or.inl ⟨.ss3 f, ?_, m, fun _ => defined_of_table.1 f hmem, hpre⟩
    simp only [treeForms, List.mem_append, List.mem_map]
    exact Or.inl (Or.inl (Or.inl (Or.inl ⟨f, hmem, rfl⟩)))
  obtain ⟨b, bs, rfl, ⟨hstep, -⟩ | ⟨st, m, hstep, hrun, -⟩⟩ := escRun_done_cases h
  · rw [escStep] at hstep
    split at hstep
    · cases hstep
    · split at hstep
      · rename_i hb
        exact hform b .none hb ⟨bs, rfl⟩
      · cases hstep
  · rw [escStep] at hstep
    split at hstep
    · rename_i hb
      cases hstep
      obtain ⟨m, hm, rfl⟩ := mods_of_digit hb
      obtain ⟨f, rest, rfl, hf⟩ := range_ends (fun b => rfl) hrun
      refine hform f m hf ⟨rest, ?_⟩
      rw [SeqForm.tail, if_neg hm]
      rfl
    · split at hstep
      · exact absurd hstep escFin_ne_goto
      · cases hstep

/-- The end of a sequence with digits: the modifiers and `7e`. -/
def tildeEnd (m : Mods) : List Byte := (if m = .none then [] else [0x3b, m.digit]) ++ [0x7e]

theorem semi_ends (h : escRun (.semi r) l = .done key n) :
    ∃ m : Mods, m ≠ .none ∧ [m.digit, 0x7e] <+: l := by
  obtain ⟨b, bs, rfl, ⟨hstep, -⟩ | ⟨st, _, hstep, hrun, -⟩⟩ := escRun_done_cases h
  · rw [escStep] at hstep
    split at hstep <;> cases hstep
  · rw [escStep] at hstep
    split at hstep
    · rename_i hb
      cases hstep
      obtain ⟨m, hm, rfl⟩ := mods_of_digit hb
      obtain ⟨e, rest, rfl, ⟨he, -⟩ | ⟨st, _, he, -⟩⟩ := escRun_done_cases hrun
      · rw [escStep] at he
        split at he
        · rename_i hb
          subst hb
          exact ⟨m, hm, ⟨rest, rfl⟩⟩
        · cases he
      · rw [escStep] at he
        split at he <;> cases he
    · cases hstep

theorem tilde_ends (h : escRun (.tilde r) l = .done key n) :
    ∃ m : Mods, (m = .none → r ≠ 0) ∧ tildeEnd m <+: l := by
  obtain ⟨b, bs, rfl, ⟨hstep, -⟩ | ⟨st, _, hstep, hrun, -⟩⟩ := escRun_done_cases h
  · rw [escStep, tildeStep] at hstep
    split at hstep
    · cases hstep
    · split at hstep
      · rename_i hb
        subst hb
        exact ⟨.none, fun _ => escFin_accept hstep, ⟨bs, rfl⟩⟩
      · cases hstep
  · rw [escStep, tildeStep] at hstep
    split at hstep
    · rename_i hb
      cases hstep
      subst hb
      obtain ⟨m, hm, rest, rfl⟩ := semi_ends hrun
      refine ⟨m, fun h => absurd h hm, rest, ?_⟩
      rw [tildeEnd, if_neg hm]
      rfl
    · split at hstep
      · exact absurd hstep escFin_ne_goto
      · cases hstep

/-- Digits of the tree, and the end of the sequence behind them. -/
theorem digits_begins {digits : List Byte} (hmem : SeqForm.tilde digits ∈ treeForms)
    (hdef : r ≠ 0 → (SeqForm.tilde digits).Defined) (h : escRun (.tilde r) l = .done key n) :
    Begins (0x5b :: digits ++ l) := by
  obtain ⟨m, hm, rest, rfl⟩ := tilde_ends h
  refine Or.inl ⟨_, hmem, m, fun h => hdef (hm h), rest, ?_⟩
  rw [SeqForm.tail, tildeEnd, List.append_assoc, List.append_assoc, List.append_assoc]

theorem letter_mem (hb : within 0x41 0x48 b = true) : SeqForm.letter b ∈ treeForms := by
  simp only [treeForms, List.mem_append, List.mem_map]
  exact Or.inr ⟨b, mem_byteRange hb, rfl⟩

theorem csi1Semi_begins (h : escRun .csi1Semi l = .done key n) :
    Begins (0x5b :: 0x31 :: 0x3b :: l) := by
  obtain ⟨b, bs, rfl, ⟨hstep, -⟩ | ⟨st, _, hstep, hrun, -⟩⟩ := escRun_done_cases h
  · rw [escStep] at hstep
    split at hstep <;> cases hstep
  · rw [escStep] at hstep
    split at hstep
    · rename_i hb
      cases hstep
      obtain ⟨m, hm, rfl⟩ := mods_of_digit hb
      obtain ⟨f, rest, rfl, hf⟩ := range_ends (fun b => rfl) hrun
      refine Or.inl ⟨_, letter_mem hf, m, fun h => absurd h hm, rest, ?_⟩
      rw [SeqForm.tail, if_neg hm]
      rfl
    · cases hstep

theorem csi1_begins (h : escRun .csi1 l = .done key n) : Begins (0x5b :: 0x31 :: l) := by
  obtain ⟨b, bs, rfl, ⟨hstep, -⟩ | ⟨st, _, hstep, hrun, -⟩⟩ := escRun_done_cases h
  · rw [escStep] at hstep
    split at hstep
    · cases hstep
    · split at hstep <;> cases hstep
  · rw [escStep] at hstep
    split at hstep
    · rename_i hb
      cases hstep
      show Begins (0x5b :: [0x31, b] ++ bs)
      refine digits_begins ?_ (defined_of_table.2.1 b (mem_byteRange hb)) hrun
      simp only [treeForms, List.mem_append, List.mem_map]
      exact Or.inl (Or.inl (Or.inl (Or.inr ⟨b, mem_byteRange hb, rfl⟩)))
    · split at hstep
      · rename_i hb
        cases hstep
        subst hb
        exact csi1Semi_begins hrun
      · cases hstep

theorem twoDigits_mem (hb : within 0x30 0x34 b = true) : SeqForm.tilde [0x32, b] ∈ treeForms := by
  simp only [treeForms, List.mem_append, List.mem_map]
  exact Or.inl (Or.inl (Or.inr ⟨b, mem_byteRange hb, rfl⟩))

theorem oneDigit_mem (hb : within 0x32 0x36 b = true) : SeqForm.tilde [b] ∈ treeForms := by
  simp only [treeForms, List.mem_append, List.mem_map]
  exact Or.inl (Or.inr ⟨b, mem_byteRange hb, rfl⟩)

theorem csi20_begins (h : escRun .csi20 l = .done key n) : Begins (0x5b :: 0x32 :: 0x30 :: l) := by
  obtain ⟨b, bs, rfl, -⟩ := escRun_done_cases h
  by_cases hb : b = 0x30 ∨ b = 0x31
  · -- the text is pasted
    rw [escRun, escStep, if_pos hb] at h
    simp only at h
    cases bs with
    | nil => cases h
    | cons e rest =>
      rw [escRun, escStep] at h
      by_cases he : e = 0x7e
      · subst he
        rcases hb with rfl | rfl
        · exact Or.inr (Or.inl ⟨rest, rfl⟩)
        · exact Or.inr (Or.inr ⟨rest, rfl⟩)
      · rw [if_neg he] at h
        cases h
  · rw [escRun_csi20 bs hb] at h
    show Begins (0x5b :: [0x32, 0x30] ++ b :: bs)
    exact digits_begins (twoDigits_mem rfl) (fun _ => ⟨.f9, rfl⟩) h

theorem csi2_begins (h : escRun .csi2 l = .done key n) : Begins (0x5b :: 0x32 :: l) := by
  obtain ⟨b, bs, rfl, hcases⟩ := escRun_done_cases h
  by_cases h0 : b = 0x30
  · rcases hcases with ⟨hstep, -⟩ | ⟨st, _, hstep, hrun, -⟩
    · rw [escStep, if_pos h0] at hstep
      cases hstep
    · rw [escStep, if_pos h0] at hstep
      cases hstep
      subst h0
      exact csi20_begins hrun
  · by_cases hb : within 0x31 0x34 b = true
    · rcases hcases with ⟨hstep, -⟩ | ⟨st, _, hstep, hrun, -⟩
      · rw [escStep, if_neg h0, if_pos hb] at hstep
        cases hstep
      · rw [escStep, if_neg h0, if_pos hb] at hstep
        cases hstep
        rw [← within_from_30 h0] at hb
        show Begins (0x5b :: [0x32, b] ++ bs)
        exact digits_begins (twoDigits_mem hb) (defined_of_table.2.2.1 b (mem_byteRange hb)) hrun
    · -- the digit was the only one
      have hrun : escRun (.tilde (FFKEY_INS &&& 0xff)) (b :: bs) = .done key n := by
        rw [escRun, escStep, if_neg h0, if_neg hb] at h
        rw [escRun, escStep]
        exact h
      show Begins (0x5b :: [0x32] ++ b :: bs)
      exact digits_begins (oneDigit_mem rfl) (fun _ => ⟨.ins, rfl⟩) hrun

theorem csi_begins (h : escRun .csi l = .done key n) : Begins (0x5b :: l) := by
  obtain ⟨b, bs, rfl, ⟨hstep, -⟩ | ⟨st, _, hstep, hrun, -⟩⟩ := escRun_done_cases h
  · rw [escStep] at hstep
    split at hstep
    · cases hstep
    split at hstep
    · cases hstep
    split at hstep
    · cases hstep
    split at hstep
    · rename_i hb
      have hdef := defined_of_table.2.2.2.2 b (mem_byteRange hb) (escFin_accept hstep)
      exact Or.inl ⟨_, letter_mem hb, .none, fun _ => hdef, bs, rfl⟩
    · cases hstep
  · rw [escStep] at hstep
    split at hstep
    · rename_i hb
      cases hstep
      subst hb
      exact csi1_begins hrun
    split at hstep
    · rename_i hb
      cases hstep
      subst hb
      exact csi2_begins hrun
    split at hstep
    · rename_i hb2 hb
      cases hstep
      rw [← within_from_32 hb2] at hb
      show Begins (0x5b :: [b] ++ bs)
      exact digits_begins (oneDigit_mem hb) (defined_of_table.2.2.2.1 b (mem_byteRange hb)) hrun
    split at hstep
    · exact absurd hstep escFin_ne_goto
    · cases hstep

end Begins

/-! ## The grammar -/

section Grammar

variable {U : Ffutf8} {data : List Byte}

/-- A sequence of the grammar is read as a whole, whatever comes behind it. -/
theorem parse_generated {w : List Byte} {key : BitVec 32} (h : Generated w key) (hw : w <+: data) :
    ffstdKeyParseUnix U data = ⟨key, some w.length⟩ := by
  obtain ⟨rest, rfl⟩ := hw
  cases h with
  | virt k m _ =>
    rw [parse_escape U (escParse_virt k m).1 rest, List.length_cons, Nat.add_comm]
  | pasteStart =>
    exact @parse_escape U [0x5b, 0x32, 0x30, 0x30, 0x7e] FFKEY_TEXT_PASTED 5 (by decide) rest
  | pasteEnd =>
    exact @parse_escape U [0x5b, 0x32, 0x30, 0x31, 0x7e] FFKEY_TEXT_PASTED 5 (by decide) rest

/-- The keys of the grammar. -/
theorem generated_key {w : List Byte} {key : BitVec 32} (h : Generated w key) :
    IsKey key ∧ FFKEY_DEL &&& 0xff ≤ key &&& 0xff ∧ key &&& 0xff ≤ FFKEY_TEXT_PASTED &&& 0xff := by
  cases h with
  | virt k m _ =>
    have hall : ∀ k ∈ VirtKey.all, ∀ c s a : Bool,
        IsKey (k.code ||| Mods.bits ⟨c, s, a⟩) ∧
          FFKEY_DEL &&& 0xff ≤ (k.code ||| Mods.bits ⟨c, s, a⟩) &&& 0xff ∧
          (k.code ||| Mods.bits ⟨c, s, a⟩) &&& 0xff ≤ FFKEY_TEXT_PASTED &&& 0xff := by decide +kernel
    exact hall k k.mem_all m.ctrl m.shift m.alt
  | pasteStart => decide
  | pasteEnd => decide

/-- Modifiers without a key are returned as a virtual key. -/
theorem parse_modifiedHole (h : ModifiedHole data) :
    IsKey (ffstdKeyParseUnix U data).ret ∧ (ffstdKeyParseUnix U data).ret &&& 0xff = 0 := by
  obtain ⟨f, hf, hundef, m, hm, rest, rfl⟩ := h
  have hall : ∀ f ∈ treeForms, (∀ k ∈ VirtKey.all, k.form ≠ f) → ∀ c s a : Bool,
      Mods.mk c s a ≠ .none →
        escParse (f.tail ⟨c, s, a⟩) =
            .done (FFKEY_VIRT ||| Mods.bits ⟨c, s, a⟩) (f.tail ⟨c, s, a⟩).length ∧
          IsKey (FFKEY_VIRT ||| Mods.bits ⟨c, s, a⟩) ∧
          (FFKEY_VIRT ||| Mods.bits ⟨c, s, a⟩) &&& 0xff = 0 := by decide +kernel
  obtain ⟨hrun, hkey⟩ := hall f hf (fun k _ hk => hundef ⟨k, hk⟩) m.ctrl m.shift m.alt hm
  rw [parse_escape U hrun rest]
  exact hkey

/-- A key is only returned for a sequence of the grammar, or for modifiers without a key. -/
theorem generated_of_isKey (hdata : [ESC, 0x5b] <+: data ∨ [ESC, 0x4f] <+: data)
    (hhole : ¬ ModifiedHole data) (h : IsKey (ffstdKeyParseUnix U data).ret) :
    ∃ w key, Generated w key ∧ w <+: data := by
  have hrun : ∀ {st : EscState} {l : List Byte}, Matches (ffstdKeyParseUnix U data) 2 (escRun st l) →
      ∃ key n, escRun st l = .done key n := by
    intro st l hm
    cases hr : escRun st l with
    | done key n => exact ⟨key, n, rfl⟩
    | more => rw [hr] at hm; exact absurd hm h.2
    | bad => rw [hr] at hm; exact absurd hm h.2
  have hbegins : ∃ l, data = ESC :: l ∧ Begins l := by
    rcases hdata with ⟨l, rfl⟩ | ⟨l, rfl⟩
    · obtain ⟨key, n, hr⟩ := hrun (parse_csi U l)
      exact ⟨_, rfl, csi_begins hr⟩
    · obtain ⟨key, n, hr⟩ := hrun (parse_ss3 U l)
      exact ⟨_, rfl, ss3_begins hr⟩
  obtain ⟨l, rfl, ⟨f, hf, m, hdef, hpre⟩ | ⟨rest, rfl⟩ | ⟨rest, rfl⟩⟩ := hbegins
  · have hpre' : ESC :: f.tail m <+: ESC :: l := List.cons_prefix_cons.mpr ⟨rfl, hpre⟩
    by_cases hd : f.Defined
    · obtain ⟨k, rfl⟩ := hd
      exact ⟨_, _, .virt k m hf, hpre'⟩
    · exact absurd ⟨f, hf, hd, m, fun hm => hd (hdef hm), hpre'⟩ hhole
  · exact ⟨_, _, .pasteStart, ⟨rest, rfl⟩⟩
  · exact ⟨_, _, .pasteEnd, ⟨rest, rfl⟩⟩

end Grammar

/-- **The code and the grammar of its comment.**  For all data that begins with `ESC [` or `ESC O`:
    a key is returned exactly for the sequences of the grammar, unless the data begins with
    modifiers and a position that denotes no key. -/
theorem ffstdKeyParse_grammar_iff (U : Ffutf8) (data : List Byte)
    (hdata : [ESC, 0x5b] <+: data ∨ [ESC, 0x4f] <+: data) :
    FollowsGrammar U data ↔ ¬ ModifiedHole data := by
  constructor
  · intro h hhole
    obtain ⟨hkey, hlow⟩ := @parse_modifiedHole U data hhole
    have hge := (h.low hkey).1
    rw [hlow] at hge
    exact absurd hge (by decide)
  · intro hhole
    have hgen := @generated_of_isKey U data hdata hhole
    refine ⟨⟨hgen, ?_⟩, fun w key hw hpre => parse_generated hw hpre, fun hkey => ?_⟩
    · rintro ⟨w, key, hw, hpre⟩
      rw [parse_generated hw hpre]
      exact (generated_key hw).1
    · obtain ⟨w, key, hw, hpre⟩ := hgen hkey
      rw [parse_generated hw hpre]
      exact (generated_key hw).2

/-- `ESC [ 1 ; 5 A`, with what follows it. -/
theorem ffstdKeyParse_grammar_ctrl_up :
    FollowsGrammar bitUtf8 [ESC, 0x5b, 0x31, 0x3b, 0x35, 0x41, 0x61] := by
  apply (ffstdKeyParse_grammar_iff bitUtf8 _ (by decide)).mpr
  rintro ⟨f, hf, hundef, m, hm, hpre⟩
  have hall : ∀ f ∈ treeForms, (∀ k ∈ VirtKey.all, k.form ≠ f) → ∀ c s a : Bool,
      ¬ ESC :: f.tail ⟨c, s, a⟩ <+: [ESC, 0x5b, 0x31, 0x3b, 0x35, 0x41, 0x61] := by decide +kernel
  exact hall f hf (fun k _ hk => hundef ⟨k, hk⟩) m.ctrl m.shift m.alt hpre

/-- `ESC [ 1 ; 2 E`: the position `45` denotes no key, and the code returns Shift alone. -/
theorem ffstdKeyParse_grammar_hole :
    ¬ ∀ (U : Ffutf8) (data : List Byte), [ESC, 0x5b] <+: data ∨ [ESC, 0x4f] <+: data →
      FollowsGrammar U data := by
  intro h
  have hf := h bitUtf8 [ESC, 0x5b, 0x31, 0x3b, 0x32, 0x45] (by decide)
  have hret : (ffstdKeyParseUnix bitUtf8 [ESC, 0x5b, 0x31, 0x3b, 0x32, 0x45]).ret =
      FFKEY_VIRT ||| FFKEY_SHIFT := by decide +kernel
  have hlow := hf.low (by rw [hret]; decide)
  rw [hret] at hlow
  exact absurd hlow.1 (by decide)

end FFSys.Std
