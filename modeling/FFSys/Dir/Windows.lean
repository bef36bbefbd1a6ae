import FFSys.Dir.Make
import FFSys.Lib.Unicode

/-!
# Recursive mkdir on Windows

* `ffdirMakeAllWin` — `ffdir_make_all` on Windows: the path is converted to UTF-16 first, and the
  loop goes over that.
* `SameNames` — both systems try to make the same directories.
* `SameStart` — where a byte offset into the path works as an offset into the UTF-16 string, too.
* `ffdirMakeAllWin_names_iff` — the two are the same: `ffdir_make_all` takes `off` in bytes of the
  path, and the code for Windows uses it for the UTF-16 string, where the part that exists can be
  shorter.

What is behind the terminator of the UTF-16 string is not set; reading it is `none`, as reading
outside of the buffer.
-/

set_option autoImplicit false

namespace FFSys.Dir

open FFSys.Lib

variable {σ τ : Type}

/-! ## The function -/

/-- `first | 0x20` of `ffdir_make_all` is a small letter. -/
def isDriveLetter (c : UInt16) : Bool :=
  let first := (c ||| 0x20).toNat
  decide (0x61 ≤ first) && decide (first ≤ 0x7a)

/-- "drive:" is not a directory to make. -/
def driveOff (w : List UInt16) (off : Nat) : Nat :=
  if off = 0 ∧ w[0]?.any isDriveLetter = true ∧ w[1]? = some 0x3a then 2 else off

/-- `ffdir_make_all` on Windows; `utow` is `ffsz_alloc_buf_utow`, an error or the string without its
    terminator. -/
def ffdirMakeAllWin (utow : List UInt8 → Except Nat (List UInt16))
    (mkdir : σ → List UInt16 → Mkdir × σ) (sys : σ) (path : List UInt8) (off : Nat) :
    Option (Option Nat × MakeState UInt16 σ) :=
  match utow (path.takeWhile (· != 0)) with
  | .error errno => some (some errno, ⟨[], [], sys⟩)
  | .ok w => makeAll winChars mkdir sys (w ++ [0]) (driveOff (w ++ [0]) off)

/-! ## The names -/

/-- Without a failure there is a call for each name. -/
theorem attempts_all {α : Type} {mkdir : σ → List α → Mkdir × σ}
    (h : ∀ s n e, (mkdir s n).1 ≠ .error e) (names : List (List α)) :
    ∀ sys, (attempts mkdir sys names).2.1 = names := by
  induction names with
  | nil => exact fun sys => rfl
  | cons name names ih =>
    intro sys
    rw [attempts]
    split
    · rename_i e sys' hm
      exact absurd (by rw [hm]) (h sys name e)
    · exact congrArg _ (ih _)

/-- A letter and a colon. -/
def StartsWithDrive : List Char → Prop
  | c :: ':' :: _ => c.isAlpha = true
  | _ => False

theorem isDriveLetter_iff (u : UInt16) :
    isDriveLetter u = true ↔
      (0x41 ≤ u.toNat ∧ u.toNat ≤ 0x5a) ∨ (0x61 ≤ u.toNat ∧ u.toNat ≤ 0x7a) := by
  have hor : (u ||| 0x20).toNat = u.toNat ||| 0x20 := UInt16.toNat_or u 0x20
  have hsmall : ∀ n, n < 0x80 → ((0x61 ≤ n ||| 0x20 ∧ n ||| 0x20 ≤ 0x7a) ↔
      (0x41 ≤ n ∧ n ≤ 0x5a) ∨ (0x61 ≤ n ∧ n ≤ 0x7a)) := by decide +kernel
  simp only [isDriveLetter, hor, Bool.and_eq_true, decide_eq_true_eq]
  rcases Nat.lt_or_ge u.toNat 0x80 with hlt | hge
  · exact hsmall _ hlt
  · have hle : u.toNat ≤ u.toNat ||| 0x20 := Nat.left_le_or
    omega

theorem isAlpha_of_toNat {c : Char}
    (h : (0x41 ≤ c.toNat ∧ c.toNat ≤ 0x5a) ∨ (0x61 ≤ c.toNat ∧ c.toNat ≤ 0x7a)) :
    c.isAlpha = true := by
  have hval : c.val.toNat = c.toNat := rfl
  unfold Char.isAlpha Char.isUpper Char.isLower
  simp only [Bool.or_eq_true, Bool.and_eq_true, decide_eq_true_eq, ge_iff_le,
    UInt32.le_iff_toNat_le, hval]
  exact h

/-- A path without a drive letter has none in UTF-16. -/
theorem driveOff_eq {cs : List Char} (h : ¬ StartsWithDrive cs) (off : Nat) :
    driveOff (utf16 cs ++ [0]) off = off := by
  unfold driveOff
  rw [if_neg]
  rintro ⟨-, hletter, hcolon⟩
  cases cs with
  | nil => cases hcolon
  | cons c cs =>
    have htext : utf16 (c :: cs) ++ [0] = utf16Encoding.char c ++ (utf16 cs ++ [0]) := by
      rw [← List.append_assoc]
      rfl
    rw [htext] at hletter hcolon
    cases hget : (utf16Encoding.char c ++ (utf16 cs ++ [0]))[0]? with
    | none =>
      rw [hget] at hletter
      cases hletter
    | some u =>
      rw [hget, Option.any_some, isDriveLetter_iff] at hletter
      have hu : utf16Encoding.code u < 0x80 := by
        change u.toNat < 0x80
        omega
      have hc : c.toNat = u.toNat := (Encoding.mem_char_iff hu).mp (Encoding.head_mem hget)
      have hchar : utf16Encoding.char c = [u] := Encoding.char_eq_singleton hu hc
      rw [hchar, List.singleton_append, List.getElem?_cons_succ] at hcolon
      cases cs with
      | nil => cases hcolon
      | cons d cs =>
        have htail : utf16 (d :: cs) ++ [0] = utf16Encoding.char d ++ (utf16 cs ++ [0]) := by
          rw [← List.append_assoc]
          rfl
        rw [htail] at hcolon
        have hd : d.toNat = (':').toNat :=
          (Encoding.mem_char_iff (E := utf16Encoding) (u := 0x3a) (by decide)).mp
            (Encoding.head_mem hcolon)
        rw [Char.toNat_inj.mp hd] at h
        exact h (isAlpha_of_toNat (hc ▸ hletter))

/-! ## Both systems -/

/-- The same directories, with their names in UTF-16 and in UTF-8. -/
def SameNames (runW : Option (Option Nat × MakeState UInt16 σ))
    (runU : Option (Option Nat × MakeState UInt8 τ)) :
    Prop :=
  ∃ w u, runW = some w ∧ runU = some u ∧
    ∃ texts : List (List Char), w.2.names = texts.map utf16 ∧ u.2.names = texts.map utf8

/-- The offset is in the UTF-16 string, and between the end of the part that exists and the offset
    there is no separator; in particular, where the part that exists is ASCII. -/
def SameStart (cs : List Char) (off : Nat) : Prop :=
  ∃ a b, cs = a ++ b ∧ (utf8 a).length = off ∧ off ≤ (utf16 cs).length ∧
    ∀ p, (utf16 a).length < p → p ≤ off → (utf16 cs)[p]? ≠ some 0x2f

/-- An encoding with its alphabet: '/' is a separator, and a character that is not '/' or '\\' has
    none. -/
structure Spells {α : Type} (E : Encoding α) (A : Alphabet α) : Prop where
  slash : ∃ u, E.char '/' = [u] ∧ A.isSep u = true
  word : ∀ c : Char, c ≠ '/' → c ≠ '\\' → ∀ u ∈ E.char c, A.isSep u = false
  nul : E.code A.nul = 0

theorem spells_unix : Spells utf8Encoding unixChars where
  slash := ⟨0x2f, rfl, rfl⟩
  word c hc _ u hu := by
    by_contra hsep
    have hslash : u = 0x2f := by simpa [unixChars] using hsep
    rw [hslash] at hu
    exact hc (Char.toNat_inj.mp ((Encoding.mem_char_iff (E := utf8Encoding) (by decide)).mp hu))
  nul := rfl

theorem spells_win : Spells utf16Encoding winChars where
  slash := ⟨0x2f, rfl, rfl⟩
  word c hc hc' u hu := by
    by_contra hsep
    rw [Bool.not_eq_false] at hsep
    have hslash : u = 0x2f ∨ u = 0x5c := by simpa [winChars] using hsep
    rcases hslash with rfl | rfl
    · exact hc (Char.toNat_inj.mp ((Encoding.mem_char_iff (E := utf16Encoding) (by decide)).mp hu))
    · exact hc' (Char.toNat_inj.mp ((Encoding.mem_char_iff (E := utf16Encoding) (by decide)).mp hu))
  nul := rfl

section Spelled

variable {α : Type} {E : Encoding α} {A : Alphabet α}

theorem nul_not_mem (hE : Spells E A) {cs : List Char} (h : '\x00' ∉ cs) : A.nul ∉ E.text cs := by
  have hlt : E.code A.nul < 0x80 := by
    rw [hE.nul]
    decide
  rw [Encoding.mem_text_iff hlt, hE.nul]
  rintro ⟨c, hc, hzero⟩
  have hnul : c = '\x00' := Char.toNat_inj.mp hzero
  exact h (hnul ▸ hc)

/-- The cuts of a path in an encoding are those of its text. -/
theorem cuts_text (hE : Spells E A) {a b : List Char} (hb : b = [] ∨ ∃ b', b = '/' :: b')
    (hno : '\\' ∉ b) :
    cuts A.isSep (E.text (a ++ b)) (E.text a).length =
      (cuts (fun c => c == '/') (a ++ b) a.length).map E.text := by
  refine cuts_map ?_ (fun c _ hc => ?_) (fun c hmem hc => ?_)
  · rcases hb with rfl | ⟨b', rfl⟩
    · exact Or.inl rfl
    · exact Or.inr ⟨'/', b', rfl, rfl⟩
  · rw [beq_iff_eq.mp hc]
    exact hE.slash
  · refine hE.word c (by simpa using hc) ?_
    rintro rfl
    exact hno hmem

end Spelled

theorem zero_not_mem_utf8 {cs : List Char} (h : '\x00' ∉ cs) : 0 ∉ utf8 cs :=
  nul_not_mem spells_unix h

theorem zero_not_mem_utf16 {cs : List Char} (h : '\x00' ∉ cs) : 0 ∉ utf16 cs :=
  nul_not_mem spells_win h

/-- A component ends at the offset: what is before, and what is from there on. -/
theorem component_end {cs : List Char} {off : Nat}
    (h : (utf8 cs)[off]? = some 0x2f ∨ off = (utf8 cs).length) :
    ∃ a b, cs = a ++ b ∧ (utf8 a).length = off ∧ (b = [] ∨ ∃ b', b = '/' :: b') := by
  rcases h with h | rfl
  · obtain ⟨a, c, b, rfl, hc, hlen⟩ := Encoding.exists_split (E := utf8Encoding) (by decide) cs off h
    have hslash : c = '/' := Char.toNat_inj.mp hc
    exact ⟨a, c :: b, rfl, hlen, Or.inr ⟨b, by rw [hslash]⟩⟩
  · exact ⟨cs, [], by rw [List.append_nil], rfl, Or.inl rfl⟩

/-- The part that exists is determined by its length. -/
theorem rest_of_length {a b : List Char} {off : Nat} (hlen : (utf8 a).length = off)
    (h : (utf8 (a ++ b))[off]? = some 0x2f ∨ off = (utf8 (a ++ b)).length) :
    b = [] ∨ ∃ b', b = '/' :: b' := by
  have happ : utf8 (a ++ b) = utf8 a ++ utf8 b := List.flatMap_append
  cases b with
  | nil => exact Or.inl rfl
  | cons c b =>
    have hpos : 0 < (utf8Encoding.char c).length := List.length_pos_of_ne_nil (utf8Encoding.ne_nil c)
    have hcons : utf8 (c :: b) = utf8Encoding.char c ++ utf8 b := rfl
    rw [happ, ← hlen] at h
    rcases h with h | h
    · rw [List.getElem?_append_right (Nat.le_refl _), Nat.sub_self, hcons] at h
      have hc : c.toNat = ('/').toNat :=
        (Encoding.mem_char_iff (E := utf8Encoding) (by decide)).mp (Encoding.head_mem h)
      exact Or.inr ⟨b, by rw [Char.toNat_inj.mp hc]⟩
    · rw [List.length_append, hcons, List.length_append] at h
      omega

/-- A separator in UTF-16, in a path without '\\'. -/
theorem isSep_win {cs : List Char} (h : '\\' ∉ cs) (p : Nat) :
    (utf16 cs)[p]?.any winChars.isSep = false ↔ (utf16 cs)[p]? ≠ some 0x2f := by
  have hno : (0x5c : UInt16) ∉ utf16 cs := by
    intro hmem
    obtain ⟨c, hc, hcode⟩ := (Encoding.mem_text_iff (E := utf16Encoding) (by decide)).mp hmem
    have hback : c = '\\' := Char.toNat_inj.mp hcode
    exact h (hback ▸ hc)
  cases hget : (utf16 cs)[p]? with
  | none => simp
  | some u =>
    have hne : u ≠ 0x5c := fun heq => hno (heq ▸ List.mem_of_getElem? hget)
    simp [winChars, hne]

section Names

variable (utow : List UInt8 → Except Nat (List UInt16))
  (mkdirW : σ → List UInt16 → Mkdir × σ) (sysW : σ)
  (mkdirU : τ → List UInt8 → Mkdir × τ) (sysU : τ)

/-- The run on Windows is that of the loop over the UTF-16 string, from the same number. -/
theorem ffdirMakeAllWin_eq {cs : List Char} (hutow : utow (utf8 cs) = .ok (utf16 cs))
    (hnul : '\x00' ∉ cs) (hdrive : ¬ StartsWithDrive cs) (tail : List UInt8) (off : Nat) :
    ffdirMakeAllWin utow mkdirW sysW (utf8 cs ++ 0 :: tail) off =
      makeAll winChars mkdirW sysW (utf16 cs ++ [0]) off := by
  rw [ffdirMakeAllWin, takeWhile_terminated (zero_not_mem_utf8 hnul), hutow]
  simp only [driveOff_eq hdrive]

/-- Past the terminator there is nothing to read. -/
theorem makeAll_outside {w : List UInt16} {off : Nat} (h : w.length < off) :
    makeAll winChars mkdirW sysW (w ++ [0]) off = none := by
  have hget : (w ++ [0])[off]? = none := by
    rw [List.getElem?_eq_none_iff, List.length_append, List.length_singleton]
    omega
  rw [makeAll, hget]

/-- The same names, for the part `a` that exists and the rest `b`. -/
theorem sameNames_iff (hW : ∀ s n e, (mkdirW s n).1 ≠ .error e)
    (hU : ∀ s n e, (mkdirU s n).1 ≠ .error e) {a b : List Char} (tail : List UInt8)
    (hutow : utow (utf8 (a ++ b)) = .ok (utf16 (a ++ b))) (hnul : '\x00' ∉ a ++ b)
    (hback : '\\' ∉ a ++ b) (hdrive : ¬ StartsWithDrive (a ++ b))
    (hb : b = [] ∨ ∃ b', b = '/' :: b') :
    SameNames (ffdirMakeAllWin utow mkdirW sysW (utf8 (a ++ b) ++ 0 :: tail) (utf8 a).length)
      (ffdirMakeAll mkdirU sysU (utf8 (a ++ b) ++ 0 :: tail) (utf8 a).length) ↔
      (utf8 a).length ≤ (utf16 (a ++ b)).length ∧
        ∀ p, (utf16 a).length < p → p ≤ (utf8 a).length → (utf16 (a ++ b))[p]? ≠ some 0x2f := by
  have hno : '\\' ∉ b := fun h => hback (List.mem_append_right _ h)
  have hle : (utf8 a).length ≤ (utf8 (a ++ b)).length := by
    rw [show utf8 (a ++ b) = utf8 a ++ utf8 b from List.flatMap_append, List.length_append]
    omega
  have hcutsU : cuts unixChars.isSep (utf8 (a ++ b)) (utf8 a).length =
      (cuts (fun c => c == '/') (a ++ b) a.length).map utf8 := cuts_text spells_unix hb hno
  have hcutsW : cuts winChars.isSep (utf16 (a ++ b)) (utf16 a).length =
      (cuts (fun c => c == '/') (a ++ b) a.length).map utf16 := cuts_text spells_win hb hno
  have hk : (utf16 a).length ≤ (utf8 a).length := utf16_length_le a
  rw [ffdirMakeAllWin_eq utow mkdirW sysW hutow hnul hdrive tail,
    ffdirMakeAll_run mkdirU sysU (zero_not_mem_utf8 hnul) hle tail, hcutsU]
  simp only [← isSep_win hback]
  rcases Nat.lt_or_ge (utf16 (a ++ b)).length (utf8 a).length with hout | hin
  · rw [makeAll_outside mkdirW sysW hout]
    refine iff_of_false ?_ fun h => absurd h.1 (Nat.not_le.mpr hout)
    rintro ⟨w, u, hw, -⟩
    cases hw
  · have hrun := @makeAll_run _ _ _ winChars mkdirW _ [] _ (zero_not_mem_utf16 hnul) hin sysW
    rw [show [(0 : UInt16)] = [winChars.nul] from rfl, hrun]
    have hnamesW := attempts_all hW (cuts winChars.isSep (utf16 (a ++ b)) (utf8 a).length) sysW
    have hnamesU := attempts_all hU ((cuts (fun c => c == '/') (a ++ b) a.length).map utf8) sysU
    constructor
    · rintro ⟨w, u, hw, hu, texts, hwt, hut⟩
      rw [← Option.some.inj hw, leaves_names, List.nil_append, hnamesW] at hwt
      rw [← Option.some.inj hu, leaves_names, List.nil_append, hnamesU] at hut
      have hlen := congrArg List.length hut
      rw [List.length_map, List.length_map] at hlen
      refine ⟨hin, (cuts_length_eq_iff hk).mp ?_⟩
      rw [hwt, hcutsW, List.length_map, List.length_map, hlen]
    · rintro ⟨-, hnone⟩
      refine ⟨_, _, rfl, rfl, cuts (fun c => c == '/') (a ++ b) a.length, ?_, ?_⟩
      · rw [leaves_names, List.nil_append, hnamesW, cuts_later hk hnone, hcutsW]
      · rw [leaves_names, List.nil_append, hnamesU]

end Names

/-- **Windows and UNIX make the same directories** of a path with '/' as its separator, from an
    offset where a component ends, exactly if the offset works for the UTF-16 string. -/
theorem ffdirMakeAllWin_names_iff (utow : List UInt8 → Except Nat (List UInt16))
    (mkdirW : σ → List UInt16 → Mkdir × σ) (sysW : σ) (mkdirU : τ → List UInt8 → Mkdir × τ)
    (sysU : τ) (hW : ∀ s n e, (mkdirW s n).1 ≠ .error e) (hU : ∀ s n e, (mkdirU s n).1 ≠ .error e)
    (cs : List Char) (tail : List UInt8) (off : Nat) (hutow : utow (utf8 cs) = .ok (utf16 cs))
    (hnul : '\x00' ∉ cs) (hback : '\\' ∉ cs) (hdrive : ¬ StartsWithDrive cs)
    (hoff : (utf8 cs)[off]? = some 0x2f ∨ off = (utf8 cs).length) :
    SameNames (ffdirMakeAllWin utow mkdirW sysW (utf8 cs ++ 0 :: tail) off)
      (ffdirMakeAll mkdirU sysU (utf8 cs ++ 0 :: tail) off) ↔ SameStart cs off := by
  constructor
  · intro h
    obtain ⟨a, b, rfl, rfl, hb⟩ := component_end hoff
    exact ⟨a, b, rfl, rfl,
      (sameNames_iff utow mkdirW sysW mkdirU sysU hW hU tail hutow hnul hback hdrive hb).mp h⟩
  · rintro ⟨a, b, rfl, rfl, hin⟩
    exact (sameNames_iff utow mkdirW sysW mkdirU sysU hW hU tail hutow hnul hback hdrive
      (rest_of_length rfl hoff)).mpr hin

/-- A conversion of one path. -/
def utowOf (cs : List Char) (path : List UInt8) : Except Nat (List UInt16) :=
  if path = utf8 cs then .ok (utf16 cs) else .error 0x57

def makeAny {α : Type} (_ : Unit) (_ : List α) : Mkdir × Unit := (.made, ())

/-- "d/é/b" with "d" there. -/
theorem ffdirMakeAllWin_names_ascii :
    SameNames (ffdirMakeAllWin (utowOf ['d', '/', 'é', '/', 'b']) makeAny ()
      (utf8 ['d', '/', 'é', '/', 'b'] ++ [0]) 1)
      (ffdirMakeAll makeAny () (utf8 ['d', '/', 'é', '/', 'b'] ++ [0]) 1) := by
  refine (ffdirMakeAllWin_names_iff (utowOf ['d', '/', 'é', '/', 'b']) makeAny () makeAny ()
    (fun _ _ _ h => by cases h) (fun _ _ _ h => by cases h) ['d', '/', 'é', '/', 'b'] [] 1
    (if_pos rfl) (by decide) (by decide) (fun h => h)
    (Or.inl (by decide))).mpr ⟨['d'], ['/', 'é', '/', 'b'], rfl, rfl, by decide, fun p h1 h2 => ?_⟩
  have hlen : (utf16 ['d']).length = 1 := rfl
  omega

/-- "éé/a/b" with "éé" there: on Windows there is no call for "éé/a". -/
theorem ffdirMakeAllWin_names_skipped :
    ¬ SameNames
      (ffdirMakeAllWin (utowOf ['é', 'é', '/', 'a', '/', 'b']) makeAny ()
        (utf8 ['é', 'é', '/', 'a', '/', 'b'] ++ [0]) 4)
      (ffdirMakeAll makeAny () (utf8 ['é', 'é', '/', 'a', '/', 'b'] ++ [0]) 4) := by
  have hW : (ffdirMakeAllWin (utowOf ['é', 'é', '/', 'a', '/', 'b']) makeAny ()
      (utf8 ['é', 'é', '/', 'a', '/', 'b'] ++ [0]) 4).map (fun r => r.2.names.length) = some 1 := by
    decide +kernel
  have hU : (ffdirMakeAll makeAny () (utf8 ['é', 'é', '/', 'a', '/', 'b'] ++ [0]) 4).map
      (fun r => r.2.names.length) = some 2 := by decide +kernel
  rintro ⟨w, u, hw, hu, texts, hwt, hut⟩
  rw [hw, Option.map_some, hwt, List.length_map, Option.some.injEq] at hW
  rw [hu, Option.map_some, hut, List.length_map, Option.some.injEq] at hU
  omega

end FFSys.Dir
