import FFSys.Lib.Cuts
import Mathlib.Algebra.Order.Ring.Nat

/-!
# Expansion of environment variables

Model of the UNIX part of `ffsys/environ.h`.

* `ffsvarNext` — the next chunk of text or `$`-variable; `ffenvVal` — the value of a variable.
* `ffenvExpand` — the loop over the chunks, into a new buffer or one of the caller.
* `expandVars` — what an expansion is, said on the bytes; `isIdent`, `entryValue` — identifiers, and
  the first entry with a name.
* `ffsvarNext_spec` — one chunk; `Dst.add_fit` — a bounded buffer has the first bytes of all chunks,
  however they were cut; `expandLoop_eq` — the loop expands.
* `ffenvExpand_eq` — both modes.

Strings are without their NUL.  Growing a buffer succeeds.
-/

set_option autoImplicit false

namespace FFSys.Environ

abbrev Byte := UInt8

/-! ## The functions -/

/-- The test of a character after `$`; `int ch` is the sign-extended `char`. -/
def isNameChar (c : Byte) : Bool :=
  let ch := c.toBitVec.signExtend 32
  ((0x61#32).sle (ch ||| 0x20#32) && (ch ||| 0x20#32).sle 0x7a#32) ||
    ((0x30#32).sle ch && ch.sle 0x39#32) || ch == 0x5f#32

/-- The loop of `_ffsvar_next`, from the character after `$` on. -/
def nameEnd : List Byte → Nat
  | [] => 0
  | c :: s => if isNameChar c then nameEnd s + 1 else 0

/-- `_ffsvar_next`: the chunk, and the rest of the input. -/
def ffsvarNext (s : List Byte) : List Byte × List Byte :=
  if s.head? ≠ some 0x24 then
    let pos := s.findIdx (· == 0x24)
    (s.take pos, s.drop pos)
  else
    let i := 1 + nameEnd (s.drop 1)
    (s.take i, s.drop i)

/-- `ffsz_match`: the string begins with `key`. -/
def ffszMatch (sz key : List Byte) : Bool := sz.take key.length == key

/-- `_ffenv_val`: the loop over the entries. -/
def ffenvVal : List (List Byte) → List Byte → Option (List Byte)
  | [], _ => none
  | e :: env, key =>
    if ffszMatch e key && e[key.length]? == some 0x3d then some (e.drop (key.length + 1))
    else ffenvVal env key

/-- `dst`: `NULL`, or a buffer of the caller with its capacity. -/
inductive Dst where
  | null
  | buf (cap : Nat)
  deriving DecidableEq, Repr

/-- `ffstr_growtwice` if there is no buffer, and `ffstr_add2`. -/
def Dst.add : Dst → List Byte → List Byte → List Byte
  | .null, out, s => out ++ s
  | .buf cap, out, s => out ++ s.take (cap - out.length)

/-- `ffstr_growaddchar` or `ffstr_addchar`. -/
def Dst.addChar : Dst → List Byte → Byte → Option (List Byte)
  | .null, out, c => some (out ++ [c])
  | .buf cap, out, c => if out.length < cap then some (out ++ [c]) else none

/-- The loop of `ffenv_expand`; `none`: not at the end after `fuel` chunks. -/
def expandLoop (env : List (List Byte)) (dst : Dst) : Nat → List Byte → List Byte → Option (List Byte)
  | 0, _, _ => none
  | fuel + 1, input, out =>
    if input = [] then some out
    else
      let r := ffsvarNext input
      if r.1.head? = some 0x24 then
        let name := r.1.drop 1
        if name = [] then expandLoop env dst fuel r.2 out
        else expandLoop env dst fuel r.2 (dst.add out ((ffenvVal env name).getD []))
      else expandLoop env dst fuel r.2 (dst.add out r.1)

/-- `ffenv_expand`: what is in the buffer that it returns, `none` for `NULL`. -/
def ffenvExpand (env : List (List Byte)) (dst : Dst) (src : List Byte) : Option (List Byte) :=
  match expandLoop env dst (src.length + 1) src [] with
  | none => none
  | some out => dst.addChar out 0

/-! ## What an expansion is -/

/-- A letter, a digit or `_`. -/
def isIdent (c : Byte) : Bool :=
  (0x41 ≤ c && c ≤ 0x5a) || (0x61 ≤ c && c ≤ 0x7a) || (0x30 ≤ c && c ≤ 0x39) || c == 0x5f

/-- The name of an entry `NAME=VALUE`. -/
def entryKey (e : List Byte) : List Byte := e.takeWhile (· != 0x3d)

/-- The value of an entry `NAME=VALUE`. -/
def entryText (e : List Byte) : List Byte := (e.dropWhile (· != 0x3d)).drop 1

/-- The value of the first entry with the name `ident`, nothing if there is none. -/
def entryValue (env : List (List Byte)) (ident : List Byte) : List Byte :=
  ((env.find? fun e => e.contains 0x3d && entryKey e == ident).map entryText).getD []

/-- The expansion: `$` and an identifier are replaced by its value, `$` alone by nothing.  The
    identifier is as long as possible; what is inserted is not looked at again. -/
def expandVars (env : List (List Byte)) : List Byte → List Byte
  | [] => []
  | c :: s =>
    if c = 0x24 then
      (if s.takeWhile isIdent = [] then [] else entryValue env (s.takeWhile isIdent)) ++
        expandVars env (s.dropWhile isIdent)
    else c :: expandVars env s
  termination_by s => s.length
  decreasing_by
    · have hle := (List.dropWhile_sublist isIdent (l := s)).length_le
      simp only [List.length_cons]
      omega
    · simp

theorem expandVars_nil (env : List (List Byte)) : expandVars env [] = [] := by
  rw [expandVars]

theorem expandVars_dollar (env : List (List Byte)) (s : List Byte) :
    expandVars env (0x24 :: s) =
      (if s.takeWhile isIdent = [] then [] else entryValue env (s.takeWhile isIdent)) ++
        expandVars env (s.dropWhile isIdent) := by
  rw [expandVars, if_pos rfl]

theorem expandVars_other (env : List (List Byte)) {c : Byte} (h : c ≠ 0x24) (s : List Byte) :
    expandVars env (c :: s) = c :: expandVars env s := by
  rw [expandVars, if_neg h]

/-! ## Chunks -/

theorem isNameChar_eq (c : Byte) : isNameChar c = isIdent c := by
  obtain ⟨⟨c⟩⟩ := c
  revert c
  decide +kernel

theorem isIdent_ne_eq {c : Byte} (h : isIdent c = true) : c ≠ 0x3d := by
  rintro rfl
  cases h

theorem nameEnd_take (s : List Byte) :
    s.take (nameEnd s) = s.takeWhile isIdent ∧ s.drop (nameEnd s) = s.dropWhile isIdent := by
  induction s with
  | nil => exact ⟨rfl, rfl⟩
  | cons c s ih =>
    rw [nameEnd, isNameChar_eq, List.takeWhile_cons, List.dropWhile_cons]
    split
    · exact ⟨by rw [List.take_succ_cons, ih.1], by rw [List.drop_succ_cons, ih.2]⟩
    · exact ⟨rfl, rfl⟩

/-- A chunk of text is left as it is. -/
theorem expandVars_text (env : List (List Byte)) (s : List Byte) :
    expandVars env s =
      s.take (s.findIdx (· == 0x24)) ++ expandVars env (s.drop (s.findIdx (· == 0x24))) := by
  induction s with
  | nil => rfl
  | cons c s ih =>
    by_cases hc : c = 0x24
    · rw [List.findIdx_cons, hc]
      rfl
    · have hidx : (c :: s).findIdx (· == 0x24) = s.findIdx (· == 0x24) + 1 := by
        rw [List.findIdx_cons, beq_eq_false_iff_ne.mpr hc]
        rfl
      rw [hidx, List.take_succ_cons, List.drop_succ_cons, expandVars_other env hc, ih, List.cons_append]

/-! ## Variables -/

/-- The test of the code: the entry begins with the name and `=`. -/
theorem match_iff (e key : List Byte) :
    (ffszMatch e key && e[key.length]? == some 0x3d) = true ↔ ∃ val, e = key ++ 0x3d :: val := by
  rw [Bool.and_eq_true, ffszMatch, beq_iff_eq, beq_iff_eq]
  refine ⟨?_, ?_⟩
  · rintro ⟨htake, hget⟩
    obtain ⟨hlt, hbyte⟩ := List.getElem?_eq_some_iff.mp hget
    refine ⟨e.drop (key.length + 1), ?_⟩
    calc e = e.take key.length ++ e.drop key.length := (List.take_append_drop _ _).symm
      _ = key ++ 0x3d :: e.drop (key.length + 1) := by
        rw [htake, List.drop_eq_getElem_cons hlt, hbyte]
  · rintro ⟨val, rfl⟩
    exact ⟨List.take_left' rfl, by rw [List.getElem?_append_right (Nat.le_refl _), Nat.sub_self]; rfl⟩

section Entry

variable {key : List Byte}

theorem entryKey_append (h : 0x3d ∉ key) (val : List Byte) : entryKey (key ++ 0x3d :: val) = key := by
  rw [entryKey, Lib.takeWhile_terminated h]

theorem entryText_append (h : 0x3d ∉ key) (val : List Byte) : entryText (key ++ 0x3d :: val) = val := by
  rw [entryText, Lib.dropWhile_terminated h]
  rfl

/-- The entry has this name. -/
theorem entryKey_iff (h : 0x3d ∉ key) (e : List Byte) :
    (e.contains 0x3d && entryKey e == key) = true ↔ ∃ val, e = key ++ 0x3d :: val := by
  rw [Bool.and_eq_true, beq_iff_eq, List.contains_iff_mem]
  refine ⟨?_, ?_⟩
  · rintro ⟨hmem, rfl⟩
    have hsplit := List.takeWhile_append_dropWhile (p := (· != 0x3d)) (l := e)
    have hne : e.dropWhile (· != 0x3d) ≠ [] := by
      intro hnil
      have hall := List.dropWhile_eq_nil_iff.mp hnil 0x3d hmem
      exact absurd hall (by decide)
    obtain ⟨c, val, hcons⟩ := List.exists_cons_of_ne_nil hne
    have hhead := List.head_dropWhile_not (· != 0x3d) hne
    simp only [hcons, List.head_cons, bne_eq_false_iff_eq] at hhead
    refine ⟨val, ?_⟩
    rw [← hhead, ← hcons]
    exact hsplit.symm
  · rintro ⟨val, rfl⟩
    exact ⟨by simp, entryKey_append h val⟩

/-- **The code finds the first entry with the name.** -/
theorem ffenvVal_eq (env : List (List Byte)) (h : 0x3d ∉ key) :
    (ffenvVal env key).getD [] = entryValue env key := by
  induction env with
  | nil => rfl
  | cons e env ih =>
    unfold ffenvVal entryValue
    rw [List.find?_cons]
    by_cases he : ∃ val, e = key ++ 0x3d :: val
    · rw [if_pos ((match_iff e key).mpr he), (entryKey_iff h e).mpr he]
      obtain ⟨val, rfl⟩ := he
      have hdrop : (key ++ 0x3d :: val).drop (key.length + 1) = val := by
        rw [← List.drop_drop, List.drop_left' rfl]
        rfl
      simp only [Option.getD_some, Option.map_some, hdrop, entryText_append h]
    · have hcode := fun hc => he ((match_iff e key).mp hc)
      have hspec := Bool.eq_false_iff.mpr fun hs => he ((entryKey_iff h e).mp hs)
      rw [if_neg hcode, hspec]
      exact ih

end Entry

theorem ident_no_eq (s : List Byte) : 0x3d ∉ s.takeWhile isIdent := by
  intro hmem
  exact isIdent_ne_eq (List.mem_takeWhile_imp hmem) rfl

/-! ## The loop -/

/-- What one chunk adds. -/
def chunkOut (env : List (List Byte)) (chunk : List Byte) : List Byte :=
  if chunk.head? = some 0x24 then
    if chunk.drop 1 = [] then [] else (ffenvVal env (chunk.drop 1)).getD []
  else chunk

/-- **One chunk**: it is not empty, and what it adds is the expansion of what it takes. -/
theorem ffsvarNext_spec (env : List (List Byte)) {s : List Byte} (h : s ≠ []) :
    (ffsvarNext s).2.length < s.length ∧
      expandVars env s = chunkOut env (ffsvarNext s).1 ++ expandVars env (ffsvarNext s).2 := by
  obtain ⟨c, s, rfl⟩ := List.exists_cons_of_ne_nil h
  unfold ffsvarNext
  by_cases hc : c = 0x24
  · subst hc
    rw [if_neg (by simp)]
    obtain ⟨htake, hdrop⟩ := nameEnd_take s
    have hout : (0x24 :: s).take (1 + nameEnd s) = 0x24 :: s.takeWhile isIdent := by
      rw [Nat.add_comm, List.take_succ_cons, htake]
    have hrest : (0x24 :: s).drop (1 + nameEnd s) = s.dropWhile isIdent := by
      rw [Nat.add_comm, List.drop_succ_cons, hdrop]
    simp only [List.drop_succ_cons, List.drop_zero]
    rw [hout, hrest, expandVars_dollar]
    refine ⟨?_, ?_⟩
    · have hle := (List.dropWhile_sublist isIdent (l := s)).length_le
      rw [List.length_cons]
      omega
    · have hhead : (0x24 :: s.takeWhile isIdent).head? = some 0x24 := rfl
      rw [chunkOut, if_pos hhead, List.drop_succ_cons, List.drop_zero, ffenvVal_eq env (ident_no_eq s)]
  · have hhead : (c :: s).head? ≠ some 0x24 := by
      simpa using hc
    have hidx : (c :: s).findIdx (· == 0x24) = s.findIdx (· == 0x24) + 1 := by
      rw [List.findIdx_cons, beq_eq_false_iff_ne.mpr hc]
      rfl
    rw [if_pos hhead]
    refine ⟨?_, ?_⟩
    · simp only [hidx, List.length_drop, List.length_cons]
      omega
    · have hchunk : ((c :: s).take ((c :: s).findIdx (· == 0x24))).head? ≠ some 0x24 := by
        rw [hidx, List.take_succ_cons]
        simpa using hc
      rw [chunkOut, if_neg hchunk]
      exact expandVars_text env (c :: s)

/-- The loop adds what each chunk adds. -/
theorem expandLoop_step (env : List (List Byte)) (dst : Dst) (fuel : Nat) {input : List Byte}
    (out : List Byte) (h : input ≠ []) :
    ∃ out', expandLoop env dst (fuel + 1) input out = expandLoop env dst fuel (ffsvarNext input).2 out' ∧
      out' = dst.add out (chunkOut env (ffsvarNext input).1) := by
  rw [expandLoop, if_neg h]
  unfold chunkOut
  simp only
  split
  · split
    · refine ⟨out, rfl, ?_⟩
      cases dst <;> simp [Dst.add]
    · exact ⟨_, rfl, rfl⟩
  · exact ⟨_, rfl, rfl⟩

/-- What a sequence of chunks leaves in the buffer: all bytes, or those that fit. -/
def Dst.fit : Dst → List Byte → List Byte
  | .null, bytes => bytes
  | .buf cap, bytes => bytes.take cap

/-- A chunk is cut where the whole is cut, also if an earlier one was cut already. -/
theorem Dst.add_fit (dst : Dst) (bytes s : List Byte) :
    dst.add (dst.fit bytes) s = dst.fit (bytes ++ s) := by
  cases dst with
  | null => rfl
  | buf cap =>
    have hlen : cap - (bytes.take cap).length = cap - bytes.length := by
      rw [List.length_take]
      omega
    rw [Dst.add, Dst.fit, Dst.fit, hlen, List.take_append]

/-- **The loop expands**, by induction on the calls: the buffer has what fits of the expansion so
    far. -/
theorem expandLoop_eq (env : List (List Byte)) (dst : Dst) (fuel : Nat) :
    ∀ input before, input.length < fuel →
      expandLoop env dst fuel input (dst.fit before) = some (dst.fit (before ++ expandVars env input)) := by
  induction fuel with
  | zero =>
    intro input before hfuel
    omega
  | succ fuel ih =>
    intro input before hfuel
    by_cases hnil : input = []
    · rw [expandLoop, if_pos hnil, hnil, expandVars_nil, List.append_nil]
    · obtain ⟨hshort, hchunk⟩ := ffsvarNext_spec env hnil
      obtain ⟨out', hstep, hout⟩ := expandLoop_step env dst fuel (dst.fit before) hnil
      rw [hstep, hout, Dst.add_fit, ih _ _ (by omega), hchunk, List.append_assoc]

/-- **Expansion**: without a buffer of the caller it is complete; in a buffer of the caller it is
    the same if it and its NUL fit, and otherwise there is no result. -/
theorem ffenvExpand_eq (env : List (List Byte)) (src : List Byte) :
    ffenvExpand env .null src = some (expandVars env src ++ [0]) ∧
    ∀ cap, ffenvExpand env (.buf cap) src =
      if (expandVars env src).length + 1 ≤ cap then some (expandVars env src ++ [0]) else none := by
  refine ⟨?_, ?_⟩
  · have hloop := expandLoop_eq env .null (src.length + 1) src [] (Nat.lt_add_one _)
    rw [Dst.fit, Dst.fit, List.nil_append] at hloop
    rw [ffenvExpand, hloop]
    rfl
  · intro cap
    have hloop := expandLoop_eq env (.buf cap) (src.length + 1) src [] (Nat.lt_add_one _)
    rw [Dst.fit, Dst.fit, List.nil_append, List.take_nil] at hloop
    rw [ffenvExpand, hloop]
    simp only [Dst.addChar, List.length_take]
    by_cases hfits : (expandVars env src).length + 1 ≤ cap
    · rw [if_pos (by omega), if_pos hfits, List.take_of_length_le (by omega)]
    · rw [if_neg (by omega), if_neg hfits]

/-- `"a$K$Kx b"` with `Kx=1` and `K=$K`: the second variable is `Kx`, and the value of `K` stays as
    it is. -/
example : ffenvExpand [[0x4b, 0x78, 0x3d, 0x31], [0x4b, 0x3d, 0x24, 0x4b]] (.buf 8)
    [0x61, 0x24, 0x4b, 0x24, 0x4b, 0x78, 0x20, 0x62] = some [0x61, 0x24, 0x4b, 0x31, 0x20, 0x62, 0] := by
  decide +kernel

end FFSys.Environ
