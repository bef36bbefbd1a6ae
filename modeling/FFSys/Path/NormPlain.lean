import FFSys.Path.NormContract
import FFSys.Path.NormUnix
import FFSys.Path.NormalizeSimple

/-!
# `ffpath_norm` on paths without `".."`

Without `".."` nothing is taken away from the output, and the table is never looked at twice.

* `splitRoot` — the normalised root of a path and the bytes behind it.
* `plainNorm` — the root and the components that are kept, joined with the native separator.
* `ffpathNorm_plain` — `ffpath_norm` returns `plainNorm src` for every buffer of at least
  `len + 1` bytes, and `-1` for a path that is too large.
* `ffpathNorm_abs_iff` — by Windows rules the result is absolute as the path is, except that a
  path that is relative to the current directory of a drive becomes absolute.
-/

set_option autoImplicit false

namespace FFSys.Path

open FFSys.Lib

/-! ## The specification -/

/-- The upper-case letter of an ASCII letter. -/
def upperCase (c : Byte) : Byte := if 0x61 ≤ c ∧ c ≤ 0x7a then c - 0x20 else c

/-- The bytes behind one separator, if there is one. -/
def dropSep (win : Bool) : List Byte → List Byte
  | [] => []
  | b :: rest => if isSep win b then rest else b :: rest

/-- A leading separator and what is behind it. -/
def splitSlash (win : Bool) : List Byte → List Byte × List Byte
  | [] => ([], [])
  | b :: rest => if isSep win b then ([slashOf win], rest) else ([], b :: rest)

/-- The normalised root of a path and the bytes behind it. -/
def splitRoot (win : Bool) (src : List Byte) : List Byte × List Byte :=
  match win, src with
  | true, c :: d :: rest =>
    if isLetter c ∧ d = COLON then ([upperCase c, COLON, BACKSLASH], dropSep true rest)
    else splitSlash true (c :: d :: rest)
  | win, src => splitSlash win src

/-- The components of the bytes behind the root. -/
def plainComps (win : Bool) (src : List Byte) : List Comp :=
  (splitRoot win src).2.splitOnP (isSep win)

/-- The components that are neither empty nor `"."`, and a leading `"."` of an unrooted path. -/
def keptComps (rooted : Bool) (cs : List Comp) : List Comp :=
  (if rooted = false ∧ cs.head? = some dotComp then [dotComp] else []) ++ cs.filter (!isTrivial ·)

/-- The normalised path. -/
def plainNorm (win : Bool) (src : List Byte) : List Byte :=
  (splitRoot win src).1 ++
    [slashOf win].intercalate (keptComps (!(splitRoot win src).1.isEmpty) (plainComps win src))

/-! ## The root -/

/-- The two letter tests of the source and the two ways to an upper-case letter agree. -/
theorem letter_tests (c : Byte) :
    isLetter c = (decide (0x41 ≤ c &&& 0xdf) && decide (c &&& 0xdf ≤ 0x5a)) ∧
      (isLetter c = true → c &&& 0xdf = upperCase c) := by
  obtain ⟨⟨c⟩⟩ := c
  revert c
  decide +kernel

theorem isDosPath_cons (c d : Byte) (rest : List Byte) :
    isDosPath (c :: d :: rest) = (isLetter c && d == COLON) := by
  rw [(letter_tests c).1, isDosPath]

theorem splitSlash_eq (win : Bool) (src : List Byte) :
    splitSlash win src =
      if (src[0]?).any (isSep win) then ([slashOf win], src.drop 1) else ([], src) := by
  cases src with
  | nil => rfl
  | cons b rest => by_cases hb : isSep win b <;> simp [splitSlash, hb]

theorem dropSep_eq (win : Bool) (src : List Byte) :
    dropSep win src = src.drop (if (src[0]?).any (isSep win) then 1 else 0) := by
  cases src with
  | nil => rfl
  | cons b rest => by_cases hb : isSep win b <;> simp [dropSep, hb]

/-- `splitRoot` takes the root that the code writes and leaves what the code splits. -/
theorem splitRoot_eq (win : Bool) (src : List Byte) :
    splitRoot win src = ((rootOf win src).1, src.drop (rootOf win src).2) := by
  cases win with
  | false =>
    rw [rootOf_false]
    cases src with
    | nil => rfl
    | cons b rest =>
      by_cases hb : b = SLASH <;> simp [splitRoot, splitSlash, isRooted, isSep, slashOf, hb]
  | true =>
    have hslash : ∀ s : List Byte, isDosPath s = false →
        splitSlash true s = ((rootOf true s).1, s.drop (rootOf true s).2) := by
      intro s hs
      rw [splitSlash_eq, rootOf]
      by_cases h0 : (s[0]?).any (isSep true) <;> simp [hs, h0, slashOf]
    rcases src with _ | ⟨c, _ | ⟨d, rest⟩⟩
    · exact hslash [] rfl
    · exact hslash [c] rfl
    · rw [splitRoot]
      by_cases hd : isLetter c ∧ d = COLON
      · have hdos : isDosPath (c :: d :: rest) = true := by
          rw [isDosPath_cons, hd.1, hd.2]
          rfl
        rw [if_pos hd, dropSep_eq, rootOf, if_pos rfl, if_pos hdos, ← (letter_tests c).2 hd.1]
        simp [Nat.add_comm 2]
      · rw [if_neg hd]
        apply hslash
        rw [isDosPath_cons]
        simpa using hd

theorem plainComps_eq (win : Bool) (src : List Byte) : plainComps win src = compsOf win src := by
  rw [plainComps, splitRoot_eq]
  rfl

/-- A path without a root does not begin with a separator, nor with a drive. -/
theorem rootOf_nil {win : Bool} {src : List Byte} (h : (rootOf win src).1 = []) :
    (rootOf win src).2 = 0 ∧ (src[0]?).any (isSep win) = false ∧
      (win = true → isDosPath src = false) := by
  unfold rootOf at h ⊢
  cases win with
  | false =>
    by_cases h0 : src[0]? = some SLASH
    · simp [h0] at h
    · rw [isSep_false]
      cases hs : src[0]? with
      | none => simp
      | some b =>
        have hb : b ≠ SLASH := fun he => h0 (by rw [hs, he])
        simp [hb]
  | true =>
    by_cases hd : isDosPath src = true
    · simp [hd] at h
    · by_cases h0 : (src[0]?).any (isSep true) = true
      · simp [hd, h0] at h
      · simp [hd, h0]

/-- The first component of a path without a root is empty only if the path is.  The path begins
    with it. -/
theorem compsOf_unrooted {win : Bool} {src : List Byte} (h : (rootOf win src).1 = []) :
    (src = [] ∧ compsOf win src = [[]]) ∨
      ∃ c cs, c ≠ [] ∧ compsOf win src = c :: cs ∧ c <+: src := by
  obtain ⟨hp, h0, -⟩ := rootOf_nil h
  rw [compsOf, hp]
  rcases compsFrom_cases win (Nat.zero_le src.length) with ⟨-, hcs⟩ | ⟨c, b, hsplit, -, hb, -, hcs⟩
  · rw [hcs, List.drop_zero]
    cases src with
    | nil => exact Or.inl ⟨rfl, rfl⟩
    | cons a rest => exact Or.inr ⟨_, _, by simp, rfl, List.prefix_rfl⟩
  · refine Or.inr ⟨c, _, ?_, hcs, ⟨_, hsplit.symm⟩⟩
    rintro rfl
    rw [List.drop_zero, List.nil_append] at hsplit
    rw [hsplit] at h0
    simp only [List.getElem?_cons_zero, Option.any_some, hb] at h0
    cases h0

/-! ## The components -/

section Kept

variable {rooted : Bool} {st : List Comp} {c : Comp}

/-- A component other than `".."` is skipped or pushed. -/
theorem stackStep_plain (hdd : c ≠ dotdotComp) (h : rooted = true ∨ st ≠ []) :
    stackStep rooted st c = if isTrivial c then st else c :: st := by
  have hno : ¬ (st = [] ∧ rooted = false) := by
    rintro ⟨rfl, rfl⟩
    simp at h
  by_cases hnil : c = []
  · rw [@stackStep_eq rooted st c .keep (by simp [moveOf, hnil]), hnil]
    rfl
  · cases hk : kindOf c with
    | dot =>
      rw [@stackStep_eq rooted st c .keep (by simp [moveOf, hnil, hk, hno]), kindOf_eq_dot.mp hk]
      rfl
    | dotdot => exact absurd (kindOf_eq_dotdot.mp hk) hdd
    | name =>
      have hdot : c ≠ dotComp := by
        rintro rfl
        cases hk
      rw [@stackStep_eq rooted st c .push (by simp [moveOf, hnil, hk])]
      simp [isTrivial, Move.apply, hnil, hdot]

/-- Behind a root or a component, the components that are not trivial are pushed in order. -/
theorem foldl_stackStep_plain : ∀ (cs st : List Comp), dotdotComp ∉ cs → rooted = true ∨ st ≠ [] →
    cs.foldl (stackStep rooted) st = (cs.filter (!isTrivial ·)).reverse ++ st
  | [], st, _, _ => rfl
  | c :: cs, st, hdd, h => by
    rw [List.mem_cons, not_or] at hdd
    rw [List.foldl_cons, stackStep_plain (Ne.symm hdd.1) h]
    cases hc : isTrivial c with
    | true => simpa [hc] using foldl_stackStep_plain cs st hdd.2 h
    | false => simpa [hc] using foldl_stackStep_plain cs (c :: st) hdd.2 (Or.inr (by simp))

/-- The stack of a path without `".."`. -/
theorem stackNorm_plain {win : Bool} {src : List Byte} (hdd : dotdotComp ∉ compsOf win src) :
    (stackNorm (!(rootOf win src).1.isEmpty) (compsOf win src)).reverse =
      keptComps (!(rootOf win src).1.isEmpty) (compsOf win src) := by
  rw [stackNorm, keptComps]
  by_cases hr : (rootOf win src).1 = []
  · rcases compsOf_unrooted hr with ⟨-, hcs⟩ | ⟨c, cs, hc, hcs, -⟩
    · rw [hcs, hr]
      decide
    · rw [hcs, List.mem_cons, not_or] at hdd
      -- the first component is pushed even if it is a `"."`
      have hfirst : stackStep false [] c = [c] := by
        cases hk : kindOf c with
        | dotdot => exact absurd (kindOf_eq_dotdot.mp hk).symm hdd.1
        | dot | name => simp [stackStep, moveOf, Move.apply, hk, hc]
      rw [hcs, hr, List.foldl_cons, List.isEmpty_nil, Bool.not_true, hfirst,
        foldl_stackStep_plain cs [c] hdd.2 (Or.inr (by simp))]
      by_cases hdot : c = dotComp
      · simp [hdot, isTrivial]
      · simp [hdot, isTrivial, hc]
  · have hrooted : (!(rootOf win src).1.isEmpty) = true := by simpa using hr
    rw [hrooted, foldl_stackStep_plain _ _ hdd (Or.inl rfl)]
    simp

end Kept

/-! ## The whole function -/

theorem ffpathNorm_platform (ffWin win : Bool) (dst : Nat → Byte) (cap : Nat) (src : List Byte) :
    ffpathNorm ffWin dst cap src (platformFlag win) = normRun win false dst cap src := by
  cases win with
  | false => exact ffpathNorm_unix_eq ffWin dst cap src
  | true =>
    have hf : normFlags ffWin (platformFlag true) = FFPATH_NORM_WINDOWS := by
      cases ffWin <;> rfl
    simp only [ffpathNorm, hf]
    rfl

theorem isPassThrough_spec {src : List Byte} (h : isPassThrough src = true) :
    ∃ rest, src = BACKSLASH :: BACKSLASH :: rest := by
  rcases src with _ | ⟨a, _ | ⟨b, rest⟩⟩
  · cases h
  · cases h
  · simp only [isPassThrough, Bool.and_eq_true, List.getElem?_cons_zero, List.getElem?_cons_succ,
      beq_iff_eq, Option.some.injEq] at h
    exact ⟨rest, by rw [h.1.2, h.2]⟩

section Plain

variable {win : Bool} {dst : Nat → Byte} {cap : Nat} {src : List Byte}

/-- Without `".."` the table is exact: it is never looked at again. -/
theorem normAligned_plain (hdd : dotdotComp ∉ compsOf win src) : NormAligned win false cap src := by
  apply along_of_forall
  intro c hc w he
  rw [he] at hc
  exact absurd hc hdd

/-- An admissible path without `".."` is normalised as specified. -/
theorem normRun_plain (hpt : (win && isPassThrough src) = false) (hcap : src.length + 1 ≤ cap)
    (hdd : dotdotComp ∉ compsOf win src) (hl : ¬ TooLarge win src) :
    Returns cap (normRun win false dst cap src) (plainNorm win src) := by
  have hrun := @normRun_fits win dst cap src hpt hcap hl (normAligned_plain hdd)
  have hout : render (rootOf win src).1 (slashOf win)
      (stackNorm (!(rootOf win src).1.isEmpty) (compsOf win src)) = plainNorm win src := by
    rw [render, stackNorm_plain hdd, plainNorm, plainComps_eq, splitRoot_eq]
  rw [← hout]
  exact hrun

end Plain

/-- **`ffpath_norm` without `".."`.**  The result is the normalised root and the components that
    are kept, joined with the native separator; a path that is too large is rejected. -/
theorem ffpathNorm_plain (ffWin win : Bool) (dst : Nat → Byte) (cap : Nat) (src : List Byte)
    (hunc : win = true → ¬ [BACKSLASH, BACKSLASH] <+: src) (hcap : src.length + 1 ≤ cap) :
    (src.length ≤ 4095 → (plainComps win src).length ≤ 254 → dotdotComp ∉ plainComps win src →
      Returns cap (ffpathNorm ffWin dst cap src (platformFlag win)) (plainNorm win src)) ∧
    (4095 < src.length ∨ 254 < (plainComps win src).length →
      (ffpathNorm ffWin dst cap src (platformFlag win)).1 = .ret (-1)) := by
  have hpt : (win && isPassThrough src) = false := by
    by_contra h
    rw [Bool.not_eq_false, Bool.and_eq_true] at h
    obtain ⟨rest, rfl⟩ := isPassThrough_spec h.2
    exact hunc h.1 ⟨rest, rfl⟩
  rw [plainComps_eq, ffpathNorm_platform]
  constructor
  · intro hlen hcount hdd
    apply normRun_plain hpt hcap hdd
    rw [TooLarge]
    omega
  · intro hl
    rw [normRun_tooLarge hpt (drive_capacity hcap) hl]

/-- `"c:/./a//b/"` is `"C:\a\b"`, and a path of 4096 bytes is rejected. -/
theorem ffpathNorm_plain_drive :
    Returns 12 (ffpathNorm false (fun _ => 0) 12 "c:/./a//b/".toUTF8.data.toList (platformFlag true))
      "C:\\a\\b".toUTF8.data.toList ∧
    (ffpathNorm false (fun _ => 0) 5000 (List.replicate 4096 0x61) (platformFlag true)).1 =
      .ret (-1) := by
  have h := (ffpathNorm_plain false true (fun _ => 0) 12 "c:/./a//b/".toUTF8.data.toList
    (fun _ => by decide +kernel) (by decide +kernel)).1 (by decide +kernel) (by decide +kernel)
    (by decide +kernel)
  have hval : plainNorm true "c:/./a//b/".toUTF8.data.toList = "C:\\a\\b".toUTF8.data.toList := by
    decide +kernel
  rw [hval] at h
  refine ⟨h, (ffpathNorm_plain false true (fun _ => 0) 5000 (List.replicate 4096 0x61) ?_ ?_).2 ?_⟩
  · rintro - ⟨rest, hrest⟩
    have h0 : some BACKSLASH = some 0x61 := congrArg List.head? hrest
    exact absurd h0 (by decide)
  · rw [List.length_replicate]
    omega
  · rw [List.length_replicate]
    omega

/-! ## Absolute paths -/

/-- A drive letter, `':'`, and something that is not a separator: a path relative to the current
    directory of the drive. -/
def isDriveRelative : List Byte → Bool
  | c :: d :: b :: _ => isLetter c && d == COLON && !isSep true b
  | _ => false

/-- The result is absolute if and only if the path is. -/
def KeepsAbs (cap : Nat) (run : NormRes × NormSt) (src : List Byte) : Prop :=
  ∃ out, Returns cap run out ∧ ffpathAbs out = ffpathAbs src

section Abs

variable {src : List Byte}

theorem ffpathAbs_sep {b : Byte} {rest : List Byte} (h : isSep true b = true) :
    ffpathAbs (b :: rest) = true := by
  simp only [isSep, Bool.true_and] at h
  simp [ffpathAbs, h]

/-- `ffpath_abs` on a path that does not begin with a separator. -/
theorem ffpathAbs_eq (h0 : (src[0]?).any (isSep true) = false) :
    ffpathAbs src = (isDosPath src && !isDriveRelative src) := by
  rcases src with _ | ⟨c, _ | ⟨d, rest⟩⟩
  · rfl
  · simp only [List.getElem?_cons_zero, Option.any_some, isSep, Bool.true_and] at h0
    simp [ffpathAbs, h0, isDosPath]
  · simp only [List.getElem?_cons_zero, Option.any_some, isSep, Bool.true_and] at h0
    rw [isDosPath_cons, ffpathAbs]
    cases rest with
    | nil => simp [h0, isDriveRelative]
    | cons b rest =>
      cases hc : isLetter c <;> cases hd : d == COLON <;>
        simp_all [isDriveRelative, isSep]

/-- Whether a path begins with a drive is seen from its first component. -/
theorem isDosPath_append {c tail tail' : List Byte} (hc : c ≠ []) (h : isDosPath (c ++ tail) = false)
    (htail : tail'[0]? ≠ some COLON) : isDosPath (c ++ tail') = false := by
  rcases c with _ | ⟨a, _ | ⟨d, c⟩⟩
  · exact absurd rfl hc
  · cases tail' with
    | nil => rfl
    | cons b tail' =>
      have hb : b ≠ COLON := by simpa using htail
      rw [List.cons_append, List.nil_append, isDosPath_cons]
      simp [hb]
  · rw [List.cons_append, List.cons_append, isDosPath_cons] at h ⊢
    exact h

/-- The result of an unrooted path begins with the first component of the path. -/
theorem plainNorm_unrooted {c : Comp} {cs : List Comp} (hr : (rootOf true src).1 = [])
    (hcs : compsOf true src = c :: cs) (hc : c ≠ []) :
    ∃ tail, plainNorm true src = c ++ tail ∧ tail[0]? ≠ some COLON := by
  have hkept : ∃ more, keptComps false (c :: cs) = c :: more := by
    rw [keptComps]
    by_cases hdot : c = dotComp
    · exact ⟨_, by rw [hdot]; rfl⟩
    · exact ⟨cs.filter (!isTrivial ·), by simp [hdot, isTrivial, hc]⟩
  obtain ⟨more, hmore⟩ := hkept
  have hout : plainNorm true src = [BACKSLASH].intercalate (c :: more) := by
    rw [plainNorm, plainComps_eq, splitRoot_eq, hr, hcs, ← hmore]
    rfl
  rw [hout]
  cases more with
  | nil => exact ⟨[], by simp, by simp⟩
  | cons d more =>
    refine ⟨BACKSLASH :: [BACKSLASH].intercalate (d :: more), ?_, by simp [BACKSLASH, COLON]⟩
    rw [List.intercalate_cons_cons]
    simp

/-- An unrooted path is relative, and so is its result. -/
theorem ffpathAbs_plain_unrooted (hr : (rootOf true src).1 = []) :
    ffpathAbs src = false ∧ ffpathAbs (plainNorm true src) = false := by
  obtain ⟨-, h0, hdos⟩ := rootOf_nil hr
  specialize hdos rfl
  refine ⟨by rw [ffpathAbs_eq h0, hdos, Bool.false_and], ?_⟩
  rcases compsOf_unrooted hr with ⟨rfl, -⟩ | ⟨c, cs, hc, hcs, ⟨rest, rfl⟩⟩
  · decide
  obtain ⟨tail, hout, htail⟩ := plainNorm_unrooted hr hcs hc
  have hfirst : (c ++ tail)[0]? = (c ++ rest)[0]? := by
    have hpos := List.length_pos_of_ne_nil hc
    rw [List.getElem?_append_left hpos, List.getElem?_append_left hpos]
  rw [hout, ffpathAbs_eq (by rw [hfirst]; exact h0), isDosPath_append hc hdos htail, Bool.false_and]

/-- A drive letter stays one when it is written in upper case, and is no separator. -/
theorem drive_letter {c : Byte} (h : isLetter c = true) :
    isLetter (c &&& 0xdf) = true ∧ isSep true c = false := by
  obtain ⟨⟨c⟩⟩ := c
  revert c
  decide +kernel

theorem isDosPath_letter (h : isDosPath src = true) : ∃ c rest, src = c :: COLON :: rest ∧
    isLetter c = true := by
  obtain ⟨c, rest, rfl, -⟩ := isDosPath_spec h
  rw [isDosPath_cons, Bool.and_eq_true] at h
  exact ⟨c, rest, rfl, h.1⟩

/-- Only a path that begins with a drive is relative to it. -/
theorem isDriveRelative_of_not_drive (h : isDosPath src = false) : isDriveRelative src = false := by
  rcases src with _ | ⟨c, _ | ⟨d, _ | ⟨b, rest⟩⟩⟩
  · rfl
  · rfl
  · rfl
  · rw [isDosPath_cons] at h
    rw [isDriveRelative, h, Bool.false_and]

theorem ffpathAbs_drive {c : Byte} (h : isLetter c = true) (tail : List Byte) :
    ffpathAbs (c :: COLON :: BACKSLASH :: tail) = true := by
  have h0 := (drive_letter h).2
  rw [ffpathAbs_eq (by simpa using h0), isDosPath_cons, h]
  simp [isDriveRelative, isSep]

/-- The result of a path with a root is absolute. -/
theorem ffpathAbs_plain_rooted (hr : (rootOf true src).1 ≠ []) :
    ffpathAbs (plainNorm true src) = true := by
  rw [plainNorm, splitRoot_eq]
  by_cases hd : isDosPath src = true
  · have hroot : (rootOf true src).1 = [src.getD 0 0 &&& 0xdf, COLON, BACKSLASH] := by
      simp [rootOf, hd]
    obtain ⟨c, rest, rfl, hc⟩ := isDosPath_letter hd
    rw [hroot]
    exact ffpathAbs_drive (drive_letter hc).1 _
  · have hroot : (rootOf true src).1 = [BACKSLASH] := by
      by_cases h0 : (src[0]?).any (isSep true) = true
      · simp [rootOf, hd, h0]
      · simp [rootOf, hd, h0] at hr
    rw [hroot]
    exact ffpathAbs_sep rfl

/-- A path with a root is absolute, unless it is relative to the current directory of a drive. -/
theorem ffpathAbs_rooted (hr : (rootOf true src).1 ≠ []) :
    ffpathAbs src = !isDriveRelative src := by
  by_cases hd : isDosPath src = true
  · have h0 : (src[0]?).any (isSep true) = false := by
      obtain ⟨c, rest, rfl, hc⟩ := isDosPath_letter hd
      simpa using (drive_letter hc).2
    rw [ffpathAbs_eq h0, hd, Bool.true_and]
  · rw [isDriveRelative_of_not_drive (by simpa using hd)]
    cases src with
    | nil => simp [rootOf, hd] at hr
    | cons b rest =>
      by_cases hb : isSep true b = true
      · exact ffpathAbs_sep hb
      · simp [rootOf, hd, hb] at hr

end Abs

theorem Returns.unique {cap : Nat} {run : NormRes × NormSt} {out out' : List Byte}
    (h : Returns cap run out) (h' : Returns cap run out') : out = out' := by
  have hlen : (out.length : Int) = out'.length := by
    have := h.1.symm.trans h'.1
    simpa using this
  rw [← h.2.1, ← h'.2.1, hlen]

/-- A path that begins with two backslashes is copied. -/
theorem normRun_passThrough {dst : Nat → Byte} {cap : Nat} {src : List Byte}
    (hpt : isPassThrough src = true) (hlen : src.length ≤ 4095) (hcap : src.length ≤ cap) :
    Returns cap (normRun true false dst cap src) src := by
  have B0 : Buf cap 0 (NormSt.mk 0 0 dst [] []) [] :=
    ⟨⟨by simp, by simp⟩, rfl, by simp, by simp, by simp⟩
  have B := B0.append src (by simpa using hcap) (by simp only [List.length_nil]; omega)
  have hrun : normRun true false dst cap src =
      (.ret src.length, (NormSt.mk 0 0 dst [] []).move 0 src) := by
    unfold normRun
    rw [if_pos (by rw [hpt]; rfl), if_neg (by omega), BitVec.toInt_eq_toNat_of_lt]
    · rw [BitVec.toNat_ofNat, Nat.mod_eq_of_lt (by omega)]
    · rw [BitVec.toNat_ofNat, Nat.mod_eq_of_lt (by omega)]
      omega
  have hout := outBytes_eq B
  rw [hrun]
  exact ⟨rfl, hout, B.stores_lt⟩

/-- **Windows rules and absolute paths.**  A path without `".."` is absolute if and only if its
    result is, unless it is relative to the current directory of a drive. -/
theorem ffpathNorm_abs_iff (ffWin : Bool) (dst : Nat → Byte) (cap : Nat) (src : List Byte)
    (hlen : src.length ≤ 4095) (hcount : (plainComps true src).length ≤ 254)
    (hdd : dotdotComp ∉ plainComps true src) (hcap : src.length + 1 ≤ cap) :
    KeepsAbs cap (ffpathNorm ffWin dst cap src FFPATH_NORM_WINDOWS) src ↔
      isDriveRelative src = false := by
  rw [show FFPATH_NORM_WINDOWS = platformFlag true from rfl, ffpathNorm_platform]
  rw [plainComps_eq] at hcount hdd
  cases hpt : isPassThrough src with
  | true =>
    have hret := @normRun_passThrough dst cap src hpt hlen (by omega)
    refine ⟨fun _ => ?_, fun _ => ⟨src, hret, rfl⟩⟩
    obtain ⟨rest, rfl⟩ := isPassThrough_spec hpt
    cases rest <;> rfl
  | false =>
    have hret := @normRun_plain true dst cap src (by rw [hpt]; rfl) hcap hdd (by rw [TooLarge]; omega)
    have hkeeps : KeepsAbs cap (normRun true false dst cap src) src ↔
        ffpathAbs (plainNorm true src) = ffpathAbs src := by
      refine ⟨?_, fun h => ⟨_, hret, h⟩⟩
      rintro ⟨out, hout, h⟩
      rw [← hout.unique hret]
      exact h
    rw [hkeeps]
    by_cases hr : (rootOf true src).1 = []
    · obtain ⟨habs, hout⟩ := ffpathAbs_plain_unrooted hr
      have hrel := isDriveRelative_of_not_drive ((rootOf_nil hr).2.2 rfl)
      rw [habs, hout, hrel]
    · rw [ffpathAbs_plain_rooted hr, ffpathAbs_rooted hr]
      cases isDriveRelative src <;> simp

/-- `".\a"` is relative before and after. -/
theorem ffpathNorm_abs_relative :
    KeepsAbs 4 (ffpathNorm true (fun _ => 0) 4 [DOT, BACKSLASH, 0x61] FFPATH_NORM_WINDOWS)
      [DOT, BACKSLASH, 0x61] :=
  (ffpathNorm_abs_iff true (fun _ => 0) 4 [DOT, BACKSLASH, 0x61] (by decide) (by decide)
    (by decide +kernel) (by decide)).mpr (by decide)

/-- `"c:a"` is relative, and its result `"C:\a"` is absolute. -/
theorem ffpathNorm_abs_drive :
    ¬ ∀ (src : List Byte) (cap : Nat), src.length ≤ 4095 → (plainComps true src).length ≤ 254 →
      dotdotComp ∉ plainComps true src → src.length + 1 ≤ cap →
      KeepsAbs cap (ffpathNorm true (fun _ => 0) cap src FFPATH_NORM_WINDOWS) src := by
  intro h
  obtain ⟨out, hout, habs⟩ := h [0x63, COLON, 0x61] 4 (by decide) (by decide) (by decide +kernel)
    (by decide)
  have hval : Returns 4 (ffpathNorm true (fun _ => 0) 4 [0x63, COLON, 0x61] FFPATH_NORM_WINDOWS)
      [0x43, COLON, BACKSLASH, 0x61] := ⟨by decide +kernel, by decide +kernel, by decide +kernel⟩
  rw [hout.unique hval] at habs
  revert habs
  decide

end FFSys.Path
