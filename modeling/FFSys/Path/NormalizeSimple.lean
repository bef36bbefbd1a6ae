import FFSys.Path.NormalizeStack

/-!
# Simple paths by Windows rules

`ffpath_normalize` with `FFPATH_SIMPLE | FFPATH_DISK_LETTER | FFPATH_SLASH_BACKSLASH` shall give a
path that stays below the current directory.  The disk is skipped at the first component only, and
a component that ends with `':'` is never taken away from the bottom of the stack, so that a second
disk gets to the front of the result.

* `ffpathAbs` — `ffpath_abs` of Windows; `SimplePath` — what the result shall be.
* `nameStep` — the stack machine under these flags, on names.
* `exposesDisk` — the first component of the path that comes to the bottom of the stack and ends
  with `':'` is a disk: a count of names, with no stack.
* `ffpathNormalize_simple_iff` — the result is a simple path if and only if no disk is exposed.
-/

set_option autoImplicit false

namespace FFSys.Path

/-- `(c | 0x20) >= 'a' && (c | 0x20) <= 'z'`. -/
def isLetter (c : Byte) : Bool := decide (0x61 ≤ c ||| 0x20) && decide (c ||| 0x20 ≤ 0x7a)

/-- `ffpath_abs` of Windows. -/
def ffpathAbs (path : List Byte) : Bool :=
  match path with
  | [] => false
  | c :: _ =>
    if c == SLASH || c == BACKSLASH then true
    else decide (2 ≤ path.length) && isLetter c && path[1]? == some COLON &&
      (path.length == 2 || path[2]? == some SLASH || path[2]? == some BACKSLASH)

/-- The separators of Windows. -/
def winSlashes : List Byte := [SLASH, BACKSLASH]

/-- A path without empty, `"."` and `".."` components that is not absolute. -/
def SimplePath (p : List Byte) : Prop :=
  (∀ c ∈ pathComps winSlashes p, c ≠ [] ∧ c ≠ dotComp ∧ c ≠ dotdotComp) ∧ ffpathAbs p = false

def simpleDiskFlags : BitVec 32 := FFPATH_SIMPLE ||| FFPATH_DISK_LETTER ||| FFPATH_SLASH_BACKSLASH

/-- A drive letter and `':'`. -/
def isDisk : Comp → Bool
  | [c, d] => isLetter c && d == COLON
  | _ => false

/-! ## Exposed disks -/

/-- The components that are not skipped: not the empty ones, not `"."`, and not the first of the
    others if it ends with `':'`. -/
def simpleNames (cs : List Comp) : List Comp :=
  match cs.filter (!isTrivial ·) with
  | [] => []
  | c :: cs => if endsWithColon c then cs else c :: cs

/-- With `n` names on the stack: the next component that comes to the bottom of the stack and ends
    with `':'` is a disk. -/
def exposed : Nat → List Comp → Bool
  | _, [] => false
  | 0, c :: cs =>
    if c = dotdotComp then exposed 0 cs
    else if endsWithColon c then isDisk c
    else exposed 1 cs
  | n + 1, c :: cs => if c = dotdotComp then exposed n cs else exposed (n + 2) cs

def exposesDisk (src : List Byte) : Bool := exposed 0 (simpleNames (pathComps winSlashes src))

/-! ## The stack of names -/

/-- One component under these flags. -/
def nameStep (st : List Comp) (c : Comp) : List Comp :=
  if c = dotdotComp then
    match st with
    | [] => []
    | t :: below => if below = [] ∧ endsWithColon t then st else below
  else c :: st

theorem isDisk_endsWithColon {c : Comp} (h : isDisk c = true) : endsWithColon c = true := by
  unfold isDisk at h
  split at h
  · simp only [Bool.and_eq_true] at h
    simpa [endsWithColon] using h.2
  · cases h

/-- The bottom of a stack that ends with `':'` stays. -/
theorem foldl_nameStep_colon : ∀ (cs st : List Comp) (t : Comp), st.getLast? = some t →
    endsWithColon t = true → (cs.foldl nameStep st).getLast? = some t
  | [], _, _, h, _ => h
  | c :: cs, st, t, h, ht => by
    rw [List.foldl_cons]
    refine foldl_nameStep_colon cs _ t ?_ ht
    unfold nameStep
    split
    · match st, h with
      | [u], h =>
        have hu : u = t := by simpa using h
        simp [hu, ht]
      | u :: v :: below, h => simpa using h
    · rw [List.getLast?_cons]
      simp [h]

/-- `exposed` tells whether a disk ends up at the bottom of the stack. -/
theorem foldl_nameStep_isDisk : ∀ (cs st : List Comp), (∀ t, st.getLast? = some t →
    endsWithColon t = false) →
    ((cs.foldl nameStep st).getLast?.any isDisk = true ↔ exposed st.length cs = true)
  | [], st, h => by
    rw [List.foldl_nil, exposed]
    cases hl : st.getLast? with
    | none => simp
    | some t =>
      have ht := h t hl
      have hd : isDisk t = false := by
        cases hd : isDisk t with
        | false => rfl
        | true => rw [isDisk_endsWithColon hd] at ht; cases ht
      simp [hd]
  | c :: cs, [], _ => by
    rw [List.foldl_cons, List.length_nil, exposed, nameStep]
    split
    · exact foldl_nameStep_isDisk cs [] (by simp)
    · split
      · rename_i hc
        rw [foldl_nameStep_colon cs [c] c rfl hc]
        simp
      · rename_i hc
        exact foldl_nameStep_isDisk cs [c] (by simpa using hc)
  | c :: cs, t :: below, h => by
    rw [List.foldl_cons, List.length_cons, exposed, nameStep]
    split
    · have hcolon : ¬ (below = [] ∧ endsWithColon t = true) := by
        rintro ⟨rfl, ht⟩
        rw [h t rfl] at ht
        cases ht
      rw [if_neg hcolon]
      apply foldl_nameStep_isDisk cs below
      intro u hu
      apply h u
      rw [List.getLast?_cons, hu]
      rfl
    · apply foldl_nameStep_isDisk cs (c :: t :: below)
      intro u hu
      exact h u (by simpa using hu)

/-- What the stack holds: its names are those of the stack of names, and it has no other
    entries. -/
structure NamesSim (seen : List Entry) (s : PathSt) : Prop where
  names : s.stack.map Entry.comp = (simpleNames (seen.map Entry.comp)).foldl nameStep []
  fresh : s.fresh = true ↔ (seen.map Entry.comp).filter (!isTrivial ·) = []
  proper : ∀ e ∈ s.stack, isTrivial e.comp = false ∧ e.comp ≠ dotdotComp

theorem pushComp_names {r : StackRules} (hsimple : r.simple = true) (hdisk : r.disk = true)
    {st : List Entry} {e : Entry} (he : isTrivial e.comp = false)
    (hst : ∀ e ∈ st, isTrivial e.comp = false ∧ e.comp ≠ dotdotComp) :
    (pushComp r st e).map Entry.comp = nameStep (st.map Entry.comp) e.comp ∧
      ∀ x ∈ pushComp r st e, isTrivial x.comp = false ∧ x.comp ≠ dotdotComp := by
  unfold pushComp nameStep
  simp only
  split
  · cases st with
    | nil => simp [dotdotMove, hsimple, Move.applyTo]
    | cons t below =>
      have ht := hst t List.mem_cons_self
      have hbelow := fun e he => hst e (List.mem_cons_of_mem t he)
      rw [dotdotMove, if_neg (isTrivial_false ht.1).2, if_neg ht.2,
        if_neg (fun h => (isTrivial_false ht.1).1 h.2)]
      simp only [hdisk, true_and, List.map_cons, List.map_eq_nil_iff]
      split
      · exact ⟨rfl, hst⟩
      · exact ⟨rfl, hbelow⟩
  · rename_i hdd
    refine ⟨rfl, ?_⟩
    intro x hx
    rcases List.mem_cons.mp hx with rfl | hx
    · exact ⟨he, hdd⟩
    · exact hst x hx

theorem simpleNames_concat {cs : List Comp} {c : Comp} (hc : isTrivial c = false)
    (hcs : cs.filter (!isTrivial ·) ≠ []) : simpleNames (cs ++ [c]) = simpleNames cs ++ [c] := by
  unfold simpleNames
  rw [List.filter_append]
  obtain ⟨x, xs, hx⟩ := List.exists_cons_of_ne_nil hcs
  rw [hx]
  simp only [List.cons_append]
  split <;> simp [hc]

/-- **One step.** -/
theorem pathStep_names {r : StackRules} (hsimple : r.simple = true) (hdisk : r.disk = true)
    {seen : List Entry} {s : PathSt} {e : Entry} (h : NamesSim seen s) :
    NamesSim (seen ++ [e]) (pathStep r s e) := by
  cases ht : isTrivial e.comp with
  | true =>
    have hfilter : ((seen ++ [e]).map Entry.comp).filter (!isTrivial ·) =
        (seen.map Entry.comp).filter (!isTrivial ·) := by simp [ht]
    rw [pathStep_trivial ht (.inl hsimple)]
    refine ⟨?_, by rw [hfilter]; exact h.fresh, h.proper⟩
    rw [simpleNames, hfilter]
    exact h.names
  | false =>
    have hfilter : ((seen ++ [e]).map Entry.comp).filter (!isTrivial ·) =
        (seen.map Entry.comp).filter (!isTrivial ·) ++ [e.comp] := by simp [ht]
    have hnames := h.names
    cases hf : s.fresh with
    | true =>
      have hnone := h.fresh.mp hf
      rw [hnone, List.nil_append] at hfilter
      have hnil : s.stack = [] := by
        rw [simpleNames, hnone] at hnames
        simpa using hnames
      cases hc : endsWithColon e.comp with
      | true =>
        rw [pathStep_disk ht hdisk hsimple hf (by simpa [endsWithColon] using hc)]
        refine ⟨?_, by rw [hfilter]; simp, h.proper⟩
        rw [simpleNames, hfilter, hnil]
        simp [hc]
      | false =>
        rw [pathStep_push (by simp [ht]) (fun _ _ _ => by simpa [endsWithColon] using hc)]
        obtain ⟨h1, h2⟩ := pushComp_names hsimple hdisk ht h.proper
        refine ⟨?_, by rw [hfilter]; simp [ht], h2⟩
        rw [simpleNames, hfilter]
        simp only [hc]
        rw [h1, hnil]
        rfl
    | false =>
      have hsome : (seen.map Entry.comp).filter (!isTrivial ·) ≠ [] := by
        intro hnone
        rw [h.fresh.mpr hnone] at hf
        cases hf
      rw [pathStep_push (by simp [ht]) (fun _ _ hf' => by rw [hf] at hf'; cases hf')]
      obtain ⟨h1, h2⟩ := pushComp_names hsimple hdisk ht h.proper
      refine ⟨?_, by rw [hfilter]; simp [hf], h2⟩
      rw [List.map_append, List.map_singleton, simpleNames_concat ht hsome, List.foldl_append,
        ← hnames]
      exact h1

/-! ## Absolute paths -/

/-- A path is absolute if and only if its first component is a disk (or empty). -/
theorem ffpathAbs_bytes {e : Entry} {rest : List Byte} (he : Clean winSlashes e)
    (hne : e.comp ≠ []) (hrest : rest ≠ [] → e.sep ≠ none) :
    ffpathAbs (e.bytes ++ rest) = isDisk e.comp := by
  obtain ⟨comp, sep⟩ := e
  have hsep : ∀ b, sep = some b → b = SLASH ∨ b = BACKSLASH := by
    intro b hb
    simpa [winSlashes] using he.sep_mem b hb
  have hcomp : ∀ b ∈ comp, b ≠ SLASH ∧ b ≠ BACKSLASH := by
    intro b hb
    simpa [winSlashes] using he.comp_clean b hb
  have hcolon : SLASH ≠ COLON ∧ BACKSLASH ≠ COLON := by decide
  have hend : sep = none → rest = [] := by
    intro hnone
    by_contra hr
    exact hrest hr hnone
  clear he hrest
  match comp, hne, hcomp with
  | [x], _, hcomp =>
    have hx := hcomp x (by simp)
    cases sep with
    | none => simp [Entry.bytes, hend rfl, ffpathAbs, isDisk, hx]
    | some b =>
      have hb : b ≠ COLON := by
        rcases hsep b rfl with rfl | rfl
        · exact hcolon.1
        · exact hcolon.2
      simp [Entry.bytes, ffpathAbs, isDisk, hx, hb]
  | [x, y], _, hcomp =>
    have hx := hcomp x (by simp)
    cases sep with
    | none => simp [Entry.bytes, hend rfl, ffpathAbs, isDisk, hx]
    | some b =>
      rcases hsep b rfl with rfl | rfl
      · simp [Entry.bytes, ffpathAbs, isDisk, hx]
      · simp [Entry.bytes, ffpathAbs, isDisk, hx]
  | x :: y :: z :: zs, _, hcomp =>
    have hx := hcomp x (by simp)
    have hz := hcomp z (by simp)
    simp [Entry.bytes, ffpathAbs, isDisk, hx, hz]

/-- The path of a stack of names is absolute if and only if there is a disk at the bottom. -/
theorem ffpathAbs_renderStack {st : List Entry} (h : Framed winSlashes st)
    (hst : ∀ e ∈ st, isTrivial e.comp = false ∧ e.comp ≠ dotdotComp) :
    ffpathAbs (renderStack st) = (st.map Entry.comp).getLast?.any isDisk := by
  have hpieces := pieces_renderStack h
  cases hout : renderStack st with
  | nil =>
    rw [hout] at hpieces
    have hnil : st = [] := List.reverse_eq_nil_iff.mp hpieces.symm
    simp [hnil, ffpathAbs]
  | cons b bs =>
    obtain ⟨hsplit, hclean, hsep⟩ := split_spec winSlashes (b :: bs) (by simp)
    rw [hout, pieces_eq winSlashes (b :: bs) (by simp)] at hpieces
    have hlast : st.getLast? = some (splitEntry (b :: bs) winSlashes) := by
      rw [← List.head?_reverse, ← hpieces]
      rfl
    have hmem := List.mem_of_getLast? hlast
    have habs := ffpathAbs_bytes hclean (isTrivial_false (hst _ hmem).1).1 hsep
    rw [← hsplit] at habs
    rw [habs, List.getLast?_map, hlast]
    rfl

/-- **Simple paths.**  For every path that does not start with two backslashes: the result is a
    simple path if and only if no disk is exposed. -/
theorem ffpathNormalize_simple_iff (ffWin : Bool) (cap : Nat) (src : List Byte)
    (hsrc : ¬ [BACKSLASH, BACKSLASH] <+: src) (hcap : src.length ≤ cap) :
    (∃ out, ffpathNormalize ffWin cap src simpleDiskFlags = some out ∧ SimplePath out) ↔
      exposesDisk src = false := by
  have hslashes : slashesOf ffWin simpleDiskFlags = winSlashes := by
    cases ffWin <;> decide
  have hflags : effFlags ffWin simpleDiskFlags = simpleDiskFlags := by
    cases ffWin <;> decide
  have hemit : ∀ b ∈ winSlashes, emitSep simpleDiskFlags b ∈ winSlashes := by
    intro b hb
    rcases List.mem_pair.mp hb with rfl | rfl <;> decide
  have hpass : isPassThrough src = false := by
    match src, hsrc with
    | [], _ => rfl
    | [_], _ => rfl
    | x :: y :: rest, hsrc =>
      have hxy : ¬ (x = BACKSLASH ∧ y = BACKSLASH) := by
        rintro ⟨rfl, rfl⟩
        exact hsrc (List.prefix_append _ rest)
      simp only [isPassThrough, List.getElem?_cons_zero, List.getElem?_cons_succ]
      simpa using fun _ hx hy => hxy ⟨hx, hy⟩
  have hloop := @ffpathNormalize_eq_loop ffWin src simpleDiskFlags (by simp [hpass]) cap
  rw [hslashes, hflags] at hloop
  obtain ⟨out, hout, -, hstack⟩ :=
    @normalizeLoop_start ⟨cap, simpleDiskFlags, winSlashes⟩ src hcap hemit
  rw [← hloop] at hout
  have hframed := pathStack_framed (r := rulesOf simpleDiskFlags) hemit src
  have hnames : NamesSim (pieces winSlashes src) ((pieces winSlashes src).foldl
      (pathStep (rulesOf simpleDiskFlags)) ⟨true, true, []⟩) :=
    pathStack_rule (I := NamesSim) hemit ⟨rfl, by simp, by simp⟩
      (fun seen s e _ _ _ _ h => pathStep_names (by decide) (by decide) h) src
  have habs := ffpathAbs_renderStack hframed hnames.proper
  have hcomps : ∀ c ∈ pathComps winSlashes out, c ≠ [] ∧ c ≠ dotComp ∧ c ≠ dotdotComp := by
    rw [hstack, pathComps_eq, pieces_renderStack hframed]
    intro c hc
    obtain ⟨e, he, rfl⟩ := List.mem_map.mp hc
    obtain ⟨h1, h2⟩ := hnames.proper e (List.mem_reverse.mp he)
    exact ⟨(isTrivial_false h1).1, (isTrivial_false h1).2, h2⟩
  have hdisk : ffpathAbs out = exposesDisk src := by
    rw [hstack, habs, Bool.eq_iff_iff, exposesDisk, pathComps_eq]
    show ((pathStack (rulesOf simpleDiskFlags) winSlashes src).map Entry.comp).getLast?.any isDisk =
      true ↔ _
    rw [pathStack, hnames.names]
    exact foldl_nameStep_isDisk _ [] (by simp)
  constructor
  · rintro ⟨out', hout', -, habs'⟩
    rw [hout] at hout'
    cases hout'
    rw [← hdisk]
    exact habs'
  · intro hno
    exact ⟨out, hout, hcomps, hdisk.trans hno⟩

/-- `"c:/a/../d/./"` gives `"d/"`. -/
theorem ffpathNormalize_simple_plain :
    ∃ out, ffpathNormalize false 12 "c:/a/../d/./".toUTF8.data.toList simpleDiskFlags = some out ∧
      SimplePath out :=
  (ffpathNormalize_simple_iff false 12 "c:/a/../d/./".toUTF8.data.toList (by decide +kernel)
    (by decide +kernel)).mpr (by decide +kernel)

/-- `"c:/d:/x"` gives the absolute path `"d:/x"`. -/
theorem ffpathNormalize_simple_second_disk :
    ¬ ∀ (src : List Byte), ¬ [BACKSLASH, BACKSLASH] <+: src → ∀ cap, src.length ≤ cap →
      ∃ out, ffpathNormalize false cap src simpleDiskFlags = some out ∧ SimplePath out := by
  intro h
  obtain ⟨out, hout, -, habs⟩ := h "c:/d:/x".toUTF8.data.toList (by decide +kernel) 7 (by decide +kernel)
  have hval : ffpathNormalize false 7 "c:/d:/x".toUTF8.data.toList simpleDiskFlags =
      some "d:/x".toUTF8.data.toList := by decide +kernel
  rw [hval, Option.some.injEq] at hout
  subst hout
  revert habs
  decide +kernel

end FFSys.Path
