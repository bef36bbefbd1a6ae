import FFSys.Path.NormalizeStack

/-!
# `ffpath_normalize` keeps the meaning of a path

* `walk` — the directory that a path leads to from a directory `d`, by its names alone.
* `pathStep_walk` — a step of the stack machine takes the walk one component further.
* `ffpathNormalize_walk` — the normalised path leads to the same directory as the path, from
  every directory.
-/

set_option autoImplicit false

namespace FFSys.Path

/-- One component of a walk: an empty one and `"."` stay, `".."` removes the last name. -/
def walkComp (d : List Comp) (c : Comp) : List Comp :=
  if c = [] ∨ c = dotComp then d
  else if c = dotdotComp then d.dropLast
  else d ++ [c]

/-- The directory that the path leads to from `d`. -/
def walk (d : List Comp) (p : List Byte) : List Comp :=
  (p.splitOn SLASH).foldl walkComp (if p.head? = some SLASH then [] else d)

/-- The walk along components, the first of which is empty in a path from the root. -/
def walkComps (d : List Comp) (cs : List Comp) : List Comp :=
  cs.foldl walkComp (if cs.head? = some [] then [] else d)

/-- The walk along the entries of a stack. -/
def walkStack (d : List Comp) (st : List Entry) : List Comp :=
  walkComps d (st.reverse.map Entry.comp)

theorem walkComp_trivial (d : List Comp) {c : Comp} (h : isTrivial c = true) : walkComp d c = d := by
  rw [walkComp, if_pos (by simpa [isTrivial] using h)]

theorem walkComp_dotdot (d : List Comp) : walkComp d dotdotComp = d.dropLast := by
  rw [walkComp, if_neg (by simpa [isTrivial] using isTrivial_dotdot), if_pos rfl]

theorem walkComp_name (d : List Comp) {c : Comp} (h1 : isTrivial c = false) (h2 : c ≠ dotdotComp) :
    walkComp d c = d ++ [c] := by
  rw [walkComp, if_neg (by simpa [isTrivial] using h1), if_neg h2]

theorem walkComps_concat (d : List Comp) {cs : List Comp} {c : Comp} (h : cs ≠ [] ∨ c ≠ []) :
    walkComps d (cs ++ [c]) = walkComp (walkComps d cs) c := by
  unfold walkComps
  rw [List.foldl_append, List.foldl_cons, List.foldl_nil]
  cases cs with
  | nil => simp [h.resolve_left (by simp)]
  | cons x xs => rfl

theorem walkStack_cons (d : List Comp) {e : Entry} {st : List Entry} (h : st ≠ [] ∨ e.comp ≠ []) :
    walkStack d (e :: st) = walkComp (walkStack d st) e.comp := by
  unfold walkStack
  rw [List.reverse_cons, List.map_append]
  exact walkComps_concat d (by simpa using h)

/-! ## The walk along a path and along its components -/

theorem foldl_walkComp_pathComps (p : List Byte) (d : List Comp) :
    (p.splitOn SLASH).foldl walkComp d = (pathComps [SLASH] p).foldl walkComp d := by
  have hsplit : p.splitOn SLASH = p.splitOnP ([SLASH].contains ·) := by
    rw [List.splitOn_eq_splitOnP]
    congr 1
    funext b
    rw [List.contains_cons, List.contains_nil, Bool.or_false]
  unfold pathComps
  rw [← hsplit]
  simp only
  split
  · rename_i hlast
    obtain ⟨cs, hcs⟩ := List.getLast?_eq_some_iff.mp hlast
    rw [hcs, List.dropLast_concat, List.foldl_append, List.foldl_cons, List.foldl_nil]
    exact walkComp_trivial _ rfl
  · rfl

/-- A path starts with a slash if and only if its first component is empty. -/
theorem head_pieces (p : List Byte) :
    ((pieces [SLASH] p).map Entry.comp).head? = some [] ↔ p.head? = some SLASH := by
  cases p with
  | nil => simp [pieces]
  | cons b bs =>
    rw [pieces]
    split
    · rename_i hb
      have hb : b = SLASH := by simpa using hb
      simp [hb]
    · rename_i hb
      have hb : b ≠ SLASH := by simpa using hb
      cases pieces [SLASH] bs <;> simp [hb]

theorem walk_eq (d : List Comp) (p : List Byte) :
    walk d p = walkComps d ((pieces [SLASH] p).map Entry.comp) := by
  unfold walk walkComps
  rw [foldl_walkComp_pathComps, pathComps_eq]
  simp only [head_pieces]

theorem walk_renderStack (d : List Comp) {st : List Entry} (h : Framed [SLASH] st) :
    walk d (renderStack st) = walkStack d st := by
  rw [walk_eq, pieces_renderStack h, walkStack]

/-! ## The steps of the stack machine -/

section Step

variable {r : StackRules} {slashes : List Byte}

/-- A `".."` that meets a stack removes the last name of its walk. -/
theorem dotdot_walk (d : List Comp) {st : List Entry} (e : Entry) (hsimple : r.simple = false)
    (hdisk : r.disk = false) (hs : Sealed slashes st) (he : e.comp = dotdotComp) :
    walkStack d ((dotdotMove r st).applyTo e st) = (walkStack d st).dropLast := by
  have hpush : ∀ st', walkStack d (e :: st') = (walkStack d st').dropLast := by
    intro st'
    rw [walkStack_cons d (.inr (by rw [he]; exact dotdotComp_ne_nil)), he, walkComp_dotdot]
  cases st with
  | nil =>
    simp only [dotdotMove, hsimple, Bool.false_eq_true, if_false]
    exact hpush []
  | cons t below =>
    rw [dotdotMove]
    split
    · -- "." stays where it is
      rename_i ht
      rw [walkStack_cons d (.inr (by rw [ht]; simp [dotComp])), ht, walkComp_trivial _ rfl]
      exact hpush below
    · rename_i hdot
      split
      · exact hpush (t :: below)
      · rename_i hdd
        split
        · -- the root
          rename_i hroot
          obtain ⟨rfl, ht⟩ := hroot
          simp [Move.applyTo, walkStack, walkComps, ht, walkComp]
        · rename_i hroot
          rw [if_neg (by simp [hdisk])]
          -- a name
          have hne : below ≠ [] ∨ t.comp ≠ [] := by
            cases below with
            | nil => exact .inr (fun ht => hroot ⟨rfl, ht⟩)
            | cons u below => exact .inl (by simp)
          have htriv : isTrivial t.comp = false := by
            cases below with
            | nil => simp [isTrivial, hdot, hne.resolve_left (by simp)]
            | cons u below => exact hs.2.2.1 (by simp)
          rw [walkStack_cons d hne, walkComp_name _ htriv hdd, List.dropLast_concat]
          rfl

/-- A component that meets a stack takes its walk further. -/
theorem pushComp_walk (d : List Comp) {st : List Entry} {e : Entry} (hsimple : r.simple = false)
    (hdisk : r.disk = false) (hs : Sealed slashes st) (he : isTrivial e.comp = false) :
    walkStack d (pushComp r st e) = walkComp (walkStack d st) e.comp := by
  unfold pushComp
  simp only
  split
  · rename_i hdd
    rw [dotdot_walk d ⟨e.comp, e.sep.map r.emit⟩ hsimple hdisk hs hdd, hdd, walkComp_dotdot]
  · exact walkStack_cons d (.inr (isTrivial_false he).1)

/-- **One step takes the walk one component further.** -/
theorem pathStep_walk (hsimple : r.simple = false) (hdisk : r.disk = false) {seen : List Entry}
    {s : PathSt} {e : Entry} (hseen : s.first = true ↔ seen = [])
    (hfirst : s.first = true → s.stack = []) (hs : Sealed slashes s.stack)
    (h : ∀ d, walkStack d s.stack = walkComps d (seen.map Entry.comp)) (d : List Comp) :
    walkStack d (pathStep r s e).stack = walkComps d ((seen ++ [e]).map Entry.comp) := by
  rw [List.map_append, List.map_singleton]
  have hnodisk : r.disk = true → r.simple = true → s.fresh = true →
      e.comp.getLast? ≠ some COLON := by
    intro _ hs'
    rw [hsimple] at hs'
    cases hs'
  cases hf : s.first with
  | true =>
    -- the first component is always pushed
    rw [pathStep_push (fun _ => ⟨hf, hsimple⟩) hnodisk, hseen.mp hf, hfirst hf]
    unfold pushComp
    simp only [dotdotMove, hsimple, Bool.false_eq_true, if_false]
    split
    · rfl
    · rfl
  | false =>
    have hne : seen.map Entry.comp ≠ [] := by
      simp only [ne_eq, List.map_eq_nil_iff]
      intro hnil
      rw [hseen.mpr hnil] at hf
      cases hf
    rw [walkComps_concat d (.inl hne), ← h d]
    cases ht : isTrivial e.comp with
    | true => rw [pathStep_trivial ht (.inr hf), walkComp_trivial _ ht]
    | false => rw [pathStep_push (by simp [ht]) hnodisk, pushComp_walk d hsimple hdisk hs ht]

end Step

/-! ## The flags -/

/-- **The normalised path means the same.**  For every path split by `'/'` without
    `FFPATH_SIMPLE`, disk-letter mode and `FFPATH_FORCE_BACKSLASH`, and for every directory: both
    paths lead from it to the same directory. -/
theorem ffpathNormalize_walk (ffWin : Bool) (cap : Nat) (src : List Byte) (flags : BitVec 32)
    (hsplit : slashesOf ffWin flags = [SLASH]) (hsimple : hasFlag flags FFPATH_SIMPLE = false)
    (hdisk : hasFlag (effFlags ffWin flags) FFPATH_DISK_LETTER = false)
    (hback : hasFlag flags FFPATH_FORCE_BACKSLASH = false) (hcap : src.length ≤ cap) :
    ∃ out, ffpathNormalize ffWin cap src flags = some out ∧ ∀ d, walk d out = walk d src := by
  have hsimple' : (rulesOf (effFlags ffWin flags)).simple = false := by
    rw [rulesOf, hasFlag_effFlags ffWin flags _ (by decide)]
    exact hsimple
  have hback' : hasFlag (effFlags ffWin flags) FFPATH_FORCE_BACKSLASH = false := by
    rw [hasFlag_effFlags ffWin flags _ (by decide)]
    exact hback
  have hemit : ∀ b ∈ [SLASH], emitSep (effFlags ffWin flags) b ∈ [SLASH] := by
    intro b hb
    rw [List.mem_singleton] at hb ⊢
    unfold emitSep
    rw [hback', hb]
    simp
  have hloop := @ffpathNormalize_eq_loop ffWin src flags (by simp [hdisk]) cap
  rw [hsplit] at hloop
  obtain ⟨out, hout, -, hstack⟩ :=
    @normalizeLoop_start ⟨cap, effFlags ffWin flags, [SLASH]⟩ src hcap hemit
  rw [← hloop] at hout
  refine ⟨out, hout, fun d => ?_⟩
  rw [hstack, walk_renderStack d (pathStack_framed hemit src), walk_eq]
  have hrun := pathStack_rule (r := rulesOf (effFlags ffWin flags))
    (I := fun seen s => ∀ d, walkStack d s.stack = walkComps d (seen.map Entry.comp))
    hemit (fun d => rfl) (fun seen s e hseen hfirst hs _ h => pathStep_walk hsimple' hdisk hseen hfirst hs h)
    src
  exact hrun d

/-- `"../a/./b//../c/"` from `/x/y` leads to `/x/a/c`. -/
theorem ffpathNormalize_walk_parent :
    ∃ out, ffpathNormalize false 16 "../a/./b//../c/".toUTF8.data.toList 0 = some out ∧
      walk [[0x78], [0x79]] out = [[0x78], [0x61], [0x63]] := by
  obtain ⟨out, hout, hwalk⟩ := ffpathNormalize_walk false 16 "../a/./b//../c/".toUTF8.data.toList 0
    (by decide) (by decide) (by decide) (by decide) (by decide +kernel)
  exact ⟨out, hout, by rw [hwalk]; decide +kernel⟩

end FFSys.Path
