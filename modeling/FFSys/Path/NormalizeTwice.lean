import FFSys.Path.NormalizeStack

/-!
# Normalising twice

A normalised path is not changed by a second normalisation with the same flags.

* `Canonical` — the stacks that a run leaves behind; `foldl_reverse_canonical` — a run over the
  entries of such a stack builds it again.
* `normalizePart_shape` — whatever the flags, a component leaves a front part of the output, and
  is written behind it or not.
* `Unsplit` — with `FFPATH_FORCE_BACKSLASH` and `'/'` as the only separator there is no separator
  left in the output, and the second run sees one component.
* `ffpathNormalize_idempotent` — the result.
-/

set_option autoImplicit false

namespace FFSys.Path

/-! ## Stacks that are built again -/

/-- The separators are those that are written, a `".."` is at the bottom or on another one, and a
    simple path has names only. -/
def Canonical (r : StackRules) : List Entry → Prop
  | [] => True
  | t :: below =>
    t.sep.map r.emit = t.sep ∧
    (r.simple = true → isTrivial t.comp = false ∧ t.comp ≠ dotdotComp) ∧
    (t.comp = dotdotComp → ∀ u ∈ below.head?, u.comp = dotdotComp) ∧ Canonical r below

section Canonical

variable {r : StackRules} {slashes : List Byte}

theorem Canonical.tail {st : List Entry} (h : Canonical r st) : Canonical r st.tail := by
  cases st with
  | nil => trivial
  | cons t below => exact h.2.2.2

/-- A `".."` is dropped, takes the top away, or is written where it is kept. -/
theorem canonical_dotdot {st : List Entry} {e : Entry}
    (hsep : e.sep.map r.emit = e.sep) (hs : Sealed slashes st) (h : Canonical r st) :
    Canonical r ((dotdotMove r st).applyTo e st) := by
  cases st with
  | nil =>
    rw [dotdotMove]
    split
    · trivial
    · rename_i hsimple
      exact ⟨hsep, fun hs => absurd hs hsimple, by simp, trivial⟩
  | cons t below =>
    have hproper := h.2.1
    have hbelow := h.2.2.2
    rw [dotdotMove]
    split
    · -- only the bottom is "."
      rename_i hdot
      have hnil : below = [] := by
        by_contra hne
        exact (isTrivial_false (hs.2.2.1 hne)).2 hdot
      subst hnil
      refine ⟨hsep, ?_, by simp, trivial⟩
      intro hsimple
      exact absurd hdot (isTrivial_false (hproper hsimple).1).2
    · split
      · rename_i hdd
        refine ⟨hsep, fun hsimple => absurd hdd (hproper hsimple).2, ?_, h⟩
        intro _ u hu
        cases hu
        exact hdd
      · split
        · exact h
        · split
          · exact h
          · exact hbelow

theorem pathStep_canonical (hidem : ∀ b, r.emit (r.emit b) = r.emit b) {s : PathSt} {e : Entry}
    (hs : Sealed slashes s.stack) (h : Canonical r s.stack) :
    Canonical r (pathStep r s e).stack := by
  unfold pathStep
  simp only
  split
  · exact h
  · rename_i htriv
    split
    · exact h
    · have hsep : (e.sep.map r.emit).map r.emit = e.sep.map r.emit := by
        cases e.sep with
        | none => rfl
        | some b => simp [hidem]
      unfold pushComp
      simp only
      split
      · exact canonical_dotdot hsep hs h
      · rename_i hdd
        refine ⟨hsep, ?_, fun h0 => absurd h0 hdd, h⟩
        intro hsimple
        refine ⟨?_, hdd⟩
        cases ht : isTrivial e.comp with
        | false => rfl
        | true => exact absurd ⟨ht, fun hboth => hboth.2 hsimple⟩ htriv

theorem pathStack_canonical (hf : ∀ b ∈ slashes, r.emit b ∈ slashes)
    (hidem : ∀ b, r.emit (r.emit b) = r.emit b) (src : List Byte) :
    Canonical r (pathStack r slashes src) :=
  pathStack_rule (I := fun _ s => Canonical r s.stack) hf trivial
    (fun _ _ _ _ _ hs _ h => pathStep_canonical hidem hs h) src

/-- One entry of a canonical stack is put back on the rest. -/
theorem pathStep_again (hdisk : ¬ (r.simple = true ∧ r.disk = true)) {s : PathSt} {t : Entry}
    (htriv : isTrivial t.comp = true → s.first = true) (h : Canonical r (t :: s.stack)) :
    (pathStep r s t).stack = t :: s.stack := by
  obtain ⟨hsep, hproper, hdd, -⟩ := h
  have ht : (⟨t.comp, t.sep.map r.emit⟩ : Entry) = t := by rw [hsep]
  have hsimple : isTrivial t.comp = true → r.simple = false := by
    intro ht0
    cases hs : r.simple with
    | false => rfl
    | true => rw [(hproper hs).1] at ht0; cases ht0
  rw [pathStep_push (fun ht0 => ⟨htriv ht0, hsimple ht0⟩)
    (fun hd hs _ => absurd ⟨hs, hd⟩ hdisk)]
  simp only [pushComp, ht]
  split
  · rename_i hcomp
    have hmove : dotdotMove r s.stack = .push := by
      cases hstack : s.stack with
      | nil =>
        have hs : r.simple = false := by
          cases hs : r.simple with
          | false => rfl
          | true => exact absurd hcomp (hproper hs).2
        simp [dotdotMove, hs]
      | cons u below =>
        have hu : u.comp = dotdotComp := hdd hcomp u (by rw [hstack]; rfl)
        have hne : dotdotComp ≠ dotComp := by decide
        simp [dotdotMove, hu, hne]
    rw [hmove]
    rfl
  · rfl

/-- **A run over the entries of a canonical stack builds it again.** -/
theorem foldl_reverse_canonical (hdisk : ¬ (r.simple = true ∧ r.disk = true)) :
    ∀ (st : List Entry), Framed slashes st → Canonical r st →
      (st.reverse.foldl (pathStep r) ⟨true, true, []⟩).stack = st
  | [], _, _ => rfl
  | t :: below, hframed, h => by
    have ih := foldl_reverse_canonical hdisk below hframed.2.2.framed h.2.2.2
    have hlast := hframed.2.1
    rw [List.reverse_cons, List.foldl_append, List.foldl_cons, List.foldl_nil]
    have hfirst : isTrivial t.comp = true →
        (below.reverse.foldl (pathStep r) ⟨true, true, []⟩).first = true := by
      intro ht
      have hnil : below = [] := by
        by_contra hne
        rw [hlast hne] at ht
        cases ht
      rw [hnil]
      rfl
    rw [← ih] at h
    rw [pathStep_again hdisk hfirst h, ih]

end Canonical

theorem emitSep_idem (flags : BitVec 32) (b : Byte) :
    emitSep flags (emitSep flags b) = emitSep flags b := by
  unfold emitSep
  split
  · rfl
  · split <;> rfl

/-- The second run over the path of a stack. -/
theorem normalizeLoop_twice {c : NormalizeCfg} {src out : List Byte} (hcap : out.length ≤ c.cap)
    (hemit : ∀ b ∈ c.slashes, emitSep c.flags b ∈ c.slashes)
    (hdisk : ¬ (hasFlag c.flags FFPATH_SIMPLE = true ∧ hasFlag c.flags FFPATH_DISK_LETTER = true))
    (hout : out = renderStack (pathStack (rulesOf c.flags) c.slashes src)) :
    normalizeLoop c out.length (normalizeStart c.flags out) = some out := by
  obtain ⟨out', hrun, -, hout'⟩ := normalizeLoop_start hcap hemit
  have hframed := @pathStack_framed c.slashes (rulesOf c.flags) hemit src
  have hcanon := @pathStack_canonical (rulesOf c.flags) c.slashes hemit (emitSep_idem c.flags) src
  have hpieces : pieces c.slashes out = (pathStack (rulesOf c.flags) c.slashes src).reverse := by
    rw [hout]
    exact pieces_renderStack hframed
  have hstack : pathStack (rulesOf c.flags) c.slashes out =
      pathStack (rulesOf c.flags) c.slashes src := by
    rw [pathStack, hpieces]
    exact foldl_reverse_canonical hdisk _ hframed hcanon
  rw [hrun, hout', hstack, ← hout]

/-! ## An output without separators -/

/-- The separators that are written are not those that the path is split by. -/
def Unsplittable (c : NormalizeCfg) : Prop :=
  c.slashes = [SLASH] ∧ ∀ b, emitSep c.flags b = BACKSLASH

/-- No separator is in the output. -/
structure Unsplit (c : NormalizeCfg) (len : Nat) (st : NormalizeSt) : Prop where
  room : st.dst.length + st.s.length ≤ len
  clean : ∀ b ∈ st.dst, c.slashes.contains b = false

/-- `"."` or `".."` -/
def Dots (d : List Byte) : Prop := d = dotComp ∨ d = dotdotComp

/-- The output of a simple path: it is not `"."` or `".."`, with or without a separator. -/
structure Undotted (st : NormalizeSt) : Prop where
  simplify_eq : st.simplify = true
  skip_eq : st.skipDisk = false
  not_dots : ¬ Dots st.dst
  ended : st.s ≠ [] → st.dst = [] ∨ ∃ d, st.dst = d ++ [BACKSLASH] ∧ ¬ Dots d

theorem dots_no_backslash {d : List Byte} (h : Dots d) : BACKSLASH ∉ d := by
  rcases h with rfl | rfl <;> decide

section Unsplit

variable {c : NormalizeCfg} {len : Nat}

theorem split_entry_bytes_le {s : List Byte} (hne : s ≠ []) :
    (splitEntry s c.slashes).comp.length + (if (splitEntry s c.slashes).sep.isSome then 1 else 0) +
      (splitRest s c.slashes).length = s.length := by
  obtain ⟨hs, -, -⟩ := split_spec c.slashes s hne
  have hlen := congrArg List.length hs
  rw [List.length_append, Entry.bytes, List.length_append] at hlen
  cases hsep : (splitEntry s c.slashes).sep with
  | none =>
    rw [hsep] at hlen
    simpa using hlen.symm
  | some b =>
    rw [hsep] at hlen
    simpa using hlen.symm

/-- One component. -/
theorem normalizePart_unsplit (hu : Unsplittable c) {st : NormalizeSt} (h : Unsplit c len st)
    (hne : st.s ≠ []) (hcap : len ≤ c.cap) (b1 b2 : Bool) :
    ∃ st', normalizePart c ⟨splitRest st.s c.slashes, st.dst, b1, b2⟩
        (splitEntry st.s c.slashes).comp (splitEntry st.s c.slashes).sep = some st' ∧
      st'.s = splitRest st.s c.slashes ∧ Unsplit c len st' := by
  have hlen := split_entry_bytes_le (c := c) hne
  have hroom := h.room
  obtain ⟨-, hclean, -⟩ := split_spec c.slashes st.s hne
  generalize splitEntry st.s c.slashes = e at *
  obtain ⟨d, hd, hpart⟩ := normalizePart_front c ⟨splitRest st.s c.slashes, st.dst, b1, b2⟩ e.comp
    e.sep (by simp only; omega)
  have hdlen : d.length ≤ st.dst.length := hd.length_le
  have hdclean : ∀ b ∈ d, c.slashes.contains b = false := fun b hb => h.clean b (hd.subset hb)
  rcases hpart with hpart | hpart
  · exact ⟨_, hpart, rfl, by simp only; omega, hdclean⟩
  · refine ⟨_, hpart, rfl, ?_, ?_⟩
    · have hsep : (e.sep.map (emitSep c.flags)).toList.length =
          if e.sep.isSome then 1 else 0 := by cases e.sep <;> rfl
      simp only [List.length_append, hsep]
      omega
    · intro b hb
      simp only [List.mem_append, Option.mem_toList] at hb
      rcases hb with (hb | hb) | hb
      · exact hdclean b hb
      · exact hclean.comp_clean b hb
      · obtain ⟨b', -, rfl⟩ := Option.map_eq_some_iff.mp hb
        rw [hu.1, hu.2]
        decide

/-- **One iteration**, whatever the flags for the disk and for simple paths. -/
theorem normalizeStep_unsplit (hu : Unsplittable c) (hcap : len ≤ c.cap) {st : NormalizeSt}
    (h : Unsplit c len st) (hne : st.s ≠ []) :
    ∃ st', normalizeStep c st = some st' ∧ st'.s = splitRest st.s c.slashes ∧
      Unsplit c len st' := by
  have hpart := normalizePart_unsplit hu h hne hcap
  have hlt := @splitRest_length_lt st.s c.slashes hne
  have hroom := h.room
  have hdrop : ∀ b1 b2, Unsplit c len ⟨splitRest st.s c.slashes, st.dst, b1, b2⟩ :=
    fun b1 b2 => ⟨by simp only; omega, h.clean⟩
  rw [normalizeStep_eq]
  simp only
  split
  · split
    · exact ⟨_, rfl, rfl, hdrop _ _⟩
    · split
      · split
        · exact ⟨_, rfl, rfl, hdrop _ _⟩
        · exact hpart _ _
      · exact hpart _ _
  · exact hpart _ _

/-- At a `".."` there is no separator in the output, and all of it is kept or dropped. -/
theorem normalizeParent_unsplit (hsimple : hasFlag c.flags FFPATH_SIMPLE = true) {dst : List Byte}
    (hclean : ∀ b ∈ dst, c.slashes.contains b = false)
    (hended : dst = [] ∨ ∃ d, dst = d ++ [BACKSLASH] ∧ ¬ Dots d) :
    normalizeParent c dst = .skip dst ∨ normalizeParent c dst = .skip [] := by
  unfold normalizeParent
  rcases hended with rfl | ⟨d, rfl, hd⟩
  · simp [hsimple]
  · have hdclean : ∀ b ∈ d, c.slashes.contains b = false :=
      fun b hb => hclean b (List.mem_append_left _ hb)
    have hdot : d ≠ dotComp := fun h0 => hd (Or.inl h0)
    have hdotdot : d ≠ dotdotComp := fun h0 => hd (Or.inr h0)
    rw [if_pos (by simp), take_init, ffsRfindany_none hdclean]
    simp only [hdot, hdotdot, if_false]
    split
    · exact Or.inl rfl
    · split
      · exact Or.inl rfl
      · exact Or.inr rfl

/-- One component of a simple path. -/
theorem normalizePart_undotted (hu : Unsplittable c) (hsimple : hasFlag c.flags FFPATH_SIMPLE = true)
    {st st' : NormalizeSt} (h : Unsplit c len st) (hnd : Undotted st) (hne : st.s ≠ [])
    (ht : isTrivial (splitEntry st.s c.slashes).comp = false)
    (hst : normalizePart c ⟨splitRest st.s c.slashes, st.dst, true, false⟩
      (splitEntry st.s c.slashes).comp (splitEntry st.s c.slashes).sep = some st') :
    Undotted st' := by
  have hended := hnd.ended hne
  obtain ⟨-, -, hlast⟩ := split_spec c.slashes st.s hne
  generalize splitEntry st.s c.slashes = e at *
  generalize splitRest st.s c.slashes = rest at *
  unfold normalizePart at hst
  split at hst
  · -- all of the output is kept or dropped
    rcases normalizeParent_unsplit hsimple h.clean hended with hp | hp
    · simp only [hp] at hst
      cases hst
      exact ⟨rfl, rfl, hnd.not_dots, fun _ => hended⟩
    · simp only [hp] at hst
      cases hst
      exact ⟨rfl, rfl, by simp [Dots, dotComp, dotdotComp], fun _ => Or.inl rfl⟩
  · rename_i hdd
    unfold normalizeEmit at hst
    simp only at hst
    by_cases hroom : st.dst.length + e.comp.length + (if e.sep.isSome then 1 else 0) > c.cap
    · rw [if_pos hroom] at hst
      cases hst
    · rw [if_neg hroom] at hst
      cases hst
      have hcomp : ¬ Dots (st.dst ++ e.comp) := by
        rcases hended with hnil | ⟨d, hd, -⟩
        · rw [hnil, List.nil_append]
          rintro (h0 | h0)
          · exact (isTrivial_false ht).2 h0
          · exact hdd h0
        · intro h0
          exact dots_no_backslash h0 (by rw [hd]; simp)
      cases hsep : e.sep with
      | none =>
        refine ⟨rfl, rfl, by simpa [hsep] using hcomp, ?_⟩
        intro hrest
        exact absurd hsep (hlast hrest)
      | some b =>
        have hdst : st.dst ++ e.comp ++ (Option.map (emitSep c.flags) (some b)).toList =
            st.dst ++ e.comp ++ [BACKSLASH] := by
          rw [Option.map_some, hu.2]
          rfl
        refine ⟨rfl, rfl, ?_, fun _ => Or.inr ⟨_, hdst, hcomp⟩⟩
        simp only [hdst]
        exact fun h0 => dots_no_backslash h0 (by simp)

/-- **One iteration of a simple path.** -/
theorem normalizeStep_undotted (hu : Unsplittable c) (hsimple : hasFlag c.flags FFPATH_SIMPLE = true)
    {st st' : NormalizeSt} (h : Unsplit c len st) (hnd : Undotted st) (hne : st.s ≠ [])
    (hst : normalizeStep c st = some st') : Undotted st' := by
  rw [normalizeStep_eq] at hst
  simp only [hnd.simplify_eq, hnd.skip_eq, if_true, Bool.false_eq_true, if_false] at hst
  split at hst
  · cases hst
    exact ⟨rfl, rfl, hnd.not_dots, fun _ => hnd.ended hne⟩
  · rename_i ht
    have ht : isTrivial (splitEntry st.s c.slashes).comp = false := by simpa [isTrivial] using ht
    exact normalizePart_undotted hu hsimple h hnd hne ht hst

/-- A path without separators is one component. -/
theorem split_none {s slashes : List Byte} (h : ∀ b ∈ s, slashes.contains b = false) :
    splitEntry s slashes = ⟨s, none⟩ ∧ splitRest s slashes = [] := by
  have hidx : s.findIdx? (slashes.contains ·) = none := by
    rw [List.findIdx?_eq_none_iff]
    exact h
  constructor
  · simp only [splitEntry, ffstrSplitbyany, hidx]
    rfl
  · simp only [splitRest, ffstrSplitbyany, hidx]

/-- The run over one component. -/
theorem normalizeLoop_single {out : List Byte} (hclean : ∀ b ∈ out, c.slashes.contains b = false)
    (hcap : out.length ≤ c.cap)
    (hdisk : ¬ (hasFlag c.flags FFPATH_SIMPLE = true ∧ hasFlag c.flags FFPATH_DISK_LETTER = true))
    (hdots : hasFlag c.flags FFPATH_SIMPLE = true → ¬ Dots out) :
    normalizeLoop c out.length (normalizeStart c.flags out) = some out := by
  by_cases hnil : out = []
  · subst hnil
    exact normalizeLoop_done rfl _
  · obtain ⟨n, hn⟩ : ∃ n, out.length = n + 1 :=
      Nat.exists_eq_succ_of_ne_zero (fun h0 => hnil (List.eq_nil_of_length_eq_zero h0))
    obtain ⟨hentry, hrest⟩ := split_none hclean
    obtain ⟨st', hst, hs, hsim⟩ := normalizeStep_loopSim (normalizeStart_loopSim c out) hnil hcap
      (fun _ => normalizeParent_nil c)
    have hstart : (normalizeStart c.flags out).s = out := rfl
    rw [hstart, hentry] at hsim
    rw [hstart, hrest] at hs
    have hcanon : Canonical (rulesOf c.flags) [⟨out, none⟩] := by
      refine ⟨rfl, ?_, by simp, trivial⟩
      intro hsimple
      have hd := hdots hsimple
      exact ⟨by simpa [isTrivial, hnil] using fun h0 => hd (Or.inl h0), fun h0 => hd (Or.inr h0)⟩
    have hstack : (pathStep (rulesOf c.flags) ⟨true, true, []⟩ ⟨out, none⟩).stack =
        [⟨out, none⟩] := pathStep_again hdisk (fun _ => rfl) hcanon
    rw [hn, normalizeLoop, hstart, if_neg hnil, hst]
    simp only
    rw [normalizeLoop_done hs, hsim.dst_eq, hstack]
    simp [Entry.bytes]

/-- The first run leaves an output without separators, which a second run does not change. -/
theorem normalizeLoop_unsplit (hu : Unsplittable c) {src : List Byte} (hcap : src.length ≤ c.cap)
    (hdisk : ¬ (hasFlag c.flags FFPATH_SIMPLE = true ∧ hasFlag c.flags FFPATH_DISK_LETTER = true)) :
    ∃ out, normalizeLoop c src.length (normalizeStart c.flags src) = some out ∧
      out.length ≤ src.length ∧
      normalizeLoop c out.length (normalizeStart c.flags out) = some out := by
  let I : NormalizeSt → Prop := fun st => Unsplit c src.length st ∧
    (hasFlag c.flags FFPATH_SIMPLE = true → Undotted st)
  have hstep : ∀ st, I st → st.s ≠ [] →
      ∃ st', normalizeStep c st = some st' ∧ st'.s = splitRest st.s c.slashes ∧ I st' := by
    rintro st ⟨h, hnd⟩ hne
    obtain ⟨st', hst, hs, h'⟩ := normalizeStep_unsplit hu hcap h hne
    exact ⟨st', hst, hs, h',
      fun hsimple => normalizeStep_undotted hu hsimple h (hnd hsimple) hne hst⟩
  have hstart : I (normalizeStart c.flags src) := by
    refine ⟨⟨by simp [normalizeStart], by simp [normalizeStart]⟩, ?_⟩
    intro hsimple
    have hd : hasFlag c.flags FFPATH_DISK_LETTER = false := by simpa [hsimple] using hdisk
    exact ⟨hsimple, by simp [normalizeStart, hd], by simp [normalizeStart, Dots, dotComp, dotdotComp],
      fun _ => Or.inl rfl⟩
  obtain ⟨st', hrun, hnil, h, hnd⟩ := normalizeLoop_rule hstep src.length _ hstart (Nat.le_refl _)
  have hroom := h.room
  have hlen : st'.dst.length ≤ src.length := by omega
  exact ⟨st'.dst, hrun, hlen, normalizeLoop_single h.clean (Nat.le_trans hlen hcap) hdisk
    (fun hsimple => (hnd hsimple).not_dots)⟩

end Unsplit

/-! ## The whole function -/

/-- Only `FFPATH_FORCE_BACKSLASH` writes a separator that the path is not split by. -/
theorem unsplittable_of_emit {ffWin : Bool} {flags eff : BitVec 32} (cap : Nat)
    (h : ¬ ∀ b ∈ slashesOf ffWin flags, emitSep eff b ∈ slashesOf ffWin flags) :
    Unsplittable ⟨cap, eff, slashesOf ffWin flags⟩ := by
  have hboth : ∀ b ∈ [SLASH, BACKSLASH], emitSep eff b ∈ [SLASH, BACKSLASH] := by
    intro b hb
    unfold emitSep
    split
    · simp
    · split
      · simp
      · exact hb
  have hslashes : slashesOf ffWin flags = [SLASH] := by
    unfold slashesOf at h ⊢
    split
    · rename_i h0
      rw [if_pos h0] at h
      exact absurd hboth h
    · rename_i h0
      rw [if_neg h0] at h
      split
      · rename_i h1
        rw [if_pos h1] at h
        exact absurd hboth h
      · rfl
  refine ⟨hslashes, ?_⟩
  rw [hslashes] at h
  unfold emitSep at h
  intro b
  unfold emitSep
  split
  · rename_i h0
    simp [h0] at h
  · split
    · rfl
    · rename_i h0 h1
      simp [h0, h1] at h

theorem ffpathNormalize_pass {ffWin : Bool} {src : List Byte} {flags : BitVec 32} {cap : Nat}
    (hpass : hasFlag (effFlags ffWin flags) FFPATH_DISK_LETTER = true ∧ isPassThrough src = true)
    (hcap : src.length ≤ cap) : ffpathNormalize ffWin cap src flags = some src := by
  unfold ffpathNormalize
  simp only
  rw [if_pos (by simpa using hpass), if_neg (by omega)]

/-- **A normalised path stays as it is.**  For every source, build and flags that do not both ask
    for a simple path and treat disk letters. -/
theorem ffpathNormalize_idempotent (ffWin : Bool) (cap : Nat) (src : List Byte) (flags : BitVec 32)
    (hflags : ¬ (hasFlag (effFlags ffWin flags) FFPATH_SIMPLE = true ∧
      hasFlag (effFlags ffWin flags) FFPATH_DISK_LETTER = true))
    (hcap : src.length ≤ cap) :
    ∃ out, ffpathNormalize ffWin cap src flags = some out ∧
      ffpathNormalize ffWin cap out flags = some out := by
  by_cases hpass : hasFlag (effFlags ffWin flags) FFPATH_DISK_LETTER = true ∧
      isPassThrough src = true
  · have hcopy := ffpathNormalize_pass hpass hcap
    exact ⟨src, hcopy, hcopy⟩
  · -- the second run copies its source or runs the loop over it
    have hsecond : ∀ out, out.length ≤ cap →
        normalizeLoop ⟨cap, effFlags ffWin flags, slashesOf ffWin flags⟩ out.length
          (normalizeStart (effFlags ffWin flags) out) = some out →
        ffpathNormalize ffWin cap out flags = some out := by
      intro out hlen hrun
      by_cases hpass' : hasFlag (effFlags ffWin flags) FFPATH_DISK_LETTER = true ∧
          isPassThrough out = true
      · exact ffpathNormalize_pass hpass' hlen
      · rw [ffpathNormalize_eq_loop hpass']
        exact hrun
    rw [ffpathNormalize_eq_loop hpass]
    by_cases hemit : ∀ b ∈ slashesOf ffWin flags,
        emitSep (effFlags ffWin flags) b ∈ slashesOf ffWin flags
    · obtain ⟨out, hrun, hlen, hout⟩ := @normalizeLoop_start
        ⟨cap, effFlags ffWin flags, slashesOf ffWin flags⟩ src hcap hemit
      have hcap' : out.length ≤ cap := Nat.le_trans hlen hcap
      exact ⟨out, hrun, hsecond out hcap' (normalizeLoop_twice hcap' hemit hflags hout)⟩
    · obtain ⟨out, hrun, hlen, hagain⟩ := normalizeLoop_unsplit
        (unsplittable_of_emit cap hemit) hcap hflags
      exact ⟨out, hrun, hsecond out (Nat.le_trans hlen hcap) hagain⟩

/-- `"./../../a/./b/../c/"` gives `"../../a/c/"`. -/
theorem ffpathNormalize_idempotent_dots :
    ffpathNormalize false 20 "./../../a/./b/../c/".toUTF8.data.toList 0 =
        some "../../a/c/".toUTF8.data.toList ∧
      ffpathNormalize false 20 "../../a/c/".toUTF8.data.toList 0 =
        some "../../a/c/".toUTF8.data.toList := by
  have hval : ffpathNormalize false 20 "./../../a/./b/../c/".toUTF8.data.toList 0 =
      some "../../a/c/".toUTF8.data.toList := by decide +kernel
  obtain ⟨out, hout, hagain⟩ := ffpathNormalize_idempotent false 20
    "./../../a/./b/../c/".toUTF8.data.toList 0 (by decide) (by decide +kernel)
  rw [hval, Option.some.injEq] at hout
  rw [← hout] at hagain
  exact ⟨hval, hagain⟩

end FFSys.Path
