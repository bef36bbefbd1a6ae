import FFSys.Path.NormalizeStack

/-!
# Forced separators

With `FFPATH_FORCE_SLASH` or `FFPATH_FORCE_BACKSLASH` the loop writes one separator for all.  It
also searches for separators in what it wrote, so that a separator that the path is not split by
hides all components but the first.

* `forceEntry`, `forceSt` — the stack with forced separators; `pathStep_force` — it makes the same
  moves.
* `ForceCommutes` — the forced result is the plain one with its separators replaced.
* `Shallow` — no `".."` comes while two or more components are kept; `forceSim_step` — up to such a
  `".."` the forced run is in step with the plain one, `forceSim_deep` — there it is not.
* `ffpathNormalize_force_iff` — when the separators can be forced.
-/

set_option autoImplicit false

namespace FFSys.Path

/-- The entry with the separator `x`. -/
def forceEntry (x : Byte) (e : Entry) : Entry := ⟨e.comp, e.sep.map fun _ => x⟩

def forceSt (x : Byte) (s : PathSt) : PathSt := { s with stack := s.stack.map (forceEntry x) }

def StackRules.force (r : StackRules) (x : Byte) : StackRules := { r with emit := fun _ => x }

/-- The byte of a path with its separators replaced by `x`. -/
def replaceSep (slashes : List Byte) (x b : Byte) : Byte := if slashes.contains b then x else b

/-- The result with the flag `force` is the result without it, where every separator is `x`.  No
    component of the plain result holds a separator. -/
def ForceCommutes (ffWin : Bool) (cap : Nat) (src : List Byte) (flags force : BitVec 32) (x : Byte) :
    Prop :=
  ∃ out, ffpathNormalize ffWin cap src flags = some out ∧
    ffpathNormalize ffWin cap src (flags ||| force) =
      some (out.map (replaceSep (slashesOf ffWin flags) x))

/-- Every `".."` comes while at most one component is kept. -/
def Shallow (r : StackRules) : PathSt → List Entry → Prop
  | _, [] => True
  | s, e :: es => (e.comp = dotdotComp → s.stack.length ≤ 1) ∧ Shallow r (pathStep r s e) es

instance Shallow.decidable (r : StackRules) : ∀ (s : PathSt) (es : List Entry),
    Decidable (Shallow r s es)
  | _, [] => isTrue trivial
  | s, e :: es =>
    have := Shallow.decidable r (pathStep r s e) es
    inferInstanceAs (Decidable (_ ∧ _))

/-- The path is split by backslashes, or no `".."` comes while two or more components are kept. -/
def CanForceBackslash (ffWin : Bool) (flags : BitVec 32) (src : List Byte) : Prop :=
  (slashesOf ffWin flags).contains BACKSLASH = true ∨
    Shallow (rulesOf (effFlags ffWin flags)) ⟨true, true, []⟩ (pieces (slashesOf ffWin flags) src)

instance (ffWin : Bool) (flags : BitVec 32) (src : List Byte) :
    Decidable (CanForceBackslash ffWin flags src) := inferInstanceAs (Decidable (_ ∨ _))

/-- The path up to its `n`-th component and the separator after it. -/
def cutAfter (slashes : List Byte) (n : Nat) (src : List Byte) : List Byte :=
  ((pieces slashes src).take n).flatMap Entry.bytes

/-! ## The stack with forced separators -/

section Force

variable {r : StackRules} {x : Byte}

theorem dotdotMove_force (st : List Entry) :
    dotdotMove (r.force x) (st.map (forceEntry x)) = dotdotMove r st := by
  cases st with
  | nil => rfl
  | cons t below =>
    cases below with
    | nil => rfl
    | cons u below => rfl

theorem applyTo_force (m : Move) (e : Entry) (st : List Entry) :
    m.applyTo (forceEntry x e) (st.map (forceEntry x)) =
      (m.applyTo e st).map (forceEntry x) := by
  cases m with
  | keep => rfl
  | push => rfl
  | pop => rw [Move.applyTo, Move.applyTo, List.map_tail]
  | replace => rw [Move.applyTo, Move.applyTo, List.map_cons, List.map_tail]

theorem pushComp_force (st : List Entry) (e : Entry) :
    pushComp (r.force x) (st.map (forceEntry x)) e = (pushComp r st e).map (forceEntry x) := by
  have he : (⟨e.comp, e.sep.map (r.force x).emit⟩ : Entry) =
      forceEntry x ⟨e.comp, e.sep.map r.emit⟩ := by
    simp [forceEntry, StackRules.force, Option.map_map, Function.comp_def]
  unfold pushComp
  simp only [he]
  split
  · rw [dotdotMove_force, applyTo_force]
  · rfl

/-- **The moves do not depend on the separators.** -/
theorem pathStep_force (s : PathSt) (e : Entry) :
    pathStep (r.force x) (forceSt x s) e = forceSt x (pathStep r s e) := by
  show (⟨false, s.fresh && isTrivial e.comp,
    if isTrivial e.comp ∧ ¬ (s.first ∧ ¬ r.simple) then s.stack.map (forceEntry x)
    else if r.simple ∧ r.disk ∧ s.fresh ∧ endsWithColon e.comp then s.stack.map (forceEntry x)
    else pushComp (r.force x) (s.stack.map (forceEntry x)) e⟩ : PathSt) = _
  rw [pushComp_force, ← apply_ite (List.map (forceEntry x)), ← apply_ite (List.map (forceEntry x))]
  rfl

theorem foldl_force : ∀ (es : List Entry) (s : PathSt),
    es.foldl (pathStep (r.force x)) (forceSt x s) = forceSt x (es.foldl (pathStep r) s)
  | [], _ => rfl
  | e :: es, s => by
    rw [List.foldl_cons, List.foldl_cons, pathStep_force]
    exact foldl_force es _

theorem pathStack_force (slashes src : List Byte) :
    pathStack (r.force x) slashes src = (pathStack r slashes src).map (forceEntry x) :=
  congrArg PathSt.stack (@foldl_force r x (pieces slashes src) ⟨true, true, []⟩)

end Force

theorem renderStack_force_length (x : Byte) (st : List Entry) :
    (renderStack (st.map (forceEntry x))).length = (renderStack st).length := by
  induction st with
  | nil => rfl
  | cons e st ih =>
    rw [List.map_cons, renderStack_cons, renderStack_cons, List.length_append, List.length_append,
      ih]
    exact congrArg _ (bytes_map_length e _)

/-- The path of the forced stack is the path with its separators replaced. -/
theorem renderStack_force {slashes : List Byte} (x : Byte) {st : List Entry}
    (h : ∀ e ∈ st, Clean slashes e) :
    renderStack (st.map (forceEntry x)) = (renderStack st).map (replaceSep slashes x) := by
  induction st with
  | nil => rfl
  | cons e st ih =>
    have he := h e List.mem_cons_self
    have hcomp : e.comp.map (replaceSep slashes x) = e.comp := by
      have hfix : ∀ b ∈ e.comp, replaceSep slashes x b = id b := by
        intro b hb
        rw [replaceSep, he.comp_clean b hb]
        rfl
      rw [List.map_congr_left hfix, List.map_id]
    have hsep : e.sep.toList.map (replaceSep slashes x) = (e.sep.map fun _ => x).toList := by
      cases hs : e.sep with
      | none => rfl
      | some b =>
        have hb : replaceSep slashes x b = x := if_pos (he.sep_mem b hs)
        simp [hb]
    rw [List.map_cons, renderStack_cons, renderStack_cons, List.map_append,
      ih (fun e' he' => h e' (List.mem_cons_of_mem _ he')), Entry.bytes, Entry.bytes,
      List.map_append, hcomp, hsep]
    rfl

theorem mem_renderStack {y : Byte} {st : List Entry} :
    y ∈ renderStack st ↔ ∃ e ∈ st, y ∈ e.bytes := by
  simp [renderStack]

theorem Sealed.clean {slashes : List Byte} : ∀ {st : List Entry}, Sealed slashes st →
    ∀ e ∈ st, Clean slashes e
  | [], _, e, he => by cases he
  | t :: st, h, e, he => by
    rcases List.mem_cons.mp he with rfl | he
    · exact h.1
    · exact Sealed.clean h.2.2.2 e he

theorem Framed.clean {slashes : List Byte} {st : List Entry} (h : Framed slashes st) :
    ∀ e ∈ st, Clean slashes e := by
  cases st with
  | nil => simp
  | cons t st =>
    intro e he
    rcases List.mem_cons.mp he with rfl | he
    · exact h.1
    · exact h.2.2.clean e he

/-! ## The forced run -/

/-- The loop writes `x` and is otherwise in the state `s` of the plain stack machine. -/
structure ForceSim (c : NormalizeCfg) (len : Nat) (x : Byte) (st : NormalizeSt) (s : PathSt) : Prop
    extends LoopSim c len st (forceSt x s) where
  first_empty : s.first = true → s.stack = []
  stack_sealed : st.s ≠ [] → Sealed c.slashes s.stack

section Run

variable {c : NormalizeCfg} {len : Nat} {r : StackRules} {x : Byte}

theorem forceEntry_sep_ne {e : Entry} (h : e.sep ≠ none) : (forceEntry x e).sep ≠ none := by
  simpa [forceEntry] using h

/-- With at most one component in the output there is no separator to be found. -/
theorem parentAgrees_shallow {stack : List Entry} (hs : Sealed c.slashes stack)
    (h : stack.length ≤ 1) : ParentAgrees c (stack.map (forceEntry x)) := by
  cases stack with
  | nil => exact normalizeParent_nil c
  | cons t below =>
    have hnil : below = [] := List.length_eq_zero_iff.mp (by rw [List.length_cons] at h; omega)
    subst hnil
    exact normalizeParent_bottom c (forceEntry x t) hs.1.comp_clean (forceEntry_sep_ne hs.2.1)

theorem exists_two {st : List Entry} (h : 2 ≤ st.length) : ∃ t u below, st = t :: u :: below := by
  obtain ⟨t, st, rfl⟩ := List.exists_cons_of_length_pos (by omega : 0 < st.length)
  rw [List.length_cons] at h
  obtain ⟨u, below, rfl⟩ := List.exists_cons_of_length_pos (by omega : 0 < st.length)
  exact ⟨t, u, below, rfl⟩

/-- **One iteration in step.** -/
theorem forceSim_step (hrules : rulesOf c.flags = r.force x)
    (hf : ∀ b ∈ c.slashes, r.emit b ∈ c.slashes) {st : NormalizeSt} {s : PathSt}
    (h : ForceSim c len x st s) (hne : st.s ≠ []) (hcap : len ≤ c.cap)
    (hshallow : (splitEntry st.s c.slashes).comp = dotdotComp → s.stack.length ≤ 1) :
    ∃ st', normalizeStep c st = some st' ∧ st'.s = splitRest st.s c.slashes ∧
      ForceSim c len x st' (pathStep r s (splitEntry st.s c.slashes)) := by
  have hsealed := h.stack_sealed hne
  obtain ⟨st', hst, hs, hsim⟩ := normalizeStep_loopSim h.toLoopSim hne hcap
    (fun hdd => parentAgrees_shallow hsealed (hshallow hdd))
  rw [hrules, pathStep_force] at hsim
  obtain ⟨-, hclean, hsep⟩ := split_spec c.slashes st.s hne
  refine ⟨st', hst, hs, hsim, nofun, ?_⟩
  intro hrest
  rw [hs] at hrest
  exact (pathStep_framed hf h.first_empty hsealed hclean).2 (hsep hrest)

theorem pieces_eq_nil {slashes s : List Byte} (h : pieces slashes s = []) : s = [] := by
  by_contra hne
  rw [pieces_eq slashes s hne] at h
  cases h

/-- **The run in step**, over the first components. -/
theorem forceSim_run (hrules : rulesOf c.flags = r.force x)
    (hf : ∀ b ∈ c.slashes, r.emit b ∈ c.slashes) (hcap : len ≤ c.cap) (es' : List Entry) :
    ∀ (es : List Entry) (fuel : Nat) (st : NormalizeSt) (s : PathSt), ForceSim c len x st s →
      pieces c.slashes st.s = es ++ es' → Shallow r s es → st.s.length ≤ fuel →
      ∃ fuel' st', normalizeLoop c fuel st = normalizeLoop c fuel' st' ∧
        ForceSim c len x st' (es.foldl (pathStep r) s) ∧ pieces c.slashes st'.s = es' ∧
        st'.s.length ≤ fuel'
  | [], fuel, st, s, h, hpieces, _, hfuel => ⟨fuel, st, rfl, h, hpieces, hfuel⟩
  | e :: es, fuel, st, s, h, hpieces, hshallow, hfuel => by
    have hne : st.s ≠ [] := pieces_ne_nil (by rw [hpieces]; simp)
    have hlt := @splitRest_length_lt st.s c.slashes hne
    rw [pieces_eq c.slashes st.s hne, List.cons_append] at hpieces
    obtain ⟨hentry, hrest⟩ := List.cons.inj hpieces
    obtain ⟨st₁, hst, hs, h₁⟩ := forceSim_step hrules hf h hne hcap
      (fun hdd => hshallow.1 (hentry ▸ hdd))
    rw [hentry] at h₁
    obtain ⟨n, rfl⟩ : ∃ n, fuel = n + 1 := ⟨fuel - 1, by omega⟩
    obtain ⟨fuel', st', hrun, h', hend, hfuel'⟩ := forceSim_run hrules hf hcap es' es n st₁ _ h₁
      (by rw [hs]; exact hrest) hshallow.2 (by rw [hs]; omega)
    refine ⟨fuel', st', ?_, h', hend, hfuel'⟩
    rw [normalizeLoop, if_neg hne, hst]
    exact hrun

theorem forceSim_start (c : NormalizeCfg) (x : Byte) (src : List Byte) :
    ForceSim c src.length x (normalizeStart c.flags src) ⟨true, true, []⟩ :=
  ⟨normalizeStart_loopSim c src, fun _ => rfl, fun _ => trivial⟩

/-- Without a deep `".."` the forced run writes the forced stack. -/
theorem normalizeLoop_shallow (hrules : rulesOf c.flags = r.force x)
    (hf : ∀ b ∈ c.slashes, r.emit b ∈ c.slashes) {src : List Byte} (hcap : src.length ≤ c.cap)
    (hshallow : Shallow r ⟨true, true, []⟩ (pieces c.slashes src)) :
    normalizeLoop c src.length (normalizeStart c.flags src) =
      some (renderStack ((pathStack r c.slashes src).map (forceEntry x))) := by
  obtain ⟨fuel', st', hrun, h', hend, -⟩ := forceSim_run hrules hf hcap [] (pieces c.slashes src)
    src.length _ _ (forceSim_start c x src) (List.append_nil _).symm hshallow (Nat.le_refl _)
  rw [hrun, normalizeLoop_done (pieces_eq_nil hend), h'.dst_eq]
  rfl

/-! ## A deep `".."` -/

/-- With two components in the output all of it is kept or dropped. -/
theorem normalizeParent_deep (hx : c.slashes.contains x = false) (hdot : x ≠ DOT) {t u : Entry}
    {below : List Entry} (hs : Sealed c.slashes (t :: u :: below)) :
    let dst := renderStack ((t :: u :: below).map (forceEntry x))
    normalizeParent c dst = .skip dst ∨ normalizeParent c dst = .skip [] := by
  intro dst
  obtain ⟨b, hsep⟩ := Option.ne_none_iff_exists'.mp hs.2.1
  obtain ⟨b', hsep'⟩ := Option.ne_none_iff_exists'.mp hs.2.2.2.2.1
  have hdst : dst = renderStack (below.map (forceEntry x)) ++ u.comp ++ [x] ++ t.comp ++ [x] := by
    simp [dst, forceEntry, Entry.bytes, hsep, hsep']
  -- no byte of the output is a separator of the source
  have hclean : ∀ y ∈ dst, c.slashes.contains y = false := by
    intro y hy
    obtain ⟨e', he', hye⟩ := mem_renderStack.mp hy
    obtain ⟨e, he, rfl⟩ := List.mem_map.mp he'
    have hcomp := (hs.clean e he).comp_clean
    rw [Entry.bytes, forceEntry, List.mem_append] at hye
    rcases hye with hye | hye
    · exact hcomp y hye
    · cases hb : e.sep with
      | none => simp [hb] at hye
      | some b =>
        have hyx : y = x := by simpa [hb] using hye
        rw [hyx]
        exact hx
  generalize hpre : renderStack (below.map (forceEntry x)) ++ u.comp ++ [x] ++ t.comp = pre at hdst
  have hmem : x ∈ pre := by
    rw [← hpre]
    simp
  have hne1 : pre ≠ dotComp := by
    rintro rfl
    exact hdot (List.mem_singleton.mp hmem)
  have hne2 : pre ≠ dotdotComp := by
    rintro rfl
    simp [dotdotComp] at hmem
    exact hdot hmem
  have hpreclean : ∀ y ∈ pre, c.slashes.contains y = false :=
    fun y hy => hclean y (by rw [hdst]; exact List.mem_append_left _ hy)
  rw [hdst]
  unfold normalizeParent
  rw [if_pos (by simp), take_init, ffsRfindany_none hpreclean]
  simp only [hne1, hne2, if_false]
  split
  · exact Or.inl rfl
  · split
    · exact Or.inl rfl
    · exact Or.inr rfl

/-- **The iteration at a deep `".."`.** -/
theorem forceSim_deep (hx : c.slashes.contains x = false) (hdot : x ≠ DOT) {st : NormalizeSt}
    {s : PathSt} (h : ForceSim c len x st s) (hne : st.s ≠ [])
    (hdd : (splitEntry st.s c.slashes).comp = dotdotComp) (hdeep : 2 ≤ s.stack.length) :
    ∃ st', normalizeStep c st = some st' ∧ st'.s = splitRest st.s c.slashes ∧
      (st'.dst = st.dst ∨ st'.dst = []) := by
  have hsealed := h.stack_sealed hne
  have hdst : st.dst = renderStack (s.stack.map (forceEntry x)) := h.dst_eq
  have hparent : normalizeParent c st.dst = .skip st.dst ∨ normalizeParent c st.dst = .skip [] := by
    obtain ⟨t, u, below, hstack⟩ := exists_two hdeep
    rw [hstack] at hsealed hdst
    rw [hdst]
    exact normalizeParent_deep hx hdot hsealed
  have hpart : ∀ b1 b2, ∃ st', normalizePart c ⟨splitRest st.s c.slashes, st.dst, b1, b2⟩
      (splitEntry st.s c.slashes).comp (splitEntry st.s c.slashes).sep = some st' ∧
      st'.s = splitRest st.s c.slashes ∧ (st'.dst = st.dst ∨ st'.dst = []) := by
    intro b1 b2
    unfold normalizePart
    rw [if_pos hdd]
    rcases hparent with hp | hp
    · simp only [hp]
      exact ⟨_, rfl, rfl, Or.inl rfl⟩
    · simp only [hp]
      exact ⟨_, rfl, rfl, Or.inr rfl⟩
  have hproper : ¬ (dotdotComp = [] ∨ dotdotComp = dotComp) := by decide
  have hcolon : dotdotComp.getLast? ≠ some COLON := by decide
  rw [normalizeStep_eq]
  simp only [hdd, hproper, hcolon, if_false]
  rw [hdd] at hpart
  split
  · split
    · exact hpart _ _
    · exact hpart _ _
  · exact hpart _ _

/-- A `".."` makes a path of two or more components longer, or shorter and not empty. -/
theorem deep_length {slashes : List Byte} {s : PathSt} {e : Entry} (hs : Sealed slashes s.stack)
    (hdd : e.comp = dotdotComp) (hdeep : 2 ≤ s.stack.length) :
    (renderStack (pathStep r s e).stack).length ≠ 0 ∧
      (renderStack (pathStep r s e).stack).length ≠ (renderStack s.stack).length := by
  have hcolon : e.comp.getLast? ≠ some COLON := by
    rw [hdd]
    decide
  have hproper : isTrivial e.comp = false := by
    rw [hdd]
    exact isTrivial_dotdot
  rw [pathStep_push (fun ht => by rw [hproper] at ht; cases ht) (fun _ _ _ => hcolon)]
  simp only [pushComp, if_pos hdd]
  obtain ⟨t, u, below, hstack⟩ := exists_two hdeep
  rw [hstack] at hs ⊢
  obtain ⟨b, hsep⟩ := Option.ne_none_iff_exists'.mp hs.2.1
  obtain ⟨b', hsep'⟩ := Option.ne_none_iff_exists'.mp hs.2.2.2.2.1
  rw [dotdotMove, if_neg (isTrivial_false (hs.2.2.1 (by simp))).2]
  split
  · simp [Move.applyTo, Entry.bytes, hdd, dotdotComp, hsep]
  · simp [Move.applyTo, Entry.bytes, hsep, hsep']

end Run

/-! ## Paths up to a component -/

section Prefixes

variable {slashes : List Byte}

theorem pieces_flatMap : ∀ (es : List Entry), Cut slashes es →
    pieces slashes (es.flatMap Entry.bytes) = es
  | [], _ => rfl
  | e :: es, h => by
    rw [List.flatMap_cons]
    by_cases hnil : es = []
    · rw [hnil, List.flatMap_nil, List.append_nil]
      exact pieces_last slashes e h.1
    · rw [pieces_append slashes e h.1 (h.2.1 hnil), pieces_flatMap es h.2.2]

theorem Cut.take : ∀ {es : List Entry}, Cut slashes es → ∀ n, Cut slashes (es.take n)
  | [], _, n => by simp [Cut]
  | e :: es, h, 0 => by simp [Cut]
  | e :: es, h, n + 1 => by
    rw [List.take_succ_cons]
    refine ⟨h.1, ?_, h.2.2.take n⟩
    intro hne
    exact h.2.1 (by rintro rfl; simp at hne)

/-- A path is made of its pairs. -/
theorem flatMap_pieces (s : List Byte) : (pieces slashes s).flatMap Entry.bytes = s := by
  induction hn : s.length using Nat.strongRecOn generalizing s with
  | ind n ih =>
    by_cases hnil : s = []
    · rw [hnil]
      rfl
    · obtain ⟨hs, -, -⟩ := split_spec slashes s hnil
      have hlt := @splitRest_length_lt s slashes hnil
      rw [pieces_eq slashes s hnil, List.flatMap_cons, ih _ (by omega) _ rfl]
      exact hs.symm

theorem pieces_cutAfter (n : Nat) (src : List Byte) :
    pieces slashes (cutAfter slashes n src) = (pieces slashes src).take n :=
  pieces_flatMap _ ((cut_pieces slashes src).take n)

theorem cutAfter_isPrefix (n : Nat) (src : List Byte) : cutAfter slashes n src <+: src := by
  refine ⟨((pieces slashes src).drop n).flatMap Entry.bytes, ?_⟩
  rw [cutAfter, ← List.flatMap_append, List.take_append_drop, flatMap_pieces]

end Prefixes

theorem isPassThrough_of_prefix {p src : List Byte} (h : p <+: src) (hp : isPassThrough p = true) :
    isPassThrough src = true := by
  obtain ⟨q, rfl⟩ := h
  simp only [isPassThrough, Bool.and_eq_true, decide_eq_true_eq, beq_iff_eq] at hp ⊢
  obtain ⟨⟨hlen, h0⟩, h1⟩ := hp
  refine ⟨⟨by rw [List.length_append]; omega, ?_⟩, ?_⟩
  · rw [List.getElem?_append_left (by omega)]
    exact h0
  · rw [List.getElem?_append_left (by omega)]
    exact h1

/-! ## The flags -/

theorem hasFlag_or {force mask : BitVec 32} (h : force &&& mask = 0) (flags : BitVec 32) :
    hasFlag (flags ||| force) mask = hasFlag flags mask := by
  unfold hasFlag
  rw [BitVec.and_or_distrib_right, h]
  simp

theorem hasFlag_or_self {force : BitVec 32} (h : force ≠ 0) (flags : BitVec 32) :
    hasFlag (flags ||| force) force = true := by
  unfold hasFlag
  rw [BitVec.and_or_distrib_right, BitVec.and_self, bne_iff_ne]
  exact fun h0 => h (BitVec.or_eq_zero_iff.mp h0).2

theorem hasFlag_of_sub {flags mask sub : BitVec 32} (h : hasFlag flags mask = false)
    (hsub : mask &&& sub = sub) : hasFlag flags sub = false := by
  have hzero : flags &&& mask = 0 := by simpa [hasFlag] using h
  unfold hasFlag
  rw [← hsub, ← BitVec.and_assoc, hzero]
  simp

/-- The flag `force` adds to `flags` that every separator is written as `x`. -/
structure Forces (ffWin : Bool) (flags force : BitVec 32) (x : Byte) : Prop where
  slashes_eq : slashesOf ffWin (flags ||| force) = slashesOf ffWin flags
  disk_eq : hasFlag (effFlags ffWin (flags ||| force)) FFPATH_DISK_LETTER =
    hasFlag (effFlags ffWin flags) FFPATH_DISK_LETTER
  rules_eq : rulesOf (effFlags ffWin (flags ||| force)) = (rulesOf (effFlags ffWin flags)).force x

theorem forces_of_emit {ffWin : Bool} {flags force : BitVec 32} {x : Byte}
    (hforce : force = FFPATH_FORCE_SLASH ∨ force = FFPATH_FORCE_BACKSLASH)
    (hemit : emitSep (effFlags ffWin flags ||| force) = fun _ => x) :
    Forces ffWin flags force x := by
  have hmask : ∀ mask, mask &&& (FFPATH_FORCE_SLASH ||| FFPATH_FORCE_BACKSLASH) = 0 →
      force &&& mask = 0 := by
    intro mask h
    rw [BitVec.and_or_distrib_left] at h
    have hboth := BitVec.or_eq_zero_iff.mp h
    rcases hforce with rfl | rfl
    · rw [BitVec.and_comm]
      exact hboth.1
    · rw [BitVec.and_comm]
      exact hboth.2
  have heff : effFlags ffWin (flags ||| force) = effFlags ffWin flags ||| force := by
    unfold effFlags
    rw [hasFlag_or (hmask _ (by decide))]
    split
    · rw [BitVec.or_assoc, BitVec.or_comm force, ← BitVec.or_assoc]
    · rfl
  refine ⟨?_, ?_, ?_⟩
  · unfold slashesOf
    rw [hasFlag_or (hmask _ (by decide)), hasFlag_or (hmask _ (by decide))]
  · rw [heff, hasFlag_or (hmask _ (by decide))]
  · rw [heff, rulesOf, hasFlag_or (hmask _ (by decide)), hasFlag_or (hmask _ (by decide)), hemit]
    rfl

section Flags

variable {flags : BitVec 32}
  (hplain : hasFlag flags (FFPATH_FORCE_SLASH ||| FFPATH_FORCE_BACKSLASH) = false)
include hplain

theorem eff_force_slash (ffWin : Bool) :
    hasFlag (effFlags ffWin flags) FFPATH_FORCE_SLASH = false := by
  rw [hasFlag_effFlags ffWin flags _ (by decide)]
  exact hasFlag_of_sub hplain (by decide)

theorem eff_force_backslash (ffWin : Bool) :
    hasFlag (effFlags ffWin flags) FFPATH_FORCE_BACKSLASH = false := by
  rw [hasFlag_effFlags ffWin flags _ (by decide)]
  exact hasFlag_of_sub hplain (by decide)

/-- Without a flag the separator of the source is written. -/
theorem emitSep_plain (ffWin : Bool) (b : Byte) : emitSep (effFlags ffWin flags) b = b := by
  rw [emitSep, eff_force_slash hplain, eff_force_backslash hplain]
  rfl

omit hplain in
theorem forces_slash (ffWin : Bool) (flags : BitVec 32) :
    Forces ffWin flags FFPATH_FORCE_SLASH SLASH := by
  apply forces_of_emit (Or.inl rfl)
  funext b
  rw [emitSep, hasFlag_or_self (by decide)]
  rfl

theorem forces_backslash (ffWin : Bool) : Forces ffWin flags FFPATH_FORCE_BACKSLASH BACKSLASH := by
  apply forces_of_emit (Or.inr rfl)
  funext b
  rw [emitSep, hasFlag_or (by decide), eff_force_slash hplain, hasFlag_or_self (by decide)]
  rfl

end Flags

/-! ## The whole function -/

section Whole

variable {ffWin : Bool} {cap : Nat} {src : List Byte} {flags force : BitVec 32} {x : Byte}

theorem plain_emit_mem (hplain : ∀ b, emitSep (effFlags ffWin flags) b = b) :
    ∀ b ∈ slashesOf ffWin flags,
      (rulesOf (effFlags ffWin flags)).emit b ∈ slashesOf ffWin flags := by
  intro b hb
  show emitSep (effFlags ffWin flags) b ∈ _
  rw [hplain]
  exact hb

/-- **The separators can be forced** if the path is split by the new one too, or if there is no deep
    `".."`. -/
theorem forceCommutes_of (hplain : ∀ b, emitSep (effFlags ffWin flags) b = b)
    (hforces : Forces ffWin flags force x)
    (hpass : ¬ (hasFlag (effFlags ffWin flags) FFPATH_DISK_LETTER = true ∧ isPassThrough src = true))
    (hcap : src.length ≤ cap)
    (h : (slashesOf ffWin flags).contains x = true ∨
      Shallow (rulesOf (effFlags ffWin flags)) ⟨true, true, []⟩ (pieces (slashesOf ffWin flags) src)) :
    ForceCommutes ffWin cap src flags force x := by
  have hemit := plain_emit_mem hplain
  obtain ⟨out, hrun, -, hout⟩ := @normalizeLoop_start
    ⟨cap, effFlags ffWin flags, slashesOf ffWin flags⟩ src hcap hemit
  have hframed := @pathStack_framed (slashesOf ffWin flags) (rulesOf (effFlags ffWin flags)) hemit src
  have hrender := renderStack_force x hframed.clean
  refine ⟨out, by rw [ffpathNormalize_eq_loop hpass]; exact hrun, ?_⟩
  rw [hout, ← hrender, ffpathNormalize_eq_loop (by rw [hforces.disk_eq]; exact hpass),
    hforces.slashes_eq]
  rcases h with hin | hshallow
  · obtain ⟨out', hrun', -, hout'⟩ := @normalizeLoop_start
      ⟨cap, effFlags ffWin (flags ||| force), slashesOf ffWin flags⟩ src hcap (by
        intro b _
        have hx : emitSep (effFlags ffWin (flags ||| force)) b = x :=
          congrArg (fun r => StackRules.emit r b) hforces.rules_eq
        rw [hx]
        exact List.contains_iff_mem.mp hin)
    rw [hrun', hout', hforces.rules_eq, pathStack_force]
  · exact @normalizeLoop_shallow ⟨cap, effFlags ffWin (flags ||| force), slashesOf ffWin flags⟩ _ x
      hforces.rules_eq hemit src hcap hshallow

/-- A path that ends with a deep `".."`: the results have different lengths. -/
theorem not_forceCommutes_deep (hplain : ∀ b, emitSep (effFlags ffWin flags) b = b)
    (hforces : Forces ffWin flags force x)
    (hpass : ¬ (hasFlag (effFlags ffWin flags) FFPATH_DISK_LETTER = true ∧ isPassThrough src = true))
    (hcap : src.length ≤ cap) (hx : (slashesOf ffWin flags).contains x = false) (hdot : x ≠ DOT)
    {es : List Entry} {e : Entry} (hpieces : pieces (slashesOf ffWin flags) src = es ++ [e])
    (hshallow : Shallow (rulesOf (effFlags ffWin flags)) ⟨true, true, []⟩ es)
    (hdd : e.comp = dotdotComp)
    (hdeep : 2 ≤ (es.foldl (pathStep (rulesOf (effFlags ffWin flags))) ⟨true, true, []⟩).stack.length) :
    ¬ ForceCommutes ffWin cap src flags force x := by
  rintro ⟨out, hout, hforced⟩
  have hemit := plain_emit_mem hplain
  -- the forced run up to the last component, and its last iteration
  rw [ffpathNormalize_eq_loop (by rw [hforces.disk_eq]; exact hpass), hforces.slashes_eq] at hforced
  obtain ⟨fuel, st, hrun, hsim, hend, hfuel⟩ := @forceSim_run
    ⟨cap, effFlags ffWin (flags ||| force), slashesOf ffWin flags⟩ src.length _ x hforces.rules_eq
    hemit hcap [e] es src.length _ _ (forceSim_start _ x src) hpieces hshallow (Nat.le_refl _)
  have hne : st.s ≠ [] := pieces_ne_nil (by rw [hend]; simp)
  have hsealed := hsim.stack_sealed hne
  have hlen : st.dst.length = (renderStack
      (es.foldl (pathStep (rulesOf (effFlags ffWin flags))) ⟨true, true, []⟩).stack).length := by
    rw [hsim.dst_eq]
    exact renderStack_force_length x _
  rw [pieces_eq _ st.s hne] at hend
  obtain ⟨hentry, hrest⟩ := List.cons.inj hend
  obtain ⟨st', hst, hs, hdst⟩ := forceSim_deep hx hdot hsim hne (by rw [hentry]; exact hdd) hdeep
  have hpos := List.length_pos_iff.mpr hne
  obtain ⟨n, rfl⟩ : ∃ n, fuel = n + 1 := ⟨fuel - 1, by omega⟩
  rw [hrun, normalizeLoop, if_neg hne, hst] at hforced
  simp only at hforced
  rw [normalizeLoop_done (hs.trans (pieces_eq_nil hrest)), Option.some.injEq] at hforced
  have hlenForced := congrArg List.length hforced
  rw [List.length_map] at hlenForced
  -- the plain run
  obtain ⟨out', hrun', -, hout'⟩ := @normalizeLoop_start
    ⟨cap, effFlags ffWin flags, slashesOf ffWin flags⟩ src hcap hemit
  rw [ffpathNormalize_eq_loop hpass, hrun', Option.some.injEq] at hout
  subst hout
  rw [pathStack, hpieces, List.foldl_append, List.foldl_cons, List.foldl_nil] at hout'
  obtain ⟨hzero, hother⟩ := @deep_length (rulesOf (effFlags ffWin flags)) _ _ e hsealed hdd hdeep
  rw [← hout'] at hzero hother
  rcases hdst with hdst | hdst
  · rw [hdst, hlen] at hlenForced
    exact hother hlenForced.symm
  · rw [hdst] at hlenForced
    exact hzero hlenForced.symm

end Whole

theorem shallow_append (r : StackRules) : ∀ (es es' : List Entry) (s : PathSt),
    Shallow r s (es ++ es') ↔ Shallow r s es ∧ Shallow r (es.foldl (pathStep r) s) es'
  | [], _, _ => by simp [Shallow]
  | e :: es, es', s => by
    rw [List.cons_append, Shallow, Shallow, shallow_append r es es', List.foldl_cons, and_assoc]

/-- A run without a deep `".."` is one where no component is the first deep `".."`. -/
theorem shallow_of_prefixes {r : StackRules} {s : PathSt} : ∀ (es' es : List Entry),
    Shallow r s es →
    (∀ es₁ e es₂, es ++ es' = es₁ ++ e :: es₂ → Shallow r s es₁ → e.comp = dotdotComp →
      (es₁.foldl (pathStep r) s).stack.length ≤ 1) → Shallow r s (es ++ es')
  | [], es, h, _ => by
    rw [List.append_nil]
    exact h
  | e :: es', es, h, hall => by
    have hstep : Shallow r s (es ++ [e]) := by
      rw [shallow_append]
      exact ⟨h, hall es e es' rfl h, trivial⟩
    have hnext := shallow_of_prefixes es' (es ++ [e]) hstep
      (by rw [List.append_assoc]; exact hall)
    rw [List.append_assoc] at hnext
    exact hnext

/-- **Forced separators commute with normalisation.**  With `FFPATH_FORCE_SLASH` always.  With
    `FFPATH_FORCE_BACKSLASH` if the path is split by backslashes too, or if no `".."` comes while two
    or more components are kept; and only then, if the same is to hold for the path up to each of its
    components. -/
theorem ffpathNormalize_force_iff (ffWin : Bool) (cap : Nat) (src : List Byte) (flags : BitVec 32)
    (hplain : hasFlag flags (FFPATH_FORCE_SLASH ||| FFPATH_FORCE_BACKSLASH) = false)
    (hpass : ¬ (hasFlag (effFlags ffWin flags) FFPATH_DISK_LETTER = true ∧ isPassThrough src = true))
    (hcap : src.length ≤ cap) :
    ForceCommutes ffWin cap src flags FFPATH_FORCE_SLASH SLASH ∧
      (CanForceBackslash ffWin flags src →
        ForceCommutes ffWin cap src flags FFPATH_FORCE_BACKSLASH BACKSLASH) ∧
      ((∀ n, ForceCommutes ffWin cap (cutAfter (slashesOf ffWin flags) n src) flags
        FFPATH_FORCE_BACKSLASH BACKSLASH) ↔ CanForceBackslash ffWin flags src) := by
  have hemit := emitSep_plain hplain ffWin
  have hforces := forces_backslash hplain ffWin
  have hslash : (slashesOf ffWin flags).contains SLASH = true := by
    unfold slashesOf
    split
    · decide
    · split
      · decide
      · decide
  -- what holds of the path holds of the path up to a component
  have hcut : ∀ n, ¬ (hasFlag (effFlags ffWin flags) FFPATH_DISK_LETTER = true ∧
      isPassThrough (cutAfter (slashesOf ffWin flags) n src) = true) ∧
      (cutAfter (slashesOf ffWin flags) n src).length ≤ cap := by
    intro n
    have hp := @cutAfter_isPrefix (slashesOf ffWin flags) n src
    exact ⟨fun h => hpass ⟨h.1, isPassThrough_of_prefix hp h.2⟩, Nat.le_trans hp.length_le hcap⟩
  refine ⟨forceCommutes_of hemit (forces_slash ffWin flags) hpass hcap (Or.inl hslash),
    forceCommutes_of hemit hforces hpass hcap, ?_, ?_⟩
  · intro hall
    by_cases hin : (slashesOf ffWin flags).contains BACKSLASH = true
    · exact Or.inl hin
    · refine Or.inr (shallow_of_prefixes (pieces (slashesOf ffWin flags) src) [] trivial ?_)
      intro es e es' hes hshallow hdd
      by_contra hdeep
      have hpieces : pieces (slashesOf ffWin flags)
          (cutAfter (slashesOf ffWin flags) (es.length + 1) src) = es ++ [e] := by
        rw [pieces_cutAfter, ← List.nil_append (pieces (slashesOf ffWin flags) src), hes,
          ← List.take_append_drop 1 (e :: es'), ← List.append_assoc]
        exact List.take_left' (by simp)
      exact not_forceCommutes_deep hemit hforces (hcut _).1 (hcut _).2 (by simpa using hin)
        (by decide) hpieces hshallow hdd (by omega) (hall _)
  · intro h n
    refine forceCommutes_of hemit hforces (hcut n).1 (hcut n).2 (h.imp_right ?_)
    intro hshallow
    rw [pieces_cutAfter]
    rw [← List.take_append_drop n (pieces (slashesOf ffWin flags) src), shallow_append] at hshallow
    exact hshallow.1

/-- `"a//../b/./c"` gives `"b/c"` and `"b\\c"`. -/
theorem ffpathNormalize_force_shallow :
    CanForceBackslash false 0 "a//../b/./c".toUTF8.data.toList ∧
      ForceCommutes false 11 "a//../b/./c".toUTF8.data.toList 0 FFPATH_FORCE_BACKSLASH BACKSLASH := by
  have hcan : CanForceBackslash false 0 "a//../b/./c".toUTF8.data.toList := by decide +kernel
  have h := ffpathNormalize_force_iff false 11 "a//../b/./c".toUTF8.data.toList 0 (by decide)
    (by decide) (by decide +kernel)
  exact ⟨hcan, h.2.1 hcan⟩

/-- `"a/b/../c"` split by `'/'` gives `"a/c"`, but `"c"` with `FFPATH_FORCE_BACKSLASH`. -/
theorem ffpathNormalize_force_drops :
    ffpathNormalize false 8 "a/b/../c".toUTF8.data.toList 0 = some "a/c".toUTF8.data.toList ∧
      ffpathNormalize false 8 "a/b/../c".toUTF8.data.toList FFPATH_FORCE_BACKSLASH =
        some "c".toUTF8.data.toList ∧
      ¬ ForceCommutes false 8 "a/b/../c".toUTF8.data.toList 0 FFPATH_FORCE_BACKSLASH BACKSLASH := by
  have hval : ffpathNormalize false 8 "a/b/../c".toUTF8.data.toList 0 =
      some "a/c".toUTF8.data.toList := by decide +kernel
  have hforced : ffpathNormalize false 8 "a/b/../c".toUTF8.data.toList FFPATH_FORCE_BACKSLASH =
      some "c".toUTF8.data.toList := by decide +kernel
  refine ⟨hval, hforced, ?_⟩
  rintro ⟨out, hout, hforced'⟩
  have hflags : (0 : BitVec 32) ||| FFPATH_FORCE_BACKSLASH = FFPATH_FORCE_BACKSLASH := by decide
  rw [hflags, hforced, Option.some.injEq] at hforced'
  rw [hval, Option.some.injEq] at hout
  subst hout
  have hlen := congrArg List.length hforced'
  rw [List.length_map] at hlen
  revert hlen
  decide +kernel

end FFSys.Path
