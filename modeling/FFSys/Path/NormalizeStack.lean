import FFSys.Path.Normalize

/-!
# `ffpath_normalize` computes a component stack

* `pieces` — the (component, separator) pairs of a path.
* `pathStep` / `pathStack` — the stack built from them from left to right, `renderStack` — the
  path it stands for.
* `normalizeParent_eq` — the backward search in the output finds the top of the stack: no
  component holds a separator and every entry ends with one.
* `normalizeLoop_eq`, `ffpathNormalize_stack` — the loop builds this stack and stays inside of
  the buffer.
-/

set_option autoImplicit false

namespace FFSys.Path

/-! ## The stack -/

/-- A component and the separator after it, if there is one. -/
structure Entry where
  comp : Comp
  sep : Option Byte
  deriving DecidableEq, Repr

def Entry.bytes (e : Entry) : List Byte := e.comp ++ e.sep.toList

/-- The pairs of a path: it is cut after every byte out of `slashes`. -/
def pieces (slashes : List Byte) : List Byte → List Entry
  | [] => []
  | b :: bs =>
    if slashes.contains b then ⟨[], some b⟩ :: pieces slashes bs
    else match pieces slashes bs with
      | [] => [⟨[b], none⟩]
      | e :: es => ⟨b :: e.comp, e.sep⟩ :: es

/-- The path of a stack (its top is the head of the list). -/
def renderStack (st : List Entry) : List Byte := (st.reverse.map Entry.bytes).flatten

/-- The rules of a normalisation. -/
structure StackRules where
  simple : Bool
  disk : Bool
  emit : Byte → Byte

def endsWithColon (c : Comp) : Bool := c.getLast? == some COLON

/-- What a `".."` does to the stack. -/
def dotdotMove (r : StackRules) : List Entry → Move
  | [] => if r.simple then .keep else .push
  | t :: below =>
    if t.comp = dotComp then .replace
    else if t.comp = dotdotComp then .push
    else if below = [] ∧ t.comp = [] then .keep
    else if below = [] ∧ r.disk ∧ endsWithColon t.comp then .keep
    else .pop

def Move.applyTo (e : Entry) : Move → List Entry → List Entry
  | .keep, st => st
  | .push, st => e :: st
  | .pop, st => st.tail
  | .replace, st => e :: st.tail

/-- A component that is neither skipped as empty or `"."` nor as a disk. -/
def pushComp (r : StackRules) (st : List Entry) (e : Entry) : List Entry :=
  let e' : Entry := ⟨e.comp, e.sep.map r.emit⟩
  if e.comp = dotdotComp then (dotdotMove r st).applyTo e' st else e' :: st

/-- An empty component or `"."`. -/
def isTrivial (c : Comp) : Bool := c == [] || c == dotComp

/-- `first`: no component came yet; `fresh`: none came that is neither empty nor `"."`. -/
structure PathSt where
  first : Bool
  fresh : Bool
  stack : List Entry

def pathStep (r : StackRules) (s : PathSt) (e : Entry) : PathSt where
  first := false
  fresh := s.fresh && isTrivial e.comp
  stack :=
    if isTrivial e.comp ∧ ¬ (s.first ∧ ¬ r.simple) then s.stack
    else if r.simple ∧ r.disk ∧ s.fresh ∧ endsWithColon e.comp then s.stack
    else pushComp r s.stack e

/-- The stack of a path. -/
def pathStack (r : StackRules) (slashes src : List Byte) : List Entry :=
  ((pieces slashes src).foldl (pathStep r) ⟨true, true, []⟩).stack

@[simp] theorem renderStack_nil : renderStack [] = [] := rfl

@[simp] theorem renderStack_cons (e : Entry) (st : List Entry) :
    renderStack (e :: st) = renderStack st ++ e.bytes := by
  simp [renderStack]

/-! ## Splitting -/

/-- The pair that `ffstr_splitbyany` cuts off. -/
def splitEntry (s slashes : List Byte) : Entry :=
  ⟨(ffstrSplitbyany s slashes).2.1, (ffstrSplitbyany s slashes).1.bind (s[·]?)⟩

def splitRest (s slashes : List Byte) : List Byte := (ffstrSplitbyany s slashes).2.2

theorem split_sep {slashes : List Byte} {b : Byte} (bs : List Byte) (h : slashes.contains b = true) :
    splitEntry (b :: bs) slashes = ⟨[], some b⟩ ∧ splitRest (b :: bs) slashes = bs := by
  have hidx : (b :: bs).findIdx? (slashes.contains ·) = some 0 := by
    rw [List.findIdx?_cons, h]
    rfl
  constructor
  · simp only [splitEntry, ffstrSplitbyany, hidx]
    rfl
  · simp only [splitRest, ffstrSplitbyany, hidx]
    rfl

theorem split_other {slashes : List Byte} {b : Byte} (bs : List Byte)
    (h : slashes.contains b = false) :
    splitEntry (b :: bs) slashes =
        ⟨b :: (splitEntry bs slashes).comp, (splitEntry bs slashes).sep⟩ ∧
      splitRest (b :: bs) slashes = splitRest bs slashes := by
  have hidx : (b :: bs).findIdx? (slashes.contains ·) =
      (bs.findIdx? (slashes.contains ·)).map (· + 1) := by
    rw [List.findIdx?_cons, h]
    rfl
  cases hbs : bs.findIdx? (slashes.contains ·) with
  | none =>
    rw [hbs] at hidx
    simp only [splitEntry, splitRest, ffstrSplitbyany, hidx, hbs]
    exact ⟨rfl, rfl⟩
  | some i =>
    rw [hbs] at hidx
    simp only [splitEntry, splitRest, ffstrSplitbyany, hidx, hbs, Option.map_some]
    exact ⟨rfl, rfl⟩

/-- The loop cuts off the pairs one by one. -/
theorem pieces_eq (slashes : List Byte) : ∀ (s : List Byte), s ≠ [] →
    pieces slashes s = splitEntry s slashes :: pieces slashes (splitRest s slashes)
  | [], h => absurd rfl h
  | b :: bs, _ => by
    rw [pieces]
    cases hb : slashes.contains b with
    | true =>
      rw [(split_sep bs hb).1, (split_sep bs hb).2, if_pos rfl]
    | false =>
      rw [(split_other bs hb).1, (split_other bs hb).2, if_neg (by simp)]
      cases bs with
      | nil => rfl
      | cons b' bs' => rw [pieces_eq slashes (b' :: bs') (by simp)]

/-- A component without separators, and the separator after it; only the end of a path comes
    without one, and it is not empty. -/
structure Clean (slashes : List Byte) (e : Entry) : Prop where
  comp_clean : ∀ b ∈ e.comp, slashes.contains b = false
  sep_mem : ∀ b, e.sep = some b → slashes.contains b = true
  last_ne : e.sep = none → e.comp ≠ []

/-- What `ffstr_splitbyany` does to a path: it takes the first pair off; after the last one
    nothing is left. -/
theorem split_spec (slashes : List Byte) : ∀ (s : List Byte), s ≠ [] →
    s = (splitEntry s slashes).bytes ++ splitRest s slashes ∧ Clean slashes (splitEntry s slashes) ∧
      (splitRest s slashes ≠ [] → (splitEntry s slashes).sep ≠ none)
  | [], h => absurd rfl h
  | b :: bs, _ => by
    cases hb : slashes.contains b with
    | true =>
      rw [(split_sep bs hb).1, (split_sep bs hb).2]
      refine ⟨rfl, ⟨by simp, ?_, by simp⟩, by simp⟩
      intro b' hb'
      cases hb'
      exact hb
    | false =>
      rw [(split_other bs hb).1, (split_other bs hb).2]
      cases bs with
      | nil => exact ⟨rfl, ⟨by simpa [splitEntry, ffstrSplitbyany] using hb,
          by simp [splitEntry, ffstrSplitbyany], by simp⟩, by simp [splitRest, ffstrSplitbyany]⟩
      | cons b' bs' =>
        obtain ⟨h1, h2, h3⟩ := split_spec slashes (b' :: bs') (by simp)
        refine ⟨congrArg (b :: ·) h1, ⟨?_, h2.sep_mem, by simp⟩, h3⟩
        intro x hx
        rcases List.mem_cons.mp hx with rfl | hx
        · exact hb
        · exact h2.comp_clean x hx

/-- The pairs of a path: all but the last one have a separator. -/
def Cut (slashes : List Byte) : List Entry → Prop
  | [] => True
  | e :: es => Clean slashes e ∧ (es ≠ [] → e.sep ≠ none) ∧ Cut slashes es

theorem splitRest_length_lt {s slashes : List Byte} (h : s ≠ []) :
    (splitRest s slashes).length < s.length := by
  obtain ⟨hs, hclean, -⟩ := split_spec slashes s h
  have hbytes : (splitEntry s slashes).bytes ≠ [] := by
    cases hsep : (splitEntry s slashes).sep with
    | none => simp [Entry.bytes, hclean.last_ne hsep]
    | some b => simp [Entry.bytes, hsep]
  have hpos := List.length_pos_iff.mpr hbytes
  have hlen := congrArg List.length hs
  rw [List.length_append] at hlen
  omega

theorem pieces_ne_nil {slashes s : List Byte} (h : pieces slashes s ≠ []) : s ≠ [] := by
  rintro rfl
  exact h rfl

theorem cut_pieces (slashes s : List Byte) : Cut slashes (pieces slashes s) := by
  induction hn : s.length using Nat.strongRecOn generalizing s with
  | ind n ih =>
    cases s with
    | nil => trivial
    | cons b bs =>
      obtain ⟨-, hclean, hsep⟩ := split_spec slashes (b :: bs) (by simp)
      rw [pieces_eq slashes (b :: bs) (by simp)]
      refine ⟨hclean, fun hne => hsep (pieces_ne_nil hne), ih _ ?_ _ rfl⟩
      rw [← hn]
      exact splitRest_length_lt (by simp)

/-! ## The entries of the stack -/

/-- No component holds a separator, every entry ends with one, and only the bottom may be empty
    or `"."`. -/
def Sealed (slashes : List Byte) : List Entry → Prop
  | [] => True
  | e :: st =>
    Clean slashes e ∧ e.sep ≠ none ∧ (st ≠ [] → isTrivial e.comp = false) ∧ Sealed slashes st

/-- The same at the end of a path, where the top may come without a separator. -/
def Framed (slashes : List Byte) : List Entry → Prop
  | [] => True
  | e :: st => Clean slashes e ∧ (st ≠ [] → isTrivial e.comp = false) ∧ Sealed slashes st

theorem isTrivial_false {c : Comp} (h : isTrivial c = false) : c ≠ [] ∧ c ≠ dotComp := by
  simpa [isTrivial] using h

theorem isTrivial_dotdot : isTrivial dotdotComp = false := by decide

section Entries

variable {slashes : List Byte} {st : List Entry} {e : Entry}

theorem Sealed.tail (h : Sealed slashes st) : Sealed slashes st.tail := by
  cases st with
  | nil => trivial
  | cons e st => exact h.2.2.2

theorem Sealed.framed (h : Sealed slashes st) : Framed slashes st := by
  cases st with
  | nil => trivial
  | cons e st => exact ⟨h.1, h.2.2.1, h.2.2.2⟩

theorem Clean.map {f : Byte → Byte} (h : Clean slashes e)
    (hf : ∀ b ∈ slashes, f b ∈ slashes) : Clean slashes ⟨e.comp, e.sep.map f⟩ where
  comp_clean := h.comp_clean
  sep_mem := by
    intro b hb
    obtain ⟨b', hb', rfl⟩ := Option.map_eq_some_iff.mp hb
    exact List.contains_iff_mem.mpr (hf b' (List.contains_iff_mem.mp (h.sep_mem b' hb')))
  last_ne := fun hnone => h.last_ne (Option.map_eq_none_iff.mp hnone)

theorem Sealed.applyTo (h : Sealed slashes st) (he : Clean slashes e)
    (htriv : st ≠ [] → isTrivial e.comp = false) (m : Move) :
    Framed slashes (m.applyTo e st) ∧ (e.sep ≠ none → Sealed slashes (m.applyTo e st)) := by
  have htail : st.tail ≠ [] → isTrivial e.comp = false := by
    intro hne
    exact htriv (by rintro rfl; exact hne rfl)
  cases m with
  | keep => exact ⟨h.framed, fun _ => h⟩
  | pop => exact ⟨h.tail.framed, fun _ => h.tail⟩
  | push => exact ⟨⟨he, htriv, h⟩, fun hsep => ⟨he, hsep, htriv, h⟩⟩
  | replace => exact ⟨⟨he, htail, h.tail⟩, fun hsep => ⟨he, hsep, htail, h.tail⟩⟩

/-- **One step keeps the shape of the stack.** -/
theorem pathStep_framed {r : StackRules} {s : PathSt} (hf : ∀ b ∈ slashes, r.emit b ∈ slashes)
    (hfirst : s.first = true → s.stack = []) (h : Sealed slashes s.stack) (he : Clean slashes e) :
    Framed slashes (pathStep r s e).stack ∧
      (e.sep ≠ none → Sealed slashes (pathStep r s e).stack) := by
  have hsep : (e.sep.map r.emit) ≠ none ↔ e.sep ≠ none := by simp
  unfold pathStep
  simp only
  split
  · exact ⟨h.framed, fun _ => h⟩
  · rename_i htriv
    split
    · exact ⟨h.framed, fun _ => h⟩
    · have hne : s.stack ≠ [] → isTrivial e.comp = false := by
        intro hstack
        cases ht : isTrivial e.comp with
        | false => rfl
        | true => exact absurd ⟨ht, fun hboth => hstack (hfirst hboth.1)⟩ htriv
      unfold pushComp
      simp only
      rw [← hsep]
      split
      · exact h.applyTo (he.map hf) hne _
      · exact h.applyTo (he.map hf) hne .push

/-- The invariant rule of the stack machine: what holds at the start and every step keeps holds
    at the end.  Before each step every entry has its separator. -/
theorem foldl_rule {r : StackRules} {I : List Entry → PathSt → Prop}
    (hf : ∀ b ∈ slashes, r.emit b ∈ slashes)
    (hstep : ∀ seen s e, (s.first = true ↔ seen = []) → (s.first = true → s.stack = []) →
      Sealed slashes s.stack → Clean slashes e → I seen s → I (seen ++ [e]) (pathStep r s e)) :
    ∀ (es seen : List Entry) (s : PathSt), Cut slashes es → (s.first = true ↔ seen = []) →
      (s.first = true → s.stack = []) → (es ≠ [] → Sealed slashes s.stack) → I seen s →
      I (seen ++ es) (es.foldl (pathStep r) s)
  | [], seen, _, _, _, _, _, h => by simpa using h
  | e :: es, seen, s, hcut, hseen, hfirst, hs, h => by
    have hsealed := hs (by simp)
    have h' := hstep seen s e hseen hfirst hsealed hcut.1 h
    have hnext := (pathStep_framed hf hfirst hsealed hcut.1).2
    have hrun := foldl_rule hf hstep es (seen ++ [e]) (pathStep r s e) hcut.2.2
      (by simp [pathStep]) nofun (fun hne => hnext (hcut.2.1 hne)) h'
    simpa using hrun

theorem pathStack_rule {r : StackRules} {I : List Entry → PathSt → Prop}
    (hf : ∀ b ∈ slashes, r.emit b ∈ slashes) (hinit : I [] ⟨true, true, []⟩)
    (hstep : ∀ seen s e, (s.first = true ↔ seen = []) → (s.first = true → s.stack = []) →
      Sealed slashes s.stack → Clean slashes e → I seen s → I (seen ++ [e]) (pathStep r s e))
    (src : List Byte) :
    I (pieces slashes src) ((pieces slashes src).foldl (pathStep r) ⟨true, true, []⟩) :=
  foldl_rule hf hstep (pieces slashes src) [] _ (cut_pieces slashes src) (by simp)
    (fun _ => rfl) (fun _ => trivial) hinit

theorem pathStack_framed {r : StackRules} (hf : ∀ b ∈ slashes, r.emit b ∈ slashes)
    (src : List Byte) : Framed slashes (pathStack r slashes src) :=
  pathStack_rule (I := fun _ s => Framed slashes s.stack) hf trivial
    (fun _ _ _ _ hfirst hs he _ => (pathStep_framed hf hfirst hs he).1) src

end Entries

/-! ## The path of a stack -/

/-- The components of a path; a final empty one, after a trailing separator, is not counted. -/
def pathComps (slashes p : List Byte) : List Comp :=
  let cs := p.splitOnP (slashes.contains ·)
  if cs.getLast? = some [] then cs.dropLast else cs

theorem pathComps_eq (slashes p : List Byte) :
    pathComps slashes p = (pieces slashes p).map Entry.comp := by
  induction p with
  | nil => rfl
  | cons b bs ih =>
    unfold pathComps at ih ⊢
    rw [List.splitOnP_cons_eq_if_modifyHead, pieces]
    obtain ⟨c, cs, hcs⟩ := List.exists_cons_of_ne_nil (List.splitOnP_ne_nil (slashes.contains ·) bs)
    rw [hcs] at ih ⊢
    cases hb : slashes.contains b with
    | true =>
      simp only [if_true, List.map_cons, ← ih, List.getLast?_cons_cons, List.dropLast_cons_cons]
      split
      · rfl
      · rfl
    | false =>
      simp only [Bool.false_eq_true, if_false, List.modifyHead_cons]
      cases cs with
      | nil =>
        -- the last component
        cases hp : pieces slashes bs with
        | nil =>
          rw [hp] at ih
          cases c with
          | nil => rfl
          | cons x xs => simp at ih
        | cons e es =>
          rw [hp] at ih
          cases c with
          | nil => simp at ih
          | cons x xs =>
            simp only [List.getLast?_singleton, Option.some.injEq, reduceCtorEq, if_false,
              List.map_cons, List.cons.injEq] at ih ⊢
            exact ⟨⟨trivial, ih.1⟩, ih.2⟩
      | cons c' cs' =>
        simp only [List.getLast?_cons_cons, List.dropLast_cons_cons] at ih ⊢
        cases hp : pieces slashes bs with
        | nil =>
          rw [hp] at ih
          split at ih
          · cases ih
          · cases ih
        | cons e es =>
          rw [hp] at ih
          rw [List.map_cons] at ih ⊢
          split at ih
          · rename_i hlast
            rw [if_pos hlast]
            obtain ⟨rfl, hes⟩ := List.cons.inj ih
            rw [hes]
          · rename_i hlast
            rw [if_neg hlast]
            obtain ⟨rfl, hes⟩ := List.cons.inj ih
            rw [hes]

/-- The pairs of the path of a stack are its entries. -/
theorem pieces_append (slashes : List Byte) (e : Entry) (he : Clean slashes e) (hsep : e.sep ≠ none)
    (p : List Byte) : pieces slashes (e.bytes ++ p) = e :: pieces slashes p := by
  obtain ⟨comp, sep⟩ := e
  obtain ⟨b, rfl⟩ := Option.ne_none_iff_exists'.mp hsep
  have hb := he.sep_mem b rfl
  have hcomp := he.comp_clean
  clear he hsep
  simp only [Entry.bytes, Option.toList_some, List.append_assoc, List.singleton_append]
  induction comp with
  | nil => rw [List.nil_append, pieces, if_pos hb]
  | cons x xs ih =>
    have hx := hcomp x List.mem_cons_self
    rw [List.cons_append, pieces, if_neg (by rw [hx]; exact Bool.false_ne_true),
      ih (fun y hy => hcomp y (List.mem_cons_of_mem x hy))]

theorem pieces_last (slashes : List Byte) (e : Entry) (he : Clean slashes e) :
    pieces slashes e.bytes = [e] := by
  obtain ⟨comp, sep⟩ := e
  cases sep with
  | some b => simpa [pieces] using pieces_append slashes ⟨comp, some b⟩ he (by simp) []
  | none =>
    have hcomp := he.comp_clean
    have hne := he.last_ne rfl
    clear he
    simp only [Entry.bytes, Option.toList_none, List.append_nil]
    induction comp with
    | nil => exact absurd rfl hne
    | cons x xs ih =>
      have hx := hcomp x List.mem_cons_self
      rw [pieces, if_neg (by rw [hx]; exact Bool.false_ne_true)]
      cases xs with
      | nil => rfl
      | cons y ys => rw [ih (fun z hz => hcomp z (List.mem_cons_of_mem x hz)) (by simp)]

theorem pieces_renderStack_append {slashes : List Byte} : ∀ (st : List Entry) (p : List Byte),
    Sealed slashes st → pieces slashes (renderStack st ++ p) = st.reverse ++ pieces slashes p
  | [], p, _ => rfl
  | e :: st, p, h => by
    rw [renderStack_cons, List.append_assoc, pieces_renderStack_append st _ h.2.2.2,
      pieces_append slashes e h.1 h.2.1, List.reverse_cons, List.append_assoc]
    rfl

/-- **The path of a stack has its entries as pairs.** -/
theorem pieces_renderStack {slashes : List Byte} {st : List Entry} (h : Framed slashes st) :
    pieces slashes (renderStack st) = st.reverse := by
  cases st with
  | nil => rfl
  | cons e st =>
    rw [renderStack_cons, pieces_renderStack_append st _ h.2.2, pieces_last slashes e h.1,
      List.reverse_cons]

/-! ## The backward search -/

theorem ffsRfindany_none {s slashes : List Byte} (h : ∀ b ∈ s, slashes.contains b = false) :
    ffsRfindany s slashes = none := by
  have : s.reverse.findIdx? (slashes.contains ·) = none := by
    rw [List.findIdx?_eq_none_iff]
    intro b hb
    exact h b (List.mem_reverse.mp hb)
  rw [ffsRfindany, this]
  rfl

theorem ffsRfindany_some {slashes : List Byte} {b : Byte} (pre post : List Byte)
    (hb : slashes.contains b = true) (h : ∀ b ∈ post, slashes.contains b = false) :
    ffsRfindany (pre ++ [b] ++ post) slashes = some pre.length := by
  have hpost : post.reverse.findIdx? (slashes.contains ·) = none := by
    rw [List.findIdx?_eq_none_iff]
    intro b hb
    exact h b (List.mem_reverse.mp hb)
  have hrev : (pre ++ [b] ++ post).reverse = post.reverse ++ b :: pre.reverse := by simp
  have hidx : (pre ++ [b] ++ post).reverse.findIdx? (slashes.contains ·) = some post.length := by
    rw [hrev, List.findIdx?_append, hpost, List.findIdx?_cons, hb]
    simp
  rw [ffsRfindany, hidx]
  simp only [Option.map_some, List.length_append, List.length_singleton, Option.some.injEq]
  omega

/-- The rules that the flags stand for. -/
def rulesOf (flags : BitVec 32) : StackRules :=
  ⟨hasFlag flags FFPATH_SIMPLE, hasFlag flags FFPATH_DISK_LETTER, emitSep flags⟩

/-- What the code does to its output at a `".."` that makes the move `m`. -/
def parentOf (st : List Entry) : Move → Parent
  | .keep => .skip (renderStack st)
  | .push => .emit (renderStack st)
  | .pop => .skip (renderStack st.tail)
  | .replace => .emit (renderStack st.tail)

theorem take_init (l : List Byte) (b : Byte) : (l ++ [b]).take ((l ++ [b]).length - 1) = l := by
  simp

/-- One component in the output: there is no separator before it. -/
theorem normalizeParent_bottom (c : NormalizeCfg) (t : Entry)
    (hcomp : ∀ b ∈ t.comp, c.slashes.contains b = false) (hsome : t.sep ≠ none) :
    normalizeParent c (renderStack [t]) = parentOf [t] (dotdotMove (rulesOf c.flags) [t]) := by
  obtain ⟨b, hsep⟩ := Option.ne_none_iff_exists'.mp hsome
  have hdst : renderStack [t] = t.comp ++ [b] := by simp [Entry.bytes, hsep]
  have hprev := take_init t.comp b
  have hlen : (t.comp ++ [b]).length = 1 ↔ t.comp = [] := by simp
  unfold normalizeParent
  rw [hdst, if_pos (by simp), hprev, ffsRfindany_none hcomp]
  simp only [dotdotMove, hlen, true_and, rulesOf, endsWithColon]
  split
  · rfl
  · split
    · simp [parentOf, Entry.bytes, hsep]
    · split
      · simp [parentOf, Entry.bytes, hsep]
      · split
        · rename_i h
          rw [if_pos (by simpa using h)]
          simp [parentOf, Entry.bytes, hsep]
        · rename_i h
          rw [if_neg (by simpa using h)]
          rfl

/-- Several components in the output: the separator before the last one is that of the entry
    below it. -/
theorem normalizeParent_above (c : NormalizeCfg) (t u : Entry) (st : List Entry)
    (ht : Sealed c.slashes (t :: u :: st)) :
    normalizeParent c (renderStack (t :: u :: st)) =
      parentOf (t :: u :: st) (dotdotMove (rulesOf c.flags) (t :: u :: st)) := by
  obtain ⟨⟨hcomp, -, -⟩, hsome, htriv, ⟨-, hmem, -⟩, hsome', -, -⟩ := ht
  obtain ⟨b, hsep⟩ := Option.ne_none_iff_exists'.mp hsome
  obtain ⟨b', hsep'⟩ := Option.ne_none_iff_exists'.mp hsome'
  have hb' := hmem b' hsep'
  have hne := isTrivial_false (htriv (by simp))
  have hu : renderStack (u :: st) = renderStack st ++ u.comp ++ [b'] := by
    simp [Entry.bytes, hsep']
  have hdst : renderStack (t :: u :: st) =
      renderStack st ++ u.comp ++ [b'] ++ t.comp ++ [b] := by
    simp [Entry.bytes, hsep, hsep']
  generalize hpre : renderStack st ++ u.comp = pre at hdst hu
  have hprev := take_init (pre ++ [b'] ++ t.comp) b
  have hcut : (pre ++ [b'] ++ t.comp ++ [b]).drop (pre.length + 1) = t.comp ++ [b] := by
    simp [List.append_assoc, List.drop_append]
  have hlow : (pre ++ [b'] ++ t.comp ++ [b]).take (pre.length + 1) = pre ++ [b'] := by
    rw [List.append_assoc (pre ++ [b'])]
    exact List.take_left' (by simp)
  have htop : (pre ++ [b'] ++ t.comp ++ [b]).length - 1 - (pre.length + 1) = t.comp.length := by
    simp only [List.length_append, List.length_singleton]
    omega
  unfold normalizeParent
  rw [hdst, if_pos (by simp), hprev, ffsRfindany_some pre t.comp hb' hcomp]
  simp only [hcut, htop, hlow, List.take_left', dotdotMove, hne.2, reduceCtorEq, false_and, if_false]
  split
  · rw [parentOf, hdst]
  · rw [parentOf, List.tail_cons, hu]

/-- No component in the output. -/
theorem normalizeParent_nil (c : NormalizeCfg) :
    normalizeParent c (renderStack []) = parentOf [] (dotdotMove (rulesOf c.flags) []) := by
  unfold normalizeParent
  rw [if_neg (by simp)]
  cases h : hasFlag c.flags FFPATH_SIMPLE with
  | true => simp [dotdotMove, rulesOf, h, parentOf]
  | false => simp [dotdotMove, rulesOf, h, parentOf]

/-- **The search finds the top of the stack.** -/
theorem normalizeParent_eq (c : NormalizeCfg) (st : List Entry) (h : Sealed c.slashes st) :
    normalizeParent c (renderStack st) = parentOf st (dotdotMove (rulesOf c.flags) st) := by
  match st, h with
  | [], _ => exact normalizeParent_nil c
  | [t], h => exact normalizeParent_bottom c t h.1.comp_clean h.2.1
  | t :: u :: st, h => exact normalizeParent_above c t u st h

/-- Whatever is in the output, a `".."` leaves a front part of it. -/
theorem normalizeParent_front (c : NormalizeCfg) (dst : List Byte) :
    ∃ d, d <+: dst ∧ (normalizeParent c dst = .skip d ∨ normalizeParent c dst = .emit d) := by
  unfold normalizeParent
  split
  · split
    · simp only
      split
      · exact ⟨[], List.nil_prefix, Or.inr rfl⟩
      · split
        · exact ⟨dst, List.prefix_rfl, Or.inr rfl⟩
        · split
          · exact ⟨dst, List.prefix_rfl, Or.inl rfl⟩
          · split
            · exact ⟨dst, List.prefix_rfl, Or.inl rfl⟩
            · exact ⟨[], List.nil_prefix, Or.inl rfl⟩
    · simp only
      split
      · exact ⟨dst, List.prefix_rfl, Or.inr rfl⟩
      · exact ⟨_, List.take_prefix _ _, Or.inl rfl⟩
  · split
    · exact ⟨dst, List.prefix_rfl, Or.inl rfl⟩
    · exact ⟨dst, List.prefix_rfl, Or.inr rfl⟩

/-- A component leaves a front part of the output, and is written behind it or not. -/
theorem normalizePart_front (c : NormalizeCfg) (st : NormalizeSt) (part : Comp) (sep : Option Byte)
    (hroom : st.dst.length + part.length + (if sep.isSome then 1 else 0) ≤ c.cap) :
    ∃ d, d <+: st.dst ∧ (normalizePart c st part sep = some { st with dst := d } ∨
      normalizePart c st part sep =
        some { st with dst := d ++ part ++ (sep.map (emitSep c.flags)).toList }) := by
  obtain ⟨d, hd, hparent⟩ := normalizeParent_front c st.dst
  have hlen := hd.length_le
  unfold normalizePart
  split
  · rcases hparent with h | h
    · rw [h]
      exact ⟨d, hd, Or.inl rfl⟩
    · rw [h]
      refine ⟨d, hd, Or.inr ?_⟩
      simp only [normalizeEmit]
      rw [if_neg (by omega)]
  · refine ⟨st.dst, List.prefix_rfl, Or.inr ?_⟩
    simp only [normalizeEmit]
    rw [if_neg (by omega)]

/-! ## The loop -/

/-- The output is that of the stack, and at least as many bytes of the source are consumed. -/
structure OutputSim (len : Nat) (st : NormalizeSt) (stack : List Entry) : Prop where
  dst_eq : st.dst = renderStack stack
  room : st.dst.length + st.s.length ≤ len

/-- The state of the loop stands for the state `s` of the stack machine. -/
structure LoopSim (c : NormalizeCfg) (len : Nat) (st : NormalizeSt) (s : PathSt) : Prop
    extends OutputSim len st s.stack where
  simplify_eq : st.simplify = ((rulesOf c.flags).simple || !s.first)
  skip_eq : st.skipDisk = ((rulesOf c.flags).disk && (rulesOf c.flags).simple && s.fresh)

/-- The same with the shape of the stack. -/
structure NormalizeSim (c : NormalizeCfg) (len : Nat) (st : NormalizeSt) (s : PathSt) : Prop
    extends LoopSim c len st s where
  first_empty : s.first = true → s.stack = []
  stack_sealed : st.s ≠ [] → Sealed c.slashes s.stack

theorem renderStack_applyTo_le (e : Entry) (m : Move) (st : List Entry) :
    (renderStack (m.applyTo e st)).length ≤ (renderStack st).length + e.bytes.length := by
  cases m with
  | keep => simp [Move.applyTo]
  | push => simp [Move.applyTo]
  | pop =>
    cases st with
    | nil => simp [Move.applyTo]
    | cons t st =>
      simp only [Move.applyTo, List.tail_cons, renderStack_cons, List.length_append]
      omega
  | replace =>
    cases st with
    | nil => simp [Move.applyTo]
    | cons t st =>
      simp only [Move.applyTo, List.tail_cons, renderStack_cons, List.length_append]
      omega

theorem bytes_map_length (e : Entry) (f : Byte → Byte) :
    (Entry.bytes ⟨e.comp, e.sep.map f⟩).length = e.bytes.length := by
  cases h : e.sep <;> simp [Entry.bytes, h]

theorem renderStack_pushComp_le (r : StackRules) (st : List Entry) (e : Entry) :
    (renderStack (pushComp r st e)).length ≤ (renderStack st).length + e.bytes.length := by
  have hlen := bytes_map_length e r.emit
  simp only [pushComp]
  split
  · rw [← hlen]
    exact renderStack_applyTo_le _ _ st
  · apply Nat.le_of_eq
    rw [renderStack_cons, List.length_append, hlen]

/-- The capacity test passes, and the entry is written behind the rest of the stack. -/
theorem normalizeEmit_eq (c : NormalizeCfg) (st : NormalizeSt) (stack : List Entry) (e : Entry)
    (hdst : st.dst = renderStack stack) (hroom : st.dst.length + e.bytes.length ≤ c.cap) :
    normalizeEmit c st e.comp e.sep =
      some { st with dst := renderStack (⟨e.comp, e.sep.map (emitSep c.flags)⟩ :: stack) } := by
  have hlen : e.bytes.length = e.comp.length + if e.sep.isSome then 1 else 0 := by
    cases h : e.sep <;> simp [Entry.bytes, h]
  unfold normalizeEmit
  rw [if_neg (by omega), renderStack_cons, ← hdst, Entry.bytes, List.append_assoc]

/-- At a `".."` the code makes the move of the stack machine. -/
def ParentAgrees (c : NormalizeCfg) (stack : List Entry) : Prop :=
  normalizeParent c (renderStack stack) = parentOf stack (dotdotMove (rulesOf c.flags) stack)

/-- **One component.**  It makes the move of the stack machine. -/
theorem normalizePart_eq (c : NormalizeCfg) (st : NormalizeSt) (stack : List Entry) (e : Entry)
    (hdst : st.dst = renderStack stack) (hs : e.comp = dotdotComp → ParentAgrees c stack)
    (hroom : st.dst.length + e.bytes.length ≤ c.cap) :
    normalizePart c st e.comp e.sep =
      some { st with dst := renderStack (pushComp (rulesOf c.flags) stack e) } := by
  unfold normalizePart pushComp
  split
  · rename_i hdd
    have hparent : normalizeParent c (renderStack stack) = _ := hs hdd
    rw [hdst, hparent]
    have htail : (renderStack stack.tail).length ≤ (renderStack stack).length := by
      cases stack with
      | nil => simp
      | cons t below => simp
    rw [hdst] at hroom
    cases dotdotMove (rulesOf c.flags) stack with
    | keep => rfl
    | pop => rfl
    | push => exact normalizeEmit_eq c _ stack e rfl hroom
    | replace => exact normalizeEmit_eq c _ stack.tail e rfl (by simp only; omega)
  · exact normalizeEmit_eq c st stack e hdst hroom

section Step

variable {c : NormalizeCfg} {len : Nat}

/-- A component that is dropped leaves the output as it is. -/
theorem OutputSim.drop {st : NormalizeSt} {stack : List Entry} (h : OutputSim len st stack)
    (hne : st.s ≠ []) (b1 b2 : Bool) :
    OutputSim len ⟨splitRest st.s c.slashes, st.dst, b1, b2⟩ stack := by
  have hlt := @splitRest_length_lt st.s c.slashes hne
  have hroom := h.room
  exact ⟨h.dst_eq, by simp only; omega⟩

/-- A component that is not dropped makes its move. -/
theorem OutputSim.push {st : NormalizeSt} {stack : List Entry} (h : OutputSim len st stack)
    (hparent : (splitEntry st.s c.slashes).comp = dotdotComp → ParentAgrees c stack)
    (hne : st.s ≠ []) (hcap : len ≤ c.cap) (b1 b2 : Bool) :
    ∃ st', normalizePart c ⟨splitRest st.s c.slashes, st.dst, b1, b2⟩
        (splitEntry st.s c.slashes).comp (splitEntry st.s c.slashes).sep = some st' ∧
      st'.s = splitRest st.s c.slashes ∧ st'.simplify = b1 ∧ st'.skipDisk = b2 ∧
      OutputSim len st' (pushComp (rulesOf c.flags) stack (splitEntry st.s c.slashes)) := by
  obtain ⟨hs, -, -⟩ := split_spec c.slashes st.s hne
  generalize splitEntry st.s c.slashes = e at *
  generalize splitRest st.s c.slashes = rest at *
  have hlen := congrArg List.length hs
  rw [List.length_append] at hlen
  have hroom := h.room
  have hpush := renderStack_pushComp_le (rulesOf c.flags) stack e
  rw [← h.dst_eq] at hpush
  exact ⟨_, normalizePart_eq c ⟨rest, st.dst, b1, b2⟩ stack e h.dst_eq hparent
    (by simp only; omega), rfl, rfl, rfl, rfl, by simp only; omega⟩

theorem pathStep_push {r : StackRules} {s : PathSt} {e : Entry}
    (htriv : isTrivial e.comp = true → s.first = true ∧ r.simple = false)
    (hdisk : r.disk = true → r.simple = true → s.fresh = true → e.comp.getLast? ≠ some COLON) :
    pathStep r s e = ⟨false, s.fresh && isTrivial e.comp, pushComp r s.stack e⟩ := by
  have h1 : ¬ (isTrivial e.comp = true ∧ ¬ (s.first = true ∧ ¬ r.simple = true)) := by
    rintro ⟨ht, hn⟩
    exact hn ⟨(htriv ht).1, by rw [(htriv ht).2]; simp⟩
  have h2 : ¬ (r.simple = true ∧ r.disk = true ∧ s.fresh = true ∧ endsWithColon e.comp = true) := by
    rintro ⟨hs, hd, hf, hc⟩
    exact hdisk hd hs hf (by simpa [endsWithColon] using hc)
  rw [pathStep, if_neg h1, if_neg h2]

theorem pathStep_trivial {r : StackRules} {s : PathSt} {e : Entry} (ht : isTrivial e.comp = true)
    (h : r.simple = true ∨ s.first = false) : pathStep r s e = ⟨false, s.fresh, s.stack⟩ := by
  have h1 : isTrivial e.comp = true ∧ ¬ (s.first = true ∧ ¬ r.simple = true) := by
    refine ⟨ht, ?_⟩
    rintro ⟨hf, hs⟩
    rcases h with h | h
    · exact hs h
    · rw [h] at hf
      cases hf
  rw [pathStep, if_pos h1, ht, Bool.and_true]

theorem pathStep_disk {r : StackRules} {s : PathSt} {e : Entry} (ht : isTrivial e.comp = false)
    (hd : r.disk = true) (hs : r.simple = true) (hf : s.fresh = true)
    (hc : e.comp.getLast? = some COLON) : pathStep r s e = ⟨false, false, s.stack⟩ := by
  rw [pathStep, if_neg (by simp [ht]), if_pos ⟨hs, hd, hf, by simp [endsWithColon, hc]⟩, ht,
    Bool.and_false]

/-- One iteration in terms of the pair that is cut off. -/
theorem normalizeStep_eq (st : NormalizeSt) :
    normalizeStep c st =
      let e := splitEntry st.s c.slashes
      let rest := splitRest st.s c.slashes
      if st.simplify then
        if e.comp = [] ∨ e.comp = dotComp then some ⟨rest, st.dst, st.simplify, st.skipDisk⟩
        else if st.skipDisk then
          if e.comp.getLast? = some COLON then some ⟨rest, st.dst, st.simplify, false⟩
          else normalizePart c ⟨rest, st.dst, st.simplify, false⟩ e.comp e.sep
        else normalizePart c ⟨rest, st.dst, st.simplify, st.skipDisk⟩ e.comp e.sep
      else normalizePart c ⟨rest, st.dst, true, st.skipDisk⟩ e.comp e.sep := rfl

/-- **One iteration of the loop is one step of the stack machine**, if the code makes its move at a
    `".."`. -/
theorem normalizeStep_loopSim {st : NormalizeSt} {s : PathSt} (h : LoopSim c len st s)
    (hne : st.s ≠ []) (hcap : len ≤ c.cap)
    (hparent : (splitEntry st.s c.slashes).comp = dotdotComp → ParentAgrees c s.stack) :
    ∃ st', normalizeStep c st = some st' ∧ st'.s = splitRest st.s c.slashes ∧
      LoopSim c len st' (pathStep (rulesOf c.flags) s (splitEntry st.s c.slashes)) := by
  have hsimp := h.simplify_eq
  have hskip := h.skip_eq
  have hpush := h.push hparent hne hcap
  have hdrop := @OutputSim.drop c len st s.stack h.toOutputSim hne
  rw [normalizeStep_eq]
  generalize splitEntry st.s c.slashes = e at *
  simp only
  split
  · rename_i hs
    rw [hs] at hsimp
    split
    · -- an empty component or "."
      rename_i ht
      have ht : isTrivial e.comp = true := by simpa [isTrivial] using ht
      refine ⟨_, rfl, rfl, ?_⟩
      rw [pathStep_trivial ht (by simpa using hsimp.symm)]
      exact ⟨hdrop _ _, by simp [hs], hskip⟩
    · rename_i ht
      have ht : isTrivial e.comp = false := by simpa [isTrivial] using ht
      split
      · rename_i hk
        rw [hk] at hskip
        have hrules : ((rulesOf c.flags).disk = true ∧ (rulesOf c.flags).simple = true) ∧
            s.fresh = true := by simpa using hskip.symm
        split
        · -- the disk of a simple path
          rename_i hc
          refine ⟨_, rfl, rfl, ?_⟩
          rw [pathStep_disk ht hrules.1.1 hrules.1.2 hrules.2 hc]
          exact ⟨hdrop _ _, by simp [hs], by simp⟩
        · rename_i hc
          obtain ⟨st', h1, h2, h3, h4, h5⟩ := hpush st.simplify false
          refine ⟨st', h1, h2, ?_⟩
          rw [pathStep_push (by simp [ht]) (fun _ _ _ => hc)]
          exact ⟨h5, by simp [h3, hs], by simp [h4, ht]⟩
      · rename_i hk
        obtain ⟨st', h1, h2, h3, h4, h5⟩ := hpush st.simplify st.skipDisk
        refine ⟨st', h1, h2, ?_⟩
        rw [pathStep_push (by simp [ht])
          (fun hd hsi hf => absurd (by rw [hskip, hd, hsi, hf]; rfl) hk)]
        exact ⟨h5, by simp [h3, hs], by simp [h4, ht, hk]⟩
  · -- the first component of a path that is not simple
    rename_i hs
    have hboth : (rulesOf c.flags).simple = false ∧ s.first = true := by
      rw [hsimp] at hs
      simpa using hs
    obtain ⟨st', h1, h2, h3, h4, h5⟩ := hpush true st.skipDisk
    refine ⟨st', h1, h2, ?_⟩
    rw [pathStep_push (fun _ => ⟨hboth.2, hboth.1⟩)
      (fun _ hsi => by rw [hboth.1] at hsi; cases hsi)]
    exact ⟨h5, by simp [h3], by simp [h4, hskip, hboth.1]⟩

/-- The step keeps the shape of the stack, so that the search goes on to find its top. -/
theorem normalizeStep_sim {st : NormalizeSt} {s : PathSt} (h : NormalizeSim c len st s)
    (hne : st.s ≠ []) (hcap : len ≤ c.cap)
    (hemit : ∀ b ∈ c.slashes, emitSep c.flags b ∈ c.slashes) :
    ∃ st', normalizeStep c st = some st' ∧ st'.s = splitRest st.s c.slashes ∧
      NormalizeSim c len st' (pathStep (rulesOf c.flags) s (splitEntry st.s c.slashes)) := by
  have hsealed := h.stack_sealed hne
  obtain ⟨st', hst, hs, hsim⟩ := normalizeStep_loopSim h.toLoopSim hne hcap
    (fun _ => normalizeParent_eq c s.stack hsealed)
  obtain ⟨-, hclean, hsep⟩ := split_spec c.slashes st.s hne
  refine ⟨st', hst, hs, hsim, nofun, ?_⟩
  intro hrest
  rw [hs] at hrest
  exact (pathStep_framed (r := rulesOf c.flags) hemit h.first_empty hsealed hclean).2 (hsep hrest)

theorem normalizeLoop_done {st : NormalizeSt} (h : st.s = []) (fuel : Nat) :
    normalizeLoop c fuel st = some st.dst := by
  cases fuel with
  | zero => simp [normalizeLoop, h]
  | succ fuel => simp [normalizeLoop, h]

/-- The loop rule: what every iteration keeps holds at the end, and as many iterations as there are
    bytes are enough. -/
theorem normalizeLoop_rule {I : NormalizeSt → Prop}
    (hstep : ∀ st, I st → st.s ≠ [] →
      ∃ st', normalizeStep c st = some st' ∧ st'.s = splitRest st.s c.slashes ∧ I st') :
    ∀ (fuel : Nat) (st : NormalizeSt), I st → st.s.length ≤ fuel →
      ∃ st', normalizeLoop c fuel st = some st'.dst ∧ st'.s = [] ∧ I st' := by
  intro fuel
  induction fuel with
  | zero =>
    intro st h hfuel
    have hnil : st.s = [] := List.length_eq_zero_iff.mp (by omega)
    exact ⟨st, by simp [normalizeLoop, hnil], hnil, h⟩
  | succ fuel ih =>
    intro st h hfuel
    unfold normalizeLoop
    split
    · rename_i hnil
      exact ⟨st, rfl, hnil, h⟩
    · rename_i hne
      obtain ⟨st', hst, hs, hI⟩ := hstep st h hne
      have hlt := @splitRest_length_lt st.s c.slashes hne
      rw [hst]
      exact ih st' hI (by rw [hs]; omega)

/-- The loop builds the stack, and `s.length` iterations are enough. -/
theorem normalizeLoop_eq (hcap : len ≤ c.cap)
    (hemit : ∀ b ∈ c.slashes, emitSep c.flags b ∈ c.slashes) (fuel : Nat) (st : NormalizeSt)
    (s : PathSt) (h : NormalizeSim c len st s) (hfuel : st.s.length ≤ fuel) :
    ∃ out, normalizeLoop c fuel st = some out ∧ out.length ≤ len ∧
      out = renderStack ((pieces c.slashes st.s).foldl (pathStep (rulesOf c.flags)) s).stack := by
  -- the stack at the end is the same from every state of the loop
  let I : NormalizeSt → Prop := fun st' => ∃ s', NormalizeSim c len st' s' ∧
    (pieces c.slashes st'.s).foldl (pathStep (rulesOf c.flags)) s' =
      (pieces c.slashes st.s).foldl (pathStep (rulesOf c.flags)) s
  have hstep : ∀ st', I st' → st'.s ≠ [] →
      ∃ st'', normalizeStep c st' = some st'' ∧ st''.s = splitRest st'.s c.slashes ∧ I st'' := by
    rintro st' ⟨s', hsim, hend⟩ hne
    obtain ⟨st'', hst, hs, hsim'⟩ := normalizeStep_sim hsim hne hcap hemit
    refine ⟨st'', hst, hs, _, hsim', ?_⟩
    rw [← hend, pieces_eq c.slashes st'.s hne, List.foldl_cons, hs]
  obtain ⟨st', hrun, hnil, s', hsim, hend⟩ := normalizeLoop_rule hstep fuel st ⟨s, h, rfl⟩ hfuel
  have hroom := hsim.room
  refine ⟨st'.dst, hrun, by omega, ?_⟩
  rw [← hend, hsim.dst_eq, hnil]
  rfl

end Step

theorem hasFlag_effFlags (ffWin : Bool) (flags mask : BitVec 32)
    (h : FFPATH_DISK_LETTER &&& mask = 0) : hasFlag (effFlags ffWin flags) mask = hasFlag flags mask := by
  unfold effFlags
  split
  · unfold hasFlag
    rw [BitVec.and_or_distrib_right, h]
    simp
  · rfl

/-- The state before the loop. -/
def normalizeStart (flags : BitVec 32) (src : List Byte) : NormalizeSt where
  s := src
  dst := []
  simplify := hasFlag flags FFPATH_SIMPLE
  skipDisk := hasFlag flags FFPATH_DISK_LETTER && hasFlag flags FFPATH_SIMPLE

/-- A path that is not copied as it is. -/
theorem ffpathNormalize_eq_loop {ffWin : Bool} {src : List Byte} {flags : BitVec 32}
    (hpass : ¬ (hasFlag (effFlags ffWin flags) FFPATH_DISK_LETTER = true ∧ isPassThrough src = true))
    (cap : Nat) :
    ffpathNormalize ffWin cap src flags =
      normalizeLoop ⟨cap, effFlags ffWin flags, slashesOf ffWin flags⟩ src.length
        (normalizeStart (effFlags ffWin flags) src) := by
  unfold ffpathNormalize
  simp only
  rw [if_neg (by simpa using hpass)]
  rfl

theorem normalizeStart_loopSim (c : NormalizeCfg) (src : List Byte) :
    LoopSim c src.length (normalizeStart c.flags src) ⟨true, true, []⟩ :=
  ⟨⟨rfl, by simp [normalizeStart]⟩, by simp [normalizeStart, rulesOf],
    by simp [normalizeStart, rulesOf]⟩

/-- The loop from the start. -/
theorem normalizeLoop_start {c : NormalizeCfg} {src : List Byte} (hcap : src.length ≤ c.cap)
    (hemit : ∀ b ∈ c.slashes, emitSep c.flags b ∈ c.slashes) :
    ∃ out, normalizeLoop c src.length (normalizeStart c.flags src) = some out ∧
      out.length ≤ src.length ∧ out = renderStack (pathStack (rulesOf c.flags) c.slashes src) :=
  normalizeLoop_eq hcap hemit src.length _ ⟨true, true, []⟩
    ⟨normalizeStart_loopSim c src, fun _ => rfl, fun _ => trivial⟩ (Nat.le_refl _)

/-- **`ffpath_normalize` builds the component stack.**  For every source, build, flags that write
    only separators they split by, and a buffer of the size of the source: the function does not
    fail, writes at most `len` bytes, and writes the path of the stack.  A path that starts with
    two backslashes and is copied as it is in disk-letter mode is excepted. -/
theorem ffpathNormalize_stack (ffWin : Bool) (cap : Nat) (src : List Byte) (flags : BitVec 32)
    (hemit : ∀ b ∈ slashesOf ffWin flags, emitSep (effFlags ffWin flags) b ∈ slashesOf ffWin flags)
    (hpass : ¬ (hasFlag (effFlags ffWin flags) FFPATH_DISK_LETTER = true ∧ isPassThrough src = true))
    (hcap : src.length ≤ cap) :
    ∃ out, ffpathNormalize ffWin cap src flags = some out ∧ out.length ≤ src.length ∧
      out = renderStack (pathStack (rulesOf (effFlags ffWin flags)) (slashesOf ffWin flags) src) := by
  rw [ffpathNormalize_eq_loop hpass]
  exact @normalizeLoop_start ⟨cap, effFlags ffWin flags, slashesOf ffWin flags⟩ src hcap hemit

/-- `"c:\..\a//b/../c/."` by Windows rules with forced slashes. -/
theorem ffpathNormalize_stack_disk :
    ffpathNormalize true 17 "c:\\..\\a//b/../c/.".toUTF8.data.toList FFPATH_FORCE_SLASH =
      some "c:/a/c/".toUTF8.data.toList := by
  obtain ⟨out, hout, -, hstack⟩ := ffpathNormalize_stack true 17
    "c:\\..\\a//b/../c/.".toUTF8.data.toList FFPATH_FORCE_SLASH
    (by decide +kernel) (by decide +kernel) (by decide +kernel)
  rw [hout, hstack]
  decide +kernel

end FFSys.Path
