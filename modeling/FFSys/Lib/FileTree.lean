import Mathlib.Data.List.Infix
import Mathlib.Data.List.Basic
import Mathlib.Logic.Function.Basic

/-!
# Trees of directories and files

* `Tree` — directories and files under one root; every entry is in a directory.  A location is the
  list of names from the entry up to the root.
* `Tree.walk` — following a path from directory to directory; `walk_ok_iff` — it gets through if
  every place on the way is a directory.
* `Tree.make` — making one directory; `make_spec` — what it may do.
* `Grows` — entries stay as they are, and new ones are directories at given places.
-/

set_option autoImplicit false

namespace FFSys.Lib

/-- An entry; `D` is what a file has in it. -/
inductive Node (D : Type) where
  | dir
  | file (data : D)

structure Tree (N D : Type) where
  get : List N → Option (Node D)
  root : get [] = some .dir
  parent : ∀ n l, get (n :: l) ≠ none → get l = some .dir

/-- One step of a path: ".", ".." or a name. -/
inductive Move (N : Type) where
  | here
  | up
  | child (name : N)

/-- The root is its own parent. -/
def Move.apply {N : Type} (l : List N) : Move N → List N
  | .here => l
  | .up => l.tail
  | .child n => n :: l

variable {N D : Type}

/-- Where a path leads to by its text. -/
def goes (l : List N) (ms : List (Move N)) : List N := ms.foldl Move.apply l

@[simp] theorem goes_nil (l : List N) : goes l [] = l := rfl

@[simp] theorem goes_append (l : List N) (ms ms' : List (Move N)) :
    goes l (ms ++ ms') = goes (goes l ms) ms' :=
  List.foldl_append

@[simp] theorem goes_singleton (l : List N) (m : Move N) : goes l [m] = m.apply l := rfl

inductive WalkError where
  | missing
  | notDir
  deriving DecidableEq, Repr

inductive MakeResult where
  | made
  | already
  | failed (e : WalkError)
  deriving DecidableEq, Repr

/-! ## Walks -/

namespace Tree

/-- The place of a directory. -/
abbrev Dir (t : Tree N D) : Type := {l : List N // t.get l = some .dir}

def dirAt (t : Tree N D) (l : List N) : Except WalkError t.Dir :=
  match h : t.get l with
  | some .dir => .ok ⟨l, h⟩
  | some (.file _) => .error .notDir
  | none => .error .missing

def walk (t : Tree N D) : t.Dir → List (Move N) → Except WalkError t.Dir
  | d, [] => .ok d
  | d, m :: ms => (t.dirAt (m.apply d.1)).bind fun d' => walk t d' ms

/-- Every place on the way, the last one included, is a directory. -/
def Walks (t : Tree N D) (l : List N) (ms : List (Move N)) : Prop :=
  ∀ ps, ps <+: ms → t.get (goes l ps) = some .dir

variable {t : Tree N D}

theorem dirAt_ok_iff {l : List N} {d : t.Dir} : t.dirAt l = .ok d ↔ d.1 = l := by
  have hdir (hd : d.1 = l) : t.get l = some .dir := hd ▸ d.2
  unfold dirAt
  split
  · rename_i h
    simp only [Except.ok.injEq]
    exact ⟨fun hd => by rw [← hd], fun hd => Subtype.ext hd.symm⟩
  · rename_i h
    exact iff_of_false (fun hd => by cases hd) fun hd => by cases h.symm.trans (hdir hd)
  · rename_i h
    exact iff_of_false (fun hd => by cases hd) fun hd => by cases h.symm.trans (hdir hd)

theorem walks_cons {l : List N} {m : Move N} {ms : List (Move N)} :
    t.Walks l (m :: ms) ↔ t.get l = some .dir ∧ t.Walks (m.apply l) ms := by
  constructor
  · intro h
    exact ⟨h [] List.nil_prefix, fun ps hps => h (m :: ps) (List.cons_prefix_cons.mpr ⟨rfl, hps⟩)⟩
  · rintro ⟨h0, h⟩ ps hps
    rcases List.prefix_cons_iff.mp hps with rfl | ⟨qs, rfl, hqs⟩
    · exact h0
    · exact h qs hqs

/-- **A walk gets through** exactly if every place on the way is a directory. -/
theorem walk_ok_iff {ms : List (Move N)} : ∀ {d d' : t.Dir},
    t.walk d ms = .ok d' ↔ t.Walks d.1 ms ∧ d'.1 = goes d.1 ms := by
  induction ms with
  | nil =>
    intro d d'
    rw [walk, Except.ok.injEq]
    constructor
    · rintro rfl
      refine ⟨fun ps hps => ?_, rfl⟩
      rw [List.prefix_nil.mp hps]
      exact d.2
    · rintro ⟨-, h⟩
      exact Subtype.ext h.symm
  | cons m ms ih =>
    intro d d'
    rw [walk, walks_cons]
    cases hat : t.dirAt (m.apply d.1) with
    | ok e =>
      have he : e.1 = m.apply d.1 := dirAt_ok_iff.mp hat
      have hih := @ih e d'
      rw [he] at hih
      simp only [Except.bind, d.2, true_and]
      exact hih
    | error e =>
      refine iff_of_false (fun h => by cases h) ?_
      rintro ⟨⟨-, hw⟩, -⟩
      have hok : t.dirAt (m.apply d.1) = .ok ⟨m.apply d.1, hw [] List.nil_prefix⟩ :=
        dirAt_ok_iff.mpr rfl
      rw [hat] at hok
      cases hok

theorem Walks.shorter {l : List N} {ms ms' : List (Move N)} (h : t.Walks l ms')
    (hpre : ms <+: ms') : t.Walks l ms :=
  fun ps hps => h ps (hps.trans hpre)

theorem walks_concat {l : List N} {ms : List (Move N)} {m : Move N} :
    t.Walks l (ms ++ [m]) ↔ t.Walks l ms ∧ t.get (m.apply (goes l ms)) = some .dir := by
  constructor
  · intro h
    refine ⟨h.shorter (List.prefix_append _ _), ?_⟩
    simpa using h (ms ++ [m]) List.prefix_rfl
  · rintro ⟨h, hlast⟩ ps hps
    rcases List.prefix_concat_iff.mp hps with rfl | hps
    · simpa using hlast
    · exact h ps hps

theorem walks_of_dropLast {l : List N} {ms : List (Move N)} (h : t.Walks l ms.dropLast)
    (hlast : t.get (goes l ms) = some .dir) : t.Walks l ms := by
  rcases List.eq_nil_or_concat ms with rfl | ⟨init, m, rfl⟩
  · exact h
  · rw [List.concat_eq_append] at h hlast ⊢
    rw [List.dropLast_concat] at h
    rw [goes_append, goes_singleton] at hlast
    exact walks_concat.mpr ⟨h, hlast⟩

/-! ## Making a directory -/

/-- A new directory `n` in `d`. -/
def addDir [DecidableEq N] (t : Tree N D) (d : t.Dir) (n : N) (h : t.get (n :: d.1) = none) :
    Tree N D where
  get := Function.update t.get (n :: d.1) (some .dir)
  root := by
    rw [Function.update_of_ne (List.cons_ne_nil _ _).symm]
    exact t.root
  parent n' l hl := by
    by_cases hnew : n' :: l = n :: d.1
    · obtain ⟨rfl, rfl⟩ := List.cons.inj hnew
      rw [Function.update_of_ne (by simp)]
      exact d.2
    · rw [Function.update_of_ne hnew] at hl
      have hdir := t.parent n' l hl
      by_cases hl' : l = n :: d.1
      · rw [hl', h] at hdir
        cases hdir
      · rw [Function.update_of_ne hl', hdir]

/-- Making the directory at the end of a path: what is before the last move has to be a directory.
    The end of a path without moves, and of one that ends with "." or "..", is a directory already. -/
def make [DecidableEq N] (t : Tree N D) (start : t.Dir) (ms : List (Move N)) :
    MakeResult × Tree N D :=
  match t.walk start ms.dropLast with
  | .error e => (.failed e, t)
  | .ok d =>
    match ms.getLast? with
    | some (.child n) =>
      if h : t.get (n :: d.1) = none then (.made, t.addDir d n h) else (.already, t)
    | _ => (.already, t)

/-- `t'` has all entries of `t` as they are, and any other one is a directory at a place in `new`. -/
structure Grows (t t' : Tree N D) (new : List N → Prop) : Prop where
  kept : ∀ l, t.get l ≠ none → t'.get l = t.get l
  created : ∀ l, t.get l = none → t'.get l = none ∨ t'.get l = some .dir ∧ new l

variable {t' t'' : Tree N D} {new new' : List N → Prop}

theorem Grows.refl (t : Tree N D) (new : List N → Prop) : t.Grows t new :=
  ⟨fun _ _ => rfl, fun _ h => Or.inl h⟩

theorem Grows.trans (h : t.Grows t' new) (h' : t'.Grows t'' new) : t.Grows t'' new := by
  refine ⟨fun l hl => ?_, fun l hl => ?_⟩
  · rw [h'.kept l (by rw [h.kept l hl]; exact hl), h.kept l hl]
  · rcases h.created l hl with hnone | ⟨hdir, hnew⟩
    · exact h'.created l hnone
    · have hkept := h'.kept l (by rw [hdir]; exact Option.some_ne_none _)
      exact Or.inr ⟨hkept.trans hdir, hnew⟩

theorem Grows.mono (h : t.Grows t' new) (himp : ∀ l, new l → new' l) : t.Grows t' new' :=
  ⟨h.kept, fun l hl => (h.created l hl).imp_right fun hd => ⟨hd.1, himp l hd.2⟩⟩

theorem Grows.dir (h : t.Grows t' new) {l : List N} (hl : t.get l = some .dir) :
    t'.get l = some .dir := by
  rw [h.kept l (by rw [hl]; exact Option.some_ne_none _), hl]

theorem Grows.walks (h : t.Grows t' new) {l : List N} {ms : List (Move N)} (hw : t.Walks l ms) :
    t'.Walks l ms :=
  fun ps hps => h.dir (hw ps hps)

/-- A file was there before. -/
theorem Grows.file (h : t.Grows t' new) {l : List N} {data : D} (hl : t'.get l = some (.file data)) :
    t.get l = some (.file data) := by
  cases hold : t.get l with
  | none =>
    rcases h.created l hold with hnone | ⟨hdir, -⟩
    · rw [hl] at hnone
      cases hnone
    · rw [hl] at hdir
      cases hdir
  | some e => rw [← hold, ← h.kept l (by rw [hold]; exact Option.some_ne_none _), hl]

/-- The end of a path whose last move is not a name. -/
theorem apply_dir {l : List N} (hl : t.get l = some .dir) : t.get l.tail = some .dir := by
  cases l with
  | nil => exact hl
  | cons n l => exact t.parent n l (by rw [hl]; exact Option.some_ne_none _)

variable [DecidableEq N]

theorem grows_addDir (d : t.Dir) (n : N) (h : t.get (n :: d.1) = none) :
    t.Grows (t.addDir d n h) (· = n :: d.1) := by
  refine ⟨fun l hl => ?_, fun l hl => ?_⟩
  · have hne : l ≠ n :: d.1 := fun heq => hl (heq ▸ h)
    exact Function.update_of_ne hne _ _
  · by_cases heq : l = n :: d.1
    · refine Or.inr ⟨?_, heq⟩
      rw [heq]
      exact Function.update_self _ _ _
    · refine Or.inl ?_
      rw [← hl]
      exact Function.update_of_ne heq _ _

/-- Making a directory does nothing if what is before the last move is not a directory. -/
theorem make_failed {start : t.Dir} {ms : List (Move N)} (h : ¬ t.Walks start.1 ms.dropLast) :
    ∃ e, t.make start ms = (.failed e, t) := by
  cases hwalk : t.walk start ms.dropLast with
  | error e => exact ⟨e, by rw [make, hwalk]⟩
  | ok d => exact absurd (walk_ok_iff.mp hwalk).1 h

/-- **Making a directory** where this can be done: there is an entry at the end of the path
    afterwards, and nothing else is new. -/
theorem make_spec {start : t.Dir} {ms : List (Move N)} (h : t.Walks start.1 ms.dropLast) :
    (∀ e, (t.make start ms).1 ≠ .failed e) ∧ t.Grows (t.make start ms).2 (· = goes start.1 ms) ∧
      (t.make start ms).2.get (goes start.1 ms) ≠ none := by
  obtain ⟨d, hwalk⟩ : ∃ d, t.walk start ms.dropLast = .ok d :=
    ⟨⟨goes start.1 ms.dropLast, h _ List.prefix_rfl⟩, walk_ok_iff.mpr ⟨h, rfl⟩⟩
  have hd : goes start.1 ms.dropLast = d.1 := (walk_ok_iff.mp hwalk).2.symm
  have hsome {l : List N} (hl : t.get l = some .dir) : t.get l ≠ none := by
    rw [hl]
    exact Option.some_ne_none _
  have halready (hmake : t.make start ms = (.already, t)) (hentry : t.get (goes start.1 ms) ≠ none) :
      (∀ e, (t.make start ms).1 ≠ .failed e) ∧ t.Grows (t.make start ms).2 (· = goes start.1 ms) ∧
        (t.make start ms).2.get (goes start.1 ms) ≠ none := by
    rw [hmake]
    exact ⟨fun e he => (by cases he), Grows.refl t _, hentry⟩
  rcases List.eq_nil_or_concat ms with rfl | ⟨init, m, rfl⟩
  · exact halready (by rw [make, hwalk]; rfl) (hsome start.2)
  · rw [List.concat_eq_append, List.dropLast_concat] at hwalk hd
    rw [List.concat_eq_append] at halready ⊢
    have hgoes : goes start.1 (init ++ [m]) = m.apply d.1 := by rw [goes_append, hd, goes_singleton]
    have hlast : (init ++ [m]).getLast? = some m := by simp
    cases m with
    | here =>
      refine halready (by rw [make, List.dropLast_concat, hwalk, hlast]) ?_
      rw [hgoes]
      exact hsome d.2
    | up =>
      refine halready (by rw [make, List.dropLast_concat, hwalk, hlast]) ?_
      rw [hgoes]
      exact hsome (apply_dir d.2)
    | child n =>
      by_cases hnew : t.get (n :: d.1) = none
      · have hmake : t.make start (init ++ [.child n]) = (.made, t.addDir d n hnew) := by
          rw [make, List.dropLast_concat, hwalk, hlast]
          exact dif_pos hnew
        rw [hmake, hgoes]
        refine ⟨fun e he => (by cases he), grows_addDir d n hnew, ?_⟩
        have hget : (t.addDir d n hnew).get (n :: d.1) = some .dir := Function.update_self _ _ _
        rw [Move.apply, hget]
        exact Option.some_ne_none _
      · refine halready ?_ ?_
        · rw [make, List.dropLast_concat, hwalk, hlast]
          exact dif_neg hnew
        · rw [hgoes]
          exact hnew

theorem make_dir (start : t.Dir) (ms : List (Move N)) {l : List N} (hl : t.get l = some .dir) :
    (t.make start ms).2.get l = some .dir := by
  by_cases h : t.Walks start.1 ms.dropLast
  · exact (make_spec h).2.1.dir hl
  · obtain ⟨e, he⟩ := make_failed h
    rw [he]
    exact hl

end Tree

end FFSys.Lib
