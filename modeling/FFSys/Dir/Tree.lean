import FFSys.Dir.Make
import FFSys.Lib.FileTree
import Mathlib.Algebra.Order.Ring.Nat

/-!
# Recursive mkdir over a file system

* `FileSystem` — a tree of directories and regular files, and the current directory;
  `FileSystem.mkdir` — one call.
* `moves` — the components of a path; empty ones are none.
* `Made` — what a recursive mkdir that returns 0 should have done: the cuts of the path name
  directories, and nothing else is new.
* `EndsAtFile` — the path ends at a regular file, and does not pass one before.
* `ffdirMakeAll_made_iff` — the paths whose directory is there when `ffdir_make_all` returns 0.

`ffdir_make_all` takes "exists" for a success at each component.  Behind a regular file every
further component fails, but the last one has none behind it.
-/

set_option autoImplicit false

namespace FFSys.Dir

open FFSys.Lib

/-! ## The file system -/

abbrev Name := List UInt8

/-- A regular file has bytes in it. -/
structure FileSystem where
  tree : Tree Name (List UInt8)
  cwd : tree.Dir

def ENOENT : Nat := 2

def ENOTDIR : Nat := 20

def components (path : List UInt8) : List Name := (path.splitOn 0x2f).filter (· ≠ [])

def moveOf (name : Name) : Move Name :=
  if name = [0x2e] then .here else if name = [0x2e, 0x2e] then .up else .child name

def moves (path : List UInt8) : List (Move Name) := (components path).map moveOf

def errnoOf : WalkError → Nat
  | .missing => ENOENT
  | .notDir => ENOTDIR

def answerOf : MakeResult → Mkdir
  | .made => .made
  | .already => .direxists
  | .failed e => .error (errnoOf e)

namespace FileSystem

/-- Where the walk of a path starts. -/
def start (fs : FileSystem) (path : List UInt8) : fs.tree.Dir :=
  if path.head? = some 0x2f then ⟨[], fs.tree.root⟩ else fs.cwd

/-- `mkdir`: there is no entry with an empty path. -/
def mkdir (fs : FileSystem) (path : List UInt8) : Mkdir × FileSystem :=
  if path = [] then (.error ENOENT, fs)
  else
    (answerOf (fs.tree.make (fs.start path) (moves path)).1,
      ⟨(fs.tree.make (fs.start path) (moves path)).2, fs.cwd.1, Tree.make_dir _ _ fs.cwd.2⟩)

/-- The path names a directory. -/
def IsDir (fs : FileSystem) (path : List UInt8) : Prop :=
  path ≠ [] ∧ ∃ d, fs.tree.walk (fs.start path) (moves path) = .ok d

/-- Where the path leads to by its text. -/
def location (fs : FileSystem) (path : List UInt8) : List Name := goes (fs.start path).1 (moves path)

/-- A regular file at the end of the path, and none at a component before. -/
def EndsAtFile (fs : FileSystem) (path : List UInt8) : Prop :=
  (∃ data, fs.tree.get (fs.location path) = some (.file data)) ∧
    ∀ k, k < (moves path).length → ∀ data,
      fs.tree.get (goes (fs.start path).1 ((moves path).take k)) ≠ some (.file data)

end FileSystem

/-- The paths name directories; what is new is a directory at one of them, and what was there is as
    it was. -/
structure Made (fs fs' : FileSystem) (paths : List (List UInt8)) : Prop where
  dirs : ∀ path ∈ paths, fs'.IsDir path
  kept : ∀ l, fs.tree.get l ≠ none → fs'.tree.get l = fs.tree.get l
  created : ∀ l, fs.tree.get l = none → fs'.tree.get l ≠ none →
    fs'.tree.get l = some .dir ∧ ∃ path ∈ paths, fs.location path = l

/-! ## The components of a path -/

theorem components_append (a b : List UInt8) :
    components (a ++ 0x2f :: b) = components a ++ components b := by
  rw [components, List.splitOn_append_cons_self, List.filter_append]
  rfl

theorem components_noSep {seg : List UInt8} (h : NoSep unixChars.isSep seg) :
    components seg = if seg = [] then [] else [seg] := by
  have hno : (0x2f : UInt8) ∉ seg := fun hmem => by
    have hsep := h _ hmem
    cases hsep
  rw [components, List.splitOn_eq_singleton hno, List.filter_cons]
  split <;> simp_all

theorem moves_append (a b : List UInt8) : moves (a ++ 0x2f :: b) = moves a ++ moves b := by
  rw [moves, components_append, List.map_append]
  rfl

theorem moves_noSep {seg : List UInt8} (h : NoSep unixChars.isSep seg) :
    moves seg = [] ∨ ∃ m, moves seg = [m] := by
  rw [moves, components_noSep h]
  split
  · exact Or.inl rfl
  · exact Or.inr ⟨_, rfl⟩

theorem eq_slash {c : UInt8} (h : unixChars.isSep c = true) : c = 0x2f := by
  simpa [unixChars] using h

/-- A list cut at its last separator. -/
theorem last_sep (q : List UInt8) : NoSep unixChars.isSep q ∨
    ∃ a r, q = a ++ 0x2f :: r ∧ NoSep unixChars.isSep r := by
  induction q with
  | nil => exact Or.inl fun c hc => by cases hc
  | cons c q ih =>
    rcases ih with hno | ⟨a, r, rfl, hr⟩
    · cases hc : unixChars.isSep c with
      | true => exact Or.inr ⟨[], q, by rw [eq_slash hc]; rfl, hno⟩
      | false =>
        refine Or.inl fun x hx => ?_
        rcases List.mem_cons.mp hx with rfl | hx
        · exact hc
        · exact hno x hx
    · exact Or.inr ⟨c :: a, r, rfl, hr⟩

/-- What has to be a directory for `q` with a last component made longer was on the way of `q`. -/
theorem dropLast_append {q seg : List UInt8} (h : NoSep unixChars.isSep seg) :
    (moves (q ++ seg)).dropLast <+: moves q := by
  have hone {s : List UInt8} (hs : NoSep unixChars.isSep s) : (moves s).dropLast = [] := by
    rcases moves_noSep hs with hm | ⟨m, hm⟩ <;> rw [hm] <;> rfl
  have happ {r : List UInt8} (hr : NoSep unixChars.isSep r) : NoSep unixChars.isSep (r ++ seg) := by
    intro c hc
    rcases List.mem_append.mp hc with hc | hc
    · exact hr c hc
    · exact h c hc
  rcases last_sep q with hq | ⟨a, r, rfl, hr⟩
  · rw [hone (happ hq)]
    exact List.nil_prefix
  · rw [List.append_assoc, List.cons_append, moves_append, moves_append]
    rcases moves_noSep (happ hr) with hm | ⟨m, hm⟩
    · rw [hm, List.append_nil]
      exact (List.dropLast_prefix _).trans (List.prefix_append _ _)
    · rw [hm, List.dropLast_concat]
      exact List.prefix_append _ _

theorem dropLast_append_sep {q seg : List UInt8} (h : NoSep unixChars.isSep seg) :
    (moves (q ++ 0x2f :: seg)).dropLast <+: moves q := by
  rw [moves_append]
  rcases moves_noSep h with hm | ⟨m, hm⟩
  · rw [hm, List.append_nil]
    exact List.dropLast_prefix _
  · rw [hm, List.dropLast_concat]

/-! ## One call -/

section Calls

variable {fs fs' : FileSystem} {path : List UInt8}

theorem start_eq (h : fs'.cwd.1 = fs.cwd.1) : (fs'.start path).1 = (fs.start path).1 := by
  unfold FileSystem.start
  split
  · rfl
  · exact h

theorem location_eq (h : fs'.cwd.1 = fs.cwd.1) : fs'.location path = fs.location path := by
  rw [FileSystem.location, start_eq h, FileSystem.location]

/-- The start depends on the first byte only. -/
theorem start_append {a b : List UInt8} (h : a ≠ []) : fs.start (a ++ b) = fs.start a := by
  obtain ⟨c, a, rfl⟩ := List.exists_cons_of_ne_nil h
  rfl

theorem mkdir_cwd : (fs.mkdir path).2.cwd.1 = fs.cwd.1 := by
  by_cases h : path = []
  · rw [FileSystem.mkdir, if_pos h]
  · rw [FileSystem.mkdir, if_neg h]

/-- A call that does not fail had directories on the way. -/
theorem mkdir_walks (h : ∀ e, (fs.mkdir path).1 ≠ .error e) :
    path ≠ [] ∧ fs.tree.Walks (fs.start path).1 (moves path).dropLast := by
  unfold FileSystem.mkdir at h
  split at h
  · exact absurd rfl (h ENOENT)
  · rename_i hne
    refine ⟨hne, ?_⟩
    by_contra hnot
    obtain ⟨e, he⟩ := Tree.make_failed hnot
    exact h (errnoOf e) (congrArg (fun r => answerOf r.1) he)

theorem mkdir_spec (hne : path ≠ []) (hw : fs.tree.Walks (fs.start path).1 (moves path).dropLast) :
    (∀ e, (fs.mkdir path).1 ≠ .error e) ∧
      fs.tree.Grows (fs.mkdir path).2.tree (· = fs.location path) ∧
      (fs.mkdir path).2.tree.get (fs.location path) ≠ none := by
  obtain ⟨hok, hgrows, hget⟩ := Tree.make_spec hw
  rw [FileSystem.mkdir, if_neg hne]
  refine ⟨fun e he => ?_, hgrows, hget⟩
  cases hres : (fs.tree.make (fs.start path) (moves path)).1 with
  | made =>
    rw [hres] at he
    cases he
  | already =>
    rw [hres] at he
    cases he
  | failed w => exact hok w hres

theorem isDir_iff :
    fs.IsDir path ↔ path ≠ [] ∧ fs.tree.Walks (fs.start path).1 (moves path) := by
  refine and_congr_right fun _ => ⟨?_, fun h => ?_⟩
  · rintro ⟨d, hd⟩
    exact (Tree.walk_ok_iff.mp hd).1
  · exact ⟨⟨fs.location path, h _ List.prefix_rfl⟩, Tree.walk_ok_iff.mpr ⟨h, rfl⟩⟩

end Calls

/-! ## All calls -/

section Attempts

variable {fs : FileSystem}

theorem attempts_cons_none {name : List UInt8} {names : List (List UInt8)}
    (h : (attempts FileSystem.mkdir fs (name :: names)).1 = none) :
    (∀ e, (fs.mkdir name).1 ≠ .error e) ∧
      (attempts FileSystem.mkdir (fs.mkdir name).2 names).1 = none ∧
      (attempts FileSystem.mkdir fs (name :: names)).2.2 =
        (attempts FileSystem.mkdir (fs.mkdir name).2 names).2.2 := by
  rw [attempts] at h ⊢
  split at h
  · cases h
  · rename_i r fs' hr hm
    rw [hm]
    exact ⟨fun e he => hr e he, h, rfl⟩

/-- Calls that all go through. -/
theorem attempts_none (names : List (List UInt8)) : ∀ (fs : FileSystem),
    (attempts FileSystem.mkdir fs names).1 = none →
    let fs' := (attempts FileSystem.mkdir fs names).2.2
    fs'.cwd.1 = fs.cwd.1 ∧ fs.tree.Grows fs'.tree (fun l => ∃ q ∈ names, fs.location q = l) ∧
      ∀ q ∈ names, q ≠ [] ∧ fs'.tree.Walks (fs.start q).1 (moves q).dropLast ∧
        fs'.tree.get (fs.location q) ≠ none := by
  induction names with
  | nil => exact fun fs _ => ⟨rfl, Tree.Grows.refl _ _, fun q hq => by cases hq⟩
  | cons name names ih =>
    intro fs h
    obtain ⟨hok, hrest, hend⟩ := attempts_cons_none h
    obtain ⟨hne, hw⟩ := mkdir_walks hok
    obtain ⟨-, hgrows, hget⟩ := mkdir_spec hne hw
    obtain ⟨hcwd, hgrows', hall⟩ := ih _ hrest
    have hloc (q : List UInt8) : (fs.mkdir name).2.location q = fs.location q := location_eq mkdir_cwd
    have hstart (q : List UInt8) : ((fs.mkdir name).2.start q).1 = (fs.start q).1 :=
      start_eq mkdir_cwd
    rw [hend]
    refine ⟨hcwd.trans mkdir_cwd, (hgrows.mono ?_).trans (hgrows'.mono ?_), ?_⟩
    · rintro l rfl
      exact ⟨name, List.mem_cons_self, rfl⟩
    · rintro l ⟨q, hq, rfl⟩
      exact ⟨q, List.mem_cons_of_mem _ hq, (hloc q).symm⟩
    · intro q hq
      rcases List.mem_cons.mp hq with rfl | hq
      · refine ⟨hne, hgrows'.walks (hgrows.walks hw), ?_⟩
        rw [hgrows'.kept _ hget]
        exact hget
      · obtain ⟨hq1, hq2, hq3⟩ := hall q hq
        rw [hstart] at hq2
        rw [hloc] at hq3
        exact ⟨hq1, hq2, hq3⟩

/-- From one path to the next: the same components, or one more. -/
def Next (q q' : List UInt8) : Prop := moves q' = moves q ∨ ∃ m, moves q' = moves q ++ [m]

/-- **No call fails** along paths that go from the place `s` through the moves `ms`, if no regular
    file of the tree at the start, `t`, is on the way before the end. -/
theorem attempts_go {t : Tree Name (List UInt8)} {s : List Name} {ms : List (Move Name)}
    (hfile : ∀ ps, ps <+: ms → ps.length < ms.length → ∀ data, t.get (goes s ps) ≠ some (.file data))
    (names : List (List UInt8)) : ∀ (fs : FileSystem), List.IsChain Next names →
    (∀ q ∈ names, q ≠ [] ∧ (fs.start q).1 = s ∧ moves q <+: ms) →
    (∀ q ∈ names.head?, fs.tree.Walks s (moves q).dropLast) → t.Grows fs.tree (fun _ => True) →
    (attempts FileSystem.mkdir fs names).1 = none := by
  induction names with
  | nil => exact fun fs _ _ _ _ => rfl
  | cons name names ih =>
    intro fs hchain hall hhead hgrow
    obtain ⟨hnext, hchain'⟩ := List.isChain_cons.mp hchain
    obtain ⟨hne, hs, hpre⟩ := hall name List.mem_cons_self
    have hw : fs.tree.Walks s (moves name).dropLast := hhead name rfl
    rw [← hs] at hw
    obtain ⟨hok, hgrows, hget⟩ := mkdir_spec hne hw
    have hgrow' := hgrow.trans (hgrows.mono fun _ _ => trivial)
    have hrest := ih (fs.mkdir name).2 hchain' (fun q hq => ?_) (fun q hq => ?_) hgrow'
    · rw [attempts]
      split
      · rename_i e fs' hm
        exact absurd (by rw [hm]) (hok e)
      · rename_i r fs' _ hm
        rw [hm] at hrest
        exact hrest
    · obtain ⟨hq1, hq2, hq3⟩ := hall q (List.mem_cons_of_mem _ hq)
      exact ⟨hq1, (start_eq mkdir_cwd).trans hq2, hq3⟩
    · rcases hnext q hq with heq | ⟨m, heq⟩
      · rw [heq, ← hs]
        exact hgrows.walks hw
      · have hlt : (moves name).length < ms.length := by
          have hq' := (hall q (List.mem_cons_of_mem _ (List.mem_of_mem_head? hq))).2.2.length_le
          rw [heq, List.length_append, List.length_singleton] at hq'
          omega
        rw [heq, List.dropLast_concat, ← hs]
        refine Tree.walks_of_dropLast (hgrows.walks hw) ?_
        -- there is an entry, and a file would have been there from the start
        cases hentry : (fs.mkdir name).2.tree.get (goes (fs.start name).1 (moves name)) with
        | none => exact absurd hentry hget
        | some node =>
          cases node with
          | dir => rfl
          | file data =>
            refine absurd (hgrow'.file hentry) ?_
            rw [hs]
            exact hfile _ hpre hlt data

end Attempts

/-! ## The cuts of a path -/

section Cuts

variable {fs : FileSystem} {path : List UInt8} {off : Nat}

theorem chain_cuts (hoff : off ≤ path.length) :
    List.IsChain Next (cuts unixChars.isSep path off) := by
  rw [cuts_eq_scan hoff]
  refine (chain_scanCuts _ _).imp ?_
  rintro q q' ⟨c, seg, hc, hseg, rfl⟩
  rw [eq_slash hc]
  unfold Next
  rw [moves_append]
  rcases moves_noSep hseg with hm | ⟨m, hm⟩
  · exact Or.inl (by rw [hm, List.append_nil])
  · exact Or.inr ⟨m, by rw [hm]⟩

theorem cut_of_path (hne : path ≠ []) {q : List UInt8} (hq : q ∈ cuts unixChars.isSep path off) :
    q ≠ [] ∧ fs.start path = fs.start q ∧ moves q <+: moves path := by
  rcases mem_cuts hq with rfl | ⟨c, rest, hlt, hc, rfl⟩
  · exact ⟨hne, rfl, List.prefix_rfl⟩
  · have hq0 : q ≠ [] := List.ne_nil_of_length_pos (by omega)
    rw [eq_slash hc, moves_append]
    exact ⟨hq0, start_append hq0, List.prefix_append _ _⟩

/-- Before the first call: what has to be a directory for it is one. -/
theorem first_walks (hoff : off ≤ path.length) (hdir : off = 0 ∨ fs.IsDir (path.take off)) :
    ∀ q ∈ (cuts unixChars.isSep path off).head?,
      fs.tree.Walks (fs.start path).1 (moves q).dropLast := by
  have hw : fs.tree.Walks (fs.start path).1 (moves (path.take off)) := by
    rcases hdir with rfl | hdir
    · intro ps hps
      rw [List.prefix_nil.mp hps]
      exact (fs.start path).2
    · obtain ⟨hne, hw⟩ := isDir_iff.mp hdir
      have hstart := @start_append fs _ (path.drop off) hne
      rw [List.take_append_drop] at hstart
      rw [hstart]
      exact hw
  obtain ⟨seg, hseg, hhead⟩ := @head_cuts _ unixChars.isSep path off hoff
  intro q hq
  rw [Option.mem_def] at hq
  rcases hhead with hhead | ⟨c, hc, hhead⟩
  · rw [hhead, Option.some.injEq] at hq
    rw [← hq]
    exact hw.shorter (dropLast_append hseg)
  · rw [hhead, Option.some.injEq, eq_slash hc] at hq
    rw [← hq]
    exact hw.shorter (dropLast_append_sep hseg)

/-- With a file at the end of the path only, every call goes through. -/
theorem endsAtFile_none (hoff : off ≤ path.length) (hdir : off = 0 ∨ fs.IsDir (path.take off))
    (hfile : fs.EndsAtFile path) :
    (attempts FileSystem.mkdir fs (cuts unixChars.isSep path off)).1 = none := by
  obtain ⟨⟨data, hend⟩, hbefore⟩ := hfile
  have hne : path ≠ [] := by
    rintro rfl
    have hstart := (fs.start []).2
    rw [FileSystem.location, show moves [] = [] from rfl, goes_nil, hstart] at hend
    cases hend
  refine @attempts_go fs.tree (fs.start path).1 (moves path) ?_ _ fs (chain_cuts hoff) ?_
    (first_walks hoff hdir) (Tree.Grows.refl _ _)
  · intro ps hps hlt d
    rw [List.prefix_iff_eq_take.mp hps]
    exact hbefore _ hlt d
  · intro q hq
    obtain ⟨hq0, hstart, hpre⟩ := @cut_of_path fs path off hne q hq
    exact ⟨hq0, by rw [hstart], hpre⟩

/-- When every call went through, the end of the path decides. -/
theorem made_of_dir (h : (attempts FileSystem.mkdir fs (cuts unixChars.isSep path off)).1 = none)
    (hend : (attempts FileSystem.mkdir fs (cuts unixChars.isSep path off)).2.2.tree.get
      (fs.location path) =
      some .dir) :
    Made fs (attempts FileSystem.mkdir fs (cuts unixChars.isSep path off)).2.2
      (cuts unixChars.isSep path off) := by
  obtain ⟨hcwd, hgrows, hall⟩ := attempts_none _ fs h
  obtain ⟨hne, hw, -⟩ := hall path (self_mem_cuts _ _ _)
  refine ⟨fun q hq => ?_, hgrows.kept, fun l hl hl' => ?_⟩
  · obtain ⟨hq0, hstart, hpre⟩ := @cut_of_path fs path off hne q hq
    rw [isDir_iff, start_eq hcwd, ← hstart]
    exact ⟨hq0, (Tree.walks_of_dropLast hw hend).shorter hpre⟩
  · exact (hgrows.created l hl).resolve_left hl'

end Cuts

/-- **Recursive mkdir makes the directory, or there is a file at the end of the path.**  From an
    offset that ends a directory, when `ffdir_make_all` returns 0 every cut of the path is a
    directory and nothing else is new, exactly if the path does not end at a regular file that the
    calls get to. -/
theorem ffdirMakeAll_made_iff (fs : FileSystem) (path tail : List UInt8) (off : Nat)
    (hpath : 0 ∉ path) (hoff : off ≤ path.length) (hdir : off = 0 ∨ fs.IsDir (path.take off)) :
    (∀ out, ffdirMakeAll FileSystem.mkdir fs (path ++ 0 :: tail) off = some (none, out) →
      Made fs out.sys (cuts unixChars.isSep path off)) ↔ ¬ fs.EndsAtFile path := by
  rw [ffdirMakeAll_run FileSystem.mkdir fs hpath hoff tail]
  constructor
  · intro h hfile
    have hnone := endsAtFile_none hoff hdir hfile
    have hmade := h _ (by rw [leaves, hnone])
    have hisdir := isDir_iff.mp (hmade.dirs path (self_mem_cuts _ _ _))
    obtain ⟨hcwd, -, -⟩ := attempts_none _ fs hnone
    obtain ⟨⟨data, hend⟩, -⟩ := hfile
    have hlast := hisdir.2 _ List.prefix_rfl
    rw [start_eq hcwd] at hlast
    have hkept := hmade.kept (fs.location path) (by rw [hend]; exact Option.some_ne_none _)
    rw [hend, FileSystem.location, hlast] at hkept
    cases hkept
  · intro hfile out hout
    rw [Option.some.injEq, leaves, Prod.mk.injEq] at hout
    obtain ⟨hnone, rfl⟩ := hout
    obtain ⟨-, hgrows, hall⟩ := attempts_none _ fs hnone
    obtain ⟨-, hw, hget⟩ := hall path (self_mem_cuts _ _ _)
    refine made_of_dir hnone ?_
    cases hentry : (attempts FileSystem.mkdir fs (cuts unixChars.isSep path off)).2.2.tree.get
      (fs.location path) with
    | none => exact absurd hentry hget
    | some node =>
      cases node with
      | dir => rfl
      | file data =>
        refine absurd ⟨⟨data, hgrows.file hentry⟩, fun k hk d hd => ?_⟩ hfile
        have hdirs := hw ((moves path).take k) ?_
        · rw [hgrows.kept _ (by rw [hd]; exact Option.some_ne_none _), hd] at hdirs
          cases hdirs
        · rw [List.dropLast_eq_take]
          exact List.take_prefix_take_left (by omega)

/-! ## A file in the way -/

/-- The root with one empty file "f" in it. -/
def oneFile : FileSystem where
  tree :=
    { get := fun l => if l = [] then some .dir else if l = [[0x66]] then some (.file []) else none
      root := rfl
      parent := by
        intro n l h
        by_cases hl : l = []
        · rw [if_pos hl]
        · have hne : n :: l ≠ [[0x66]] := fun heq => hl (List.cons.inj heq).2
          rw [if_neg (List.cons_ne_nil n l), if_neg hne] at h
          exact absurd rfl h }
  cwd := ⟨[], rfl⟩

/-- "d/e" next to the file. -/
theorem ffdirMakeAll_made_beside :
    ∃ out, ffdirMakeAll FileSystem.mkdir oneFile [0x64, 0x2f, 0x65, 0] 0 = some (none, out) ∧
      Made oneFile out.sys [[0x64], [0x64, 0x2f, 0x65]] := by
  have hfile : ¬ oneFile.EndsAtFile [0x64, 0x2f, 0x65] := by
    rintro ⟨⟨data, hdata⟩, -⟩
    cases hdata
  have hmade := (ffdirMakeAll_made_iff oneFile [0x64, 0x2f, 0x65] [] 0 (by decide) (by decide)
    (Or.inl rfl)).mpr hfile
  exact ⟨_, rfl, hmade _ rfl⟩

/-- "f" is taken for a directory. -/
theorem ffdirMakeAll_file_accepted :
    ¬ ∀ out, ffdirMakeAll FileSystem.mkdir oneFile [0x66, 0] 0 = some (none, out) →
      Made oneFile out.sys (cuts unixChars.isSep [0x66] 0) := by
  intro h
  have hrun : ffdirMakeAll FileSystem.mkdir oneFile [0x66, 0] 0 =
      some (none, ⟨[0x66, 0], [[0x66]], oneFile⟩) := rfl
  obtain ⟨-, d, hd⟩ := (h _ hrun).dirs [0x66] (by decide)
  cases hd

end FFSys.Dir
