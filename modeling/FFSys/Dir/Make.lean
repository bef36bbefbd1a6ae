import FFSys.Lib.Cuts

/-!
# Recursive mkdir

`ffdir_make_all` walks over the path in the caller's buffer; at each separator it ends the string
there for one call of `mkdir`, and puts the separator back.

* `Alphabet` — the terminator and the separators: bytes with '/' on UNIX, UTF-16 units with '/' and
  '\\' on Windows.
* `makeLoop`, `makeAll` — the loop, and the loop with its start, over either alphabet.
* `ffdirMakeAll`, `ffdirMakePath` — the two functions on UNIX.  Reading outside of the buffer is
  `none`.
* `attempts` — the calls for a list of names, up to the first failure other than "exists".
* `makeAll_run` — the loop makes the attempts for the cuts of the path, and leaves the buffer as it
  was.

`mkdir` is any function with a state of its own; what a file system does is in `FFSys.Dir.Tree`.
-/

set_option autoImplicit false

namespace FFSys.Dir

open FFSys.Lib

variable {α σ : Type}

/-! ## The functions -/

/-- What a call to make one directory says: it is made, the name exists (`FFERR_DIREXISTS`), or
    another error. -/
inductive Mkdir where
  | made
  | direxists
  | error (errno : Nat)
  deriving DecidableEq, Repr

structure Alphabet (α : Type) where
  nul : α
  isSep : α → Bool
  nul_not_sep : isSep nul = false

def unixChars : Alphabet UInt8 := ⟨0, (· == 0x2f), rfl⟩

def winChars : Alphabet UInt16 := ⟨0, fun c => c == 0x2f || c == 0x5c, rfl⟩

/-- The caller's buffer, the names that `mkdir` was called with so far, and the state of the system.
    -/
structure MakeState (α σ : Type) where
  path : List α
  names : List (List α)
  sys : σ

section Functions

variable [DecidableEq α]

/-- `ffdir_make`: the name is the C string at the start of the buffer. -/
def ffdirMake (A : Alphabet α) (mkdir : σ → List α → Mkdir × σ) (s : MakeState α σ) :
    Mkdir × MakeState α σ :=
  let name := s.path.takeWhile (· != A.nul)
  let r := mkdir s.sys name
  (r.1, { s with names := s.names ++ [name], sys := r.2 })

/-- The loop of `ffdir_make_all`: `none` in the result is 0, `some errno` a failure.
    The number is the fuel: the loop ends at a terminator, or reads outside of the buffer. -/
def makeLoop (A : Alphabet α) (mkdir : σ → List α → Mkdir × σ) :
    Nat → Nat → MakeState α σ → Option (Option Nat × MakeState α σ)
  | 0, _, _ => none
  | fuel + 1, off, s =>
    match s.path[off]? with
    | none => none
    | some c =>
      if A.isSep c || c == A.nul then
        let called := ffdirMake A mkdir { s with path := s.path.set off A.nul }
        let back := { called.2 with path := called.2.path.set off c }
        match called.1 with
        | .error errno => some (some errno, back)
        | _ => if c == A.nul then some (none, back) else makeLoop A mkdir fuel (off + 1) back
      else makeLoop A mkdir fuel (off + 1) s

/-- The loop from `off`, or from the character after a separator there. -/
def makeAll (A : Alphabet α) (mkdir : σ → List α → Mkdir × σ) (sys : σ) (path : List α) (off : Nat) :
    Option (Option Nat × MakeState α σ) :=
  match path[off]? with
  | none => none
  | some c => makeLoop A mkdir path.length (if A.isSep c then off + 1 else off) ⟨path, [], sys⟩

/-- `ffdir_make_all` on UNIX. -/
def ffdirMakeAll (mkdir : σ → List UInt8 → Mkdir × σ) (sys : σ) (path : List UInt8) (off : Nat) :
    Option (Option Nat × MakeState UInt8 σ) :=
  makeAll unixChars mkdir sys path off

/-- `ffs_rfindchar`: the position of the last `c`, or -1. -/
def ffsRfindchar (s : List UInt8) (c : UInt8) : Int :=
  match s.reverse.findIdx? (· == c) with
  | none => -1
  | some i => s.length - 1 - i

/-- `ffdir_make_path` on UNIX: the directories of the path of a file. -/
def ffdirMakePath (mkdir : σ → List UInt8 → Mkdir × σ) (sys : σ) (name : List UInt8) (off : Nat) :
    Option (Option Nat × MakeState UInt8 σ) :=
  let slash := ffsRfindchar (name.takeWhile (· != 0)) 0x2f
  if slash ≤ 0 then some (none, ⟨name, [], sys⟩)
  else
    match name[slash.toNat]? with
    | none => none
    | some c =>
      (ffdirMakeAll mkdir sys (name.set slash.toNat 0) off).map fun r =>
        (r.1, { r.2 with path := r.2.path.set slash.toNat c })

end Functions

/-! ## The attempts -/

/-- What the last call said, the names of the calls, and the state after them. -/
def attempts (mkdir : σ → List α → Mkdir × σ) : σ → List (List α) → Option Nat × List (List α) × σ
  | sys, [] => (none, [], sys)
  | sys, name :: names =>
    match mkdir sys name with
    | (.error errno, sys') => (some errno, [name], sys')
    | (_, sys') =>
      let rest := attempts mkdir sys' names
      (rest.1, name :: rest.2.1, rest.2.2)

/-- A run that leaves the buffer alone. -/
def leaves (path : List α) (names : List (List α)) (r : Option Nat × List (List α) × σ) :
    Option Nat × MakeState α σ :=
  (r.1, ⟨path, names ++ r.2.1, r.2.2⟩)

@[simp] theorem leaves_names (path : List α) (names : List (List α))
    (r : Option Nat × List (List α) × σ) :
    (leaves path names r).2.names = names ++ r.2.1 := rfl

/-! ## A run -/

section Run

variable [DecidableEq α] (A : Alphabet α) (mkdir : σ → List α → Mkdir × σ)

/-- The string that ends at the terminator. -/
theorem ffdirMake_eq {name : List α} (h : A.nul ∉ name) (t : List α) (names : List (List α))
    (sys : σ) :
    ffdirMake A mkdir ⟨name ++ A.nul :: t, names, sys⟩ =
      ((mkdir sys name).1, ⟨name ++ A.nul :: t, names ++ [name], (mkdir sys name).2⟩) := by
  rw [ffdirMake, takeWhile_terminated h]

/-- One call: with the character `c` after `name` replaced by the terminator, and put back. -/
theorem makeLoop_call {name : List α} {c : α} (h : A.nul ∉ name)
    (hc : (A.isSep c || c == A.nul) = true) (fuel : Nat) (t : List α) (names : List (List α))
    (sys : σ) :
    makeLoop A mkdir (fuel + 1) name.length ⟨name ++ c :: t, names, sys⟩ =
      match (mkdir sys name).1 with
      | .error errno => some (some errno, ⟨name ++ c :: t, names ++ [name], (mkdir sys name).2⟩)
      | _ =>
        if c == A.nul then some (none, ⟨name ++ c :: t, names ++ [name], (mkdir sys name).2⟩)
        else makeLoop A mkdir fuel (name.length + 1)
          ⟨name ++ c :: t, names ++ [name], (mkdir sys name).2⟩ := by
  have hget : (name ++ c :: t)[name.length]? = some c := by simp
  have hset (d : α) : (name ++ d :: t).set name.length A.nul = name ++ A.nul :: t := by simp
  have hback : (name ++ A.nul :: t).set name.length c = name ++ c :: t := by simp
  simp only [makeLoop, hget, hc, if_true, hset, ffdirMake_eq A mkdir h, hback]

/-- The loop makes the attempts for the cuts that are left. -/
theorem makeLoop_run (tail : List α) :
    ∀ (rest : List α) (fuel : Nat) (pre : List α) (names : List (List α))
    (sys : σ), A.nul ∉ pre ++ rest → rest.length < fuel →
    makeLoop A mkdir fuel pre.length ⟨pre ++ rest ++ A.nul :: tail, names, sys⟩ =
      some (leaves (pre ++ rest ++ A.nul :: tail) names
        (attempts mkdir sys (scanCuts A.isSep pre rest))) := by
  intro rest
  induction rest with
  | nil =>
    intro fuel pre names sys hnul hfuel
    obtain ⟨fuel, rfl⟩ : ∃ k, fuel = k + 1 := ⟨fuel - 1, by omega⟩
    rw [List.append_nil] at hnul ⊢
    rw [makeLoop_call A mkdir hnul (by simp), scanCuts, attempts]
    cases hm : mkdir sys pre with
    | mk r sys' => cases r <;> simp [attempts, leaves]
  | cons c rest ih =>
    intro fuel pre names sys hnul hfuel
    obtain ⟨fuel, rfl⟩ : ∃ k, fuel = k + 1 := ⟨fuel - 1, by omega⟩
    have hpre : A.nul ∉ pre := fun h => hnul (List.mem_append_left _ h)
    have hc : c ≠ A.nul := fun h => hnul (by simp [h])
    have hbuf : pre ++ c :: rest ++ A.nul :: tail = pre ++ [c] ++ rest ++ A.nul :: tail := by simp
    have hlen : pre.length + 1 = (pre ++ [c]).length := by simp
    have hnext (names' : List (List α)) (sys' : σ) := ih fuel (pre ++ [c]) names' sys'
      (by simpa using hnul) (by simpa using hfuel)
    rw [scanCuts]
    cases hsep : A.isSep c with
    | true =>
      have hcall := makeLoop_call A mkdir hpre (c := c) (by simp [hsep]) fuel
        (rest ++ A.nul :: tail) names sys
      rw [← List.cons_append, ← List.append_assoc] at hcall
      rw [hcall, if_pos rfl, attempts]
      cases hm : mkdir sys pre with
      | mk r sys' =>
        cases r with
        | error e => rfl
        | made | direxists =>
          simp only [beq_eq_false_iff_ne.mpr hc, Bool.false_eq_true, if_false]
          rw [hbuf, hlen, hnext]
          simp [leaves]
    | false =>
      have hget : (pre ++ c :: rest ++ A.nul :: tail)[pre.length]? = some c := by simp
      rw [makeLoop]
      simp only [hget, hsep, beq_eq_false_iff_ne.mpr hc, Bool.or_false, Bool.false_eq_true, if_false]
      rw [hbuf, hlen, hnext]

/-- **A run of the loop.**  From any offset in the path it makes the attempts for the cuts of the
    path after the offset, and the buffer is what it was. -/
theorem makeAll_run {path tail : List α} {off : Nat} (h : A.nul ∉ path) (hoff : off ≤ path.length)
    (sys : σ) :
    makeAll A mkdir sys (path ++ A.nul :: tail) off =
      some (leaves (path ++ A.nul :: tail) [] (attempts mkdir sys (cuts A.isSep path off))) := by
  have hstart : scanStart A.isSep path off ≤ path.length := scanStart_le hoff
  have hlen : (path.take (scanStart A.isSep path off)).length = scanStart A.isSep path off := by
    rw [List.length_take]
    omega
  have hrun := makeLoop_run A mkdir tail (path.drop (scanStart A.isSep path off))
    (path ++ A.nul :: tail).length
    (path.take (scanStart A.isSep path off)) [] sys (by rwa [List.take_append_drop])
    (by simp only [List.length_drop, List.length_append, List.length_cons]; omega)
  rw [List.take_append_drop, hlen] at hrun
  rw [cuts_eq_scan hoff, ← hrun, makeAll]
  rcases Nat.lt_or_ge off path.length with hlt | hge
  · have hget : (path ++ A.nul :: tail)[off]? = path[off]? := List.getElem?_append_left hlt
    have hsome : path[off]? = some path[off] := List.getElem?_eq_getElem hlt
    simp only [hget, hsome, scanStart, Option.any_some]
  · have hoff' : off = path.length := by omega
    simp [hoff', scanStart, A.nul_not_sep]

end Run

/-! ## The directories of a path -/

theorem findIdx_reverse_none {s : List UInt8} {c : UInt8} (h : c ∉ s) :
    s.reverse.findIdx? (· == c) = none := by
  rw [List.findIdx?_eq_none_iff]
  intro x hx
  have hne : x ≠ c := fun heq => h (heq ▸ List.mem_reverse.mp hx)
  simpa using hne

theorem ffsRfindchar_some {c : UInt8} {dir base : List UInt8} (h : c ∉ base) :
    ffsRfindchar (dir ++ c :: base) c = dir.length := by
  have hidx : (dir ++ c :: base).reverse.findIdx? (· == c) = some base.length := by
    rw [List.reverse_append, List.reverse_cons, List.append_assoc, List.findIdx?_append,
      findIdx_reverse_none h, List.singleton_append, List.findIdx?_cons, beq_self_eq_true]
    simp
  rw [ffsRfindchar, hidx]
  simp only [List.length_append, List.length_cons]
  omega

theorem ffsRfindchar_none {s : List UInt8} {c : UInt8} (h : c ∉ s) : ffsRfindchar s c = -1 := by
  rw [ffsRfindchar, findIdx_reverse_none h]

section Path

variable (mkdir : σ → List UInt8 → Mkdir × σ) (sys : σ)

theorem ffdirMakeAll_run {path : List UInt8} {off : Nat} (h : 0 ∉ path) (hoff : off ≤ path.length)
    (tail : List UInt8) :
    ffdirMakeAll mkdir sys (path ++ 0 :: tail) off =
      some (leaves (path ++ 0 :: tail) [] (attempts mkdir sys (cuts unixChars.isSep path off))) :=
  makeAll_run unixChars mkdir h hoff sys

/-- Without a separator after the first character there is nothing to make. -/
theorem ffdirMakePath_none {name : List UInt8} (h : 0 ∉ name) (hslash : 0x2f ∉ name.drop 1)
    (tail : List UInt8) (off : Nat) :
    ffdirMakePath mkdir sys (name ++ 0 :: tail) off = some (none, ⟨name ++ 0 :: tail, [], sys⟩) := by
  have hle : ffsRfindchar name 0x2f ≤ 0 := by
    cases name with
    | nil => decide
    | cons c name =>
      by_cases hc : c = 0x2f
      · have hsome := @ffsRfindchar_some 0x2f [] _ hslash
        rw [List.nil_append, List.drop_one, List.tail_cons] at hsome
        rw [hc, hsome]
        exact Int.le_refl _
      · rw [ffsRfindchar_none]
        · decide
        · simp only [List.mem_cons, not_or]
          exact ⟨fun heq => hc heq.symm, hslash⟩
  rw [ffdirMakePath, takeWhile_terminated h]
  exact if_pos hle

/-- Otherwise the attempts are for what is before the last separator. -/
theorem ffdirMakePath_some {dir base : List UInt8} (h : 0 ∉ dir ++ 0x2f :: base) (hdir : dir ≠ [])
    (hbase : 0x2f ∉ base) (tail : List UInt8) {off : Nat} (hoff : off ≤ dir.length) :
    ffdirMakePath mkdir sys (dir ++ 0x2f :: base ++ 0 :: tail) off =
      some (leaves (dir ++ 0x2f :: base ++ 0 :: tail) []
        (attempts mkdir sys (cuts unixChars.isSep dir off))) := by
  have hlen : 0 < dir.length := List.length_pos_of_ne_nil hdir
  have hnul : (0 : UInt8) ∉ dir := fun hmem => h (List.mem_append_left _ hmem)
  have hslash : ¬ (dir.length : Int) ≤ 0 := by omega
  have hget : (dir ++ 0x2f :: base ++ 0 :: tail)[dir.length]? = some 0x2f := by simp
  have hset : (dir ++ 0x2f :: base ++ 0 :: tail).set dir.length 0 =
      dir ++ 0 :: (base ++ 0 :: tail) := by simp
  have hback : (dir ++ 0 :: (base ++ 0 :: tail)).set dir.length 0x2f =
      dir ++ 0x2f :: base ++ 0 :: tail := by simp
  rw [ffdirMakePath, takeWhile_terminated h, ffsRfindchar_some hbase, if_neg hslash,
    Int.toNat_natCast]
  simp only [hget, hset, ffdirMakeAll_run mkdir sys hnul hoff, leaves, Option.map_some, hback]

/-- **The caller's buffer is restored**, whatever `mkdir` says and however the functions end, and
    `mkdir` is called for the cuts of the path, or of the part of it before the last separator,
    until it fails.  The directory of a name without a separator, or with one at the start only,
    exists: nothing is called for it. -/
theorem ffdirMake_restores (path tail : List UInt8) (h : 0 ∉ path) :
    (∀ off, off ≤ path.length → ∃ run, ffdirMakeAll mkdir sys (path ++ 0 :: tail) off = some run ∧
      run.2.path = path ++ 0 :: tail ∧
      (run.1, run.2.names, run.2.sys) = attempts mkdir sys (cuts unixChars.isSep path off)) ∧
    (∀ dir base, path = dir ++ 0x2f :: base → 0x2f ∉ base → dir ≠ [] → ∀ off, off ≤ dir.length →
      ∃ run, ffdirMakePath mkdir sys (path ++ 0 :: tail) off = some run ∧
        run.2.path = path ++ 0 :: tail ∧
        (run.1, run.2.names, run.2.sys) = attempts mkdir sys (cuts unixChars.isSep dir off)) ∧
    (0x2f ∉ path.drop 1 → ∀ off, ∃ run, ffdirMakePath mkdir sys (path ++ 0 :: tail) off = some run ∧
      run.2.path = path ++ 0 :: tail ∧ (run.1, run.2.names, run.2.sys) = (none, [], sys)) := by
  refine ⟨?_, ?_, ?_⟩
  · intro off hoff
    exact ⟨_, ffdirMakeAll_run mkdir sys h hoff tail, rfl, rfl⟩
  · rintro dir base rfl hbase hdir off hoff
    exact ⟨_, ffdirMakePath_some mkdir sys h hdir hbase tail hoff, rfl, rfl⟩
  · intro hslash off
    exact ⟨_, ffdirMakePath_none mkdir sys h hslash tail off, rfl, rfl⟩

end Path

/-- A `mkdir` that gives the answers of a list in turn, and then succeeds. -/
def scripted (answers : List Mkdir) (_ : List UInt8) : Mkdir × List Mkdir :=
  (answers.headD .made, answers.tail)

/-- "a/b/c" with "a" there and "a/b" refused. -/
theorem ffdirMake_restores_refused :
    (∃ run, ffdirMakeAll scripted [.direxists, .error 13]
        [0x61, 0x2f, 0x62, 0x2f, 0x63, 0, 0x78] 0 = some run ∧
      run.2.path = [0x61, 0x2f, 0x62, 0x2f, 0x63, 0, 0x78] ∧
      (run.1, run.2.names, run.2.sys) = (some 13, [[0x61], [0x61, 0x2f, 0x62]], [])) ∧
    (∃ run, ffdirMakePath scripted [.direxists, .error 13]
        [0x61, 0x2f, 0x62, 0x2f, 0x63, 0, 0x78] 0 = some run ∧
      run.2.path = [0x61, 0x2f, 0x62, 0x2f, 0x63, 0, 0x78] ∧
      (run.1, run.2.names, run.2.sys) = (some 13, [[0x61], [0x61, 0x2f, 0x62]], [])) ∧
    ∃ run, ffdirMakePath scripted [.error 13] [0x2f, 0x61, 0] 0 = some run ∧
      run.2.path = [0x2f, 0x61, 0] ∧ (run.1, run.2.names, run.2.sys) = (none, [], [.error 13]) :=
  ⟨(ffdirMake_restores scripted [.direxists, .error 13]
      [0x61, 0x2f, 0x62, 0x2f, 0x63] [0x78] (by decide)).1
      0 (by decide),
    (ffdirMake_restores scripted [.direxists, .error 13]
      [0x61, 0x2f, 0x62, 0x2f, 0x63] [0x78] (by decide)).2.1
      [0x61, 0x2f, 0x62] [0x63] rfl (by decide) (by decide) 0 (by decide),
    (ffdirMake_restores scripted [.error 13] [0x2f, 0x61] [] (by decide)).2.2 (by decide) 0⟩

/-- For "/a" the cut of what is before the separator, or of that with the separator, is not tried. -/
theorem ffdirMakePath_root_skipped :
    ¬ ∃ run, ffdirMakePath scripted [] [0x2f, 0x61, 0] 0 = some run ∧
      ∃ dir ∈ [[], [0x2f]], run.2.names =
        (attempts scripted [] (cuts unixChars.isSep dir 0)).2.1 := by
  rintro ⟨run, hrun, dir, hdir, hnames⟩
  rw [← Option.some.inj hrun] at hnames
  rcases List.mem_pair.mp hdir with rfl | rfl <;> revert hnames <;> decide

end FFSys.Dir
