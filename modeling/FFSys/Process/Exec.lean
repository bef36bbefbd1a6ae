import Mathlib.Logic.Function.Basic

/-!
# Starting a process (UNIX)

`ffps_exec_info` forks; the child moves the requested descriptors to 0, 1 and 2 with three `dup2`
calls, whose results it does not look at, changes the directory and executes the program.

* `dup2`, `execve` — the two system calls that work on the descriptor table.
* `execChild` — what the child does.
* `asked` — the descriptors that the caller of `ffps_exec_info` asks for.
* `Unclobbered` — no request is for a descriptor that an earlier `dup2` has replaced, and none for a
  close-on-exec descriptor at its own place, where `dup2` does nothing.
* `ffps_exec_info_fds` — the program has the descriptors it was asked to have exactly if
  `Unclobbered` holds.
-/

set_option autoImplicit false

namespace FFSys.Process

/-! ## Descriptors -/

/-- An open descriptor: what it is open on, and `FD_CLOEXEC`. -/
structure Desc where
  file : Nat
  cloexec : Bool
  deriving DecidableEq

/-- The descriptor table of a process. -/
abbrev Descs := Nat → Option Desc

/-- `dup2`: EBADF if `old` is not open; the copy is not close-on-exec, but nothing happens to a
    descriptor that is duplicated to itself. -/
def dup2 (t : Descs) (old new : Nat) : Descs :=
  match t old with
  | none => t
  | some d => if old = new then t else Function.update t new (some { d with cloexec := false })

/-- What a signal does to a process. -/
inductive Disposition
  | default | ignore | handler
  deriving DecidableEq

/-- A process, as far as `fork` and `execve` pass it on. -/
structure Image where
  fds : Descs
  signals : Nat → Disposition
  cwd : List UInt8

def SIGPIPE : Nat := 13

/-- `execve`: close-on-exec descriptors are closed, and handlers of the old program are gone. -/
def execve (p : Image) : Image where
  fds k := (p.fds k).bind fun d => if d.cloexec then none else some d
  signals s := if p.signals s = .handler then .default else p.signals s
  cwd := p.cwd

/-! ## The function -/

/-- `ffps_execinfo`; a descriptor is `none` if it is -1. -/
structure ExecInfo where
  argv : List (List UInt8)
  env : List (List UInt8)
  workdir : Option (List UInt8)
  fdIn : Option Nat
  fdOut : Option Nat
  fdErr : Option Nat

/-- `if (fd != -1) dup2(fd, k);` -/
def redirect (t : Descs) (fd : Option Nat) (k : Nat) : Descs :=
  match fd with
  | none => t
  | some d => dup2 t d k

/-- The child before `chdir`. -/
def childFds (t : Descs) (i : ExecInfo) : Descs :=
  redirect (redirect (redirect t i.fdIn 0) i.fdOut 1) i.fdErr 2

inductive Child
  /-- `_exit(255)` -/
  | failed
  | running (filename : List UInt8) (argv env : List (List UInt8)) (p : Image)

/-- The child of `ffps_exec_info`; `chdir` and `canExec` are what the system answers. -/
def execChild (chdir : List UInt8 → Option (List UInt8)) (canExec : Bool) (parent : Image)
    (filename : List UInt8) (i : ExecInfo) : Child :=
  let sigs := Function.update parent.signals SIGPIPE .default
  let fds := childFds parent.fds i
  let cwd := match i.workdir with
    | none => some parent.cwd
    | some d => chdir d
  match cwd with
  | none => .failed
  | some cwd => if canExec then .running filename i.argv i.env (execve ⟨fds, sigs, cwd⟩) else .failed

/-! ## What the caller asks for -/

/-- The file of an inherited descriptor. -/
def inherited (t : Descs) (k : Nat) : Option Nat :=
  (t k).bind fun d => if d.cloexec then none else some d.file

/-- The file behind a requested descriptor, or else the one that is there. -/
def askedAt (t : Descs) (fd : Option Nat) (k : Nat) : Option Nat :=
  match fd with
  | none => inherited t k
  | some d => (t d).map Desc.file

def asked (t : Descs) (i : ExecInfo) : Nat → Option Nat
  | 0 => askedAt t i.fdIn 0
  | 1 => askedAt t i.fdOut 1
  | 2 => askedAt t i.fdErr 2
  | k => inherited t k

/-- A request for the descriptor that is at its place already works if it stays open. -/
def OwnPlace (t : Descs) (fd : Option Nat) (k : Nat) : Prop :=
  fd = some k → ∀ d, t k = some d → d.cloexec = false

/-- A request for descriptor `k` comes after the one that has replaced `k` by the file of
    `earlier`. -/
def Replaced (t : Descs) (fd earlier : Option Nat) (k : Nat) : Prop :=
  fd = some k → ∀ e, earlier = some e → (t e).map Desc.file = (t k).map Desc.file

structure Unclobbered (t : Descs) (i : ExecInfo) : Prop where
  own_in : OwnPlace t i.fdIn 0
  own_out : OwnPlace t i.fdOut 1
  own_err : OwnPlace t i.fdErr 2
  out_after_in : Replaced t i.fdOut i.fdIn 0
  err_after_in : Replaced t i.fdErr i.fdIn 0
  err_after_out : Replaced t i.fdErr i.fdOut 1

/-- The requested descriptors are open. -/
def Opened (t : Descs) (i : ExecInfo) : Prop :=
  ∀ d, i.fdIn = some d ∨ i.fdOut = some d ∨ i.fdErr = some d → (t d).isSome

/-! ## One redirection -/

theorem dup2_self (t : Descs) (k : Nat) : dup2 t k k = t := by
  unfold dup2
  split
  · rfl
  · exact if_pos rfl

theorem dup2_ne (t : Descs) (old : Nat) {new k : Nat} (h : k ≠ new) : dup2 t old new k = t k := by
  unfold dup2
  cases t old with
  | none => rfl
  | some d =>
    by_cases hon : old = new
    · simp only [if_pos hon]
    · simp only [if_neg hon, Function.update_of_ne h]

theorem dup2_new {t : Descs} {old new : Nat} {d : Desc} (ht : t old = some d) (h : old ≠ new) :
    dup2 t old new new = some { d with cloexec := false } := by
  unfold dup2
  rw [ht]
  simp only [if_neg h, Function.update_self]

theorem redirect_ne (t : Descs) (fd : Option Nat) {k j : Nat} (h : j ≠ k) : redirect t fd k j = t j := by
  cases fd with
  | none => rfl
  | some d => exact dup2_ne t d h

/-- The file at `k` after a redirection to `k`. -/
theorem redirect_file {t : Descs} {fd : Option Nat} {k : Nat} (hopen : ∀ d, fd = some d → (t d).isSome) :
    (redirect t fd k k).map Desc.file = (t (fd.getD k)).map Desc.file := by
  cases fd with
  | none => rfl
  | some d =>
    obtain ⟨e, he⟩ := Option.isSome_iff_exists.mp (hopen d rfl)
    by_cases hdk : d = k
    · subst hdk
      simp only [redirect, dup2_self, Option.getD_some]
    · simp only [redirect, dup2_new he hdk, Option.getD_some, he, Option.map_some]

/-- A redirection in a table `t'` that has the old descriptor `k` still does what was asked for in
    `t` exactly if the requested descriptor stays open and is what it was in `t`. -/
theorem redirect_asked {t t' : Descs} {fd : Option Nat} {k : Nat} (hk : t' k = t k)
    (hopen : ∀ d, fd = some d → (t' d).isSome) :
    inherited (redirect t' fd k) k = askedAt t fd k ↔
      OwnPlace t fd k ∧ ∀ d, fd = some d → (t' d).map Desc.file = (t d).map Desc.file := by
  cases fd with
  | none => simp [redirect, askedAt, inherited, OwnPlace, hk]
  | some d =>
    obtain ⟨e, he⟩ := Option.isSome_iff_exists.mp (hopen d rfl)
    by_cases hdk : d = k
    · subst hdk
      have hte : t d = some e := hk ▸ he
      simp only [redirect, dup2_self, inherited, askedAt, OwnPlace, he, hte]
      cases hc : e.cloexec <;> simp [hc, he, hte]
    · have hown : OwnPlace t (some d) k := fun h => absurd (Option.some.inj h) hdk
      have hnew : inherited (redirect t' (some d) k) k = (t' d).map Desc.file := by
        simp [redirect, inherited, dup2_new he hdk, he]
      rw [hnew]
      constructor
      · intro h
        refine ⟨hown, ?_⟩
        intro x hx
        cases hx
        exact h
      · intro h
        exact h.2 d rfl

/-! ## The child's table -/

theorem redirect_isSome {t : Descs} {fd : Option Nat} {k j : Nat} (hopen : ∀ d, fd = some d → (t d).isSome)
    (hj : (t j).isSome) : (redirect t fd k j).isSome := by
  by_cases hjk : j = k
  · have hf := congrArg Option.isSome (redirect_file (k := k) hopen)
    simp only [Option.isSome_map] at hf
    rw [hjk, hf]
    cases fd with
    | none => exact hjk ▸ hj
    | some d => exact hopen d rfl
  · rw [redirect_ne t fd hjk]
    exact hj

/-- What a redirection to `k` changes for a later request: the file at `k`. -/
theorem redirect_replaces {t : Descs} {fd earlier : Option Nat} {k : Nat}
    (hopen : ∀ d, earlier = some d → (t d).isSome) :
    (∀ d, fd = some d → (redirect t earlier k d).map Desc.file = (t d).map Desc.file) ↔
      Replaced t fd earlier k := by
  constructor
  · intro h hfd e he
    have hk := h k hfd
    rw [redirect_file hopen, he] at hk
    exact hk
  · intro h d hd
    by_cases hdk : d = k
    · subst hdk
      rw [redirect_file hopen]
      cases he : earlier with
      | none => rfl
      | some e => exact h hd e he
    · rw [redirect_ne t earlier hdk]

/-- Two redirections: if `earlier` does not change what `fd` or `second` refer to, `second` changes
    what `fd` refers to as it does in the first table. -/
theorem redirect_twice {t : Descs} {fd first second : Option Nat} {j k : Nat} (hjk : k ≠ j)
    (hfirst : ∀ d, first = some d → (t d).isSome)
    (hsecond : ∀ d, second = some d → (redirect t first j d).isSome)
    (hfile : ∀ d, second = some d → (redirect t first j d).map Desc.file = (t d).map Desc.file) :
    (∀ d, fd = some d →
        (redirect (redirect t first j) second k d).map Desc.file = (t d).map Desc.file) ↔
      Replaced t fd first j ∧ Replaced t fd second k := by
  constructor
  · intro h
    refine ⟨(redirect_replaces hfirst).mp ?_, ?_⟩
    · intro d hd
      by_cases hdj : d = j
      · subst hdj
        rw [← h d hd, redirect_ne _ second (Ne.symm hjk)]
      · rw [redirect_ne t first hdj]
    · intro hk e he
      rw [← h k hk, redirect_file hsecond, he]
      exact (hfile e he).symm
  · rintro ⟨h1, h2⟩ d hd
    by_cases hdk : d = k
    · subst hdk
      rw [redirect_file hsecond]
      cases he : second with
      | none => exact congrArg _ (redirect_ne t first hjk)
      | some e => exact (hfile e he).trans (h2 hd e he)
    · rw [redirect_ne _ second hdk]
      exact (redirect_replaces hfirst).mpr h1 d hd

theorem childFds_asked {t : Descs} {i : ExecInfo} (hopen : Opened t i) :
    (∀ k, inherited (childFds t i) k = asked t i k) ↔ Unclobbered t i := by
  have hin : ∀ d, i.fdIn = some d → (t d).isSome := fun d h => hopen d (Or.inl h)
  have hout : ∀ d, i.fdOut = some d → (redirect t i.fdIn 0 d).isSome :=
    fun d h => redirect_isSome hin (hopen d (Or.inr (Or.inl h)))
  have herr : ∀ d, i.fdErr = some d → (redirect (redirect t i.fdIn 0) i.fdOut 1 d).isSome :=
    fun d h => redirect_isSome hout (redirect_isSome hin (hopen d (Or.inr (Or.inr h))))
  -- descriptor 0 is final after the first call, 1 after the second
  have hat0 : childFds t i 0 = redirect t i.fdIn 0 0 := by
    rw [childFds, redirect_ne _ _ (by omega), redirect_ne _ _ (by omega)]
  have hat1 : childFds t i 1 = redirect (redirect t i.fdIn 0) i.fdOut 1 1 := by
    rw [childFds, redirect_ne _ _ (by omega)]
  have hold : ∀ k, k ≠ 0 → k ≠ 1 → redirect (redirect t i.fdIn 0) i.fdOut 1 k = t k := by
    intro k h0 h1
    rw [redirect_ne _ _ h1, redirect_ne _ _ h0]
  have h0 : inherited (childFds t i) 0 = askedAt t i.fdIn 0 ↔ OwnPlace t i.fdIn 0 := by
    have := @redirect_asked t t i.fdIn 0 rfl hin
    simpa [inherited, hat0] using this
  have h1 : inherited (childFds t i) 1 = askedAt t i.fdOut 1 ↔
      OwnPlace t i.fdOut 1 ∧ Replaced t i.fdOut i.fdIn 0 := by
    have := redirect_asked (redirect_ne t i.fdIn (show 1 ≠ 0 by omega)) hout
    rw [redirect_replaces hin] at this
    simpa [inherited, hat1] using this
  have h2 : inherited (childFds t i) 2 = askedAt t i.fdErr 2 ↔
      OwnPlace t i.fdErr 2 ∧ ∀ d, i.fdErr = some d →
        (redirect (redirect t i.fdIn 0) i.fdOut 1 d).map Desc.file = (t d).map Desc.file :=
    redirect_asked (hold 2 (by omega) (by omega)) herr
  have hrest : ∀ k, inherited (childFds t i) (k + 3) = asked t i (k + 3) := by
    intro k
    have hk : childFds t i (k + 3) = t (k + 3) := by
      rw [childFds, redirect_ne _ _ (by omega), hold _ (by omega) (by omega)]
    simp only [inherited, hk, asked]
  constructor
  · intro h
    obtain ⟨ho, hri⟩ := h1.mp (h 1)
    obtain ⟨he, hf⟩ := h2.mp (h 2)
    obtain ⟨hei, heo⟩ := (redirect_twice (by omega) hin hout ((redirect_replaces hin).mpr hri)).mp hf
    exact ⟨h0.mp (h 0), ho, he, hri, hei, heo⟩
  · intro hu k
    obtain _ | _ | _ | k := k
    · exact h0.mpr hu.own_in
    · exact h1.mpr ⟨hu.own_out, hu.out_after_in⟩
    · refine h2.mpr ⟨hu.own_err, ?_⟩
      exact (redirect_twice (by omega) hin hout ((redirect_replaces hin).mpr hu.out_after_in)).mpr
        ⟨hu.err_after_in, hu.err_after_out⟩
    · exact hrest k

/-! ## The process -/

variable {chdir : List UInt8 → Option (List UInt8)} {canExec : Bool} {parent : Image}
  {filename : List UInt8} {i : ExecInfo}

theorem execChild_running {fn : List UInt8} {argv env : List (List UInt8)} {p : Image}
    (h : execChild chdir canExec parent filename i = .running fn argv env p) :
    fn = filename ∧ argv = i.argv ∧ env = i.env ∧ canExec = true ∧
      ∃ cwd, (i.workdir = none ∧ cwd = parent.cwd ∨ ∃ d, i.workdir = some d ∧ chdir d = some cwd) ∧
        p = execve ⟨childFds parent.fds i, Function.update parent.signals SIGPIPE .default, cwd⟩ := by
  unfold execChild at h
  simp only at h
  split at h
  · cases h
  · rename_i cwd hcwd
    split at h
    · rename_i hexec
      cases h
      refine ⟨rfl, rfl, rfl, hexec, cwd, ?_, rfl⟩
      cases hw : i.workdir with
      | none =>
        simp only [hw, Option.some.injEq] at hcwd
        exact Or.inl ⟨rfl, hcwd.symm⟩
      | some d =>
        simp only [hw] at hcwd
        exact Or.inr ⟨d, rfl, hcwd⟩
    · cases h

theorem execChild_failed :
    execChild chdir canExec parent filename i = .failed ↔
      canExec = false ∨ ∃ d, i.workdir = some d ∧ chdir d = none := by
  unfold execChild
  cases hw : i.workdir with
  | none => cases canExec <;> simp
  | some d =>
    cases hc : chdir d with
    | none => simp [hc]
    | some cwd => cases canExec <;> simp [hc]

/-- **A started program has what it was asked to have.** The child either exits with 255, when
    `chdir` or `execve` fails, or it runs the program in the directory asked for, with SIGPIPE and
    every signal that had a handler at its default, and with the descriptors asked for, none of them
    close-on-exec — exactly if no request is for a descriptor that an earlier one has replaced or
    for a close-on-exec descriptor at its own place. -/
theorem ffps_exec_info_fds (chdir : List UInt8 → Option (List UInt8)) (canExec : Bool) (parent : Image)
    (filename : List UInt8) (i : ExecInfo) (hopen : Opened parent.fds i) :
    (execChild chdir canExec parent filename i = .failed ↔
      canExec = false ∨ ∃ d, i.workdir = some d ∧ chdir d = none) ∧
    ∀ fn argv env p, execChild chdir canExec parent filename i = .running fn argv env p →
      fn = filename ∧ argv = i.argv ∧ env = i.env ∧
      (i.workdir = none ∧ p.cwd = parent.cwd ∨ ∃ d, i.workdir = some d ∧ chdir d = some p.cwd) ∧
      (∀ s, p.signals s = if s = SIGPIPE ∨ parent.signals s = .handler then .default
        else parent.signals s) ∧
      (∀ k d, p.fds k = some d → d.cloexec = false) ∧
      ((∀ k, (p.fds k).map Desc.file = asked parent.fds i k) ↔ Unclobbered parent.fds i) := by
  refine ⟨execChild_failed, ?_⟩
  intro fn argv env p h
  obtain ⟨rfl, rfl, rfl, _, cwd, hcwd, rfl⟩ := execChild_running h
  refine ⟨rfl, rfl, rfl, hcwd, ?_, ?_, ?_⟩
  · intro s
    by_cases hs : s = SIGPIPE
    · subst hs
      simp [execve]
    · simp [execve, hs]
  · intro k d hk
    simp only [execve, Option.bind_eq_some_iff] at hk
    obtain ⟨e, _, he⟩ := hk
    split at he
    · cases he
    · rename_i hc
      cases he
      simpa using hc
  · rw [← childFds_asked hopen]
    refine forall_congr' ?_
    intro k
    have hfile : ((execve ⟨childFds parent.fds i, Function.update parent.signals SIGPIPE .default,
        cwd⟩).fds k).map Desc.file = inherited (childFds parent.fds i) k := by
      simp only [execve, inherited]
      cases hk : childFds parent.fds i k with
      | none => rfl
      | some e => cases hc : e.cloexec <;> simp [hc]
    rw [hfile]

/-- A process with the descriptors 0, 1 and 2 and the writing end of a pipe, close-on-exec, at 4. -/
def piping : Image where
  fds k := if k < 3 then some ⟨k, false⟩ else if k = 4 then some ⟨7, true⟩ else none
  signals _ := .default
  cwd := [0x2f]

/-- Output and errors to the pipe. -/
def toPipe : ExecInfo := ⟨[[0x65]], [], none, none, some 4, some 4⟩

theorem ffps_exec_info_fds_pipe :
    ∃ p, execChild some true piping [0x65] toPipe = .running [0x65] [[0x65]] [] p ∧
      ∀ k, (p.fds k).map Desc.file = asked piping.fds toPipe k := by
  have hopen : Opened piping.fds toPipe := by
    rintro d (h | h | h)
    · cases h
    · cases h
      rfl
    · cases h
      rfl
  have hu : Unclobbered piping.fds toPipe := by
    constructor <;> intro h <;> cases h
  have h := (ffps_exec_info_fds some true piping [0x65] toPipe hopen).2 _ _ _ _ rfl
  exact ⟨_, rfl, h.2.2.2.2.2.2.mpr hu⟩

/-- Input and output exchanged: both end up at what was descriptor 1. -/
example : (inherited (childFds piping.fds ⟨[], [], none, some 1, some 0, none⟩) 0,
    inherited (childFds piping.fds ⟨[], [], none, some 1, some 0, none⟩) 1) = (some 1, some 1) := rfl

end FFSys.Process
