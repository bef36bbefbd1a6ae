import FFSys.Lib.Run
import Mathlib.Logic.Function.Basic

/-!
# Running a process and collecting its output

`ffps_exec_info_wait` starts a process with pipes for its output and its errors and waits for three
kinds of events in one kernel queue: SIGCHLD, data in the first pipe, data in the second one.  A bit
of `status` for each of them says that the process is gone, or that a pipe was found empty; the loop
ends when all of them are set.

The process, other children of the caller and the kernel act between any two system calls.

* `Sys`, `Act`, `step` — the function after a successful `ffps_exec_info`, with the process, the
  pipes and the kernel queue around it.
* `SStep`, `step_cases` — what a step can do.
* `Fifo` — events come in the order in which they were caused, and SIGCHLD for this process only.
-/

set_option autoImplicit false

namespace FFSys.Process.ExecWait

open FFSys.Lib

/-! ## The system -/

inductive Stream
  | out | err
  deriving DecidableEq

/-- What the kernel queue reports: the `data` of `ffkq_attach`. -/
inductive Src
  | sig
  | pipe (b : Stream)
  deriving DecidableEq

structure Pipe where
  /-- written and not yet read -/
  data : List UInt8
  /-- everything that the process has written -/
  written : List UInt8
  /-- `output` or `error` -/
  got : List UInt8

/-- The variable `state`, and the end of the function. -/
inductive Pc
  | kq | sig | out | err | both
  | done (rc : Int)
  /-- `ffvec_growT` of a null pointer -/
  | crash
  deriving DecidableEq

structure Sys where
  /-- the exit code of the process, as `ffps_wait` gives it -/
  exited : Option Int
  pipe : Stream → Pipe
  queue : List Src
  pc : Pc
  /-- the bits 1, 2 and 4 of `status` -/
  waited : Bool
  drained : Stream → Bool
  /-- `*exit_code` -/
  code : Option Int

inductive Act
  /-- the process writes to its output or its errors -/
  | write (b : Stream) (bs : List UInt8)
  | exit (code : Int)
  /-- SIGCHLD for another child -/
  | stray
  /-- `ffkq_wait` returns -/
  | fetch (x : Src)
  /-- an event whose pipe has been read meanwhile may go unreported -/
  | drop (b : Stream)
  /-- `ffps_wait` returns 0 -/
  | wait
  | waitFails
  /-- `ffpipe_read` of at most `n` bytes -/
  | read (n : Nat)
  /-- any other system call fails -/
  | fail

def Sys.notify (s : Sys) (x : Src) : Sys :=
  { s with queue := if x ∈ s.queue then s.queue else s.queue ++ [x] }

/-- `while (status != (1|2|4))` -/
def Sys.loop (s : Sys) (pc : Pc) : Sys :=
  { s with pc := if s.waited && s.drained .out && s.drained .err then .done 0 else pc }

def stateOf : Src → Pc
  | .sig => .sig
  | .pipe .out => .out
  | .pipe .err => .err

/-- The pipe that is read in a state: `I_BOTH` starts with the output. -/
def reads : Pc → Option Stream
  | .out | .both => some .out
  | .err => some .err
  | _ => none

def Pipe.write (p : Pipe) (bs : List UInt8) : Pipe :=
  { p with data := p.data ++ bs, written := p.written ++ bs }

def Pipe.read (p : Pipe) (n : Nat) : Pipe :=
  { p with data := p.data.drop n, got := p.got ++ p.data.take n }

def Sys.setPipe (s : Sys) (b : Stream) (p : Pipe) : Sys :=
  { s with pipe := Function.update s.pipe b p }

/-- `status |= bit` after EAGAIN, and the next state. -/
def Sys.setDrained (s : Sys) (b : Stream) : Sys :=
  Sys.loop { s with drained := Function.update s.drained b true }
    (if s.pc = .both then .err else .kq)

section Step

-- whether `output` and `error` are given
variable (has : Stream → Bool)

/-- After `ffps_wait`: without pipes there is nothing more to do. -/
def Sys.afterWait (s : Sys) (c : Int) : Sys :=
  Sys.loop
    { s with
      waited := true
      code := some c
      drained := fun b => s.drained b || (!has .out && !has .err) } .both

/-- A step; `none` if it is not possible. -/
def step (s : Sys) : Act → Option (Sys × Unit)
  | .write b bs =>
    if s.exited = none ∧ has b = true ∧ bs ≠ [] then
      some ((s.setPipe b ((s.pipe b).write bs)).notify (.pipe b), ())
    else none
  | .exit c => if s.exited = none then some ({ s with exited := some c }.notify .sig, ()) else none
  | .stray => some (s.notify .sig, ())
  | .fetch x =>
    if s.pc = .kq ∧ x ∈ s.queue then
      some ({ s with queue := s.queue.erase x, pc := stateOf x }, ())
    else none
  | .drop b =>
    if Src.pipe b ∈ s.queue ∧ (s.pipe b).data = [] then
      some ({ s with queue := s.queue.erase (.pipe b) }, ())
    else none
  | .wait =>
    match s.exited with
    | none => none
    | some c => if s.pc = .sig then some (s.afterWait has c, ()) else none
  | .waitFails => if s.pc = .sig then some ({ s with pc := .kq }, ()) else none
  | .read n =>
    match reads s.pc with
    | none => none
    | some b =>
      if has b = false then some ({ s with pc := .crash }, ())
      else if n = 0 then none
      else if (s.pipe b).data = [] then some (s.setDrained b, ())
      else some (s.setPipe b ((s.pipe b).read n), ())
  | .fail =>
    if s.pc = .kq ∨ (reads s.pc).isSome then some ({ s with pc := .done (-1) }, ()) else none

end Step

/-- The start; SIGCHLD for an earlier child may be pending. -/
def init (q : List Src) : Sys where
  exited := none
  pipe _ := ⟨[], [], []⟩
  queue := q
  pc := .kq
  waited := false
  drained _ := false
  code := none

/-- Events are fetched in the order in which they were caused, and no other child exits. -/
def Fifo (s : Sys) : Act → Prop
  | .stray => False
  | .fetch x => s.queue.head? = some x
  | _ => True

/-! ## What a step can do -/

inductive SStep (has : Stream → Bool) (s : Sys) : Act → Sys → Prop
  | write (b : Stream) (bs : List UInt8) (hrun : s.exited = none) (hb : has b = true) :
      SStep has s (.write b bs) ((s.setPipe b ((s.pipe b).write bs)).notify (.pipe b))
  | exit (c : Int) (hrun : s.exited = none) :
      SStep has s (.exit c) ({ s with exited := some c }.notify .sig)
  | stray : SStep has s .stray (s.notify .sig)
  | fetch (x : Src) (hpc : s.pc = .kq) (hx : x ∈ s.queue) :
      SStep has s (.fetch x) { s with queue := s.queue.erase x, pc := stateOf x }
  | drop (b : Stream) (hb : Src.pipe b ∈ s.queue) (hd : (s.pipe b).data = []) :
      SStep has s (.drop b) { s with queue := s.queue.erase (.pipe b) }
  | wait (c : Int) (hpc : s.pc = .sig) (hc : s.exited = some c) :
      SStep has s .wait (s.afterWait has c)
  | waitFails (hpc : s.pc = .sig) : SStep has s .waitFails { s with pc := .kq }
  | crash (n : Nat) (b : Stream) (hpc : reads s.pc = some b) (hb : has b = false) :
      SStep has s (.read n) { s with pc := .crash }
  | again (n : Nat) (b : Stream) (hpc : reads s.pc = some b) (hb : has b = true)
      (hd : (s.pipe b).data = []) : SStep has s (.read n) (s.setDrained b)
  | read (n : Nat) (b : Stream) (hpc : reads s.pc = some b) (hd : (s.pipe b).data ≠ [])
      (hn : 0 < n) : SStep has s (.read n) (s.setPipe b ((s.pipe b).read n))
  | fail (hpc : s.pc = .kq ∨ (reads s.pc).isSome) : SStep has s .fail { s with pc := .done (-1) }

variable {has : Stream → Bool} {s s' : Sys} {a : Act} {o : Unit}

theorem step_cases (h : step has s a = some (s', o)) : SStep has s a s' := by
  cases a with
  | write b bs =>
    simp only [step] at h
    split at h
    · rename_i hc
      cases h
      exact .write b bs hc.1 hc.2.1
    · cases h
  | exit c =>
    simp only [step] at h
    split at h
    · rename_i hc
      cases h
      exact .exit c hc
    · cases h
  | stray =>
    cases h
    exact .stray
  | fetch x =>
    simp only [step] at h
    split at h
    · rename_i hc
      cases h
      exact .fetch x hc.1 hc.2
    · cases h
  | drop b =>
    simp only [step] at h
    split at h
    · rename_i hc
      cases h
      exact .drop b hc.1 hc.2
    · cases h
  | wait =>
    simp only [step] at h
    split at h
    · cases h
    · rename_i c hc
      split at h
      · rename_i hpc
        cases h
        exact .wait c hpc hc
      · cases h
  | waitFails =>
    simp only [step] at h
    split at h
    · rename_i hpc
      cases h
      exact .waitFails hpc
    · cases h
  | read n =>
    simp only [step] at h
    split at h
    · cases h
    · rename_i b hb
      split at h
      · rename_i hn
        cases h
        exact .crash n b hb hn
      · rename_i hhas
        split at h
        · cases h
        · rename_i hn
          split at h
          · rename_i hd
            cases h
            exact .again n b hb (by simpa using hhas) hd
          · rename_i hd
            cases h
            exact .read n b hb hd (Nat.pos_of_ne_zero hn)
  | fail =>
    simp only [step] at h
    split at h
    · rename_i hpc
      cases h
      exact .fail hpc
    · cases h

/-! ## The parts of the state -/

variable {b : Stream} {p : Pipe} {x y : Src} {pc : Pc}

@[simp] theorem notify_exited : (s.notify x).exited = s.exited := rfl
@[simp] theorem notify_pipe : (s.notify x).pipe = s.pipe := rfl
@[simp] theorem notify_pc : (s.notify x).pc = s.pc := rfl
@[simp] theorem notify_waited : (s.notify x).waited = s.waited := rfl
@[simp] theorem notify_drained : (s.notify x).drained = s.drained := rfl
@[simp] theorem notify_code : (s.notify x).code = s.code := rfl

@[simp] theorem setPipe_exited : (s.setPipe b p).exited = s.exited := rfl
@[simp] theorem setPipe_queue : (s.setPipe b p).queue = s.queue := rfl
@[simp] theorem setPipe_pc : (s.setPipe b p).pc = s.pc := rfl
@[simp] theorem setPipe_waited : (s.setPipe b p).waited = s.waited := rfl
@[simp] theorem setPipe_drained : (s.setPipe b p).drained = s.drained := rfl
@[simp] theorem setPipe_code : (s.setPipe b p).code = s.code := rfl
@[simp] theorem setPipe_pipe : (s.setPipe b p).pipe = Function.update s.pipe b p := rfl

@[simp] theorem setDrained_exited : (s.setDrained b).exited = s.exited := rfl
@[simp] theorem setDrained_pipe : (s.setDrained b).pipe = s.pipe := rfl
@[simp] theorem setDrained_queue : (s.setDrained b).queue = s.queue := rfl
@[simp] theorem setDrained_waited : (s.setDrained b).waited = s.waited := rfl
@[simp] theorem setDrained_code : (s.setDrained b).code = s.code := rfl
@[simp] theorem setDrained_drained :
    (s.setDrained b).drained = Function.update s.drained b true := rfl

@[simp] theorem afterWait_exited {c : Int} : (s.afterWait has c).exited = s.exited := rfl
@[simp] theorem afterWait_pipe {c : Int} : (s.afterWait has c).pipe = s.pipe := rfl
@[simp] theorem afterWait_queue {c : Int} : (s.afterWait has c).queue = s.queue := rfl
@[simp] theorem afterWait_waited {c : Int} : (s.afterWait has c).waited = true := rfl
@[simp] theorem afterWait_code {c : Int} : (s.afterWait has c).code = some c := rfl
@[simp] theorem afterWait_drained {c : Int} :
    (s.afterWait has c).drained = fun b => s.drained b || (!has .out && !has .err) := rfl

theorem mem_notify : y ∈ (s.notify x).queue ↔ y ∈ s.queue ∨ y = x := by
  unfold Sys.notify
  by_cases hx : x ∈ s.queue
  · simp only [if_pos hx]
    constructor
    · exact Or.inl
    · rintro (h | rfl)
      · exact h
      · exact hx
  · simp [if_neg hx]

/-- The bits of `status` are all set and the loop ends, or it goes on. -/
theorem loop_cases (s : Sys) (pc : Pc) :
    (s.loop pc).pc = .done 0 ∧ s.waited = true ∧ (∀ b, s.drained b = true) ∨
      (s.loop pc).pc = pc ∧ (s.waited = true → ∃ b, s.drained b = false) := by
  unfold Sys.loop
  cases hw : s.waited <;> cases ho : s.drained .out <;> cases he : s.drained .err
  case true.true.true =>
    refine Or.inl ⟨rfl, rfl, ?_⟩
    intro b
    cases b
    · exact ho
    · exact he
  all_goals refine Or.inr ⟨rfl, ?_⟩
  all_goals intro h
  all_goals first
    | exact ⟨.out, ho⟩
    | exact ⟨.err, he⟩
    | cases h

theorem afterWait_pc (s : Sys) (has : Stream → Bool) (c : Int) :
    (s.afterWait has c).pc = .done 0 ∧ (∀ b, (s.afterWait has c).drained b = true) ∨
      (s.afterWait has c).pc = .both ∧ ∃ b, (s.afterWait has c).drained b = false := by
  have := loop_cases { s with
    waited := true
    code := some c
    drained := fun b => s.drained b || (!has .out && !has .err) } .both
  rcases this with ⟨hp, _, hall⟩ | ⟨hp, hne⟩
  · exact Or.inl ⟨hp, hall⟩
  · exact Or.inr ⟨hp, hne rfl⟩

theorem setDrained_pc (s : Sys) (b : Stream) :
    (s.setDrained b).pc = .done 0 ∧ s.waited = true ∧ (∀ c, (s.setDrained b).drained c = true) ∨
      (s.setDrained b).pc = (if s.pc = .both then .err else .kq) ∧
        (s.waited = true → ∃ c, (s.setDrained b).drained c = false) :=
  loop_cases { s with drained := Function.update s.drained b true } _

end FFSys.Process.ExecWait
