import Mathlib.Algebra.Order.Ring.Nat
import FFSys.Lib.Run
import FFSys.Time.Deadline

/-!
# Named semaphores

Any number of processes open semaphores by name, wait, post, close and unlink them.  On UNIX a
name stays until it is unlinked; on Windows it goes with the last open handle, `ffsem_unlink` does
nothing, and `FFSEM_CREATENEW` is two system calls.  A wait is a step when it returns; the function
that it calls on UNIX, and its deadline, are those of `Time.ffsemWait`.

* `Sys` — the names, the semaphores and the descriptors; `Unix.step`, `Win.step` — the functions of
  the two systems.
* `Rule` — what a step of either system can do, with `Unix.step_rule` and `Win.step_rule`.
* `ffsem_names` — which semaphore a name stands for, and what `FFSEM_CREATENEW` is worth.
-/

set_option autoImplicit false

namespace FFSys.Semaphore

open FFSys.Lib FFSys.Time

variable {ν τ : Type}

/-- The flags of `ffsem_open`; `both` is `FFSEM_CREATE | FFSEM_CREATENEW`. -/
inductive Flags where
  | existing
  | create
  | createNew
  | both
  deriving DecidableEq

/-- `O_CREAT` -/
def Flags.creat : Flags → Bool
  | .existing => false
  | _ => true

/-- `O_EXCL` -/
def Flags.excl : Flags → Bool
  | .createNew | .both => true
  | _ => false

/-- Between the two system calls of `FFSEM_CREATENEW`. -/
inductive Creating (ν : Type) where
  /-- `OpenSemaphoreW` has found a semaphore, which is still open -/
  | found (sem : Nat)
  | absent (name : ν) (value : Nat)

structure Sys (ν τ : Type) where
  names : ν → Option Nat
  /-- the value of each semaphore -/
  count : Nat → Nat
  /-- how many semaphores have been made -/
  sems : Nat
  /-- the semaphore of each open descriptor -/
  handle : Nat → Option Nat
  /-- how many descriptors have been given out -/
  handles : Nat
  /-- the waits through a descriptor, less the posts -/
  held : Nat → Nat
  creating : τ → Option (Creating ν)
  /-- the semaphores that are open inside of calls -/
  temp : List Nat

def Sys.init : Sys ν τ := ⟨fun _ => none, fun _ => 0, 0, fun _ => none, 0, fun _ => 0, fun _ => none, []⟩

/-- A wait: `time_ms`, the current time, and whether `sem_timedwait` looks at the deadline before it
    looks at the value. -/
structure Wait where
  timeMs : BitVec 32
  now : Timespec
  early : Bool

inductive Act (ν τ : Type) where
  | semOpen (t : τ) (name : Option ν) (flags : Flags) (value : Nat)
  /-- the second system call of a `FFSEM_CREATENEW` -/
  | resume (t : τ)
  | close (h : Nat)
  | wait (h : Nat) (w : Wait)
  | post (h : Nat)
  | unlink (name : ν)

/-- EEXIST, ENOENT, EINVAL; ERROR_ALREADY_EXISTS, ERROR_FILE_NOT_FOUND, ERROR_INVALID_PARAMETER. -/
inductive Err where
  | alreadyExists
  | notFound
  | invalid
  deriving DecidableEq

inductive Out where
  /-- `made`: the semaphore is a new one -/
  | opened (h : Nat) (made : Bool)
  | null (e : Err)
  | working
  | ret (r : Int)
  deriving DecidableEq

/-! ## What the kernel does -/

/-- A descriptor for a semaphore. -/
def Sys.give (s : Sys ν τ) (o : Nat) : Sys ν τ :=
  { s with
    handle := Function.update s.handle s.handles (some o)
    held := Function.update s.held s.handles 0
    handles := s.handles + 1 }

/-- A new semaphore, with a descriptor. -/
def Sys.make (s : Sys ν τ) (value : Nat) : Sys ν τ :=
  Sys.give { s with count := Function.update s.count s.sems value, sems := s.sems + 1 } s.sems

def Sys.take (s : Sys ν τ) (h o : Nat) : Sys ν τ :=
  { s with
    count := Function.update s.count o (s.count o - 1)
    held := Function.update s.held h (s.held h + 1) }

def Sys.put (s : Sys ν τ) (h o : Nat) : Sys ν τ :=
  { s with
    count := Function.update s.count o (s.count o + 1)
    held := Function.update s.held h (s.held h - 1) }

def Sys.drop (s : Sys ν τ) (h : Nat) : Sys ν τ := { s with handle := Function.update s.handle h none }

/-- A wait that succeeds takes a permit; `answer` says for each value whether it does, `none` if it
    does not return. -/
def Sys.waitWith (s : Sys ν τ) (h : Nat) (answer : Nat → Option Bool) (fail : Int) :
    Option (Sys ν τ × Out) :=
  match s.handle h with
  | none => none
  | some o =>
    (answer (s.count o)).map fun ok => if ok then (s.take h o, .ret 0) else (s, .ret fail)

/-- Somebody has the semaphore open. -/
def Sys.isOpen (s : Sys ν τ) (o : Nat) : Bool :=
  (List.range s.handles).any (fun h => s.handle h == some o) || s.temp.contains o

/-- A semaphore that nobody has open loses its name. -/
def Sys.expire (s : Sys ν τ) (o : Nat) : Sys ν τ :=
  if s.isOpen o then s else { s with names := fun n => if s.names n = some o then none else s.names n }

theorem isOpen_of_handle {s : Sys ν τ} {h o : Nat} (hlt : h < s.handles) (hh : s.handle h = some o) :
    s.isOpen o = true := by
  unfold Sys.isOpen
  rw [Bool.or_eq_true]
  exact Or.inl (List.any_eq_true.mpr ⟨h, List.mem_range.mpr hlt, by simp [hh]⟩)

@[simp] theorem expire_handle (s : Sys ν τ) (o : Nat) : (s.expire o).handle = s.handle := by
  unfold Sys.expire
  split <;> rfl

@[simp] theorem expire_handles (s : Sys ν τ) (o : Nat) : (s.expire o).handles = s.handles := by
  unfold Sys.expire
  split <;> rfl

@[simp] theorem expire_sems (s : Sys ν τ) (o : Nat) : (s.expire o).sems = s.sems := by
  unfold Sys.expire
  split <;> rfl

@[simp] theorem expire_count (s : Sys ν τ) (o : Nat) : (s.expire o).count = s.count := by
  unfold Sys.expire
  split <;> rfl

@[simp] theorem expire_held (s : Sys ν τ) (o : Nat) : (s.expire o).held = s.held := by
  unfold Sys.expire
  split <;> rfl

@[simp] theorem expire_creating (s : Sys ν τ) (o : Nat) : (s.expire o).creating = s.creating := by
  unfold Sys.expire
  split <;> rfl

@[simp] theorem expire_temp (s : Sys ν τ) (o : Nat) : (s.expire o).temp = s.temp := by
  unfold Sys.expire
  split <;> rfl

/-- A name is lost only with a semaphore that nobody has open. -/
theorem expire_names {s : Sys ν τ} {o : Nat} (n : ν) :
    (s.expire o).names n = s.names n ∨
      (s.isOpen o = false ∧ s.names n = some o ∧ (s.expire o).names n = none) := by
  unfold Sys.expire
  by_cases ho : s.isOpen o = true
  · rw [if_pos ho]
    exact Or.inl rfl
  · rw [if_neg ho]
    by_cases hn : s.names n = some o
    · exact Or.inr ⟨by simpa using ho, hn, if_pos hn⟩
    · exact Or.inl (if_neg hn)

/-! ## Descriptors and names -/

/-- Descriptors, names and calls in progress are about semaphores that have been made. -/
structure Inv (s : Sys ν τ) : Prop where
  handle : ∀ h o, s.handle h = some o → h < s.handles ∧ o < s.sems
  names : ∀ n o, s.names n = some o → o < s.sems

theorem Inv.init : Inv (Sys.init : Sys ν τ) :=
  ⟨fun _ _ h => (by cases h), fun _ _ h => (by cases h)⟩

theorem Inv.give {s : Sys ν τ} (h : Inv s) {o : Nat} (ho : o < s.sems) : Inv (s.give o) := by
  refine ⟨fun k o' hk => ?_, h.names⟩
  by_cases he : k = s.handles
  · subst he
    rw [show (s.give o).handle s.handles = some o from Function.update_self ..] at hk
    cases hk
    exact ⟨Nat.lt_succ_self _, ho⟩
  · rw [show (s.give o).handle k = s.handle k from Function.update_of_ne he ..] at hk
    exact ⟨Nat.lt_succ_of_lt (h.handle k o' hk).1, (h.handle k o' hk).2⟩

theorem Inv.make {s : Sys ν τ} (hh : ∀ h o, s.handle h = some o → h < s.handles ∧ o < s.sems)
    (hn : ∀ n o, s.names n = some o → o < s.sems + 1) (v : Nat) : Inv (s.make v) :=
  Inv.give (s := { s with count := Function.update s.count s.sems v, sems := s.sems + 1 })
    ⟨fun k o hk => ⟨(hh k o hk).1, Nat.lt_succ_of_lt (hh k o hk).2⟩, hn⟩ (Nat.lt_succ_self _)

theorem drop_handle_ne {s : Sys ν τ} {j k : Nat} (h : j ≠ k) : (s.drop k).handle j = s.handle j :=
  Function.update_of_ne h ..

/-- What is still open was open and is another descriptor. -/
theorem drop_handle_some {s : Sys ν τ} {j k o : Nat} (h : (s.drop k).handle j = some o) :
    j ≠ k ∧ s.handle j = some o := by
  by_cases he : j = k
  · subst he
    rw [show (s.drop j).handle j = none from Function.update_self ..] at h
    cases h
  · exact ⟨he, drop_handle_ne he ▸ h⟩

theorem Inv.drop {s : Sys ν τ} (h : Inv s) (k : Nat) : Inv (s.drop k) :=
  ⟨fun j o hj => h.handle j o (drop_handle_some hj).2, h.names⟩

theorem Inv.expire {s : Sys ν τ} (h : Inv s) (o : Nat) : Inv (s.expire o) := by
  refine ⟨fun k o' hk => ?_, fun n o' hn => ?_⟩
  · rw [expire_handle] at hk
    rw [expire_handles, expire_sems]
    exact h.handle k o' hk
  · rw [expire_sems]
    rcases expire_names (s := s) (o := o) n with he | ⟨_, _, he⟩
    · rw [he] at hn
      exact h.names n o' hn
    · rw [he] at hn
      cases hn

variable [DecidableEq ν]

def Sys.bind (s : Sys ν τ) (n : ν) (o : Option Nat) : Sys ν τ :=
  { s with names := Function.update s.names n o }

theorem Inv.bind_make {s : Sys ν τ} (h : Inv s) (n : ν) (v : Nat) :
    Inv ((s.bind n (some s.sems)).make v) := by
  refine Inv.make (s := s.bind n (some s.sems)) h.handle (fun m o hm => ?_) v
  by_cases he : m = n
  · subst he
    rw [show (s.bind m (some s.sems)).names m = some s.sems from Function.update_self ..] at hm
    cases hm
    exact Nat.lt_succ_self _
  · rw [show (s.bind n (some s.sems)).names m = s.names m from Function.update_of_ne he ..] at hm
    exact Nat.lt_succ_of_lt (h.names m o hm)

variable [DecidableEq τ]

/-! ## UNIX -/

def SEM_VALUE_MAX : Nat := 2147483647

/-- `sem_timedwait` refuses a deadline that is not normalised, at the latest when it has to wait. -/
def timedwait (early : Bool) (abs : Timespec) (value : Nat) : Bool :=
  if (abs.tvNsec.toInt < 0 ∨ 1000000000 ≤ abs.tvNsec.toInt) ∧ (early = true ∨ value = 0) then false
  else value ≠ 0

/-- `ffsem_wait` at a value. -/
def Unix.answer (w : Wait) (value : Nat) : Option Bool :=
  match (ffsemWait true w.now w.timeMs []).bind SemWait.call with
  | none => none
  | some .trywait => some (value ≠ 0)
  | some .wait => if value = 0 then none else some true
  | some (.timedwait abs) => some (timedwait w.early abs value)

def Unix.step (s : Sys ν τ) : Act ν τ → Option (Sys ν τ × Out)
  | .semOpen _ none _ value =>
    -- `sem_init`
    if SEM_VALUE_MAX < value then some (s, .null .invalid)
    else some (s.make value, .opened s.handles true)
  | .semOpen _ (some n) flags value =>
    -- `sem_open`
    match s.names n with
    | some o =>
      if flags.excl then some (s, .null .alreadyExists) else some (s.give o, .opened s.handles false)
    | none =>
      if flags.creat then
        if SEM_VALUE_MAX < value then some (s, .null .invalid)
        else some ((s.bind n (some s.sems)).make value, .opened s.handles true)
      else some (s, .null .notFound)
  | .resume _ => none
  | .close h =>
    match s.handle h with
    | none => none
    | some _ => some (s.drop h, .ret 0)
  | .wait h w => s.waitWith h (Unix.answer w) (-1)
  | .post h =>
    match s.handle h with
    | none => none
    | some o =>
      if s.count o < SEM_VALUE_MAX then some (s.put h o, .ret 0) else some (s, .ret (-1))
  | .unlink n =>
    match s.names n with
    | none => some (s, .ret (-1))
    | some _ => some (s.bind n none, .ret 0)

/-! ## Windows -/

def lMaximumCount : Nat := 0xffff

def WAIT_TIMEOUT : Int := 258

/-- `WaitForSingleObject` at a value. -/
def Win.answer (w : Wait) (value : Nat) : Option Bool :=
  if value ≠ 0 then some true
  else if w.timeMs = 0xffffffff then none
  else some false

/-- `CreateSemaphoreW`; the value is checked even if the name is taken. -/
def createSemaphoreW (s : Sys ν τ) (name : Option ν) (value : Nat) : Sys ν τ × Out :=
  if lMaximumCount < value then (s, .null .invalid)
  else
    match name with
    | none => (s.make value, .opened s.handles true)
    | some n =>
      match s.names n with
      | some o => (s.give o, .opened s.handles false)
      | none => ((s.bind n (some s.sems)).make value, .opened s.handles true)

def Win.semOpen (s : Sys ν τ) (t : τ) (n : ν) (flags : Flags) (value : Nat) : Sys ν τ × Out :=
  match flags with
  | .createNew =>
    match s.names n with
    | some o =>
      ({ s with creating := Function.update s.creating t (some (.found o)), temp := o :: s.temp },
        .working)
    | none => ({ s with creating := Function.update s.creating t (some (.absent n value)) }, .working)
  | .create => createSemaphoreW s (some n) value
  | .existing =>
    match s.names n with
    | some o => (s.give o, .opened s.handles false)
    | none => (s, .null .notFound)
  | .both => (s, .null .invalid)

def Win.step (s : Sys ν τ) : Act ν τ → Option (Sys ν τ × Out)
  | .semOpen t name flags value =>
    match s.creating t, name with
    | some _, _ => none
    | none, none => some (createSemaphoreW s none value)
    | none, some n => some (Win.semOpen s t n flags value)
  | .resume t =>
    let s' := { s with creating := Function.update s.creating t none }
    match s.creating t with
    | none => none
    | some (.found o) => some (Sys.expire { s' with temp := s.temp.erase o } o, .null .alreadyExists)
    | some (.absent n value) => some (createSemaphoreW s' (some n) value)
  | .close h =>
    match s.handle h with
    | none => none
    | some o => some ((s.drop h).expire o, .ret 0)
  | .wait h w => s.waitWith h (Win.answer w) WAIT_TIMEOUT
  | .post h =>
    match s.handle h with
    | none => none
    | some o =>
      if s.count o < lMaximumCount then some (s.put h o, .ret 0) else some (s, .ret 1)
  | .unlink _ => some (s, .ret 0)

/-! ## What a step can do -/

/-- `s` after the second call of a `FFSEM_CREATENEW`. -/
def Sys.back (s : Sys ν τ) (t : τ) : Sys ν τ :=
  { s with creating := Function.update s.creating t none }

/-- The steps of the two systems. -/
inductive Rule (win : Bool) (s : Sys ν τ) : Act ν τ → Sys ν τ → Out → Prop where
  /-- refused, in vain, or nothing to do -/
  | same (a : Act ν τ) (o : Out) (ho : ∀ h made, o ≠ .opened h made) : Rule win s a s o
  | unnamed (t : τ) (f : Flags) (v : Nat) :
    Rule win s (.semOpen t none f v) (s.make v) (.opened s.handles true)
  | found (t : τ) (n : ν) (f : Flags) (v o : Nat) (hn : s.names n = some o) (hx : f.excl = false) :
    Rule win s (.semOpen t (some n) f v) (s.give o) (.opened s.handles false)
  | made (t : τ) (n : ν) (f : Flags) (v : Nat) (hn : s.names n = none) :
    Rule win s (.semOpen t (some n) f v) ((s.bind n (some s.sems)).make v) (.opened s.handles true)
  | look (t : τ) (n : ν) (v o : Nat) (hw : win = true) (hn : s.names n = some o) :
    Rule win s (.semOpen t (some n) .createNew v)
      { s with creating := Function.update s.creating t (some (.found o)), temp := o :: s.temp } .working
  | miss (t : τ) (n : ν) (v : Nat) (hw : win = true) (hn : s.names n = none) :
    Rule win s (.semOpen t (some n) .createNew v)
      { s with creating := Function.update s.creating t (some (.absent n v)) } .working
  | lookEnd (t : τ) (o : Nat) (hw : win = true) (hc : s.creating t = some (.found o)) :
    Rule win s (.resume t) (Sys.expire { s.back t with temp := s.temp.erase o } o)
      (.null .alreadyExists)
  | refusedLate (t : τ) (n : ν) (v : Nat) (hw : win = true) (hc : s.creating t = some (.absent n v)) :
    Rule win s (.resume t) (s.back t) (.null .invalid)
  | foundLate (t : τ) (n : ν) (v o : Nat) (hw : win = true) (hc : s.creating t = some (.absent n v))
    (hn : s.names n = some o) :
    Rule win s (.resume t) ((s.back t).give o) (.opened s.handles false)
  | madeLate (t : τ) (n : ν) (v : Nat) (hw : win = true) (hc : s.creating t = some (.absent n v))
    (hn : s.names n = none) :
    Rule win s (.resume t) (((s.back t).bind n (some s.sems)).make v) (.opened s.handles true)
  | closeUnix (h o : Nat) (hw : win = false) (hh : s.handle h = some o) :
    Rule win s (.close h) (s.drop h) (.ret 0)
  | closeWin (h o : Nat) (hw : win = true) (hh : s.handle h = some o) :
    Rule win s (.close h) ((s.drop h).expire o) (.ret 0)
  | take (h : Nat) (w : Wait) (o : Nat) (hh : s.handle h = some o) (hc : s.count o ≠ 0) :
    Rule win s (.wait h w) (s.take h o) (.ret 0)
  | put (h o : Nat) (hh : s.handle h = some o) : Rule win s (.post h) (s.put h o) (.ret 0)
  | unlink (n : ν) (o : Nat) (hw : win = false) (hn : s.names n = some o) :
    Rule win s (.unlink n) (s.bind n none) (.ret 0)

theorem Unix.answer_true {w : Wait} {value : Nat} (h : Unix.answer w value = some true) :
    value ≠ 0 := by
  unfold Unix.answer at h
  split at h
  · cases h
  · simpa using h
  · split at h
    · cases h
    · assumption
  · rw [Option.some.injEq, timedwait] at h
    split at h
    · cases h
    · simpa using h

theorem Win.answer_true {w : Wait} {value : Nat} (h : Win.answer w value = some true) :
    value ≠ 0 := by
  unfold Win.answer at h
  split at h
  · assumption
  · split at h <;> cases h

/-- A wait takes a permit that is there, or changes nothing. -/
theorem wait_rule {win : Bool} {s s' : Sys ν τ} {k : Nat} {w : Wait} {answer : Nat → Option Bool}
    {fail : Int} {out : Out} (hanswer : ∀ value, answer value = some true → value ≠ 0)
    (h : s.waitWith k answer fail = some (s', out)) : Rule win s (.wait k w) s' out := by
  unfold Sys.waitWith at h
  cases hk : s.handle k with
  | none => simp [hk] at h
  | some o =>
    simp only [hk] at h
    obtain ⟨ok, hok, hs⟩ := Option.map_eq_some_iff.mp h
    cases ok with
    | true =>
      cases hs
      exact .take k w o hk (hanswer _ hok)
    | false =>
      cases hs
      exact .same _ _ fun h made he => (by cases he)

theorem Unix.step_rule {s s' : Sys ν τ} {a : Act ν τ} {out : Out}
    (h : Unix.step s a = some (s', out)) : Rule false s a s' out := by
  have hnull : ∀ e, ∀ h made, Out.null e ≠ .opened h made := fun e h made he => (by cases he)
  have hret : ∀ r, ∀ h made, Out.ret r ≠ .opened h made := fun r h made he => (by cases he)
  cases a with
  | semOpen t name f v =>
    cases name with
    | none =>
      simp only [Unix.step] at h
      split at h
      · cases h
        exact .same _ _ (hnull _)
      · cases h
        exact .unnamed t f v
    | some n =>
      simp only [Unix.step] at h
      cases hn : s.names n with
      | some o =>
        simp only [hn] at h
        split at h
        · cases h
          exact .same _ _ (hnull _)
        · rename_i hx
          cases h
          exact .found t n f v o hn (by simpa using hx)
      | none =>
        simp only [hn] at h
        split at h
        · split at h
          · cases h
            exact .same _ _ (hnull _)
          · cases h
            exact .made t n f v hn
        · cases h
          exact .same _ _ (hnull _)
  | resume t => cases h
  | close k =>
    simp only [Unix.step] at h
    cases hk : s.handle k with
    | none => simp [hk] at h
    | some o =>
      simp only [hk] at h
      cases h
      exact .closeUnix k o rfl hk
  | wait k w => exact wait_rule (fun _ => Unix.answer_true) h
  | post k =>
    simp only [Unix.step] at h
    cases hk : s.handle k with
    | none => simp [hk] at h
    | some o =>
      simp only [hk] at h
      split at h
      · cases h
        exact .put k o hk
      · cases h
        exact .same _ _ (hret _)
  | unlink n =>
    simp only [Unix.step] at h
    cases hn : s.names n with
    | none =>
      simp only [hn] at h
      cases h
      exact .same _ _ (hret _)
    | some o =>
      simp only [hn] at h
      cases h
      exact .unlink n o rfl hn

theorem Win.step_rule {s s' : Sys ν τ} {a : Act ν τ} {out : Out}
    (h : Win.step s a = some (s', out)) : Rule true s a s' out := by
  have hnull : ∀ e, ∀ h made, Out.null e ≠ .opened h made := fun e h made he => (by cases he)
  have hret : ∀ r, ∀ h made, Out.ret r ≠ .opened h made := fun r h made he => (by cases he)
  cases a with
  | semOpen t name f v =>
    cases hc : s.creating t with
    | some c => simp [Win.step, hc] at h
    | none =>
      cases name with
      | none =>
        simp only [Win.step, hc, createSemaphoreW] at h
        split at h
        · cases h
          exact .same _ _ (hnull _)
        · cases h
          exact .unnamed t f v
      | some n =>
        simp only [Win.step, hc] at h
        cases hn : s.names n with
        | none =>
          cases f with
          | createNew =>
            simp only [Win.semOpen, hn] at h
            cases h
            exact .miss t n v rfl hn
          | create =>
            simp only [Win.semOpen, createSemaphoreW, hn] at h
            split at h
            · cases h
              exact .same _ _ (hnull _)
            · cases h
              exact .made t n .create v hn
          | existing =>
            simp only [Win.semOpen, hn] at h
            cases h
            exact .same _ _ (hnull _)
          | both =>
            cases h
            exact .same _ _ (hnull _)
        | some o =>
          cases f with
          | createNew =>
            simp only [Win.semOpen, hn] at h
            cases h
            exact .look t n v o rfl hn
          | create =>
            simp only [Win.semOpen, createSemaphoreW, hn] at h
            split at h
            · cases h
              exact .same _ _ (hnull _)
            · cases h
              exact .found t n .create v o hn rfl
          | existing =>
            simp only [Win.semOpen, hn] at h
            cases h
            exact .found t n .existing v o hn rfl
          | both =>
            cases h
            exact .same _ _ (hnull _)
  | resume t =>
    simp only [Win.step] at h
    cases hc : s.creating t with
    | none => simp [hc] at h
    | some c =>
      cases c with
      | found o =>
        simp only [hc] at h
        cases h
        exact .lookEnd t o rfl hc
      | absent n v =>
        simp only [hc, createSemaphoreW] at h
        split at h
        · cases h
          exact .refusedLate t n v rfl hc
        · cases hn : s.names n with
          | none =>
            simp only [hn] at h
            cases h
            exact .madeLate t n v rfl hc hn
          | some o =>
            simp only [hn] at h
            cases h
            exact .foundLate t n v o rfl hc hn
  | close k =>
    simp only [Win.step] at h
    cases hk : s.handle k with
    | none => simp [hk] at h
    | some o =>
      simp only [hk] at h
      cases h
      exact .closeWin k o rfl hk
  | wait k w => exact wait_rule (fun _ => Win.answer_true) h
  | post k =>
    simp only [Win.step] at h
    cases hk : s.handle k with
    | none => simp [hk] at h
    | some o =>
      simp only [hk] at h
      split at h
      · cases h
        exact .put k o hk
      · cases h
        exact .same _ _ (hret _)
  | unlink n =>
    cases h
    exact .same _ _ (hret _)

theorem inv_step {win : Bool} {s s' : Sys ν τ} {a : Act ν τ} {out : Out} (h : Inv s)
    (hr : Rule win s a s' out) : Inv s' := by
  cases hr with
  | same a o ho => exact h
  | unnamed t f v => exact Inv.make h.handle (fun n o hn => Nat.lt_succ_of_lt (h.names n o hn)) v
  | found t n f v o hn hx => exact h.give (h.names n o hn)
  | made t n f v hn => exact h.bind_make n v
  | look t n v o hw hn => exact ⟨h.handle, h.names⟩
  | miss t n v hw hn => exact ⟨h.handle, h.names⟩
  | lookEnd t o hw hc =>
    exact Inv.expire (s := { s.back t with temp := s.temp.erase o }) ⟨h.handle, h.names⟩ o
  | refusedLate t n v hw hc => exact ⟨h.handle, h.names⟩
  | foundLate t n v o hw hc hn =>
    exact Inv.give (s := s.back t) ⟨h.handle, h.names⟩ (h.names n o hn)
  | madeLate t n v hw hc hn => exact Inv.bind_make (s := s.back t) ⟨h.handle, h.names⟩ n v
  | closeUnix k o hw hk => exact h.drop k
  | closeWin k o hw hk => exact (h.drop k).expire o
  | take k w o hk hc => exact ⟨h.handle, h.names⟩
  | put k o hk => exact ⟨h.handle, h.names⟩
  | unlink n o hw hn =>
    refine ⟨h.handle, fun m o' hm => ?_⟩
    by_cases he : m = n
    · subst he
      rw [show (s.bind m none).names m = none from Function.update_self ..] at hm
      cases hm
    · rw [show (s.bind n none).names m = s.names m from Function.update_of_ne he ..] at hm
      exact h.names m o' hm

theorem handle_step {win : Bool} {s s' : Sys ν τ} {a : Act ν τ} {out : Out} {h o : Nat} (hI : Inv s)
    (hr : Rule win s a s' out) (hh : s.handle h = some o) (ha : a ≠ .close h) :
    s'.handle h = some o := by
  have hne : h ≠ s.handles := fun he => absurd (hI.handle h o hh).1 (by omega)
  have hgive : ∀ x, (s.give x).handle h = some o :=
    fun x => (Function.update_of_ne hne ..).trans hh
  cases hr with
  | same a o' ho => exact hh
  | unnamed t f v => exact hgive _
  | found t n f v o' hn hx => exact hgive _
  | made t n f v hn => exact hgive _
  | look t n v o' hw hn => exact hh
  | miss t n v hw hn => exact hh
  | lookEnd t o' hw hc =>
    rw [expire_handle]
    exact hh
  | refusedLate t n v hw hc => exact hh
  | foundLate t n v o' hw hc hn => exact hgive _
  | madeLate t n v hw hc hn => exact hgive _
  | closeUnix k o' hw hk =>
    have hk : h ≠ k := fun he => ha (he ▸ rfl)
    exact (Function.update_of_ne hk ..).trans hh
  | closeWin k o' hw hk =>
    have hk : h ≠ k := fun he => ha (he ▸ rfl)
    rw [expire_handle]
    exact (Function.update_of_ne hk ..).trans hh
  | take k w o' hk hc => exact hh
  | put k o' hk => exact hh
  | unlink n o' hw hn => exact hh

/-- A name keeps its semaphore until it is unlinked, or, on Windows, for as long as a descriptor is
    open. -/
theorem names_step {win : Bool} {s s' : Sys ν τ} {a : Act ν τ} {out : Out} {n : ν} {o : Nat}
    (hI : Inv s) (hr : Rule win s a s' out) (hn : s.names n = some o)
    (hunix : win = false → a ≠ .unlink n)
    (hwin : win = true → ∃ h, s.handle h = some o ∧ a ≠ .close h) : s'.names n = some o := by
  have hbind : ∀ m x, s.names m = none → (s.bind m x).names n = some o := by
    intro m x hm
    have hne : n ≠ m := by
      rintro rfl
      rw [hn] at hm
      cases hm
    exact (Function.update_of_ne hne ..).trans hn
  -- what expires is not open
  have hexp : ∀ (r : Sys ν τ) (x : Nat), win = true → r.names n = some o → s' = r.expire x →
      s'.names n = some o := by
    rintro r x hw hr' rfl
    obtain ⟨h, hh, ha⟩ := hwin hw
    have hh' := handle_step hI hr hh ha
    rcases expire_names (s := r) (o := x) n with he | ⟨hopen, hx, _⟩
    · rw [he]
      exact hr'
    · rw [hr'] at hx
      cases hx
      rw [isOpen_of_handle (s := r) ?_ (by rwa [expire_handle] at hh')] at hopen
      · cases hopen
      · have := ((inv_step hI hr).handle h o hh').1
        rwa [expire_handles] at this
  cases hr with
  | same a o' ho => exact hn
  | unnamed t f v => exact hn
  | found t m f v o' hm hx => exact hn
  | made t m f v hm => exact hbind m _ hm
  | look t m v o' hw hm => exact hn
  | miss t m v hw hm => exact hn
  | lookEnd t o' hw hc => exact hexp { s.back t with temp := s.temp.erase o' } o' hw hn rfl
  | refusedLate t m v hw hc => exact hn
  | foundLate t m v o' hw hc hm => exact hn
  | madeLate t m v hw hc hm => exact hbind m _ hm
  | closeUnix k o' hw hk => exact hn
  | closeWin k o' hw hk => exact hexp (s.drop k) o' hw hn rfl
  | take k w o' hk hc => exact hn
  | put k o' hk => exact hn
  | unlink m o' hw hm =>
    have hne : n ≠ m := fun he => hunix hw (he ▸ rfl)
    exact (Function.update_of_ne hne ..).trans hn

/-! ## Opening by name -/

/-- `a` opens, or goes on to open, the name with the initial value `v`. -/
def Opens (s : Sys ν τ) (a : Act ν τ) (n : ν) (v : Nat) : Prop :=
  (∃ t f, a = .semOpen t (some n) f v) ∨ ∃ t, a = .resume t ∧ s.creating t = some (.absent n v)

/-- A successful open gives the semaphore of the name, a new one if there is none. -/
theorem opens_spec {win : Bool} {s s' : Sys ν τ} {a : Act ν τ} {n : ν} {v h : Nat} {made : Bool}
    (ha : Opens s a n v) (hr : Rule win s a s' (.opened h made)) :
    ∃ o, s'.handle h = some o ∧ s'.names n = some o ∧
      (s.names n = some o ∧ made = false ∨
        s.names n = none ∧ made = true ∧ o = s.sems ∧ s'.count o = v) := by
  have hmade : ∀ r : Sys ν τ, r.sems = s.sems → ((r.bind n (some s.sems)).make v).handle r.handles =
      some s.sems ∧ ((r.bind n (some s.sems)).make v).names n = some s.sems ∧
      ((r.bind n (some s.sems)).make v).count s.sems = v := by
    intro r hs
    refine ⟨?_, Function.update_self .., ?_⟩
    · rw [← hs]
      exact Function.update_self ..
    · rw [← hs]
      exact Function.update_self ..
  have hname : ∀ {t f m w}, Opens s (.semOpen t (some m) f w) n v → m = n ∧ w = v := by
    rintro t f m w (⟨_, _, he⟩ | ⟨_, he, _⟩)
    · cases he
      exact ⟨rfl, rfl⟩
    · cases he
  have hlate : ∀ {t m w}, Opens s (.resume t) n v → s.creating t = some (.absent m w) →
      m = n ∧ w = v := by
    rintro t m w (⟨_, _, he⟩ | ⟨_, he, hc⟩) hc'
    · cases he
    · cases he
      rw [hc] at hc'
      cases hc'
      exact ⟨rfl, rfl⟩
  cases hr with
  | same a o ho => exact absurd rfl (ho h made)
  | unnamed t f w =>
    rcases ha with ⟨_, _, he⟩ | ⟨_, he, _⟩ <;> cases he
  | found t m f w o hm hx =>
    obtain ⟨rfl, rfl⟩ := hname ha
    exact ⟨o, Function.update_self .., hm, Or.inl ⟨hm, rfl⟩⟩
  | made t m f w hm =>
    obtain ⟨rfl, rfl⟩ := hname ha
    obtain ⟨h1, h2, h3⟩ := hmade s rfl
    exact ⟨s.sems, h1, h2, Or.inr ⟨hm, rfl, rfl, h3⟩⟩
  | foundLate t m w o hw hc hm =>
    obtain ⟨rfl, rfl⟩ := hlate ha hc
    exact ⟨o, Function.update_self .., hm, Or.inl ⟨hm, rfl⟩⟩
  | madeLate t m w hw hc hm =>
    obtain ⟨rfl, rfl⟩ := hlate ha hc
    obtain ⟨h1, h2, h3⟩ := hmade (s.back t) rfl
    exact ⟨s.sems, h1, h2, Or.inr ⟨hm, rfl, rfl, h3⟩⟩

/-- What a successful open is worth: the semaphore has just been made if `made` says so, and whoever
    opens the name later, as long as all steps are `kept`, gets the same one. -/
structure Opened (step : Sys ν τ → Act ν τ → Option (Sys ν τ × Out)) (kept : Act ν τ → Prop) (n : ν)
    (v : Nat) (s s' : Sys ν τ) (h : Nat) (made : Bool) (o : Nat) : Prop where
  sem : s'.handle h = some o
  fresh : made = true → s'.count o = v ∧ ∀ k, s.handle k ≠ some o
  shared : ∀ bs u os, exec step s' bs = some (u, os) → (∀ b ∈ bs, kept b) →
    ∀ b w u' h' m, Opens u b n w → step u b = some (u', .opened h' m) →
      u'.handle h' = some o ∧ m = false

theorem opened_of_rule {win : Bool} {step : Sys ν τ → Act ν τ → Option (Sys ν τ × Out)}
    (hrule : ∀ s a s' out, step s a = some (s', out) → Rule win s a s' out) {kept : Act ν τ → Prop}
    {s s' : Sys ν τ} {a : Act ν τ} {n : ν} {v h : Nat} {made : Bool} (hI : Inv s)
    (hunix : win = false → ∀ b, kept b → b ≠ .unlink n)
    (hwin : win = true → ∀ b, kept b → b ≠ .close h)
    (ha : Opens s a n v) (hst : step s a = some (s', .opened h made)) :
    ∃ o, Opened step kept n v s s' h made o := by
  obtain ⟨o, hh, hn, hcase⟩ := opens_spec ha (hrule _ _ _ _ hst)
  refine ⟨o, hh, ?_, ?_⟩
  · intro hm
    rcases hcase with ⟨_, hf⟩ | ⟨_, _, rfl, hv⟩
    · rw [hm] at hf
      cases hf
    · exact ⟨hv, fun k hk => absurd (hI.handle k _ hk).2 (Nat.lt_irrefl _)⟩
  · intro bs u os hrun hkept b w u' h' m hb hbst
    -- the name and, on Windows, the descriptor stay
    have hstays := exec_output (A := kept) (B := fun _ => True) (Q := fun _ => True)
      (I := fun r => Inv r ∧ r.names n = some o ∧ (win = true → r.handle h = some o))
      (fun r c r' out hr hc _ hs => by
        have hR := hrule _ _ _ _ hs
        refine ⟨⟨inv_step hr.1 hR, ?_, fun hw => ?_⟩, trivial⟩
        · exact names_step hr.1 hR hr.2.1 (fun hw => hunix hw c hc)
            (fun hw => ⟨h, hr.2.2 hw, hwin hw c hc⟩)
        · exact handle_step hr.1 hR (hr.2.2 hw) (hwin hw c hc))
      bs s' u os ⟨inv_step hI (hrule _ _ _ _ hst), hn, fun _ => hh⟩ hkept (fun _ _ => trivial) hrun
    obtain ⟨⟨_, hnu, _⟩, _⟩ := hstays
    obtain ⟨o', hh', _, hcase'⟩ := opens_spec hb (hrule _ _ _ _ hbst)
    rcases hcase' with ⟨hn', hm'⟩ | ⟨hn', _⟩
    · rw [hnu] at hn'
      cases hn'
      exact ⟨hh', hm'⟩
    · rw [hnu] at hn'
      cases hn'

/-- On UNIX an exclusive open that succeeds has made the semaphore. -/
theorem Unix.excl_made {s s' : Sys ν τ} {t : τ} {n : ν} {f : Flags} {v h : Nat} {made : Bool}
    (hf : f.excl = true)
    (hst : Unix.step s (.semOpen t (some n) f v) = some (s', .opened h made)) : made = true := by
  cases Unix.step_rule hst with
  | same a o ho => exact absurd rfl (ho h made)
  | found t n f v o hn hx =>
    rw [hf] at hx
    cases hx
  | made t n f v hn => rfl

/-- On Windows so has `FFSEM_CREATENEW` if nothing comes between its two system calls. -/
theorem Win.createNew_made {s s₁ s₂ : Sys ν τ} {t : τ} {n : ν} {v h : Nat} {out : Out} {made : Bool}
    (h1 : Win.step s (.semOpen t (some n) .createNew v) = some (s₁, out))
    (h2 : Win.step s₁ (.resume t) = some (s₂, .opened h made)) : made = true := by
  -- there is nothing to go on with unless the call is in progress
  have hidle : s.creating t = none := by
    cases hc : s.creating t with
    | none => rfl
    | some c => simp [Win.step, hc] at h1
  cases hn : s.names n with
  | some o =>
    simp only [Win.step, hidle, Win.semOpen, hn] at h1
    cases h1
    simp [Win.step, Function.update_self] at h2
  | none =>
    simp only [Win.step, hidle, Win.semOpen, hn] at h1
    cases h1
    cases Win.step_rule h2 with
    | same a o ho => exact absurd rfl (ho h made)
    | foundLate t m w o hw hc hm =>
      obtain ⟨rfl, rfl⟩ : n = m ∧ v = w := by
        simpa [Function.update_self] using hc
      rw [show s.names n = some o from hm] at hn
      cases hn
    | madeLate t m w hw hc hm => rfl

/-- Two calls with `FFSEM_CREATENEW` at the same time. -/
def raceRun : List (Act Unit Bool) :=
  [.semOpen false (some ()) .createNew 1, .semOpen true (some ()) .createNew 1, .resume false,
    .resume true]

/-- **Names of semaphores, in every interleaving.**  A successful open by name gives the semaphore
    of the name, with the value asked for and open nowhere else if it has just been made; every later
    open of the name gives the same one, on UNIX until the name is unlinked, on Windows as long as the
    descriptor is open.  With `FFSEM_CREATENEW` it has just been made, on UNIX always, on Windows if no
    step of another call comes between the two system calls; otherwise two calls may succeed
    together, with one semaphore. -/
theorem ffsem_names (n : ν) :
    (∀ (as : List (Act ν τ)) s os, exec Unix.step Sys.init as = some (s, os) → ∀ a v s' h made,
      Opens s a n v → Unix.step s a = some (s', .opened h made) →
        (∃ o, Opened Unix.step (· ≠ .unlink n) n v s s' h made o) ∧
        ∀ t f, a = .semOpen t (some n) f v → f.excl = true → made = true) ∧
    (∀ (as : List (Act ν τ)) s os, exec Win.step Sys.init as = some (s, os) → ∀ a v s' h made,
      Opens s a n v → Win.step s a = some (s', .opened h made) →
        ∃ o, Opened Win.step (· ≠ .close h) n v s s' h made o) ∧
    (∀ (s : Sys ν τ) t v s₁ out s₂ h made,
      Win.step s (.semOpen t (some n) .createNew v) = some (s₁, out) →
      Win.step s₁ (.resume t) = some (s₂, .opened h made) → made = true) ∧
    ∃ s, exec Win.step Sys.init raceRun =
        some (s, [.working, .working, .opened 0 true, .opened 1 false]) ∧
      s.handle 0 = some 0 ∧ s.handle 1 = some 0 := by
  refine ⟨?_, ?_, ?_, ⟨_, rfl, rfl, rfl⟩⟩
  · intro as s os hrun a v s' h made ha hst
    have hI : Inv s :=
      exec_keeps (fun _ _ _ _ hi hs => inv_step hi (Unix.step_rule hs)) Inv.init hrun
    refine ⟨opened_of_rule (fun _ _ _ _ => Unix.step_rule) hI (fun _ _ hb => hb)
      (fun hw => (by cases hw)) ha hst, ?_⟩
    rintro t f rfl hf
    exact Unix.excl_made hf hst
  · intro as s os hrun a v s' h made ha hst
    have hI : Inv s :=
      exec_keeps (fun _ _ _ _ hi hs => inv_step hi (Win.step_rule hs)) Inv.init hrun
    exact opened_of_rule (fun _ _ _ _ => Win.step_rule) hI (fun hw => (by cases hw))
      (fun _ _ hb => hb) ha hst
  · intro s t v s₁ out s₂ h made h1 h2
    exact Win.createNew_made h1 h2

/-- Behind an unnamed semaphore, a name is created with the value 2, its permit is taken and the
    descriptor closed; it is opened again with another value. -/
theorem ffsem_names_again :
    ∃ (s s' u u' : Sys Unit Bool) (o : Nat),
      exec Unix.step Sys.init [.semOpen true none .existing 5] = some (s, [.opened 0 true]) ∧
      Unix.step s (.semOpen false (some ()) .createNew 2) = some (s', .opened 1 true) ∧
      exec Unix.step s' [.wait 1 ⟨0, ⟨0, 0⟩, false⟩, .close 1] = some (u, [.ret 0, .ret 0]) ∧
      Unix.step u (.semOpen true (some ()) .create 7) = some (u', .opened 2 false) ∧
      s'.handle 1 = some o ∧ s'.count o = 2 ∧ s.handle 0 ≠ some o ∧ u'.handle 2 = some o := by
  refine ⟨_, _, _, _, 1, rfl, rfl, rfl, rfl, ?_⟩
  obtain ⟨⟨o, O⟩, -⟩ := (ffsem_names ()).1 [.semOpen true none .existing 5] _ _ rfl
    (.semOpen false (some ()) .createNew 2) 2 _ 1 true (.inl ⟨_, _, rfl⟩) rfl
  have ho : o = 1 := (Option.some.inj O.sem).symm
  subst ho
  have hlater := O.shared [.wait 1 ⟨0, ⟨0, 0⟩, false⟩, .close 1] _ _ rfl (by simp)
    (.semOpen true (some ()) .create 7) 7 _ 2 false (.inl ⟨_, _, rfl⟩) rfl
  exact ⟨O.sem, (O.fresh rfl).1, (O.fresh rfl).2 0, hlater.1⟩

end FFSys.Semaphore
