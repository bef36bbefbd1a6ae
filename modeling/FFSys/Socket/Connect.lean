import FFSys.Lib.Run

/-!
# Asynchronous connecting

`ffsock_connect_async` starts a connection and is called again after an event of the kernel queue.
On UNIX the second call does not ask whether the connection is there: it reads what
`ffkq_task_event_assign` has put into the task from the event.  On Windows it asks the request.

* `Sys`, `step` — the socket, the task, the kernel queue and the caller; `connectUnix`, `connectWin` —
  the function.
* `Careful` — the caller waits for an event, assigns it, and then calls again.
* `Inv` — what the task says about the socket then.
* `ffsock_connect_outcome` — each call gives the outcome, on UNIX to a careful caller.
-/

set_option autoImplicit false

namespace FFSys.Socket.Connect

open FFSys.Lib

inductive Os where
  | linux
  | bsd
  | windows
  deriving DecidableEq

inductive Conn where
  | idle
  | pending
  | up
  | refused (e : Nat)
  deriving DecidableEq

/-- What the caller has from `ffkq_wait`: EPOLLERR or EV_EOF, and the error code of the filter. -/
structure Event where
  err : Bool
  errno : Nat

structure Sys where
  conn : Conn
  /-- SO_ERROR on Linux -/
  soError : Nat
  active : Bool
  kevFlags : Bool
  kevErrno : Nat
  /-- the queue has something about the socket -/
  news : Bool
  event : Option Event
  /-- an event has been assigned since the connection was started -/
  told : Bool

def Sys.init : Sys := ⟨.idle, 0, false, false, 0, false, none, false⟩

/-- What `connect` or `bind` and `ConnectEx` return. -/
inductive Answer where
  | done
  | inProgress
  | failed (e : Nat)

inductive Out where
  | ok
  /-- `FFSOCK_EINPROGRESS` -/
  | again
  | error (e : Nat)
  | silent
  deriving DecidableEq

inductive Act where
  | call (answer : Answer)
  /-- the connection is there or refused -/
  | finish (e : Option Nat)
  /-- some other reason for the queue to look at the socket -/
  | edge
  | wait
  | assign

/-- A socket that is connecting or connected cannot be connected. -/
def Answer.fits : Answer → Conn → Bool
  | .failed e, _ => e != 0
  | _, .pending | _, .up => false
  | _, _ => true

/-! ## The function -/

/-- The call that follows an event. -/
def finishUnix (os : Os) (s : Sys) : Sys × Out :=
  let s' := { s with active := false }
  if os = .linux then
    -- `getsockopt` resets the error
    if s.kevFlags then
      if s.soError ≠ 0 then ({ s' with soError := 0 }, .error s.soError) else (s', .ok)
    else (s', .ok)
  else if s.kevFlags ∧ s.kevErrno ≠ 0 then (s', .error s.kevErrno)
  else (s', .ok)

def startUnix (s : Sys) (answer : Answer) : Sys × Out :=
  let s' := { s with kevFlags := false, kevErrno := 0, told := false }
  match answer with
  | .done => ({ s' with conn := .up, news := true }, .ok)
  | .inProgress => ({ s' with conn := .pending, active := true }, .again)
  | .failed e => (s', .error e)

/-- `ffsock_connect_async` (UNIX) -/
def connectUnix (os : Os) (s : Sys) (answer : Answer) : Sys × Out :=
  if s.active then finishUnix os s else startUnix s answer

/-- `ffsock_connect_async` (Windows) -/
def connectWin (s : Sys) (answer : Answer) : Sys × Out :=
  if s.active then
    -- `GetOverlappedResult`
    match s.conn with
    | .pending | .idle => (s, .again)
    | .up => ({ s with active := false }, .ok)
    | .refused e => ({ s with active := false }, .error e)
  else
    match answer with
    | .done => ({ s with conn := .up, news := true, active := true, told := false }, .again)
    | .inProgress => ({ s with conn := .pending, active := true, told := false }, .again)
    | .failed e => (s, .error e)

/-! ## The system -/

/-- The event that `ffkq_wait` gives for the socket. -/
def Sys.report (os : Os) (s : Sys) : Event :=
  match os with
  | .linux => ⟨s.soError != 0, 0⟩
  | .bsd =>
    match s.conn with
    | .refused e => ⟨true, e⟩
    | _ => ⟨false, 0⟩
  | .windows => ⟨false, 0⟩

def step (os : Os) (s : Sys) : Act → Option (Sys × Out)
  | .call answer =>
    if s.active = false ∧ answer.fits s.conn = false then none
    else some (if os = .windows then connectWin s answer else connectUnix os s answer)
  | .finish e =>
    if s.conn ≠ .pending ∨ e = some 0 then none
    else
      match e with
      | none => some ({ s with conn := .up, news := true }, .silent)
      | some e =>
        some ({ s with
          conn := .refused e
          soError := if os = .linux then e else s.soError
          news := true }, .silent)
  | .edge => if os = .windows then none else some ({ s with news := true }, .silent)
  | .wait =>
    if s.news = false then none
    else if s.conn = .pending then
      -- the queue looks again, and there is nothing
      some ({ s with news := false }, .silent)
    else some ({ s with news := false, event := some (s.report os) }, .silent)
  | .assign =>
    match s.event with
    | none => none
    | some ev =>
      if os = .windows then some ({ s with event := none, told := true }, .silent)
      else
        some ({ s with event := none, kevFlags := ev.err, kevErrno := ev.errno, told := true }, .silent)

/-- The caller does not start a connection with an old event in hand, and calls again after an event
    has been assigned. -/
def Careful (s : Sys) : Act → Prop
  | .call _ => (s.active = true → s.told = true) ∧ (s.active = false → s.event = none)
  | _ => True

/-! ## The outcome -/

/-- What a call says is so; on UNIX the second call is the last. -/
def Truthful (os : Os) (s s' : Sys) : Out → Prop
  | .ok => s'.conn = .up
  | .again => s'.active = true ∧
    (s'.conn = .pending ∧ (os ≠ .windows → s.active = false) ∨ os = .windows ∧ s'.conn = .up)
  | .error e => s.active = true → s.conn = .refused e
  | .silent => True

/-- The flags and the error code are those of the outcome. -/
def Tells (os : Os) (s : Sys) (err : Bool) (errno : Nat) : Prop :=
  match s.conn with
  | .idle | .pending => False
  | .up => os ≠ .linux → err = false
  | .refused e => err = true ∧ (os ≠ .linux → errno = e)

/-- The error that the socket keeps. -/
def Sys.lastError (s : Sys) : Nat :=
  if s.active then
    match s.conn with
    | .refused e => e
    | _ => 0
  else 0

/-- The invariant of a careful caller on UNIX. -/
structure Inv (os : Os) (s : Sys) : Prop where
  started : s.active = true → s.conn ≠ .idle
  pending : s.conn = .pending → s.active = true
  error : os = .linux → s.soError = s.lastError
  refused : ∀ e, s.conn = .refused e → e ≠ 0
  event : s.active = true → ∀ ev, s.event = some ev → Tells os s ev.err ev.errno
  told : s.active = true → s.told = true → Tells os s s.kevFlags s.kevErrno
  /-- the end of the connection is not missed -/
  coming : s.active = true → s.conn ≠ .pending → s.news = true ∨ s.event.isSome = true ∨ s.told = true

theorem Inv.init (os : Os) : Inv os Sys.init :=
  ⟨fun h => (by cases h), fun h => (by cases h), fun _ => rfl, fun e h => (by cases h),
    fun h => (by cases h), fun h => (by cases h), fun h => (by cases h)⟩

/-- A task that is not active has nothing to say. -/
theorem Inv.inactive {os : Os} {s : Sys} (ha : s.active = false) (hp : s.conn ≠ .pending)
    (he : os = .linux → s.soError = 0) (hr : ∀ e, s.conn = .refused e → e ≠ 0) : Inv os s := by
  have hno : ¬ s.active = true := by simp [ha]
  refine ⟨fun h => absurd h hno, fun h => absurd h hp, fun ho => ?_, hr, fun h => absurd h hno,
    fun h => absurd h hno, fun h => absurd h hno⟩
  rw [he ho]
  simp [Sys.lastError, ha]

theorem finish_spec {os : Os} (hos : os ≠ .windows) {s : Sys} (h : Inv os s) (ha : s.active = true)
    (ht : s.told = true) :
    Inv os (finishUnix os s).1 ∧ Truthful os s (finishUnix os s).1 (finishUnix os s).2 := by
  have htells := h.told ha ht
  have herr := h.error
  unfold Tells at htells
  unfold Sys.lastError at herr
  rw [if_pos ha] at herr
  cases hc : s.conn with
  | idle =>
    rw [hc] at htells
    exact htells.elim
  | pending =>
    rw [hc] at htells
    exact htells.elim
  | up =>
    rw [hc] at htells herr
    have hfin : finishUnix os s = ({ s with active := false }, .ok) := by
      unfold finishUnix
      cases os with
      | linux => simp [herr rfl]
      | bsd => simp [htells (by simp)]
      | windows => exact absurd rfl hos
    rw [hfin]
    exact ⟨Inv.inactive rfl (by simp [hc]) herr h.refused, hc⟩
  | refused e =>
    rw [hc] at htells herr
    have hne := h.refused e hc
    cases os with
    | linux =>
      have hfin : finishUnix .linux s = ({ s with active := false, soError := 0 }, .error e) := by
        simp [finishUnix, htells.1, herr rfl, hne]
      rw [hfin]
      exact ⟨Inv.inactive rfl (by simp [hc]) (fun _ => rfl) h.refused, fun _ => hc⟩
    | bsd =>
      have hfin : finishUnix .bsd s = ({ s with active := false }, .error e) := by
        simp [finishUnix, htells.1, htells.2 (by simp), hne]
      rw [hfin]
      exact ⟨Inv.inactive rfl (by simp [hc]) (fun ho => (by cases ho)) h.refused, fun _ => hc⟩
    | windows => exact absurd rfl hos

theorem start_spec {os : Os} {s : Sys} (h : Inv os s) (ha : s.active = false)
    (hev : s.event = none) (answer : Answer) :
    Inv os (startUnix s answer).1 ∧ Truthful os s (startUnix s answer).1 (startUnix s answer).2 := by
  have hno : ¬ s.active = true := by simp [ha]
  have herr : os = .linux → s.soError = 0 := by
    intro ho
    rw [h.error ho]
    simp [Sys.lastError, ha]
  cases answer with
  | done => exact ⟨Inv.inactive ha (fun hp => (by cases hp)) herr fun e he => (by cases he), rfl⟩
  | failed e =>
    have hp : s.conn ≠ .pending := fun hp => hno (h.pending hp)
    exact ⟨Inv.inactive ha hp herr h.refused, fun hact => absurd hact hno⟩
  | inProgress =>
    refine ⟨⟨fun _ hc => (by cases hc), fun _ => rfl, herr, fun e he => (by cases he), ?_,
      fun _ ht => (by cases ht), fun _ hp => absurd rfl hp⟩, rfl, Or.inl ⟨rfl, fun _ => ha⟩⟩
    intro _ ev he
    rw [show s.event = some ev from he] at hev
    cases hev

/-- The event that the queue gives is that of the outcome. -/
theorem report_tells {os : Os} (hos : os ≠ .windows) {s : Sys} (h : Inv os s) (ha : s.active = true)
    (hp : s.conn ≠ .pending) : Tells os s (s.report os).err (s.report os).errno := by
  have herr := h.error
  unfold Sys.lastError at herr
  rw [if_pos ha] at herr
  unfold Tells
  cases hc : s.conn with
  | idle => exact absurd hc (h.started ha)
  | pending => exact absurd hc hp
  | up =>
    intro hl
    cases os with
    | linux => exact absurd rfl hl
    | bsd => simp [Sys.report, hc]
    | windows => exact absurd rfl hos
  | refused e =>
    rw [hc] at herr
    cases os with
    | linux => exact ⟨by simp [Sys.report, herr rfl, h.refused e hc], fun hl => absurd rfl hl⟩
    | bsd => exact ⟨by simp [Sys.report, hc], fun _ => by simp [Sys.report, hc]⟩
    | windows => exact absurd rfl hos

theorem call_spec {os : Os} (hos : os ≠ .windows) {s s' : Sys} {answer : Answer} {out : Out}
    (h : Inv os s) (hcare : Careful s (.call answer)) (hst : step os s (.call answer) = some (s', out)) :
    Inv os s' ∧ Truthful os s s' out := by
  simp only [step] at hst
  split at hst
  · cases hst
  · cases hact : s.active with
    | true =>
      have hcall : connectUnix os s answer = finishUnix os s := if_pos hact
      rw [hcall] at hst
      obtain ⟨hI, hT⟩ := finish_spec hos h hact (hcare.1 hact)
      rw [Option.some.inj hst] at hI hT
      exact ⟨hI, hT⟩
    | false =>
      have hcall : connectUnix os s answer = startUnix s answer := if_neg (by simp [hact])
      rw [hcall] at hst
      obtain ⟨hI, hT⟩ := start_spec h hact (hcare.2 hact) answer
      rw [Option.some.inj hst] at hI hT
      exact ⟨hI, hT⟩

theorem inv_step {os : Os} (hos : os ≠ .windows) {s s' : Sys} {a : Act} {out : Out} (h : Inv os s)
    (hcare : Careful s a) (hst : step os s a = some (s', out)) : Inv os s' := by
  cases a with
  | call answer => exact (call_spec hos h hcare hst).1
  | finish e =>
    simp only [step] at hst
    split at hst
    · cases hst
    · rename_i hok
      have hp : s.conn = .pending := by
        by_contra hn
        exact hok (Or.inl hn)
      have hact := h.pending hp
      have herr := h.error
      unfold Sys.lastError at herr
      rw [if_pos hact, hp] at herr
      have htells : ∀ err n, ¬ Tells os s err n := by
        intro err n hs
        unfold Tells at hs
        rw [hp] at hs
        exact hs
      cases e with
      | none =>
        cases hst
        refine ⟨fun _ hc => (by cases hc), fun hc => (by cases hc), fun ho => ?_,
          fun e he => (by cases he), fun _ ev hev => (htells _ _ (h.event hact ev hev)).elim,
          fun _ ht => (htells _ _ (h.told hact ht)).elim, fun _ _ => Or.inl rfl⟩
        rw [show s.soError = 0 from herr ho]
        simp [Sys.lastError]
      | some e =>
        cases hst
        refine ⟨fun _ hc => (by cases hc), fun hc => (by cases hc), fun ho => ?_, ?_,
          fun _ ev hev => (htells _ _ (h.event hact ev hev)).elim,
          fun _ ht => (htells _ _ (h.told hact ht)).elim, fun _ _ => Or.inl rfl⟩
        · simp [Sys.lastError, ho, hact]
        · intro e' he' h0
          cases he'
          exact hok (Or.inr (by rw [h0]))
  | edge =>
    simp only [step] at hst
    split at hst
    · cases hst
    · cases hst
      exact ⟨h.started, h.pending, h.error, h.refused, h.event, h.told, fun _ _ => Or.inl rfl⟩
  | wait =>
    simp only [step] at hst
    split at hst
    · cases hst
    · split at hst
      · rename_i hp
        cases hst
        exact ⟨h.started, h.pending, h.error, h.refused, h.event, h.told, fun _ hn => absurd hp hn⟩
      · rename_i hp
        cases hst
        refine ⟨h.started, h.pending, h.error, h.refused, ?_, h.told, fun _ _ => Or.inr (Or.inl rfl)⟩
        intro hact ev hev
        cases hev
        have htells : Tells os s (s.report os).err (s.report os).errno := report_tells hos h hact hp
        exact htells
  | assign =>
    simp only [step] at hst
    cases hev : s.event with
    | none => simp [hev] at hst
    | some ev =>
      simp only [hev] at hst
      split at hst
      · rename_i hw
        exact absurd hw hos
      · cases hst
        exact ⟨h.started, h.pending, h.error, h.refused, fun _ _ he => (by cases he),
          fun hact _ => h.event hact ev hev, fun _ _ => Or.inr (Or.inr rfl)⟩

/-! ## Windows -/

/-- On Windows the request says how it is, whenever it is asked. -/
theorem win_call {s s' : Sys} {answer : Answer} {out : Out} (h : s.active = true → s.conn ≠ .idle)
    (hst : step .windows s (.call answer) = some (s', out)) :
    Truthful .windows s s' out ∧ (s'.active = true → s'.conn ≠ .idle) := by
  simp only [step] at hst
  split at hst
  · cases hst
  · have hcall : connectWin s answer = (s', out) := Option.some.inj hst
    cases hact : s.active with
    | true =>
      cases hc : s.conn with
      | idle => exact absurd hc (h hact)
      | pending =>
        obtain ⟨rfl, rfl⟩ : s = s' ∧ Out.again = out := by simpa [connectWin, hact, hc] using hcall
        exact ⟨⟨hact, Or.inl ⟨hc, fun ho => absurd rfl ho⟩⟩, h⟩
      | up =>
        obtain ⟨rfl, rfl⟩ : { s with active := false } = s' ∧ Out.ok = out := by
          simpa [connectWin, hact, hc] using hcall
        exact ⟨hc, fun ha => (by cases ha)⟩
      | refused e =>
        obtain ⟨rfl, rfl⟩ : { s with active := false } = s' ∧ Out.error e = out := by
          simpa [connectWin, hact, hc] using hcall
        exact ⟨fun _ => hc, fun ha => (by cases ha)⟩
    | false =>
      have hno : ¬ s.active = true := by simp [hact]
      unfold connectWin at hcall
      rw [if_neg hno] at hcall
      cases answer with
      | done =>
        cases hcall
        exact ⟨⟨rfl, Or.inr ⟨rfl, rfl⟩⟩, fun _ hc => (by cases hc)⟩
      | inProgress =>
        cases hcall
        exact ⟨⟨rfl, Or.inl ⟨rfl, fun ho => absurd rfl ho⟩⟩, fun _ hc => (by cases hc)⟩
      | failed e =>
        cases hcall
        exact ⟨fun ha => absurd ha hno, h⟩

theorem started_step {s s' : Sys} {a : Act} {out : Out} (h : s.active = true → s.conn ≠ .idle)
    (hst : step .windows s a = some (s', out)) : s'.active = true → s'.conn ≠ .idle := by
  cases a with
  | call answer => exact (win_call h hst).2
  | finish e =>
    simp only [step] at hst
    split at hst
    · cases hst
    · cases e with
      | none =>
        cases hst
        exact fun _ hc => (by cases hc)
      | some e =>
        cases hst
        exact fun _ hc => (by cases hc)
  | edge => cases hst
  | wait =>
    simp only [step] at hst
    split at hst
    · cases hst
    · split at hst <;> cases hst <;> exact h
  | assign =>
    simp only [step] at hst
    split at hst
    · cases hst
    · cases hst
      exact h

/-- A caller that does not wait. -/
def hastyRun : List Act := [.call .inProgress, .call .inProgress]

/-- A caller that does not assign the event. -/
def deafRun : List Act := [.call .inProgress, .finish (some 111), .wait, .call .inProgress]

/-- **The outcome of a connection.**  On UNIX, to a caller that calls again only after it has assigned
    an event, and on Windows to every caller, in every run: a call that succeeds is for a connection
    that is there, one that fails when the connection has been started has its error, and one that
    is to be called again has it in progress; on UNIX the second call is the last, and the event for it
    is not missed.  A caller on UNIX that does not wait is told that a connection is there which is in
    progress, and one that does not assign the event that one is which was refused. -/
theorem ffsock_connect_outcome (os : Os) (as : List Act) (s : Sys) (outs : List Out)
    (h : exec (step os) Sys.init as = some (s, outs)) :
    (os ≠ .windows → EachStep (step os) Careful Sys.init as →
      (∀ answer s' out, Careful s (.call answer) → step os s (.call answer) = some (s', out) →
        Truthful os s s' out) ∧
      (s.active = true → s.conn ≠ .pending →
        s.news = true ∨ s.event.isSome = true ∨ s.told = true)) ∧
    (os = .windows → ∀ answer s' out, step os s (.call answer) = some (s', out) →
      Truthful os s s' out) ∧
    ∀ os', os' ≠ .windows →
      (∃ t, exec (step os') Sys.init hastyRun = some (t, [.again, .ok]) ∧ t.conn = .pending) ∧
      ∃ t, exec (step os') Sys.init deafRun = some (t, [.again, .silent, .silent, .ok]) ∧
        t.conn = .refused 111 := by
  refine ⟨?_, ?_, ?_⟩
  · intro hos hcare
    have hI : Inv os s := (always_of_eachStep
      (fun _ _ _ _ hi hc hst => inv_step hos hi hc hst) as Sys.init (Inv.init os) hcare).last h
    exact ⟨fun answer s' out hc hst => (call_spec hos hI hc hst).2, hI.coming⟩
  · rintro rfl answer s' out hst
    have hI : s.active = true → s.conn ≠ .idle :=
      @exec_keeps _ _ _ (step .windows) (fun s => s.active = true → s.conn ≠ .idle)
        (fun _ _ _ _ hi hs => started_step hi hs) as Sys.init s outs (fun ha => (by cases ha)) h
    exact (win_call hI hst).1
  · intro os' hos
    cases os' with
    | linux => exact ⟨⟨_, rfl, rfl⟩, _, rfl, rfl⟩
    | bsd => exact ⟨⟨_, rfl, rfl⟩, _, rfl, rfl⟩
    | windows => exact absurd rfl hos

/-- A connection that is refused, and a caller that waits. -/
def refusedRun : List Act := [.call .inProgress, .finish (some 111), .wait, .assign]

theorem ffsock_connect_outcome_refused :
    ∃ s outs s', exec (step .linux) Sys.init refusedRun = some (s, outs) ∧
      step .linux s (.call .inProgress) = some (s', .error 111) ∧
      Truthful .linux s s' (.error 111) := by
  have hcare : EachStep (step .linux) Careful Sys.init refusedRun :=
    ⟨⟨fun ha => (by cases ha), fun _ => rfl⟩, trivial, trivial, trivial, trivial⟩
  exact ⟨_, _, _, rfl, rfl, ((ffsock_connect_outcome .linux refusedRun _ _ rfl).1 (by simp) hcare).1
    .inProgress _ _ ⟨fun _ => rfl, fun ha => (by cases ha)⟩ rfl⟩

end FFSys.Socket.Connect
