import Mathlib.Data.List.Basic
import FFSys.Lib.Run

/-!
# The timer thread of Windows

A timer has a thread of its own that sleeps in an alertable state.  The main thread leaves a
command in `ctl`, sets the event `evt` and waits for the event `evt_result`; both events reset
themselves when a wait returns.  When the timer expires, the system has the thread call
`_fftimer_onfire`, which posts to the kernel queue.

* `Sys`, `step` — the two threads, the two events and the waitable timer; a step is one access to
  shared memory or one system call.  `TStep`, `step_cases` — what a step can do.
* `Phase` — the synchronous timer that the main thread is to see: each call is executed once, with
  its own arguments, and returns its own result.
* `Conf` — the states of the protocol; `Conf.step` — each step goes from one to another.
* `fftimer_cmd_synchronous` — the results of all calls in every interleaving.
-/

set_option autoImplicit false

namespace FFSys.Timer.Thread

open FFSys.Lib

/-- `_FFTIMER_EXIT`, `_FFTIMER_START`, `_FFTIMER_STOP`. -/
inductive Cmd
  | exit
  | start
  | stop
deriving DecidableEq

/-- What the main thread can call: `fftimer_start`, `fftimer_stop`, `fftimer_close`. -/
inductive Call
  | start (kq data : Nat) (period_ms : Int)
  | stop
  | close
deriving DecidableEq

/-- A store into the structure. -/
inductive Store
  | kq (v : Nat)
  | data (v : Nat)
  | period_ms (v : Int)
  | ctl (v : Cmd)
deriving DecidableEq

def Call.cmd : Call → Cmd
  | .start _ _ _ => .start
  | .stop => .stop
  | .close => .exit

/-- The stores before `SetEvent(tmr->evt)`. -/
def Call.stores : Call → List Store
  | .start kq data period_ms => [.kq kq, .data data, .period_ms period_ms, .ctl .start]
  | .stop => [.ctl .stop]
  | .close => [.ctl .exit]

/-- The memory of `struct _fftimer`. -/
structure Tmr where
  kq : Nat
  data : Nat
  period_ms : Int
  ctl : Cmd
  result : Nat

def Tmr.put (t : Tmr) : Store → Tmr
  | .kq v => { t with kq := v }
  | .data v => { t with data := v }
  | .period_ms v => { t with period_ms := v }
  | .ctl v => { t with ctl := v }

inductive Main
  | idle
  /-- `fftimer_close`: `CloseHandle(tmr->htmr)` -/
  | closeTimer
  /-- `_fftimer_cmd`: the stores, then `SetEvent(tmr->evt)` -/
  | prep (c : Call) (todo : List Store)
  /-- `_fftimer_cmd`: `WaitForSingleObject(tmr->evt_result)` -/
  | await (c : Call)
  /-- `_fftimer_cmd`: `FFINT_READONCE(tmr->result)` -/
  | read (c : Call)
  /-- `fftimer_close`: `ffthread_join` -/
  | join
  /-- `fftimer_close`: the events and the memory -/
  | free
  | done

inductive Thr
  /-- `WaitForSingleObjectEx(tmr->evt, INFINITE, 1)` -/
  | wait
  /-- `FFINT_READONCE(tmr->ctl)` -/
  | fetch
  /-- the `switch` -/
  | exec (cmd : Cmd)
  /-- `FFINT_WRITEONCE(tmr->result, r)` -/
  | store (r : Nat)
  /-- `SetEvent(tmr->evt_result)` -/
  | notify
  /-- `_fftimer_onfire`: `tmr->kq` for `ffkq_post_attach` -/
  | onfire
  /-- `tmr->kq` for `ffkq_post` -/
  | reread (post : Nat)
  /-- `tmr->data` and the post -/
  | post (post kq : Nat)
  | exited

structure Sys where
  tmr : Tmr
  evt : Bool
  evt_result : Bool
  /-- the period of the active timer, 0 if it expires once -/
  armed : Option Nat
  /-- the timer has expired and `_fftimer_onfire` has not been called yet -/
  apc : Bool
  main : Main
  thread : Thr

/-- After `fftimer_create`. -/
def Sys.init : Sys :=
  { tmr := ⟨0, 0, 0, .exit, 0⟩, evt := false, evt_result := false, armed := none, apc := false,
    main := .idle, thread := .wait }

inductive Act
  | call (c : Call)
  /-- the main thread goes on; `ok`: `SetEvent` succeeds; `keep`: an expiry that has not been
      handled survives `CloseHandle` -/
  | main (ok keep : Bool)
  /-- the timer thread goes on; `err`: the error of the system call on the timer -/
  | thread (err : Nat)
  /-- its wait ends because of the event -/
  | wake
  /-- its wait ends because of the timer -/
  | apc
  /-- the timer expires -/
  | expire
deriving DecidableEq

inductive Ev
  | quiet
  | called (c : Call)
  | executed (cmd : Cmd) (period_ms : Int) (r : Nat)
  /-- `none`: −1, the command has not been sent -/
  | returned (c : Call) (r : Option Nat)
  /-- `ffkq_post(kq, post, data)` -/
  | posted (post kq data : Nat)
  | closed
  /-- the thread uses the structure after it has been freed -/
  | fault
deriving DecidableEq

def mainStep (s : Sys) (ok keep : Bool) : Option (Sys × Ev) :=
  match s.main with
  | .idle | .done => none
  | .closeTimer =>
    some ({ s with armed := none, apc := s.apc && keep, main := .prep .close Call.close.stores }, .quiet)
  | .prep c (w :: todo) => some ({ s with tmr := s.tmr.put w, main := .prep c todo }, .quiet)
  | .prep .close [] => some ({ s with evt := s.evt || ok, main := .join }, .quiet)
  | .prep c [] =>
    if ok then some ({ s with evt := true, main := .await c }, .quiet)
    else some ({ s with main := .idle }, .returned c none)
  | .await c =>
    if s.evt_result then some ({ s with evt_result := false, main := .read c }, .quiet) else none
  | .read c => some ({ s with main := .idle }, .returned c (some s.tmr.result))
  | .join =>
    match s.thread with
    | .exited => some ({ s with main := .free }, .quiet)
    | _ => none
  | .free => some ({ s with main := .done }, .closed)

/-- `SetWaitableTimer` and `CancelWaitableTimer` drop an expiry that has not been handled. -/
def execute (s : Sys) (cmd : Cmd) (err : Nat) : Sys :=
  if err = 0 then
    { s with
      armed := match cmd with
        | .start => some s.tmr.period_ms.toNat
        | _ => none
      apc := false
      thread := .store 0 }
  else { s with thread := .store err }

section Execute

variable (s : Sys) (cmd : Cmd) (err : Nat)

@[simp] theorem execute_main : (execute s cmd err).main = s.main := by
  unfold execute
  split <;> rfl

@[simp] theorem execute_tmr : (execute s cmd err).tmr = s.tmr := by
  unfold execute
  split <;> rfl

@[simp] theorem execute_evt : (execute s cmd err).evt = s.evt := by
  unfold execute
  split <;> rfl

@[simp] theorem execute_evt_result : (execute s cmd err).evt_result = s.evt_result := by
  unfold execute
  split <;> rfl

@[simp] theorem execute_thread : (execute s cmd err).thread = .store err := by
  unfold execute
  split
  · rename_i h
    rw [h]
  · rfl

end Execute

def threadStep (s : Sys) (err : Nat) : Option (Sys × Ev) :=
  match s.thread with
  | .wait | .exited => none
  | .fetch =>
    some ({ s with thread := if s.tmr.ctl = .exit then .exited else .exec s.tmr.ctl }, .quiet)
  | .exec cmd => some (execute s cmd err, .executed cmd s.tmr.period_ms err)
  | .store r => some ({ s with tmr := { s.tmr with result := r }, thread := .notify }, .quiet)
  | .notify => some ({ s with evt_result := true, thread := .wait }, .quiet)
  | .onfire => some ({ s with thread := .reread s.tmr.kq }, .quiet)
  | .reread p => some ({ s with thread := .post p s.tmr.kq }, .quiet)
  | .post p kq => some ({ s with thread := .wait }, .posted p kq s.tmr.data)

def step (s : Sys) : Act → Option (Sys × Ev)
  | .call c =>
    match s.main with
    | .idle =>
      match c with
      | .close => some ({ s with main := .closeTimer }, .called c)
      | _ => some ({ s with main := .prep c c.stores }, .called c)
    | _ => none
  | .main ok keep => mainStep s ok keep
  | .thread err =>
    match s.main with
    | .done => (threadStep s err).map fun r => (r.1, .fault)
    | _ => threadStep s err
  | .wake =>
    match s.thread with
    | .wait => if s.evt then some ({ s with evt := false, thread := .fetch }, .quiet) else none
    | _ => none
  | .apc =>
    match s.thread with
    | .wait => if s.apc then some ({ s with apc := false, thread := .onfire }, .quiet) else none
    | _ => none
  | .expire =>
    match s.armed with
    | none => none
    | some p => some ({ s with apc := true, armed := if p = 0 then none else some p }, .quiet)

/-! ## The synchronous timer -/

inductive Phase
  | idle
  | called (c : Call)
  | executed (c : Call) (r : Nat)
  | closed
deriving DecidableEq

/-- The command with these arguments is what the call asks for. -/
def Call.Is (c : Call) (cmd : Cmd) (period_ms : Int) : Prop :=
  match c with
  | .start _ _ p => cmd = .start ∧ period_ms = p
  | .stop => cmd = .stop
  | .close => False

instance (c : Call) (cmd : Cmd) (period_ms : Int) : Decidable (c.Is cmd period_ms) := by
  cases c <;> simp only [Call.Is] <;> infer_instance

/-- What may happen next. -/
def Phase.next : Phase → Ev → Option Phase
  | ph, .quiet | ph, .posted _ _ _ => some ph
  | .idle, .called c => some (.called c)
  | .called c, .executed cmd p r => if c.Is cmd p then some (.executed c r) else none
  | .called c, .returned c' none => if c = c' ∧ c ≠ .close then some .idle else none
  | .executed c r, .returned c' (some r') => if c = c' ∧ r = r' then some .idle else none
  | .called .close, .closed => some .closed
  | _, _ => none

def Phase.run : Phase → List Ev → Option Phase
  | ph, [] => some ph
  | ph, ev :: os => (ph.next ev).bind fun ph' => ph'.run os

/-! ## Steps -/

/-- The thread is asleep or in the timer function. -/
def Thr.Free : Thr → Prop
  | .wait | .onfire | .reread _ | .post _ _ => True
  | _ => False

/-- What a step can do. -/
inductive TStep (s : Sys) : Act → Sys → Ev → Prop
  | call (c : Call) (hm : s.main = .idle) (hc : c ≠ .close) :
      TStep s (.call c) { s with main := .prep c c.stores } (.called c)
  | callClose (hm : s.main = .idle) :
      TStep s (.call .close) { s with main := .closeTimer } (.called .close)
  | closeTimer (ok keep : Bool) (hm : s.main = .closeTimer) :
      TStep s (.main ok keep)
        { s with armed := none, apc := s.apc && keep, main := .prep .close Call.close.stores } .quiet
  | put (ok keep : Bool) (c : Call) (w : Store) (todo : List Store) (hm : s.main = .prep c (w :: todo)) :
      TStep s (.main ok keep) { s with tmr := s.tmr.put w, main := .prep c todo } .quiet
  | sendExit (ok keep : Bool) (hm : s.main = .prep .close []) :
      TStep s (.main ok keep) { s with evt := s.evt || ok, main := .join } .quiet
  | send (keep : Bool) (c : Call) (hm : s.main = .prep c []) (hc : c ≠ .close) :
      TStep s (.main true keep) { s with evt := true, main := .await c } .quiet
  | sendFails (keep : Bool) (c : Call) (hm : s.main = .prep c []) (hc : c ≠ .close) :
      TStep s (.main false keep) { s with main := .idle } (.returned c none)
  | result (ok keep : Bool) (c : Call) (hm : s.main = .await c) (he : s.evt_result = true) :
      TStep s (.main ok keep) { s with evt_result := false, main := .read c } .quiet
  | returned (ok keep : Bool) (c : Call) (hm : s.main = .read c) :
      TStep s (.main ok keep) { s with main := .idle } (.returned c (some s.tmr.result))
  | join (ok keep : Bool) (hm : s.main = .join) (ht : s.thread = .exited) :
      TStep s (.main ok keep) { s with main := .free } .quiet
  | free (ok keep : Bool) (hm : s.main = .free) : TStep s (.main ok keep) { s with main := .done } .closed
  | exit (err : Nat) (hm : s.main ≠ .done) (ht : s.thread = .fetch) (hc : s.tmr.ctl = .exit) :
      TStep s (.thread err) { s with thread := .exited } .quiet
  | fetch (err : Nat) (hm : s.main ≠ .done) (ht : s.thread = .fetch) (hc : s.tmr.ctl ≠ .exit) :
      TStep s (.thread err) { s with thread := .exec s.tmr.ctl } .quiet
  | exec (err : Nat) (cmd : Cmd) (hm : s.main ≠ .done) (ht : s.thread = .exec cmd) :
      TStep s (.thread err) (execute s cmd err) (.executed cmd s.tmr.period_ms err)
  | store (err r : Nat) (hm : s.main ≠ .done) (ht : s.thread = .store r) :
      TStep s (.thread err) { s with tmr := { s.tmr with result := r }, thread := .notify } .quiet
  | notify (err : Nat) (hm : s.main ≠ .done) (ht : s.thread = .notify) :
      TStep s (.thread err) { s with evt_result := true, thread := .wait } .quiet
  | onfire (err : Nat) (hm : s.main ≠ .done) (ht : s.thread = .onfire) :
      TStep s (.thread err) { s with thread := .reread s.tmr.kq } .quiet
  | reread (err p : Nat) (hm : s.main ≠ .done) (ht : s.thread = .reread p) :
      TStep s (.thread err) { s with thread := .post p s.tmr.kq } .quiet
  | post (err p kq : Nat) (hm : s.main ≠ .done) (ht : s.thread = .post p kq) :
      TStep s (.thread err) { s with thread := .wait } (.posted p kq s.tmr.data)
  | fault (err : Nat) (s' : Sys) (hm : s.main = .done) (ht : s.thread ≠ .exited) :
      TStep s (.thread err) s' .fault
  | wake (ht : s.thread = .wait) (he : s.evt = true) :
      TStep s .wake { s with evt := false, thread := .fetch } .quiet
  | apc (ht : s.thread = .wait) (ha : s.apc = true) :
      TStep s .apc { s with apc := false, thread := .onfire } .quiet
  | expire (p : Nat) (ha : s.armed = some p) :
      TStep s .expire { s with apc := true, armed := if p = 0 then none else some p } .quiet

variable {s s' : Sys} {a : Act} {ev : Ev}

theorem mainStep_cases {ok keep : Bool} (h : mainStep s ok keep = some (s', ev)) :
    TStep s (.main ok keep) s' ev := by
  unfold mainStep at h
  split at h
  · cases h
  · cases h
  · rename_i hm
    cases h
    exact .closeTimer ok keep hm
  · rename_i c w todo hm
    cases h
    exact .put ok keep c w todo hm
  · rename_i hm
    cases h
    exact .sendExit ok keep hm
  · rename_i c hc hm
    split at h
    · rename_i hok
      cases h
      rw [hok]
      exact .send keep c hm hc
    · rename_i hok
      cases h
      rw [Bool.not_eq_true] at hok
      rw [hok]
      exact .sendFails keep c hm hc
  · rename_i c hm
    split at h
    · rename_i he
      cases h
      exact .result ok keep c hm he
    · cases h
  · rename_i c hm
    cases h
    exact .returned ok keep c hm
  · rename_i hm
    split at h
    · rename_i ht
      cases h
      exact .join ok keep hm ht
    · cases h
  · rename_i hm
    cases h
    exact .free ok keep hm

theorem threadStep_cases {err : Nat} (hm : s.main ≠ .done) (h : threadStep s err = some (s', ev)) :
    TStep s (.thread err) s' ev := by
  unfold threadStep at h
  split at h
  · cases h
  · cases h
  · rename_i ht
    cases h
    split
    · rename_i hc
      exact .exit err hm ht hc
    · rename_i hc
      exact .fetch err hm ht hc
  · rename_i cmd ht
    cases h
    exact .exec err cmd hm ht
  · rename_i r ht
    cases h
    exact .store err r hm ht
  · rename_i ht
    cases h
    exact .notify err hm ht
  · rename_i ht
    cases h
    exact .onfire err hm ht
  · rename_i p ht
    cases h
    exact .reread err p hm ht
  · rename_i p kq ht
    cases h
    exact .post err p kq hm ht

theorem threadStep_exited {err : Nat} (ht : s.thread = .exited) : threadStep s err = none := by
  simp only [threadStep, ht]

theorem step_cases (h : step s a = some (s', ev)) : TStep s a s' ev := by
  cases a with
  | call c =>
    simp only [step] at h
    split at h
    · rename_i hm
      split at h
      · cases h
        exact .callClose hm
      · rename_i hc
        cases h
        exact .call c hm hc
    · cases h
  | main ok keep => exact mainStep_cases h
  | thread err =>
    simp only [step] at h
    split at h
    · rename_i hm
      obtain ⟨r, hr, he⟩ := Option.map_eq_some_iff.mp h
      cases he
      refine .fault err _ hm ?_
      intro ht
      rw [threadStep_exited ht] at hr
      cases hr
    · rename_i hm
      exact threadStep_cases hm h
  | wake =>
    simp only [step] at h
    split at h
    · rename_i ht
      split at h
      · rename_i he
        cases h
        exact .wake ht he
      · cases h
    · cases h
  | apc =>
    simp only [step] at h
    split at h
    · rename_i ht
      split at h
      · rename_i ha
        cases h
        exact .apc ht ha
      · cases h
    · cases h
  | expire =>
    simp only [step] at h
    split at h
    · cases h
    · rename_i p ha
      cases h
      exact .expire p ha

/-! ## The protocol -/

/-- The structure holds the command and its arguments. -/
def Loaded (t : Tmr) (c : Call) : Prop :=
  t.ctl = c.cmd ∧
    match c with
    | .start kq data p => t.kq = kq ∧ t.data = data ∧ t.period_ms = p
    | _ => True

/-- No command is under way. -/
structure Calm (s : Sys) : Prop where
  evt : s.evt = false
  evt_result : s.evt_result = false
  thread : s.thread.Free

/-- The main thread waits for the result of `c`. -/
inductive Awaiting (s : Sys) (c : Call) : Phase → Prop
  | sent (he : s.evt = true) (hr : s.evt_result = false) (ht : s.thread.Free)
      (hl : Loaded s.tmr c) : Awaiting s c (.called c)
  | fetched (he : s.evt = false) (hr : s.evt_result = false)
      (ht : s.thread = .fetch ∨ s.thread = .exec c.cmd) (hl : Loaded s.tmr c) :
      Awaiting s c (.called c)
  | executed (r : Nat) (he : s.evt = false) (hr : s.evt_result = false)
      (ht : s.thread = .store r ∨ s.thread = .notify ∧ s.tmr.result = r) :
      Awaiting s c (.executed c r)
  | answered (he : s.evt = false) (hr : s.evt_result = true) (ht : s.thread.Free) :
      Awaiting s c (.executed c s.tmr.result)

/-- The states of the protocol. -/
def Conf (s : Sys) (ph : Phase) : Prop :=
  match s.main with
  | .idle => ph = .idle ∧ Calm s
  | .closeTimer => ph = .called .close ∧ Calm s
  | .prep c todo => ph = .called c ∧ Calm s ∧ Loaded (todo.foldl Tmr.put s.tmr) c
  | .await c => c ≠ .close ∧ Awaiting s c ph
  | .read c => ph = .executed c s.tmr.result ∧ Calm s
  | .join =>
    ph = .called .close ∧ s.tmr.ctl = .exit ∧
      (s.thread.Free ∨ s.evt = false ∧ (s.thread = .fetch ∨ s.thread = .exited))
  | .free => ph = .called .close ∧ s.thread = .exited
  | .done => ph = .closed ∧ s.thread = .exited

theorem loaded_stores (t : Tmr) (c : Call) : Loaded (c.stores.foldl Tmr.put t) c := by
  cases c <;> simp [Loaded, Call.stores, Call.cmd, Tmr.put]

theorem Loaded.is {t : Tmr} {c : Call} (h : Loaded t c) (hc : c ≠ .close) : c.Is c.cmd t.period_ms := by
  cases c with
  | start kq data p => exact ⟨rfl, h.2.2.2⟩
  | stop => rfl
  | close => exact absurd rfl hc

theorem Loaded.not_exit {t : Tmr} {c : Call} (h : Loaded t c) (hc : c ≠ .close) : t.ctl ≠ .exit := by
  rw [h.1]
  cases c with
  | close => exact absurd rfl hc
  | _ => intro he; cases he

/-- Only a call has the thread do anything else than sleep and post. -/
theorem Conf.busy {ph : Phase} (C : Conf s ph) (hf : ¬ s.thread.Free) (hx : s.thread ≠ .exited) :
    (∃ c, s.main = .await c ∧ c ≠ .close ∧ Awaiting s c ph) ∨
      s.main = .join ∧ s.thread = .fetch ∧ s.tmr.ctl = .exit ∧ s.evt = false ∧
        ph = .called .close := by
  unfold Conf at C
  split at C
  · exact absurd C.2.thread hf
  · exact absurd C.2.thread hf
  · exact absurd C.2.1.thread hf
  · rename_i c hm
    exact Or.inl ⟨c, hm, C.1, C.2⟩
  · exact absurd C.2.thread hf
  · rename_i hm
    obtain ⟨hph, hctl, ht⟩ := C
    rcases ht with ht | ⟨he, ht | ht⟩
    · exact absurd ht hf
    · exact Or.inr ⟨hm, ht, hctl, he, hph⟩
    · exact absurd ht hx
  · exact absurd C.2 hx
  · exact absurd C.2 hx

/-- The timer and its function do not take part in the protocol. -/
theorem Conf.frame {ph : Phase} (C : Conf s ph) (hfree : s.thread.Free → s'.thread.Free)
    (hbusy : ¬ s.thread.Free → s'.thread = s.thread) (htmr : s'.tmr = s.tmr)
    (he : s'.evt = s.evt) (hr : s'.evt_result = s.evt_result) (hm : s'.main = s.main) :
    Conf s' ph := by
  have hcalm (K : Calm s) : Calm s' := ⟨he ▸ K.evt, hr ▸ K.evt_result, hfree K.thread⟩
  have hkeep {t : Thr} (hnot : ¬ t.Free) (h : s.thread = t) : s'.thread = t :=
    (hbusy (h ▸ hnot)).trans h
  unfold Conf at C ⊢
  rw [hm, htmr]
  split at C
  · exact ⟨C.1, hcalm C.2⟩
  · exact ⟨C.1, hcalm C.2⟩
  · exact ⟨C.1, hcalm C.2.1, C.2.2⟩
  · obtain ⟨hc, hA⟩ := C
    refine ⟨hc, ?_⟩
    cases hA with
    | sent h₁ h₂ ht hl => exact .sent (he.trans h₁) (hr.trans h₂) (hfree ht) (htmr ▸ hl)
    | fetched h₁ h₂ ht hl =>
      exact .fetched (he.trans h₁) (hr.trans h₂) (ht.imp (hkeep id) (hkeep id)) (htmr ▸ hl)
    | executed r h₁ h₂ ht =>
      refine .executed r (he.trans h₁) (hr.trans h₂) ?_
      rw [htmr]
      exact ht.imp (hkeep id) (And.imp_left (hkeep id))
    | answered h₁ h₂ ht =>
      rw [← htmr]
      exact .answered (he.trans h₁) (hr.trans h₂) (hfree ht)
  · exact ⟨C.1, hcalm C.2⟩
  · refine ⟨C.1, C.2.1, C.2.2.imp hfree ?_⟩
    rw [he]
    exact And.imp_right (Or.imp (hkeep id) (hkeep id))
  · exact ⟨C.1, hkeep id C.2⟩
  · exact ⟨C.1, hkeep id C.2⟩

/-- **One step of the protocol.** -/
theorem Conf.step {ph : Phase} (C : Conf s ph) (hs : TStep s a s' ev) :
    ∃ ph', ph.next ev = some ph' ∧ Conf s' ph' := by
  have hmain {m : Main} (hm : s.main = m) : Conf { s with main := m } ph := by
    rw [← hm]
    exact C
  cases hs with
  | call c hm hc =>
    obtain ⟨rfl, K⟩ := hmain hm
    exact ⟨.called c, rfl, rfl, ⟨K.evt, K.evt_result, K.thread⟩, loaded_stores _ c⟩
  | callClose hm =>
    obtain ⟨rfl, K⟩ := hmain hm
    exact ⟨.called .close, rfl, rfl, ⟨K.evt, K.evt_result, K.thread⟩⟩
  | closeTimer ok keep hm =>
    obtain ⟨rfl, K⟩ := hmain hm
    exact ⟨.called .close, rfl, rfl, ⟨K.evt, K.evt_result, K.thread⟩, loaded_stores _ .close⟩
  | put ok keep c w todo hm =>
    obtain ⟨rfl, K, hl⟩ := hmain hm
    exact ⟨.called c, rfl, rfl, ⟨K.evt, K.evt_result, K.thread⟩, hl⟩
  | sendExit ok keep hm =>
    obtain ⟨rfl, K, hl⟩ := hmain hm
    exact ⟨.called .close, rfl, rfl, hl.1, Or.inl K.thread⟩
  | send keep c hm hc =>
    obtain ⟨rfl, K, hl⟩ := hmain hm
    exact ⟨.called c, rfl, hc, .sent rfl K.evt_result K.thread hl⟩
  | sendFails keep c hm hc =>
    obtain ⟨rfl, K, hl⟩ := hmain hm
    exact ⟨.idle, by simp [Phase.next, hc], rfl, ⟨K.evt, K.evt_result, K.thread⟩⟩
  | result ok keep c hm he =>
    obtain ⟨hc, hA⟩ := hmain hm
    cases hA with
    | sent _ hr _ _ | fetched _ hr _ _ | executed r _ hr _ =>
      change s.evt_result = false at hr
      rw [he] at hr
      cases hr
    | answered hevt _ ht => exact ⟨_, rfl, rfl, ⟨hevt, rfl, ht⟩⟩
  | returned ok keep c hm =>
    obtain ⟨rfl, K⟩ := hmain hm
    exact ⟨.idle, by simp [Phase.next], rfl, ⟨K.evt, K.evt_result, K.thread⟩⟩
  | join ok keep hm ht =>
    obtain ⟨rfl, _⟩ := hmain hm
    exact ⟨.called .close, rfl, rfl, ht⟩
  | free ok keep hm =>
    obtain ⟨rfl, ht⟩ := hmain hm
    exact ⟨.closed, rfl, rfl, ht⟩
  | exit err hm ht hctl =>
    rcases C.busy (by rw [ht]; exact id) (by rw [ht]; simp) with ⟨c, hm', hc, hA⟩ | ⟨hm', _, _, he, hph⟩
    · cases hA with
      | sent _ _ h hl | fetched _ _ h hl => exact absurd hctl (hl.not_exit hc)
      | executed r _ _ h =>
        rw [ht] at h
        rcases h with h | ⟨h, _⟩ <;> cases h
      | answered _ _ h =>
        rw [ht] at h
        exact h.elim
    · refine ⟨ph, by cases ph <;> rfl, ?_⟩
      simp only [Conf, hm']
      exact ⟨hph, hctl, Or.inr ⟨he, Or.inr trivial⟩⟩
  | fetch err hm ht hctl =>
    rcases C.busy (by rw [ht]; exact id) (by rw [ht]; simp) with ⟨c, hm', hc, hA⟩ | ⟨_, _, h, _, _⟩
    · refine ⟨ph, by cases ph <;> rfl, ?_⟩
      simp only [Conf, hm']
      refine ⟨hc, ?_⟩
      cases hA with
      | sent _ _ h _ | answered _ _ h =>
        rw [ht] at h
        exact h.elim
      | fetched he hr _ hl => exact .fetched he hr (Or.inr (by rw [← hl.1])) hl
      | executed r _ _ h =>
        rw [ht] at h
        rcases h with h | ⟨h, _⟩ <;> cases h
    · exact absurd h hctl
  | exec err cmd hm ht =>
    rcases C.busy (by rw [ht]; exact id) (by rw [ht]; simp) with ⟨c, hm', hc, hA⟩ | ⟨_, h, _⟩
    · cases hA with
      | sent _ _ h _ | answered _ _ h =>
        rw [ht] at h
        exact h.elim
      | fetched he hr h hl =>
        rw [ht] at h
        rcases h with h | h
        · cases h
        · cases h
          refine ⟨.executed c err, by simp [Phase.next, hl.is hc], ?_⟩
          simp only [Conf, execute_main, hm']
          exact ⟨hc, .executed err (by simpa using he) (by simpa using hr) (Or.inl (by simp))⟩
      | executed r _ _ h =>
        rw [ht] at h
        rcases h with h | ⟨h, _⟩ <;> cases h
    · rw [ht] at h
      cases h
  | store err r hm ht =>
    rcases C.busy (by rw [ht]; exact id) (by rw [ht]; simp) with ⟨c, hm', hc, hA⟩ | ⟨_, h, _⟩
    · cases hA with
      | sent _ _ h _ | answered _ _ h =>
        rw [ht] at h
        exact h.elim
      | fetched _ _ h _ =>
        rw [ht] at h
        rcases h with h | h <;> cases h
      | executed r' he hr h =>
        rw [ht] at h
        rcases h with h | ⟨h, _⟩
        · cases h
          refine ⟨.executed c r, rfl, ?_⟩
          simp only [Conf, hm']
          exact ⟨hc, .executed r he hr (Or.inr ⟨rfl, rfl⟩)⟩
        · cases h
    · rw [ht] at h
      cases h
  | notify err hm ht =>
    rcases C.busy (by rw [ht]; exact id) (by rw [ht]; simp) with ⟨c, hm', hc, hA⟩ | ⟨_, h, _⟩
    · cases hA with
      | sent _ _ h _ | answered _ _ h =>
        rw [ht] at h
        exact h.elim
      | fetched _ _ h _ =>
        rw [ht] at h
        rcases h with h | h <;> cases h
      | executed r he hr h =>
        rw [ht] at h
        rcases h with h | ⟨_, h⟩
        · cases h
        · subst h
          refine ⟨.executed c s.tmr.result, rfl, ?_⟩
          simp only [Conf, hm']
          exact ⟨hc, .answered he rfl trivial⟩
    · rw [ht] at h
      cases h
  | onfire err hm ht | reread err p hm ht | post err p kq hm ht =>
    refine ⟨ph, by cases ph <;> rfl, C.frame (fun _ => trivial) (fun h => ?_) rfl rfl rfl rfl⟩
    rw [ht] at h
    exact absurd trivial h
  | fault err s' hm ht =>
    obtain ⟨_, h⟩ := hmain hm
    exact absurd h ht
  | wake ht he =>
    refine ⟨ph, by cases ph <;> rfl, ?_⟩
    have hnot (K : Calm s) : False := by
      have := K.evt
      rw [he] at this
      cases this
    unfold Conf at C ⊢
    split at C
    · exact (hnot C.2).elim
    · exact (hnot C.2).elim
    · exact (hnot C.2.1).elim
    · rename_i c hm
      simp only [hm]
      refine ⟨C.1, ?_⟩
      cases C.2 with
      | sent _ hr _ hl => exact .fetched rfl hr (Or.inl rfl) hl
      | fetched h _ _ _ | executed r h _ _ | answered h _ _ =>
        rw [he] at h
        cases h
    · exact (hnot C.2).elim
    · rename_i hm
      simp only [hm]
      exact ⟨C.1, C.2.1, Or.inr ⟨trivial, Or.inl trivial⟩⟩
    · have := C.2
      rw [ht] at this
      cases this
    · have := C.2
      rw [ht] at this
      cases this
  | apc ht ha =>
    refine ⟨ph, by cases ph <;> rfl, C.frame (fun _ => trivial) (fun h => ?_) rfl rfl rfl rfl⟩
    rw [ht] at h
    exact absurd trivial h
  | expire p ha =>
    exact ⟨ph, by cases ph <;> rfl, C.frame id (fun _ => rfl) rfl rfl rfl rfl⟩

theorem conf_init : Conf Sys.init .idle := ⟨rfl, rfl, rfl, trivial⟩

theorem conf_run : ∀ {as : List Act} {s t : Sys} {os : List Ev} {ph : Phase},
    Conf s ph → exec Thread.step s as = some (t, os) → ∃ ph', ph.run os = some ph' ∧ Conf t ph'
  | [], s, t, os, ph, C, h => by
    simp only [exec, Option.some.injEq, Prod.mk.injEq] at h
    obtain ⟨rfl, rfl⟩ := h
    exact ⟨ph, rfl, C⟩
  | a :: as, s, t, os, ph, C, h => by
    obtain ⟨s', ev, os', hs, hrun, rfl⟩ := exec_cons h
    obtain ⟨ph₁, h₁, C₁⟩ := C.step (step_cases hs)
    obtain ⟨ph₂, h₂, C₂⟩ := conf_run C₁ hrun
    exact ⟨ph₂, by rw [Phase.run, h₁]; exact h₂, C₂⟩

theorem Phase.run_no_fault : ∀ {os : List Ev} {ph ph' : Phase}, ph.run os = some ph' → .fault ∉ os
  | [], _, _, _ => by simp
  | ev :: os, ph, ph', h => by
    rw [Phase.run] at h
    obtain ⟨ph₁, h₁, h₂⟩ := Option.bind_eq_some_iff.mp h
    intro hmem
    rcases List.mem_cons.mp hmem with rfl | hmem
    · cases ph <;> cases h₁
    · exact run_no_fault h₂ hmem

/-- **A command is a procedure call.**  However the two threads, the timer and the failures of
    `SetEvent` interleave: every call of `fftimer_start` and `fftimer_stop` is either not sent and
    returns −1, or is executed exactly once, with its own arguments, before it returns, and
    returns the result of this execution and of no other; the thread never uses the structure
    after `fftimer_close` has freed it, and has exited by then. -/
theorem fftimer_cmd_synchronous (as : List Act) (t : Sys) (os : List Ev)
    (h : exec Thread.step Sys.init as = some (t, os)) :
    Ev.fault ∉ os ∧ ∃ ph, Phase.idle.run os = some ph ∧ (t.main = .idle → ph = .idle) ∧
      (t.main = .done → ph = .closed ∧ t.thread = .exited) := by
  obtain ⟨ph, hrun, C⟩ := conf_run conf_init h
  refine ⟨Phase.run_no_fault hrun, ph, hrun, ?_, ?_⟩
  · intro hm
    simp only [Conf, hm] at C
    exact C.1
  · intro hm
    simp only [Conf, hm] at C
    exact C

/-- The timer expires while the main thread asks to stop it. -/
def startStop : List Act :=
  [.call (.start 1 77 20), .main true true, .main true true, .main true true, .main true true,
    .main true true, .wake, .thread 0, .thread 0, .thread 0, .thread 0, .main true true,
    .main true true, .expire, .call .stop, .apc, .main true true, .thread 0, .main true true,
    .thread 0, .thread 0, .wake, .thread 0, .thread 5, .thread 0, .thread 0, .main true true,
    .main true true]

theorem fftimer_cmd_synchronous_stop : ∃ t os,
    exec Thread.step Sys.init startStop = some (t, os) ∧ Ev.returned .stop (some 5) ∈ os ∧
      Ev.posted 1 1 77 ∈ os ∧ ∃ ph, Phase.idle.run os = some ph ∧ (t.main = .idle → ph = .idle) ∧
        (t.main = .done → ph = .closed ∧ t.thread = .exited) :=
  ⟨_, _, rfl, by decide, by decide, (fftimer_cmd_synchronous startStop _ _ rfl).2⟩

end FFSys.Timer.Thread
