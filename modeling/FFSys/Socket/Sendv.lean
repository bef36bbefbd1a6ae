import FFSys.Lib.Run
import FFSys.Socket.Iovec
import Mathlib.Algebra.Order.Ring.Nat

/-!
# Vectored asynchronous send

`ffsock_sendv_async()` on UNIX is one `writev()`.  On Windows it is a `WSASend()`; if that would
block, the first bytes of the first non-empty buffer are copied to `task->buf` and written with an
overlapped `WriteFile()`, and the next call returns what this write has transferred.

The kernel is outside: what it answers to a call is an input of the model, and the bytes it takes
in a call are an output.

* `ffsockSendvAsyncUnix`, `ffsockSendvAsyncWin` — the functions.
* `Sender`, `sendStep` — the caller that sends an array: it calls, shifts the array by what was
  sent, and stops when nothing is left.
* `CallSpec` — what the caller needs of one call; `unix_callSpec`, `win_callSpec`.
* `SendInv`, `sendStep_inv` — the invariant of the loop: the bytes taken by the kernel are the
  acknowledged ones and those in flight.
* `sendv_delivers` — the loop hands over the array once, in order.
-/

set_option autoImplicit false

namespace FFSys.Socket

open FFSys.Lib

/-- What a call returns: a number of bytes, or -1 with `FFSOCK_EINPROGRESS` or another error. -/
inductive SendRes where
  | ret (n : Nat)
  | inProgress
  | error
  deriving DecidableEq, Repr

/-- The bytes that a result acknowledges. -/
def SendRes.count : SendRes → Nat
  | .ret n => n
  | .inProgress => 0
  | .error => 0

/-- A call: its result, the task after it, and the bytes that the kernel took in it. -/
structure Call (τ : Type) where
  res : SendRes
  task : τ
  taken : List UInt8

/-- The kernel takes `n` bytes of `data` and reports it in a number below `lim`; nothing only if
    there is nothing to take. -/
def Takes (data : List UInt8) (lim n : Nat) : Prop :=
  n ≤ data.length ∧ (n = 0 → data = []) ∧ n < lim

instance (data : List UInt8) (lim n : Nat) : Decidable (Takes data lim n) :=
  inferInstanceAs (Decidable (_ ∧ _ ∧ _))

/-! ## UNIX -/

/-- The answer of `writev()`. -/
inductive Writev where
  | wrote (n : Nat)
  | again
  | error
  deriving DecidableEq, Repr

structure UnixTask where
  active : Bool := false
  deriving DecidableEq, Repr

/-- `ffsock_sendv_async()` on UNIX; `none` if the kernel does not give this answer. -/
def ffsockSendvAsyncUnix (a : Writev) (iov : List Iovec) (_task : UnixTask) :
    Option (Call UnixTask) :=
  match a with
  | .wrote n =>
    if Takes iov.flatten (2 ^ 63) n then
      some ⟨.ret n, ⟨false⟩, iov.flatten.take n⟩
    else
      none
  | .again => some ⟨.inProgress, ⟨true⟩, []⟩
  | .error => some ⟨.error, ⟨false⟩, []⟩

/-! ## Windows -/

/-- The answers of the kernel during a call; `wsaSend` is asked without a pending write, then
    `writeFile` if it would block, and `overlapped` is asked with a pending write. -/
inductive WsaSend where
  | sent (n : Nat)
  | wouldBlock
  | error
  deriving DecidableEq, Repr

@[inherit_doc WsaSend]
inductive WriteFile where
  | ok
  | pending
  | error
  deriving DecidableEq, Repr

@[inherit_doc WsaSend]
inductive Overlapped where
  | done
  | incomplete
  | error
  deriving DecidableEq, Repr

structure WinAnswer where
  wsaSend : WsaSend
  writeFile : WriteFile
  overlapped : Overlapped
  deriving DecidableEq, Repr

/-- `sizeof(task->buf)` -/
def taskBufSize : Nat := 1

/-- `ffkq_task` on Windows; `overlapped` is the number of bytes of the write started on it. -/
structure WinTask where
  overlapped : Nat := 0
  active : Bool := false
  buf : List UInt8 := List.replicate taskBufSize 0
  deriving DecidableEq, Repr

/-- The bytes that are copied to `task->buf`: the first ones of the first non-empty buffer. -/
def firstBytes : List Iovec → List UInt8
  | [] => []
  | v :: iov =>
    if v.length ≠ 0 then v.take (min v.length taskBufSize) else firstBytes iov

/-- `ffsock_sendv_async()` on Windows; `none` if the kernel does not give this answer. -/
def ffsockSendvAsyncWin (a : WinAnswer) (iov : List Iovec) (task : WinTask) :
    Option (Call WinTask) :=
  if task.active then
    match a.overlapped with
    | .done => some ⟨.ret task.overlapped, { task with active := false }, []⟩
    | .incomplete => some ⟨.inProgress, task, []⟩
    | .error => some ⟨.error, { task with active := false }, []⟩
  else
    match a.wsaSend with
    | .sent n =>
      if Takes iov.flatten (2 ^ 32) n then
        some ⟨.ret n, task, iov.flatten.take n⟩
      else
        none
    | .error => some ⟨.error, task, []⟩
    | .wouldBlock =>
      let data := firstBytes iov
      let len := data.length
      let buf := data ++ task.buf.drop len
      if len = 0 then
        some ⟨.ret 0, task, []⟩
      else
        match a.writeFile with
        | .error => some ⟨.error, { task with buf, overlapped := 0 }, []⟩
        | .ok => some ⟨.inProgress, { overlapped := len, active := true, buf }, buf.take len⟩
        | .pending => some ⟨.inProgress, { overlapped := len, active := true, buf }, buf.take len⟩

/-! ## The caller -/

/-- A variant of the function, its task and the answers of its kernel. -/
structure Variant where
  Task : Type
  Answer : Type
  init : Task
  active : Task → Bool
  call : Answer → List Iovec → Task → Option (Call Task)

def unix : Variant where
  Task := UnixTask
  Answer := Writev
  init := {}
  active := UnixTask.active
  call := ffsockSendvAsyncUnix

def windows : Variant where
  Task := WinTask
  Answer := WinAnswer
  init := {}
  active := WinTask.active
  call := ffsockSendvAsyncWin

inductive Status where
  | running
  | stopped
  | failed
  deriving DecidableEq, Repr

/-- The caller of a variant, and all the bytes that the kernel took from it. -/
structure Sender (τ : Type) where
  iov : List Iovec
  task : τ
  handed : List UInt8
  status : Status

def Variant.start (v : Variant) (iov : List Iovec) : Sender v.Task :=
  { iov, task := v.init, handed := [], status := .running }

/-- What the caller does after a call. -/
def afterCall {τ : Type} (s : Sender τ) (c : Call τ) : Sender τ :=
  let s' := { s with task := c.task, handed := s.handed ++ c.taken }
  match c.res with
  | .ret n =>
    if 0 < n then
      let (iov', left) := ffiovecArrayShift s.iov n
      { s' with iov := iov', status := if left = 0 then .stopped else .running }
    else
      s'
  -- wait for the event and call again with the same array
  | .inProgress => s'
  | .error => { s' with status := .failed }

/-- One turn of the loop of the caller. -/
def sendStep (v : Variant) (s : Sender v.Task) (a : v.Answer) :
    Option (Sender v.Task × SendRes) :=
  if s.status = .running then
    (v.call a s.iov s.task).map fun c => (afterCall s c, c.res)
  else
    none

/-! ## One call -/

/-- What the caller needs of one call, `f` being the bytes in flight before it: the kernel takes
    the bytes that come next, and a count acknowledges all that it has got. -/
def CallOk {τ : Type} (active : τ → Bool) (InFlight : τ → List UInt8 → Prop) (data f : List UInt8)
    (c : Call τ) : Prop :=
  match c.res with
  | .ret n => n ≤ data.length ∧ f ++ c.taken = data.take n ∧ (n = 0 → data = []) ∧
      InFlight c.task [] ∧ active c.task = false
  | .inProgress => f ++ c.taken <+: data ∧ InFlight c.task (f ++ c.taken)
  | .error => f ++ c.taken <+: data

/-- A variant and the relation between its task and the bytes in flight. -/
structure CallSpec (v : Variant) (InFlight : v.Task → List UInt8 → Prop) : Prop where
  init : InFlight v.init []
  inactive : ∀ {t f}, InFlight t f → v.active t = false → f = []
  call : ∀ {a iov t f c}, InFlight t f → f <+: iov.flatten → v.call a iov t = some c →
    CallOk v.active InFlight iov.flatten f c

theorem unix_callSpec : CallSpec unix (fun _ f => f = []) where
  init := rfl
  inactive := fun h _ => h
  call := by
    intro a iov t f c hf _ h
    subst hf
    cases a with
    | wrote n =>
      simp only [unix, ffsockSendvAsyncUnix] at h
      split at h
      · rename_i ht
        cases h
        exact ⟨ht.1, rfl, ht.2.1, rfl, rfl⟩
      · cases h
    | again =>
      cases h
      exact ⟨List.nil_prefix, rfl⟩
    | error =>
      cases h
      exact List.nil_prefix

/-- The code that picks the bytes skips empty buffers as the shift does. -/
theorem firstBytes_isPrefix : ∀ (iov : List Iovec), firstBytes iov <+: iov.flatten
  | [] => List.nil_prefix
  | v :: iov => by
    rw [firstBytes, List.flatten_cons]
    split
    · exact (List.take_prefix _ _).trans (List.prefix_append _ _)
    · rename_i h
      have hv : v = [] := by simpa using h
      rw [hv, List.nil_append]
      exact firstBytes_isPrefix iov

theorem flatten_of_firstBytes_nil : ∀ {iov : List Iovec}, firstBytes iov = [] → iov.flatten = []
  | [], _ => rfl
  | v :: iov, h => by
    rw [firstBytes] at h
    split at h
    · rename_i hv
      simp [taskBufSize] at h hv
      exact absurd h hv
    · rename_i hv
      have hv : v = [] := by simpa using hv
      rw [List.flatten_cons, hv, flatten_of_firstBytes_nil h, List.nil_append]

/-- The bytes in flight are those of the write that was started on the active task. -/
def WinInFlight (t : WinTask) (f : List UInt8) : Prop :=
  if t.active then f.length = t.overlapped ∧ f ≠ [] else f = []

theorem winInFlight_of_inactive {t : WinTask} {f : List UInt8} (h : t.active = false) :
    WinInFlight t f ↔ f = [] := by
  simp [WinInFlight, h]

theorem winInFlight_of_active {t : WinTask} {f : List UInt8} (h : t.active = true) :
    WinInFlight t f ↔ f.length = t.overlapped ∧ f ≠ [] := by
  simp [WinInFlight, h]

/-- A pending write: the call asks for its result. -/
theorem win_call_active {a : WinAnswer} {iov : List Iovec} {t : WinTask} {f : List UInt8}
    {c : Call WinTask} (hact : t.active = true) (hf : WinInFlight t f) (hp : f <+: iov.flatten)
    (h : ffsockSendvAsyncWin a iov t = some c) :
    CallOk WinTask.active WinInFlight iov.flatten f c := by
  have hfl := (winInFlight_of_active hact).mp hf
  simp only [ffsockSendvAsyncWin, hact, if_true] at h
  cases hr : a.overlapped with
  | done =>
    rw [hr] at h
    cases h
    have htake : f = iov.flatten.take f.length := List.prefix_iff_eq_take.mp hp
    refine ⟨hfl.1 ▸ hp.length_le, ?_, ?_, rfl, rfl⟩
    · rw [List.append_nil, ← hfl.1]
      exact htake
    · intro h0
      exact absurd (List.eq_nil_of_length_eq_zero (hfl.1.trans h0)) hfl.2
  | incomplete =>
    rw [hr] at h
    cases h
    refine ⟨?_, ?_⟩
    · rw [List.append_nil]
      exact hp
    · rw [List.append_nil]
      exact hf
  | error =>
    rw [hr] at h
    cases h
    have hnil : f ++ [] <+: iov.flatten := by
      rw [List.append_nil]
      exact hp
    exact hnil

/-- No pending write: the call sends the array, or starts the write of its first bytes. -/
theorem win_call_inactive {a : WinAnswer} {iov : List Iovec} {t : WinTask} {c : Call WinTask}
    (hact : t.active = false) (h : ffsockSendvAsyncWin a iov t = some c) :
    CallOk WinTask.active WinInFlight iov.flatten [] c := by
  have hnil : WinInFlight t [] := (winInFlight_of_inactive hact).mpr rfl
  simp only [ffsockSendvAsyncWin, hact, Bool.false_eq_true, if_false] at h
  cases hr : a.wsaSend with
  | sent n =>
    simp only [hr] at h
    split at h
    · rename_i ht
      cases h
      exact ⟨ht.1, rfl, ht.2.1, hnil, hact⟩
    · cases h
  | error =>
    simp only [hr] at h
    cases h
    exact List.nil_prefix
  | wouldBlock =>
    simp only [hr] at h
    split at h
    · rename_i hlen
      cases h
      have hdata := flatten_of_firstBytes_nil (List.eq_nil_of_length_eq_zero hlen)
      exact ⟨Nat.zero_le _, by simp, fun _ => hdata, hnil, hact⟩
    · rename_i hlen
      have htake : (firstBytes iov ++ t.buf.drop (firstBytes iov).length).take
          (firstBytes iov).length = firstBytes iov := List.take_left
      have hne : firstBytes iov ≠ [] := fun h0 => hlen (by rw [h0]; rfl)
      rw [htake] at h
      cases hw : a.writeFile with
      | error =>
        rw [hw] at h
        cases h
        exact List.nil_prefix
      | ok =>
        rw [hw] at h
        cases h
        exact ⟨firstBytes_isPrefix iov, rfl, hne⟩
      | pending =>
        rw [hw] at h
        cases h
        exact ⟨firstBytes_isPrefix iov, rfl, hne⟩

theorem win_callSpec : CallSpec windows WinInFlight where
  init := rfl
  inactive := fun hf h => (winInFlight_of_inactive h).mp hf
  call := by
    intro a iov t f c hf hp h
    cases hact : t.active with
    | true => exact win_call_active hact hf hp h
    | false =>
      have hnil := (winInFlight_of_inactive hact).mp hf
      subst hnil
      exact win_call_inactive hact h

/-! ## The loop -/

section Loop

variable {v : Variant} {InFlight : v.Task → List UInt8 → Prop} {data : List UInt8}

/-- The invariant of the loop that sends `data`: the bytes `acked` are sent and shifted out of the
    array, the bytes `f` are in flight. -/
structure SendInv (InFlight : v.Task → List UInt8 → Prop) (data acked f : List UInt8)
    (s : Sender v.Task) : Prop where
  split : acked ++ s.iov.flatten = data
  handed : s.handed = acked ++ f
  ahead : f <+: s.iov.flatten
  inFlight : s.status ≠ .failed → InFlight s.task f
  running : s.status = .running → data ≠ [] → s.iov.flatten ≠ []
  stopped : s.status = .stopped → data ≠ [] ∧ s.iov.flatten = [] ∧ v.active s.task = false

theorem start_inv (hv : CallSpec v InFlight) (iov : List Iovec) :
    SendInv InFlight iov.flatten [] [] (v.start iov) where
  split := rfl
  handed := rfl
  ahead := List.nil_prefix
  inFlight := fun _ => hv.init
  running := fun _ h => h
  stopped := fun h => by cases h

/-- A positive count: the array is shifted by what the kernel got. -/
theorem afterCall_inv_ret {acked f : List UInt8} {s : Sender v.Task} {c : Call v.Task} {n : Nat}
    (hI : SendInv InFlight data acked f s) (hres : c.res = .ret n) (hn : 0 < n)
    (hok : CallOk v.active InFlight s.iov.flatten f c) :
    SendInv InFlight data (acked ++ s.iov.flatten.take n) [] (afterCall s c) := by
  obtain ⟨hle, htaken, _, hfl, hact⟩ := by
    rw [CallOk, hres] at hok
    exact hok
  have hflat := ffiovecArrayShift_flatten s.iov n
  have hret := ffiovecArrayShift_ret s.iov n
  have hne : data ≠ [] := by
    rintro rfl
    have h0 := (List.append_eq_nil_iff.mp hI.split).2
    rw [h0, List.length_nil] at hle
    omega
  simp only [afterCall, hres, hn, if_true]
  refine ⟨?_, ?_, List.nil_prefix, fun _ => hfl, ?_, ?_⟩
  · rw [hflat, List.append_assoc, List.take_append_drop]
    exact hI.split
  · rw [hI.handed, List.append_assoc, htaken, List.append_nil]
  · intro hst _
    simp only [hret] at hst
    split at hst
    · rename_i hlt
      rw [hflat]
      exact fun h0 => by rw [List.drop_eq_nil_iff] at h0; omega
    · cases hst
  · intro hst
    simp only [hret] at hst
    split at hst
    · cases hst
    · rename_i hlt
      refine ⟨hne, ?_, hact⟩
      rw [hflat, List.drop_eq_nil_iff]
      omega

/-- What the calls that do not end a turn with a shift leave as it is. -/
theorem afterCall_inv_wait {acked f f' : List UInt8} {s s' : Sender v.Task}
    (hI : SendInv InFlight data acked f s) (hrun : s.status = .running)
    (hiov : s'.iov = s.iov) (hhanded : s'.handed = acked ++ f') (hahead : f' <+: s.iov.flatten)
    (hst : s'.status = .running ∧ InFlight s'.task f' ∨ s'.status = .failed) :
    SendInv InFlight data acked f' s' := by
  refine ⟨?_, hhanded, ?_, ?_, ?_, ?_⟩
  · rw [hiov]
    exact hI.split
  · rw [hiov]
    exact hahead
  · intro hne
    rcases hst with ⟨_, h⟩ | h
    · exact h
    · exact absurd h hne
  · intro _ hd
    rw [hiov]
    exact hI.running hrun hd
  · intro h
    rcases hst with ⟨h', _⟩ | h'
    · rw [h'] at h
      cases h
    · rw [h'] at h
      cases h

/-- **The invariant is kept by every turn**, which acknowledges the bytes that it counts. -/
theorem sendStep_inv (hv : CallSpec v InFlight) {acked f : List UInt8} {s s' : Sender v.Task}
    {a : v.Answer} {r : SendRes} (hI : SendInv InFlight data acked f s)
    (h : sendStep v s a = some (s', r)) :
    ∃ acked' f', SendInv InFlight data acked' f' s' ∧ acked'.length = acked.length + r.count ∧
      (s'.status = .failed → r = .error) := by
  rw [sendStep] at h
  split at h
  · rename_i hrun
    obtain ⟨c, hc, heq⟩ := Option.map_eq_some_iff.mp h
    cases heq
    have hfl := hI.inFlight (by rw [hrun]; exact fun h0 => by cases h0)
    have hok := hv.call hfl hI.ahead hc
    cases hres : c.res with
    | ret n =>
      rcases Nat.eq_zero_or_pos n with rfl | hn
      · -- only an array without bytes gives this, and then nothing is in flight
        rw [CallOk, hres] at hok
        obtain ⟨_, htaken, hnil, hfl', _⟩ := hok
        rw [List.take_zero, List.append_eq_nil_iff] at htaken
        obtain ⟨rfl, htaken⟩ := htaken
        refine ⟨acked, [], ?_, rfl, ?_⟩
        · apply afterCall_inv_wait hI hrun
          · simp [afterCall, hres]
          · simp [afterCall, hres, htaken, hI.handed]
          · exact List.nil_prefix
          · exact Or.inl ⟨by simp [afterCall, hres, hrun], by simpa [afterCall, hres] using hfl'⟩
        · intro hst
          simp [afterCall, hres, hrun] at hst
      · refine ⟨_, [], afterCall_inv_ret hI hres hn hok, ?_, ?_⟩
        · rw [CallOk, hres] at hok
          rw [List.length_append, List.length_take, Nat.min_eq_left hok.1, SendRes.count]
        · intro hst
          simp only [afterCall, hres, hn, if_true] at hst
          split at hst <;> cases hst
    | inProgress =>
      rw [CallOk, hres] at hok
      refine ⟨acked, f ++ c.taken, ?_, rfl, ?_⟩
      · apply afterCall_inv_wait hI hrun
        · simp [afterCall, hres]
        · simp [afterCall, hres, hI.handed]
        · exact hok.1
        · exact Or.inl ⟨by simp [afterCall, hres, hrun], by simpa [afterCall, hres] using hok.2⟩
      · intro hst
        simp [afterCall, hres, hrun] at hst
    | error =>
      rw [CallOk, hres] at hok
      refine ⟨acked, f ++ c.taken, ?_, rfl, fun _ => rfl⟩
      apply afterCall_inv_wait hI hrun
      · simp [afterCall, hres]
      · simp [afterCall, hres, hI.handed]
      · exact hok
      · exact Or.inr (by simp [afterCall, hres])
  · cases h

theorem send_run_inv (hv : CallSpec v InFlight) : ∀ (as : List v.Answer) (acked f : List UInt8)
    (s t : Sender v.Task) (os : List SendRes), SendInv InFlight data acked f s →
      s.status ≠ .failed → exec (sendStep v) s as = some (t, os) →
      ∃ acked' f', SendInv InFlight data acked' f' t ∧
        acked'.length = acked.length + (os.map SendRes.count).sum ∧
        (t.status = .failed → .error ∈ os)
  | [], acked, f, s, t, os, hI, hs, h => by
    simp only [exec, Option.some.injEq, Prod.mk.injEq] at h
    obtain ⟨rfl, rfl⟩ := h
    exact ⟨acked, f, hI, rfl, fun h0 => absurd h0 hs⟩
  | a :: as, acked, f, s, t, os, hI, hs, h => by
    obtain ⟨s', r, os', h1, h2, rfl⟩ := exec_cons h
    obtain ⟨acked', f', hI', hlen, hfail⟩ := sendStep_inv hv hI h1
    by_cases hs' : s'.status = .failed
    · -- a failed caller makes no more calls
      cases as with
      | nil =>
        simp only [exec, Option.some.injEq, Prod.mk.injEq] at h2
        obtain ⟨rfl, rfl⟩ := h2
        refine ⟨acked', f', hI', by simpa using hlen, ?_⟩
        intro _
        rw [hfail hs']
        exact List.mem_cons_self
      | cons b bs =>
        have hnone : sendStep v s' b = none := by simp [sendStep, hs']
        obtain ⟨_, _, _, h3, _⟩ := exec_cons h2
        rw [hnone] at h3
        cases h3
    · obtain ⟨acked'', f'', hI'', hlen', hfail'⟩ := send_run_inv hv as acked' f' s' t os' hI' hs' h2
      refine ⟨acked'', f'', hI'', ?_, fun h0 => List.mem_cons_of_mem _ (hfail' h0)⟩
      rw [hlen', hlen, List.map_cons, List.sum_cons]
      omega

/-- The invariant at the end of a run from the start. -/
theorem start_run_inv (hv : CallSpec v InFlight) {iov : List Iovec} {as : List v.Answer}
    {s : Sender v.Task} {os : List SendRes}
    (h : exec (sendStep v) (v.start iov) as = some (s, os)) :
    ∃ acked f, SendInv InFlight iov.flatten acked f s ∧
      acked.length = (os.map SendRes.count).sum ∧ (s.status = .failed → .error ∈ os) := by
  have hs : (v.start iov).status ≠ .failed := fun h0 => by cases h0
  obtain ⟨acked, f, hI, hlen, hfail⟩ := send_run_inv hv as [] [] _ s os (start_inv hv iov) hs h
  exact ⟨acked, f, hI, by simpa using hlen, hfail⟩

end Loop

/-- In every run without errors the kernel takes the array in order and nothing twice, the returned
    counts add up to what is shifted out of the array, and the loop has stopped exactly if the
    kernel has all of the array and no write is pending. -/
def DeliversOnce (v : Variant) (iov : List Iovec) : Prop :=
  ∀ as s os, exec (sendStep v) (v.start iov) as = some (s, os) → .error ∉ os →
    s.handed <+: iov.flatten ∧
    (os.map SendRes.count).sum + s.iov.flatten.length = iov.flatten.length ∧
    (s.status = .stopped ↔ s.handed = iov.flatten ∧ v.active s.task = false)

/-- In every run nothing is handed over, no call returns a positive count, and the loop does not
    stop. -/
def NeverStops (v : Variant) (iov : List Iovec) : Prop :=
  ∀ as s os, exec (sendStep v) (v.start iov) as = some (s, os) →
    s.handed = [] ∧ (∀ r ∈ os, r.count = 0) ∧ s.status ≠ .stopped

section Loop

variable {v : Variant} {InFlight : v.Task → List UInt8 → Prop}

theorem deliversOnce_of_callSpec (hv : CallSpec v InFlight) {iov : List Iovec}
    (hne : iov.flatten ≠ []) : DeliversOnce v iov := by
  intro as s os h herr
  obtain ⟨acked, f, hI, hlen, hfail⟩ := start_run_inv hv h
  have hnf : s.status ≠ .failed := fun h0 => herr (hfail h0)
  refine ⟨?_, ?_, ?_⟩
  · obtain ⟨rest, hrest⟩ := hI.ahead
    refine ⟨rest, ?_⟩
    rw [hI.handed, List.append_assoc, hrest]
    exact hI.split
  · rw [← hlen, ← List.length_append, hI.split]
  · constructor
    · intro hst
      obtain ⟨_, hnil, hact⟩ := hI.stopped hst
      have hf : f = [] := hv.inactive (hI.inFlight hnf) hact
      have hsplit := hI.split
      rw [hnil, List.append_nil] at hsplit
      refine ⟨?_, hact⟩
      rw [hI.handed, hf, List.append_nil, hsplit]
    · rintro ⟨hall, hact⟩
      have hf : f = [] := hv.inactive (hI.inFlight hnf) hact
      have hnil : s.iov.flatten = [] := by
        have heq := hI.split.trans (hall.symm.trans hI.handed)
        rw [hf] at heq
        exact List.append_cancel_left heq
      cases hst : s.status with
      | stopped => rfl
      | failed => exact absurd hst hnf
      | running => exact absurd hnil (hI.running hst hne)

theorem neverStops_of_callSpec (hv : CallSpec v InFlight) {iov : List Iovec}
    (hnil : iov.flatten = []) : NeverStops v iov := by
  intro as s os h
  obtain ⟨acked, f, hI, hlen, _⟩ := start_run_inv hv h
  have hsplit := hI.split
  rw [hnil, List.append_eq_nil_iff] at hsplit
  obtain ⟨rfl, hiov⟩ := hsplit
  refine ⟨?_, ?_, ?_⟩
  · have hf : f = [] := List.prefix_nil.mp (hiov ▸ hI.ahead)
    rw [hI.handed, hf, List.append_nil]
  · intro r hr
    exact List.sum_eq_zero_iff_forall_eq_nat.mp hlen.symm r.count (List.mem_map_of_mem hr)
  · intro hst
    exact (hI.stopped hst).1 hnil

/-- The start of the loop, before the first call. -/
theorem not_deliversOnce_of_nil (hinit : v.active v.init = false) {iov : List Iovec}
    (hnil : iov.flatten = []) : ¬ DeliversOnce v iov := by
  intro h
  obtain ⟨_, _, hiff⟩ := h [] (v.start iov) [] rfl (by simp)
  have hst : (v.start iov).status = .stopped := hiff.mpr ⟨hnil.symm, hinit⟩
  cases hst

end Loop

/-- **Vectored asynchronous send hands over every array that has a byte exactly once.**  With an
    array that has none the caller is never told to stop. -/
theorem sendv_delivers (iov : List Iovec) :
    (DeliversOnce unix iov ↔ iov.flatten ≠ []) ∧ (DeliversOnce windows iov ↔ iov.flatten ≠ []) ∧
      (iov.flatten = [] → NeverStops unix iov ∧ NeverStops windows iov) := by
  refine ⟨⟨?_, deliversOnce_of_callSpec unix_callSpec⟩,
    ⟨?_, deliversOnce_of_callSpec win_callSpec⟩, ?_⟩
  · intro h hnil
    exact not_deliversOnce_of_nil rfl hnil h
  · intro h hnil
    exact not_deliversOnce_of_nil rfl hnil h
  · intro hnil
    exact ⟨neverStops_of_callSpec unix_callSpec hnil, neverStops_of_callSpec win_callSpec hnil⟩

/-- Two empty buffers: all of the array is with the kernel, and no run of the loop stops. -/
theorem sendv_empty_array :
    ¬ DeliversOnce windows [[], []] ∧ NeverStops windows [[], []] ∧
      ¬ DeliversOnce unix [[], []] ∧ NeverStops unix [[], []] := by
  refine ⟨not_deliversOnce_of_nil rfl rfl, neverStops_of_callSpec win_callSpec rfl,
    not_deliversOnce_of_nil rfl rfl, neverStops_of_callSpec unix_callSpec rfl⟩

/-- The one-byte write goes out ahead of the array, and is acknowledged by the next call. -/
example :
    (exec (sendStep windows) (windows.start [[], [1, 2], [3]])
      [⟨.wouldBlock, .pending, .incomplete⟩, ⟨.wouldBlock, .ok, .incomplete⟩,
        ⟨.wouldBlock, .ok, .done⟩, ⟨.sent 2, .ok, .done⟩]).map
      (fun x => (x.1.handed, x.1.status, x.2)) =
    some ([1, 2, 3], .stopped, [.inProgress, .inProgress, .ret 1, .ret 2]) := by
  decide

end FFSys.Socket
