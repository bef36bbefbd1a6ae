import FFSys.Lib.Run
import Mathlib.Algebra.Order.Ring.Nat

/-!
# Asynchronous accept on Windows

`ffsock_accept_async()` first tries `accept()`.  If that would block, it makes a socket, hands it to
`AcceptEx()` and keeps it in the task; the next calls ask `GetOverlappedResult()` for the outcome.

The system is outside: what it answers in a call is an input of the model (`Answers`).  A socket is
the serial number of the successful `socket()` or `accept()` that made it.

* `ffsockCreate`, `ffsockAccept`, `ffsockAcceptAsync` — the functions.
* `Host` — the task, the thread's last error and the account of the sockets: how many were made,
  which were returned, which were closed.
* `Owned`, `acceptStep_owned` — every socket is returned, closed or held by an active task, once;
  a step keeps that unless the pending accept fails.
* `acceptStep_leaks` — if the pending accept fails, the socket of the task is lost.
* `acceptAsync_noLeak_iff` — no socket is leaked in a run exactly if no pending accept fails.
-/

set_option autoImplicit false

namespace FFSys.Socket

open FFSys.Lib

/-! ## The functions -/

def ERROR_IO_INCOMPLETE : Nat := 996

def ERROR_IO_PENDING : Nat := 997

def WSAEWOULDBLOCK : Nat := 10035

/-- `ffsockaddr`: the length and the bytes of the address. -/
structure Sockaddr where
  len : Nat
  ip : List UInt8
  deriving DecidableEq, Repr

/-- `ffkq_task_accept`; no socket in `csock` is the zero of a cleared task. -/
structure AcceptTask where
  active : Bool
  csock : Option Nat
  deriving DecidableEq, Repr

/-- What the process has after some calls. -/
structure Host where
  task : AcceptTask
  lastError : Nat
  made : Nat
  returned : List Nat
  closed : List Nat
  deriving DecidableEq, Repr

/-- What `GetAcceptExSockaddrs()` finds in `task->local_peer_addrs`. -/
structure AcceptExAddrs where
  family : Nat
  peer : List UInt8
  localAddr : List UInt8
  deriving DecidableEq, Repr

/-- The answers of the system in one call; an error is a value of `GetLastError()`.
    `acceptPeer` is what `accept()` leaves in the address and its size, failed or not.  The error
    of a failed `ioctlsocket()` is the one after `closesocket()`. -/
structure Answers where
  overlapped : Except Nat Unit
  acceptExAddrs : AcceptExAddrs
  accept : Except Nat Unit
  acceptPeer : Sockaddr
  acceptNonblock : Except Nat Unit
  socket : Except Nat Unit
  socketNonblock : Except Nat Unit
  acceptEx : Except Nat Unit

/-- The arguments of a call: `flags & FFSOCK_NONBLOCK`, `domain`, `*peer` and `*local` if given. -/
structure AcceptArgs where
  nonblock : Bool
  domain : Nat
  peer : Sockaddr
  localAddr : Option Sockaddr

/-- What a call gives: a socket or `INVALID_SOCKET`, and the addresses as it leaves them. -/
structure AcceptRes where
  sock : Option Nat
  peer : Sockaddr
  localAddr : Option Sockaddr
  deriving DecidableEq, Repr

/-- `closesocket()` -/
def Host.close (w : Host) (sk : Nat) : Host :=
  { w with closed := sk :: w.closed }

/-- `SetLastError()` -/
def Host.setError (w : Host) (e : Nat) : Host :=
  { w with lastError := e }

/-- `socket()` or `accept()` makes a socket. -/
def Host.make (w : Host) : Host :=
  { w with made := w.made + 1 }

/-- The end of `ffsock_create()` and of `ffsock_accept()`: the new socket is made non-blocking, and
    closed if that fails. -/
def setNonblock (w : Host) (nonblock : Bool) (answer : Except Nat Unit) (sk : Nat) :
    Option Nat × Host :=
  if nonblock then
    match answer with
    | .ok () => (some sk, w)
    | .error e => (none, (w.close sk).setError e)
  else
    (some sk, w)

/-- `ffsock_create()` -/
def ffsockCreate (w : Host) (nonblock : Bool) (k : Answers) : Option Nat × Host :=
  match k.socket with
  | .error e => (none, w.setError e)
  | .ok () => setNonblock w.make nonblock k.socketNonblock w.made

/-- `ffsock_accept()`.  The length of the peer's address is also set if `accept()` fails. -/
def ffsockAccept (w : Host) (args : AcceptArgs) (k : Answers) : Option Nat × Sockaddr × Host :=
  match k.accept with
  | .error e => (none, k.acceptPeer, w.setError e)
  | .ok () =>
    match setNonblock w.make args.nonblock k.acceptNonblock w.made with
    | (some sk, w') => (some sk, k.acceptPeer, w')
    | (none, w') => (none, { args.peer with ip := k.acceptPeer.ip }, w')

/-- The first half of `ffsock_accept_async()`: the task is active. -/
def acceptFinish (w : Host) (args : AcceptArgs) (k : Answers) : AcceptRes × Host :=
  match k.overlapped with
  | .error e =>
    if e = ERROR_IO_INCOMPLETE then
      (⟨none, args.peer, args.localAddr⟩, w.setError ERROR_IO_PENDING)
    else
      (⟨none, args.peer, args.localAddr⟩,
        { w with task := { w.task with active := false }, lastError := e })
  | .ok () =>
    let w' := { w with task := { w.task with active := false } }
    if args.domain = k.acceptExAddrs.family then
      (⟨w.task.csock, ⟨k.acceptExAddrs.peer.length, k.acceptExAddrs.peer⟩,
        args.localAddr.map fun _ => ⟨k.acceptExAddrs.localAddr.length, k.acceptExAddrs.localAddr⟩⟩, w')
    else
      (⟨w.task.csock, { args.peer with len := 0 }, args.localAddr⟩, w')

/-- `AcceptEx()` with the new socket `csock`, on a cleared task. -/
def acceptBegin (w : Host) (k : Answers) (csock : Nat) : Host :=
  let w := { w with task := ⟨false, none⟩ }
  match k.acceptEx with
  | .ok () => { w.setError ERROR_IO_PENDING with task := ⟨true, some csock⟩ }
  | .error e =>
    if e ≠ ERROR_IO_PENDING then
      (w.close csock).setError e
    else
      { w.setError e with task := ⟨true, some csock⟩ }

/-- `ffsock_accept_async()` -/
def ffsockAcceptAsync (w : Host) (args : AcceptArgs) (k : Answers) : AcceptRes × Host :=
  if w.task.active then
    acceptFinish w args k
  else
    match ffsockAccept w args k with
    | (some csock, peer, w) => (⟨some csock, peer, args.localAddr⟩, w)
    | (none, peer, w) =>
      if w.lastError ≠ WSAEWOULDBLOCK then
        (⟨none, peer, args.localAddr⟩, w)
      else
        match ffsockCreate w args.nonblock k with
        | (none, w) => (⟨none, peer, args.localAddr⟩, w)
        | (some csock, w) => (⟨none, peer, args.localAddr⟩, acceptBegin w k csock)

/-- A process that uses one task: a call, and the account of what it returned. -/
def acceptStep (w : Host) (call : AcceptArgs × Answers) : Option (Host × AcceptRes) :=
  let r := ffsockAcceptAsync w call.1 call.2
  some ({ r.2 with returned := r.1.sock.toList ++ r.2.returned }, r.1)

/-- Before the first call the task is cleared. -/
def Host.start : Host := ⟨⟨false, none⟩, 0, 0, [], []⟩

/-! ## The account -/

/-- The socket that an active task holds. -/
def Host.held (w : Host) : List Nat :=
  if w.task.active then w.task.csock.toList else []

/-- How often a socket is returned, closed or held. -/
def Host.uses (w : Host) (sk : Nat) : Nat :=
  w.returned.count sk + w.closed.count sk + w.held.count sk

/-- Every socket made so far, and no other, is returned, closed or held, and that once; an active
    task holds one. -/
structure Owned (w : Host) : Prop where
  once : ∀ sk, w.uses sk = if sk < w.made then 1 else 0
  holds : w.task.active = true → ∃ sk, w.task.csock = some sk

/-- If the task is inactive, every socket is returned once or closed. -/
def NoLeak (w : Host) : Prop :=
  w.task.active = false → ∀ sk < w.made,
    (w.returned.count sk = 1 ∧ w.closed.count sk = 0) ∨
    (w.returned.count sk = 0 ∧ w.closed.count sk = 1)

/-- The call that goes wrong: the accept that the task waits for has failed. -/
def PendingFails (w : Host) (call : AcceptArgs × Answers) : Prop :=
  w.task.active = true ∧ ∃ e, call.2.overlapped = .error e ∧ e ≠ ERROR_IO_INCOMPLETE

theorem start_owned : Owned Host.start := by
  refine ⟨?_, ?_⟩
  · intro sk
    rfl
  · intro h
    cases h

theorem Owned.noLeak {w : Host} (h : Owned w) : NoLeak w := by
  intro hactive sk hsk
  have honce := h.once sk
  simp only [Host.uses, Host.held, hactive, Bool.false_eq_true, if_false, List.count_nil, hsk,
    if_true] at honce
  omega

/-! ## One call -/

/-- An idle process on the way: nothing is held, and the sockets in `extra` are still to be
    disposed of. -/
def Idle (w : Host) (extra : List Nat) : Prop :=
  w.task.active = false ∧
    ∀ sk, w.returned.count sk + w.closed.count sk + extra.count sk = if sk < w.made then 1 else 0

theorem Owned.idle {w : Host} (h : Owned w) (hactive : w.task.active = false) : Idle w [] := by
  refine ⟨hactive, ?_⟩
  intro sk
  have honce := h.once sk
  simpa [Host.uses, Host.held, hactive] using honce

theorem Idle.setError {w : Host} {extra : List Nat} (h : Idle w extra) (e : Nat) :
    Idle (w.setError e) extra := h

/-- A new socket is the next number. -/
theorem Idle.make {w : Host} (h : Idle w []) : Idle w.make [w.made] := by
  refine ⟨h.1, ?_⟩
  intro sk
  have hsk := h.2 sk
  have hmade : (if sk < w.made + 1 then 1 else 0) =
      (if sk < w.made then 1 else 0) + (if w.made = sk then 1 else 0) := by
    split <;> split <;> split <;> omega
  simp only [List.count_nil, Nat.add_zero] at hsk
  simp only [Host.make, List.count_cons, List.count_nil, beq_iff_eq, Nat.zero_add]
  rw [hsk]
  exact hmade.symm

theorem Idle.close {w : Host} {sk : Nat} (h : Idle w [sk]) : Idle (w.close sk) [] := by
  refine ⟨h.1, ?_⟩
  intro x
  have hx := h.2 x
  have hcount : (w.close sk).closed.count x = w.closed.count x + [sk].count x := by
    simp [Host.close, List.count_cons]
  rw [hcount, List.count_nil, Nat.add_zero, ← Nat.add_assoc]
  exact hx

/-- What a function that makes a socket leaves: the one it returns is still to be disposed of. -/
theorem Idle.setNonblock {w : Host} {sk : Nat} (h : Idle w [sk]) (nonblock : Bool)
    (answer : Except Nat Unit) :
    Idle (setNonblock w nonblock answer sk).2 (setNonblock w nonblock answer sk).1.toList := by
  unfold Socket.setNonblock
  split
  · split
    · exact h
    · exact h.close.setError _
  · exact h

theorem Idle.ffsockCreate {w : Host} (h : Idle w []) (nonblock : Bool) (k : Answers) :
    Idle (ffsockCreate w nonblock k).2 (ffsockCreate w nonblock k).1.toList := by
  rw [Socket.ffsockCreate]
  split
  · exact h.setError _
  · exact h.make.setNonblock nonblock k.socketNonblock

theorem Idle.ffsockAccept {w : Host} (h : Idle w []) (args : AcceptArgs) (k : Answers) :
    Idle (ffsockAccept w args k).2.2 (ffsockAccept w args k).1.toList := by
  have hmade := h.make.setNonblock args.nonblock k.acceptNonblock
  rw [Socket.ffsockAccept]
  split
  · exact h.setError _
  · split
    · rename_i sk w' heq
      rw [heq] at hmade
      exact hmade
    · rename_i w' heq
      rw [heq] at hmade
      exact hmade

/-- What is returned to the caller is disposed of. -/
theorem Idle.give {w : Host} {r : Option Nat} (h : Idle w r.toList) :
    Owned { w with returned := r.toList ++ w.returned } := by
  refine ⟨?_, ?_⟩
  · intro sk
    have hsk := h.2 sk
    simp only [Host.uses, Host.held, h.1, Bool.false_eq_true, if_false, List.count_nil,
      List.count_append]
    omega
  · intro hactive
    rw [h.1] at hactive
    cases hactive

/-- `AcceptEx()` takes the new socket, or it is closed. -/
theorem Idle.acceptBegin {w : Host} {csock : Nat} (h : Idle w [csock]) (k : Answers) :
    Owned (acceptBegin w k csock) := by
  have hcount := h.2
  have hheld : ∀ e, Owned { w with lastError := e, task := ⟨true, some csock⟩ } := by
    intro e
    refine ⟨?_, fun _ => ⟨csock, rfl⟩⟩
    intro sk
    exact hcount sk
  rw [Socket.acceptBegin]
  split
  · exact hheld ERROR_IO_PENDING
  · rename_i e heq
    split
    · have hclear : Idle { w with task := ⟨false, none⟩ } [csock] := ⟨rfl, hcount⟩
      exact Idle.give (r := none) (hclear.close.setError e)
    · exact hheld e

/-- The pending accept is complete or still pending. -/
theorem Owned.acceptFinish {w : Host} (h : Owned w) (hactive : w.task.active = true)
    (args : AcceptArgs) (k : Answers) (hok : ¬ PendingFails w (args, k)) :
    Owned { (acceptFinish w args k).2 with
      returned := (acceptFinish w args k).1.sock.toList ++ (acceptFinish w args k).2.returned } := by
  obtain ⟨csock, hcsock⟩ := h.holds hactive
  have hidle : Idle { w with task := { w.task with active := false } } w.task.csock.toList := by
    refine ⟨rfl, ?_⟩
    intro sk
    simpa [Host.uses, Host.held, hactive] using h.once sk
  rw [Socket.acceptFinish]
  split
  · rename_i e heq
    split
    · exact ⟨h.once, h.holds⟩
    · rename_i he
      exact absurd ⟨hactive, e, heq, he⟩ hok
  · simp only
    split
    · exact hidle.give
    · exact hidle.give

/-- **One call keeps the account**, unless the pending accept fails. -/
theorem acceptStep_owned (w : Host) (call : AcceptArgs × Answers) (w' : Host) (r : AcceptRes)
    (h : Owned w) (hok : ¬ PendingFails w call) (hstep : acceptStep w call = some (w', r)) :
    Owned w' := by
  obtain ⟨args, k⟩ := call
  simp only [acceptStep, Option.some.injEq, Prod.mk.injEq] at hstep
  obtain ⟨rfl, rfl⟩ := hstep
  cases hactive : w.task.active with
  | true =>
    have hfinish := h.acceptFinish hactive args k hok
    simpa only [ffsockAcceptAsync, hactive, if_true] using hfinish
  | false =>
    have haccept := (h.idle hactive).ffsockAccept args k
    simp only [ffsockAcceptAsync, hactive, Bool.false_eq_true, if_false]
    split
    · rename_i csock peer w1 heq
      rw [heq] at haccept
      exact haccept.give
    · rename_i peer w1 heq
      rw [heq] at haccept
      have hcreate := Idle.ffsockCreate haccept args.nonblock k
      split
      · exact haccept.give
      · split
        · rename_i w2 heq2
          rw [heq2] at hcreate
          exact hcreate.give
        · rename_i csock w2 heq2
          rw [heq2] at hcreate
          exact Idle.acceptBegin hcreate k

/-- **If the pending accept fails, its socket is lost**: the task is inactive, and the socket is
    neither returned nor closed. -/
theorem acceptStep_leaks {w : Host} {call : AcceptArgs × Answers} {w' : Host} {r : AcceptRes}
    (h : Owned w) (hfail : PendingFails w call) (hstep : acceptStep w call = some (w', r)) :
    ¬ NoLeak w' := by
  obtain ⟨hactive, e, heq, he⟩ := hfail
  obtain ⟨csock, hcsock⟩ := h.holds hactive
  simp only [acceptStep, ffsockAcceptAsync, hactive, if_true, acceptFinish, heq, he, if_false,
    Option.toList_none, List.nil_append, Option.some.injEq, Prod.mk.injEq] at hstep
  obtain ⟨rfl, rfl⟩ := hstep
  have honce := h.once csock
  simp only [Host.uses, Host.held, hactive, hcsock, if_true, Option.toList_some,
    List.count_singleton_self] at honce
  intro hno
  have hlt : csock < w.made := by
    by_contra hlt
    rw [if_neg hlt] at honce
    omega
  rw [if_pos hlt] at honce
  have hcsock' := hno rfl csock hlt
  simp only at hcsock'
  omega

/-! ## Runs -/

/-- **No socket is leaked in a run of calls exactly if no pending accept fails**: after every call
    that leaves the task inactive, every socket that was made is returned once or closed. -/
theorem acceptAsync_noLeak_iff (calls : List (AcceptArgs × Answers)) :
    Always acceptStep NoLeak Host.start calls ↔
      EachStep acceptStep (fun w call => ¬ PendingFails w call) Host.start calls := by
  refine ⟨?_, ?_⟩
  · intro h
    refine eachStep_of_always (P := NoLeak) (I := Owned) ?_ ?_ calls Host.start start_owned h
    · intro w call w' r hown hstep hno
      have hok : ¬ PendingFails w call := fun hfail => acceptStep_leaks hown hfail hstep hno
      exact ⟨hok, acceptStep_owned w call w' r hown hok hstep⟩
    · intro w call hnone
      cases hnone
  · intro h
    refine Always.mono (fun w (hown : Owned w) => hown.noLeak) ?_
    exact always_of_eachStep (fun w call w' r hown hok hstep =>
      acceptStep_owned w call w' r hown hok hstep) calls Host.start start_owned h

/-- The answers of a call that begins an accept, and of one that finds it failed: error 995 is
    `ERROR_OPERATION_ABORTED`, the listening socket was closed. -/
def abortedAccept : Answers :=
  ⟨.error 995, ⟨2, [], []⟩, .error WSAEWOULDBLOCK, ⟨28, []⟩, .ok (), .ok (), .ok (),
    .error ERROR_IO_PENDING⟩

/-- Two calls on a cleared task: the accept is begun, and then aborted. -/
theorem acceptAsync_aborted_leaks :
    ¬ Always acceptStep NoLeak Host.start
      [(⟨true, 2, ⟨28, []⟩, none⟩, abortedAccept), (⟨true, 2, ⟨28, []⟩, none⟩, abortedAccept)] := by
  intro h
  have hend : NoLeak ⟨⟨false, some 0⟩, 995, 1, [], []⟩ := h.2.2
  have hlost := hend rfl 0 (Nat.lt_add_one 0)
  simp at hlost

end FFSys.Socket
