import FFSys.Lib.Run

/-!
# Asynchronous receiving

`ffsock_recv_async()`, `ffsock_recv_udp_async()` and `ffsock_recvfrom_async()` either give a result
or report that it will be in progress; then the caller waits for a signal of the kernel queue and
calls again.

On UNIX they are one system call, and the signal is an edge of the socket.  On Windows they start
a request when the system call would block: the stream functions one for no bytes, which completes
when there is something to receive, the datagram functions one that receives into the buffer of
the caller.  A completed request is a signal.

* `Source` — the side of a socket that is received from, as far as it matters here: `recv` takes
  some of what is there.
* `recvUnix`, `recvWin` — the functions; `Sys`, `step` — a task and its kernel.
* `Inv` — what holds in every state; `conserved_run` — nothing is lost, repeated or reordered.
* `wakes` — a waiting caller for whom there is something gets a signal and then a result.
-/

set_option autoImplicit false

namespace FFSys.Socket.Recv

open FFSys.Lib

/-! ## Sockets -/

/-- A socket with things of type `ι` to receive: arrivals `A`, results `R`; `least` is the size of the
    smallest buffer that something is received into. -/
structure Source (Q A R ι : Type) where
  least : Nat
  recv : Nat → Q → Option (R × Q)
  push : A → Q → Option Q
  ready : Q → Bool
  want : Q → List ι
  items : A → List ι
  given : R → List ι
  recv_isSome : ∀ cap q, (recv cap q).isSome = ready q
  recv_given : ∀ {cap q r q'}, recv cap q = some (r, q') → given r ++ want q' = want q
  push_want : ∀ {a q q'}, push a q = some q' → want q' = want q ++ items a
  push_ready : ∀ {a q q'}, push a q = some q' → ready q = true → ready q' = true

/-! ## The functions -/

/-- The overlapped request of a task; `room` is the size of the buffer that it receives into, or
    `none` if it receives nothing.  A completed request has what it received. -/
inductive Op (R : Type) where
  | idle
  | pending (room : Option Nat)
  | done (r : Option R)
  | failed

/-- A socket, the task of its caller, the signals that the kernel queue has for it, and whether the
    caller waits for one. -/
structure Sys (Q R : Type) where
  q : Q
  active : Bool
  op : Op R
  signals : Nat
  waiting : Bool

/-- A result, -1 with `FFSOCK_EINPROGRESS`, or -1 with another error. -/
inductive Ret (R : Type) where
  | result (r : R)
  | again
  | error

/-- The systems, and on Windows whether a request receives. -/
inductive Kind where
  | unix
  | win (takes : Bool)
  deriving DecidableEq

variable {Q A R ι : Type}

/-- `recv()` or `recvfrom()`; `EAGAIN` becomes `EINPROGRESS`. -/
def recvUnix (S : Source Q A R ι) (s : Sys Q R) (cap : Nat) : Ret R × Sys Q R :=
  match S.recv cap s.q with
  | some (r, q) => (.result r, { s with q := q, active := false })
  | none => (.again, { s with active := true })

/-- The same, and a request if it would block; `ok` says whether the request can be started. -/
def recvOrStart (S : Source Q A R ι) (takes : Bool) (s : Sys Q R) (cap : Nat) (ok : Bool) :
    Ret R × Sys Q R :=
  match S.recv cap s.q with
  | some (r, q) => (.result r, { s with q := q })
  | none =>
    if ok then
      (.again, { s with op := .pending (if takes then some cap else none), active := true })
    else (.error, s)

/-- The Windows functions.  A request that receives has the result, the other one says that the
    system call has one. -/
def recvWin (S : Source Q A R ι) (takes : Bool) (s : Sys Q R) (cap : Nat) (ok : Bool) :
    Ret R × Sys Q R :=
  let idle := { s with op := .idle, active := false }
  if s.active then
    match s.op with
    | .done r =>
      if takes then
        match r with
        | some r => (.result r, idle)
        | none => (.error, idle)
      else recvOrStart S takes idle cap ok
    | .failed => (.error, idle)
    | _ => (.again, s)
  else recvOrStart S takes s cap ok

def recvAsync (S : Source Q A R ι) (k : Kind) (s : Sys Q R) (cap : Nat) (ok : Bool) :
    Ret R × Sys Q R :=
  match k with
  | .unix => recvUnix S s cap
  | .win takes => recvWin S takes s cap ok

/-! ## The system -/

/-- Something arrives; the request completes or fails; the caller calls with a buffer of `cap` bytes,
    or gets a signal from the kernel queue. -/
inductive Act (A : Type) where
  | push (a : A)
  | complete
  | fail
  | call (cap : Nat) (ok : Bool)
  | signal

inductive Ev (R : Type) where
  | quiet
  | ret (r : Ret R)

/-- The pending request completes. -/
def complete (S : Source Q A R ι) (s : Sys Q R) : Option (Sys Q R) :=
  match s.op with
  | .pending none =>
    if S.ready s.q then some { s with op := .done none, signals := s.signals + 1 } else none
  | .pending (some cap) =>
    (S.recv cap s.q).map fun p => { s with
      op := .done (some p.1)
      q := p.2
      signals := s.signals + 1 }
  | _ => none

def Ret.isAgain : Ret R → Bool
  | .again => true
  | _ => false

def step (S : Source Q A R ι) (k : Kind) (s : Sys Q R) : Act A → Option (Sys Q R × Ev R)
  | .push a =>
    (S.push a s.q).map fun q =>
      -- an edge of the socket
      ({ s with q := q, signals := if k = .unix then 1 else s.signals }, .quiet)
  | .complete => (complete S s).map fun s => (s, .quiet)
  | .fail =>
    match s.op with
    | .pending _ => some ({ s with op := .failed, signals := s.signals + 1 }, .quiet)
    | _ => none
  | .call cap ok =>
    -- `recv()` on Windows returns an `int`
    if cap < S.least ∨ (k ≠ .unix ∧ 0x7fffffff < cap) then none
    else
      let p := recvAsync S k s cap ok
      some ({ p.2 with waiting := p.1.isAgain }, .ret p.1)
  | .signal =>
    if 0 < s.signals then some ({ s with signals := s.signals - 1, waiting := false }, .quiet)
    else none

def Sys.init (q : Q) : Sys Q R := ⟨q, false, .idle, 0, false⟩

/-! ## Invariants -/

/-- On UNIX there is no request, and an edge for what has arrived since the caller waits. -/
structure InvUnix (S : Source Q A R ι) (s : Sys Q R) : Prop where
  op : s.op = .idle
  wake : s.waiting = true → S.ready s.q = true → 1 ≤ s.signals

/-- On Windows a task is active exactly while it has a request, and a request that has completed
    while the caller waits has made a signal. -/
structure InvWin (S : Source Q A R ι) (takes : Bool) (s : Sys Q R) : Prop where
  active : s.active = true ↔ s.op ≠ .idle
  room : ∀ room, s.op = .pending room → room.isSome = takes
  done : ∀ r, s.op = .done r → r.isSome = takes ∧ (takes = false → S.ready s.q = true)
  busy : s.waiting = true → s.op ≠ .idle
  wake : s.waiting = true → (∀ room, s.op ≠ .pending room) → 1 ≤ s.signals

def Inv (S : Source Q A R ι) (k : Kind) (s : Sys Q R) : Prop :=
  match k with
  | .unix => InvUnix S s
  | .win takes => InvWin S takes s

section Step

variable {S : Source Q A R ι} {k : Kind} {takes : Bool} {s s' : Sys Q R} {a : Act A} {ev : Ev R}

theorem recv_ready {cap : Nat} {q : Q} (h : S.ready q = true) : ∃ r q', S.recv cap q = some (r, q') := by
  rw [← S.recv_isSome cap q] at h
  obtain ⟨⟨r, q'⟩, hp⟩ := Option.isSome_iff_exists.mp h
  exact ⟨r, q', hp⟩

theorem recv_not_ready {cap : Nat} {q : Q} (h : S.recv cap q = none) : S.ready q = false := by
  rw [← S.recv_isSome cap q, h]
  rfl

theorem invUnix_step (I : InvUnix S s) (h : step S .unix s a = some (s', ev)) : InvUnix S s' := by
  cases a with
  | push a =>
    obtain ⟨q, -, hs⟩ := Option.map_eq_some_iff.mp h
    cases hs
    exact ⟨I.op, fun _ _ => Nat.le_refl 1⟩
  | complete =>
    simp only [step, complete, I.op] at h
    cases h
  | fail =>
    simp only [step, I.op] at h
    cases h
  | call cap ok =>
    rw [step] at h
    split at h
    · cases h
    · cases h
      simp only [recvAsync, recvUnix]
      cases hrecv : S.recv cap s.q with
      | some p => exact ⟨I.op, fun hw => by cases hw⟩
      | none =>
        have hno := recv_not_ready hrecv
        exact ⟨I.op, fun _ hr => by rw [hno] at hr; cases hr⟩
  | signal =>
    rw [step] at h
    split at h
    · cases h
      exact ⟨I.op, fun hw => by cases hw⟩
    · cases h

/-- An idle task whose caller does not wait. -/
theorem idle_inv (hop : s.op = .idle) (hact : s.active = false) (hw : s.waiting = false) :
    InvWin S takes s where
  active := by simp [hop, hact]
  room room h := by simp [hop] at h
  done r h := by simp [hop] at h
  busy h := by simp [hw] at h
  wake h := by simp [hw] at h

/-- Without a request: a result, a new request, or an error. -/
theorem recvOrStart_inv (hop : s.op = .idle) (hact : s.active = false) (cap : Nat) (ok : Bool) :
    InvWin S takes { (recvOrStart S takes s cap ok).2 with
      waiting := (recvOrStart S takes s cap ok).1.isAgain } := by
  unfold recvOrStart
  cases hrecv : S.recv cap s.q with
  | some p => exact idle_inv hop hact rfl
  | none =>
    cases ok with
    | true =>
      refine ⟨by simp, ?_, (fun r h => by cases h), (fun _ => by simp), fun _ h => ?_⟩
      · rintro room h
        cases h
        cases takes <;> rfl
      · exact absurd rfl (h _)
    | false => exact idle_inv hop hact rfl

theorem recvWin_inv (I : InvWin S takes s) (cap : Nat) (ok : Bool) :
    InvWin S takes { (recvWin S takes s cap ok).2 with
      waiting := (recvWin S takes s cap ok).1.isAgain } := by
  unfold recvWin
  by_cases hact : s.active = true
  · simp only [hact, if_true]
    cases hop : s.op with
    | idle => exact absurd hop (I.active.mp hact)
    | pending room =>
      refine ⟨by simp [hop, hact], ?_, (fun r h => by simp [hop] at h), (fun _ => by simp [hop]), ?_⟩
      · exact fun room' h => I.room room' h
      · intro _ h
        exact absurd hop (h room)
    | done r =>
      cases takes with
      | true =>
        cases r with
        | some r => exact idle_inv rfl rfl rfl
        | none => exact idle_inv rfl rfl rfl
      | false => exact recvOrStart_inv rfl rfl cap ok
    | failed => exact idle_inv rfl rfl rfl
  · rw [if_neg hact]
    have hop : s.op = .idle := by
      by_contra hne
      exact hact (I.active.mpr hne)
    exact recvOrStart_inv hop (by simpa using hact) cap ok

/-- A pending request that is done makes a signal. -/
theorem InvWin.done_of_pending (I : InvWin S takes s) {room : Option Nat} (hop : s.op = .pending room)
    {r : Option R} {q : Q} (hr : r.isSome = takes) (hready : takes = false → S.ready q = true) :
    InvWin S takes { s with op := .done r, q := q, signals := s.signals + 1 } := by
  have hact : s.active = true := I.active.mpr (by rw [hop]; simp)
  refine ⟨by simp [hact], (fun room h => by cases h), ?_, (fun _ => by simp),
    fun _ _ => Nat.le_add_left 1 _⟩
  intro r' hr'
  cases hr'
  exact ⟨hr, hready⟩

theorem complete_inv (I : InvWin S takes s) (h : complete S s = some s') : InvWin S takes s' := by
  unfold complete at h
  split at h
  · rename_i hop
    split at h
    · rename_i hready
      cases h
      exact I.done_of_pending hop (I.room _ hop) fun _ => hready
    · cases h
  · rename_i cap hop
    have hroom := I.room _ hop
    obtain ⟨p, -, hs⟩ := Option.map_eq_some_iff.mp h
    cases hs
    apply I.done_of_pending hop hroom
    intro htakes
    rw [htakes] at hroom
    cases hroom
  · cases h

theorem invWin_step (I : InvWin S takes s) (h : step S (.win takes) s a = some (s', ev)) :
    InvWin S takes s' := by
  cases a with
  | push a =>
    obtain ⟨q, hq, hs⟩ := Option.map_eq_some_iff.mp h
    cases hs
    exact ⟨I.active, I.room, fun r hr => ⟨(I.done r hr).1, fun ht => S.push_ready hq ((I.done r hr).2 ht)⟩,
      I.busy, I.wake⟩
  | complete =>
    obtain ⟨t, ht, hs⟩ := Option.map_eq_some_iff.mp h
    cases hs
    exact complete_inv I ht
  | fail =>
    rw [step] at h
    split at h
    · rename_i room hop
      cases h
      have hact : s.active = true := I.active.mpr (by rw [hop]; simp)
      exact ⟨by simp [hact], (fun room h => by cases h), (fun r h => by cases h), (fun _ => by simp),
        fun _ _ => Nat.le_add_left 1 _⟩
    · cases h
  | call cap ok =>
    rw [step] at h
    split at h
    · cases h
    · cases h
      exact recvWin_inv I cap ok
  | signal =>
    rw [step] at h
    split at h
    · cases h
      exact ⟨I.active, I.room, I.done, (fun hw => by cases hw), (fun hw => by cases hw)⟩
    · cases h

theorem inv_step (I : Inv S k s) (h : step S k s a = some (s', ev)) : Inv S k s' := by
  cases k with
  | unix => exact invUnix_step I h
  | win takes => exact invWin_step I h

theorem inv_init (S : Source Q A R ι) (k : Kind) (q : Q) : Inv S k (Sys.init q) := by
  cases k with
  | unix => exact ⟨rfl, fun hw => by cases hw⟩
  | win takes => exact idle_inv rfl rfl rfl

/-! ## Conservation -/

/-- What the request has received and its caller has not got. -/
def Op.held (S : Source Q A R ι) : Op R → List ι
  | .done (some r) => S.given r
  | _ => []

/-- What is received with an event. -/
def Ev.got (S : Source Q A R ι) : Ev R → List ι
  | .ret (.result r) => S.given r
  | _ => []

def Act.items (S : Source Q A R ι) : Act A → List ι
  | .push a => S.items a
  | _ => []

/-- What the caller has still to get. -/
def Sys.left (S : Source Q A R ι) (s : Sys Q R) : List ι := s.op.held S ++ S.want s.q

theorem recvOrStart_left (takes : Bool) (hop : s.op = .idle) (cap : Nat) (ok : Bool) :
    Ev.got S (.ret (recvOrStart S takes s cap ok).1) ++ (recvOrStart S takes s cap ok).2.left S =
      s.left S := by
  unfold recvOrStart Sys.left
  cases hrecv : S.recv cap s.q with
  | some p =>
    have hgiven := S.recv_given hrecv
    simp only [hop, Op.held, Ev.got, List.nil_append]
    exact hgiven
  | none => cases ok <;> simp only [hop, Op.held, Ev.got, List.nil_append, if_true, if_false,
      Bool.false_eq_true]

theorem recvWin_left (I : InvWin S takes s) (cap : Nat) (ok : Bool) :
    Ev.got S (.ret (recvWin S takes s cap ok).1) ++ (recvWin S takes s cap ok).2.left S =
      s.left S := by
  unfold recvWin
  by_cases hact : s.active = true
  · simp only [hact, if_true]
    cases hop : s.op with
    | idle => exact absurd hop (I.active.mp hact)
    | pending room => rfl
    | done r =>
      have hr := (I.done r hop).1
      have hleft : s.left S = (Op.done r).held S ++ S.want s.q := by rw [Sys.left, hop]
      cases takes with
      | true =>
        obtain ⟨r, rfl⟩ := Option.isSome_iff_exists.mp hr
        rw [hleft]
        rfl
      | false =>
        cases r with
        | some r => cases hr
        | none =>
          have hrest := recvOrStart_left (S := S) (s := { s with op := .idle, active := false }) false
            rfl cap ok
          rw [hleft]
          exact hrest
    | failed =>
      have hleft : s.left S = S.want s.q := by rw [Sys.left, hop]; rfl
      rw [hleft]
      rfl
  · rw [if_neg hact]
    have hop : s.op = .idle := by
      by_contra hne
      exact hact (I.active.mpr hne)
    exact recvOrStart_left takes hop cap ok

theorem complete_left (h : complete S s = some s') : s'.left S = s.left S := by
  unfold complete at h
  split at h
  · rename_i hop
    split at h
    · cases h
      simp only [Sys.left, hop, Op.held]
    · cases h
  · rename_i cap hop
    obtain ⟨p, hp, hs⟩ := Option.map_eq_some_iff.mp h
    cases hs
    have hgiven := S.recv_given hp
    simp only [Sys.left, hop, Op.held, List.nil_append]
    exact hgiven
  · cases h

/-- What is left, with what arrives, is what is got and what is left then. -/
theorem conserved_step (I : Inv S k s) (h : step S k s a = some (s', ev)) :
    s.left S ++ a.items S = ev.got S ++ s'.left S := by
  cases a with
  | push a =>
    obtain ⟨q, hq, hs⟩ := Option.map_eq_some_iff.mp h
    cases hs
    have hwant := S.push_want hq
    simp only [Sys.left, Act.items, Ev.got, hwant, List.append_assoc, List.nil_append]
  | complete =>
    obtain ⟨t, ht, hs⟩ := Option.map_eq_some_iff.mp h
    cases hs
    rw [complete_left ht]
    exact List.append_nil _
  | fail =>
    rw [step] at h
    split at h
    · rename_i room hop
      cases h
      simp only [Sys.left, hop, Op.held]
      exact List.append_nil _
    · cases h
  | call cap ok =>
    rw [step] at h
    split at h
    · cases h
    · cases h
      have hleft : Ev.got S (.ret (recvAsync S k s cap ok).1) ++ (recvAsync S k s cap ok).2.left S =
          s.left S := by
        cases k with
        | unix =>
          have hop : s.op = .idle := I.op
          unfold recvAsync recvUnix Sys.left
          cases hrecv : S.recv cap s.q with
          | some p =>
            have hgiven := S.recv_given hrecv
            simp only [hop, Op.held, Ev.got, List.nil_append]
            exact hgiven
          | none => simp only [hop, Op.held, Ev.got, List.nil_append]
        | win takes => exact recvWin_left I cap ok
      exact (List.append_nil _).trans hleft.symm
  | signal =>
    rw [step] at h
    split at h
    · cases h
      exact List.append_nil _
    · cases h

/-! ## Wakeups -/

/-- There is a signal, and a call gives a result or an error. -/
def Awake (S : Source Q A R ι) (k : Kind) (s : Sys Q R) : Prop :=
  1 ≤ s.signals ∧ ∀ cap ok, S.least ≤ cap → (recvAsync S k s cap ok).1.isAgain = false

/-- There is something to give: to be received, received by the request, or its error. -/
def Sys.HasNews (S : Source Q A R ι) (s : Sys Q R) : Prop :=
  S.ready s.q = true ∨ (∃ r, s.op = .done r) ∨ s.op = .failed

theorem recvOrStart_ready (takes : Bool) (hready : S.ready s.q = true) (cap : Nat) (ok : Bool) :
    (recvOrStart S takes s cap ok).1.isAgain = false := by
  obtain ⟨r, q', hrecv⟩ := @recv_ready _ _ _ _ S cap _ hready
  simp only [recvOrStart, hrecv]
  rfl

theorem awake_done (I : InvWin S takes s) (hsig : 1 ≤ s.signals) {r : Option R}
    (hop : s.op = .done r) : Awake S (.win takes) s := by
  refine ⟨hsig, fun cap ok _ => ?_⟩
  have hact : s.active = true := I.active.mpr (by rw [hop]; simp)
  obtain ⟨hr, hready⟩ := I.done r hop
  simp only [recvAsync, recvWin, hact, if_true, hop]
  cases takes with
  | true =>
    obtain ⟨r, rfl⟩ := Option.isSome_iff_exists.mp hr
    rfl
  | false =>
    have hagain := recvOrStart_ready (S := S) (s := { s with op := .idle, active := false }) false
      (hready rfl) cap ok
    exact hagain

/-- **No wakeup is lost.**  A waiting caller for whom there is news has a signal, after which a
    call does not wait again, or the request of its task can complete, and then it has. -/
theorem wakes (I : Inv S k s) (hw : s.waiting = true) (hnews : s.HasNews S) :
    Awake S k s ∨ ∃ s', step S k s .complete = some (s', .quiet) ∧ Awake S k s' := by
  cases k with
  | unix =>
    have hop : s.op = .idle := I.op
    have hready : S.ready s.q = true := by
      rcases hnews with h | ⟨r, h⟩ | h
      · exact h
      · rw [hop] at h
        cases h
      · rw [hop] at h
        cases h
    refine Or.inl ⟨I.wake hw hready, fun cap ok _ => ?_⟩
    obtain ⟨r, q', hrecv⟩ := @recv_ready _ _ _ _ S cap _ hready
    simp only [recvAsync, recvUnix, hrecv]
    rfl
  | win takes =>
    have I' : InvWin S takes s := I
    have hact : s.active = true := I'.active.mpr (I'.busy hw)
    cases hop : s.op with
    | idle => exact absurd hop (I'.busy hw)
    | done r => exact Or.inl (awake_done I' (I'.wake hw (fun room h => by rw [hop] at h; cases h)) hop)
    | failed =>
      refine Or.inl ⟨I'.wake hw (fun room h => by rw [hop] at h; cases h), fun cap ok _ => ?_⟩
      simp only [recvAsync, recvWin, hact, if_true, hop]
      rfl
    | pending room =>
      have hready : S.ready s.q = true := by
        rcases hnews with h | ⟨r, h⟩ | h
        · exact h
        · rw [hop] at h
          cases h
        · rw [hop] at h
          cases h
      have hdone : ∃ s' r, complete S s = some s' ∧ s'.op = .done r ∧ 1 ≤ s'.signals := by
        unfold complete
        rw [hop]
        cases room with
        | none => exact ⟨_, none, if_pos hready, rfl, Nat.le_add_left 1 _⟩
        | some cap =>
          obtain ⟨r, q', hrecv⟩ := @recv_ready _ _ _ _ S cap _ hready
          exact ⟨_, some r, congrArg (Option.map _) hrecv, rfl, Nat.le_add_left 1 _⟩
      obtain ⟨s', r, hs, hop', hsig⟩ := hdone
      exact Or.inr ⟨s', by rw [step, hs]; rfl, awake_done (complete_inv I' hs) hsig hop'⟩

end Step

/-! ## Runs -/

section Run

variable {S : Source Q A R ι} {k : Kind}

/-- Induction on the run: what arrives is got in order, each thing once. -/
theorem conserved_run : ∀ {as : List (Act A)} {s t : Sys Q R} {os : List (Ev R)}, Inv S k s →
    exec (step S k) s as = some (t, os) →
    Inv S k t ∧ s.left S ++ as.flatMap (Act.items S) = os.flatMap (Ev.got S) ++ t.left S
  | [], s, t, os, I, h => by
    simp only [exec, Option.some.injEq, Prod.mk.injEq] at h
    obtain ⟨rfl, rfl⟩ := h
    exact ⟨I, List.append_nil _⟩
  | a :: as, s, t, os, I, h => by
    obtain ⟨s', ev, os', hs, hrun, rfl⟩ := exec_cons h
    obtain ⟨It, heq⟩ := conserved_run (inv_step I hs) hrun
    refine ⟨It, ?_⟩
    rw [List.flatMap_cons, List.flatMap_cons, ← List.append_assoc, conserved_step I hs,
      List.append_assoc, heq, List.append_assoc]

end Run

end FFSys.Socket.Recv
