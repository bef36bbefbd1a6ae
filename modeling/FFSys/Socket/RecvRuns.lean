import FFSys.Socket.RecvAsync
import Mathlib.Data.List.Basic

/-!
# Streams and datagrams

The sockets of `ffsock_recv_async()`, which is for streams, and of `ffsock_recvfrom_async()` and
`ffsock_recv_udp_async()`, which are for datagrams.

* `streamSource` — bytes, and the end of the stream behind them; unread bytes stay readable when
  the connection is reset.
* `datagramSource` — datagrams with their senders; one that is longer than the buffer is cut on
  UNIX, and an error on Windows.  Other errors of a datagram socket are left out.
* `ffsock_recv_stream`, `ffsock_recvfrom_datagrams` — what a caller gets in every run.
-/

set_option autoImplicit false

namespace FFSys.Socket.Recv

open FFSys.Lib

/-- The results of the calls. -/
def results {R : Type} (os : List (Ev R)) : List R :=
  os.filterMap fun ev => match ev with
    | .ret (.result r) => some r
    | _ => none

theorem flatMap_got {Q A R ι : Type} (S : Source Q A R ι) (os : List (Ev R)) :
    os.flatMap (Ev.got S) = (results os).flatMap S.given := by
  induction os with
  | nil => rfl
  | cons ev os ih =>
    rw [List.flatMap_cons, ih]
    cases ev with
    | quiet => rfl
    | ret r => cases r <;> rfl

/-! ## Streams -/

/-- What is unread, and whether the peer has ended the stream or reset the connection. -/
structure Stream where
  input : List UInt8
  fin : Bool
  rst : Bool
  deriving DecidableEq

inductive StreamArrival where
  | bytes (bs : List UInt8)
  | fin
  | reset
  deriving DecidableEq

inductive StreamResult where
  | data (bs : List UInt8)
  | eof
  | reset
  deriving DecidableEq

def Stream.recv (cap : Nat) (q : Stream) : Option (StreamResult × Stream) :=
  if q.input ≠ [] then some (.data (q.input.take cap), { q with input := q.input.drop cap })
  else if q.rst then some (.reset, q)
  else if q.fin then some (.eof, q)
  else none

def Stream.push : StreamArrival → Stream → Option Stream
  | .bytes bs, q => if q.fin ∨ q.rst then none else some { q with input := q.input ++ bs }
  | .fin, q => if q.fin ∨ q.rst then none else some { q with fin := true }
  | .reset, q => if q.rst then none else some { q with rst := true }

def StreamArrival.items : StreamArrival → List UInt8
  | .bytes bs => bs
  | _ => []

def StreamResult.given : StreamResult → List UInt8
  | .data bs => bs
  | _ => []

def Stream.ready (q : Stream) : Bool := q.input ≠ [] || q.rst || q.fin

/-- A call with an empty buffer would say nothing of the stream. -/
def streamSource : Source Stream StreamArrival StreamResult UInt8 where
  least := 1
  recv := Stream.recv
  push := Stream.push
  ready := Stream.ready
  want := Stream.input
  items := StreamArrival.items
  given := StreamResult.given
  recv_isSome cap q := by
    obtain ⟨input, fin, rst⟩ := q
    cases input <;> cases fin <;> cases rst <;> rfl
  recv_given {cap q r q'} h := by
    unfold Stream.recv at h
    split at h
    · cases h
      exact List.take_append_drop cap q.input
    · split at h
      · cases h
        rfl
      · split at h
        · cases h
          rfl
        · cases h
  push_want {a q q'} h := by
    cases a with
    | bytes bs =>
      rw [Stream.push] at h
      split at h
      · cases h
      · cases h
        rfl
    | fin =>
      rw [Stream.push] at h
      split at h
      · cases h
      · cases h
        exact (List.append_nil _).symm
    | reset =>
      rw [Stream.push] at h
      split at h
      · cases h
      · cases h
        exact (List.append_nil _).symm
  push_ready {a q q'} h hr := by
    cases a with
    | bytes bs =>
      rw [Stream.push] at h
      split at h
      · cases h
      · cases h
        simp only [Stream.ready, Bool.or_eq_true, decide_eq_true_eq] at hr ⊢
        rcases hr with (hin | hrst) | hfin
        · exact Or.inl (Or.inl fun hnil => hin (List.append_eq_nil_iff.mp hnil).1)
        · exact Or.inl (Or.inr hrst)
        · exact Or.inr hfin
    | fin =>
      rw [Stream.push] at h
      split at h
      · cases h
      · cases h
        simp [Stream.ready]
    | reset =>
      rw [Stream.push] at h
      split at h
      · cases h
      · cases h
        simp [Stream.ready]

/-! ## Datagrams -/

structure Datagram where
  peer : List UInt8
  data : List UInt8
  deriving DecidableEq

/-- A datagram that was received into a buffer of `cap` bytes. -/
structure Received where
  dgram : Datagram
  cap : Nat
  deriving DecidableEq

def recvDatagram (cap : Nat) : List Datagram → Option (Received × List Datagram)
  | [] => none
  | d :: q => some (⟨d, cap⟩, q)

/-- An empty buffer takes a datagram, too. -/
def datagramSource : Source (List Datagram) Datagram Received Datagram where
  least := 0
  recv := recvDatagram
  push d q := some (q ++ [d])
  ready q := !q.isEmpty
  want q := q
  items d := [d]
  given r := [r.dgram]
  recv_isSome cap q := by cases q <;> rfl
  recv_given {cap q r q'} h := by
    cases q with
    | nil => cases h
    | cons d q =>
      cases h
      rfl
  push_want {a q q'} h := by
    cases h
    rfl
  push_ready {a q q'} h hr := by
    cases h
    simp

/-- What the caller gets: the sender and what fits the buffer, or `none` for an error. -/
def Received.seen (win : Bool) (r : Received) : Option (List UInt8 × List UInt8) :=
  if win ∧ r.cap < r.dgram.data.length then none else some (r.dgram.peer, r.dgram.data.take r.cap)

/-! ## The functions -/

/-- The request of a stream receives nothing, that of a datagram receives it. -/
def streamKind (win : Bool) : Kind := if win then .win false else .unix

def datagramKind (win : Bool) : Kind := if win then .win true else .unix

def ffsockRecvAsync (win : Bool) : Sys Stream StreamResult → Nat → Bool →
    Ret StreamResult × Sys Stream StreamResult :=
  recvAsync streamSource (streamKind win)

def ffsockRecvfromAsync (win : Bool) : Sys (List Datagram) Received → Nat → Bool →
    Ret Received × Sys (List Datagram) Received :=
  recvAsync datagramSource (datagramKind win)

/-- The same for a connected socket: the sender is not given. -/
def ffsockRecvUdpAsync (win : Bool) (s : Sys (List Datagram) Received) (cap : Nat) (ok : Bool) :
    Ret Received × Sys (List Datagram) Received :=
  ffsockRecvfromAsync win s cap ok

/-! ## Streams in every run -/

/-- The bytes that have arrived. -/
def arrivedBytes (as : List (Act StreamArrival)) : List UInt8 :=
  as.flatMap (Act.items streamSource)

/-- The bytes that the caller has got. -/
def gotBytes (os : List (Ev StreamResult)) : List UInt8 := (results os).flatMap StreamResult.given

/-- Nothing follows the end of a stream. -/
def Ended (q : Stream) : Prop := q.input = [] ∧ q.fin = true

section Stream

variable {win : Bool} {s s' : Sys Stream StreamResult} {a : Act StreamArrival} {ev : Ev StreamResult}

/-- A request of a stream holds no bytes. -/
theorem stream_left (I : Inv streamSource (streamKind win) s) : s.left streamSource = s.q.input := by
  have hheld : s.op.held streamSource = [] := by
    cases win with
    | false =>
      have hop : s.op = .idle := InvUnix.op I
      rw [hop]
      rfl
    | true =>
      cases hop : s.op with
      | done r =>
        have hr := (InvWin.done I r hop).1
        cases r with
        | some r => cases hr
        | none => rfl
      | idle | pending room | failed => rfl
  rw [Sys.left, hheld]
  rfl

theorem push_ended {q q' : Stream} {a : StreamArrival} (hq : Ended q) (h : q.push a = some q') :
    Ended q' := by
  cases a with
  | bytes bs =>
    rw [Stream.push, if_pos (Or.inl hq.2)] at h
    cases h
  | fin =>
    rw [Stream.push, if_pos (Or.inl hq.2)] at h
    cases h
  | reset =>
    rw [Stream.push] at h
    split at h
    · cases h
    · cases h
      exact hq

theorem recv_ended {q q' : Stream} {cap : Nat} {r : StreamResult} (h : q.recv cap = some (r, q')) :
    (Ended q → q' = q) ∧ (r = .eof → Ended q') := by
  unfold Stream.recv at h
  split at h
  · rename_i hin
    cases h
    exact ⟨fun hq => absurd hq.1 hin, fun he => by cases he⟩
  · rename_i hin
    split at h
    · cases h
      exact ⟨fun _ => rfl, fun he => by cases he⟩
    · split at h
      · rename_i hfin
        cases h
        exact ⟨fun _ => rfl, fun _ => ⟨by simpa using hin, hfin⟩⟩
      · cases h

/-- A call changes the socket only by `recv()`, and only `recv()` reports an end. -/
theorem recvAsync_stream (I : Inv streamSource (streamKind win) s) (cap : Nat) (ok : Bool) :
    ((recvAsync streamSource (streamKind win) s cap ok).2.q = s.q ∧
      ∀ r, (recvAsync streamSource (streamKind win) s cap ok).1 ≠ .result r) ∨
      ∃ r q', s.q.recv cap = some (r, q') ∧
        (recvAsync streamSource (streamKind win) s cap ok).2.q = q' ∧
        (recvAsync streamSource (streamKind win) s cap ok).1 = .result r := by
  have hstart : ∀ s₁ : Sys Stream StreamResult, s₁.q = s.q →
      ((recvOrStart streamSource false s₁ cap ok).2.q = s.q ∧
        ∀ r, (recvOrStart streamSource false s₁ cap ok).1 ≠ .result r) ∨
      ∃ r q', s.q.recv cap = some (r, q') ∧
        (recvOrStart streamSource false s₁ cap ok).2.q = q' ∧
        (recvOrStart streamSource false s₁ cap ok).1 = .result r := by
    intro s₁ hq
    have hrecv : streamSource.recv cap s₁.q = s.q.recv cap := by rw [hq]; rfl
    unfold recvOrStart
    rw [hrecv]
    cases s.q.recv cap with
    | some p => exact Or.inr ⟨p.1, p.2, rfl, rfl, rfl⟩
    | none => cases ok <;> exact Or.inl ⟨hq, fun r h => by cases h⟩
  cases win with
  | false =>
    simp only [streamKind, Bool.false_eq_true, if_false, recvAsync, recvUnix]
    have hrecv : streamSource.recv cap s.q = s.q.recv cap := rfl
    rw [hrecv]
    cases s.q.recv cap with
    | some p => exact Or.inr ⟨p.1, p.2, rfl, rfl, rfl⟩
    | none => exact Or.inl ⟨rfl, fun r h => by cases h⟩
  | true =>
    simp only [streamKind, if_true, recvAsync, recvWin]
    by_cases hact : s.active = true
    · simp only [hact, if_true]
      cases hop : s.op with
      | done r => exact hstart _ rfl
      | idle | pending room | failed => exact Or.inl ⟨rfl, fun r h => by cases h⟩
    · rw [if_neg hact]
      exact hstart s rfl

theorem ended_step (I : Inv streamSource (streamKind win) s)
    (h : step streamSource (streamKind win) s a = some (s', ev)) :
    (Ended s.q → Ended s'.q) ∧ (ev = .ret (.result .eof) → Ended s'.q) := by
  cases a with
  | push a =>
    obtain ⟨q, hq, hs⟩ := Option.map_eq_some_iff.mp h
    cases hs
    exact ⟨fun he => push_ended he hq, fun he => by cases he⟩
  | complete =>
    obtain ⟨s₁, hs₁, hs⟩ := Option.map_eq_some_iff.mp h
    cases hs
    refine ⟨?_, fun he => by cases he⟩
    unfold complete at hs₁
    split at hs₁
    · split at hs₁
      · cases hs₁
        exact id
      · cases hs₁
    · obtain ⟨p, hp, hs₁⟩ := Option.map_eq_some_iff.mp hs₁
      cases hs₁
      intro he
      have hq := (recv_ended hp).1 he
      rw [hq]
      exact he
    · cases hs₁
  | fail =>
    rw [step] at h
    split at h
    · cases h
      exact ⟨id, fun he => by cases he⟩
    · cases h
  | call cap ok =>
    rw [step] at h
    split at h
    · cases h
    · cases h
      rcases recvAsync_stream I cap ok with ⟨hq, hno⟩ | ⟨r, q', hrecv, hq, hr⟩
      · refine ⟨fun he => ?_, fun he => absurd (Ev.ret.inj he) (hno _)⟩
        rw [hq]
        exact he
      · obtain ⟨hkeep, hend⟩ := recv_ended hrecv
        refine ⟨fun he => ?_, fun he => ?_⟩
        · rw [hq, hkeep he]
          exact he
        · rw [hq]
          exact hend (Ret.result.inj (hr.symm.trans (Ev.ret.inj he)))
  | signal =>
    rw [step] at h
    split at h
    · cases h
      exact ⟨id, fun he => by cases he⟩
    · cases h

theorem ended_run : ∀ {as : List (Act StreamArrival)} {s t : Sys Stream StreamResult}
    {os : List (Ev StreamResult)}, Inv streamSource (streamKind win) s →
    exec (step streamSource (streamKind win)) s as = some (t, os) →
    (Ended s.q → Ended t.q) ∧ (.eof ∈ results os → Ended t.q)
  | [], s, t, os, I, h => by
    simp only [exec, Option.some.injEq, Prod.mk.injEq] at h
    obtain ⟨rfl, rfl⟩ := h
    exact ⟨id, fun he => by cases he⟩
  | a :: as, s, t, os, I, h => by
    obtain ⟨s', ev, os', hs, hrun, rfl⟩ := exec_cons h
    obtain ⟨hkeep, hend⟩ := ended_step I hs
    obtain ⟨hkeep', hend'⟩ := ended_run (inv_step I hs) hrun
    refine ⟨fun he => hkeep' (hkeep he), fun he => ?_⟩
    obtain ⟨ev', hev', hr⟩ := List.mem_filterMap.mp he
    rcases List.mem_cons.mp hev' with rfl | hmem
    · refine hkeep' (hend ?_)
      cases ev' with
      | quiet => cases hr
      | ret r =>
        cases r with
        | result r =>
          cases hr
          rfl
        | again | error => cases hr
    · exact hend' (List.mem_filterMap.mpr ⟨ev', hmem, hr⟩)

end Stream

/-- **A stream is received once and in order.**  On UNIX and on Windows, however arrivals, the
    completions of requests, signals and calls with buffers that are not empty interleave: what the
    calls of `ffsock_recv_async()` have given and what is unread are the bytes that have arrived;
    the end is reported only behind all of them; and a caller that waits, while there are bytes, an
    end, a reset or a failed request, has a signal after which a call does not wait again, or the
    request of its task can complete and then it has. -/
theorem ffsock_recv_stream (win : Bool) (as : List (Act StreamArrival))
    (t : Sys Stream StreamResult) (os : List (Ev StreamResult))
    (h : exec (step streamSource (streamKind win)) (Sys.init ⟨[], false, false⟩) as = some (t, os)) :
    gotBytes os ++ t.q.input = arrivedBytes as ∧
      (.eof ∈ results os → gotBytes os = arrivedBytes as ∧ t.q.fin = true) ∧
      (t.waiting = true → t.q.input ≠ [] ∨ t.q.fin = true ∨ t.q.rst = true ∨ t.op = .failed →
        Awake streamSource (streamKind win) t ∨
          ∃ t', step streamSource (streamKind win) t .complete = some (t', .quiet) ∧
            Awake streamSource (streamKind win) t') := by
  have I₀ := inv_init streamSource (streamKind win) (⟨[], false, false⟩ : Stream)
  obtain ⟨I, heq⟩ := conserved_run I₀ h
  have hall : gotBytes os ++ t.q.input = arrivedBytes as := by
    rw [stream_left I, stream_left I₀, flatMap_got] at heq
    exact heq.symm
  refine ⟨hall, fun he => ?_, fun hw hnews => wakes I hw ?_⟩
  · obtain ⟨hin, hfin⟩ := (ended_run I₀ h).2 he
    rw [hin, List.append_nil] at hall
    exact ⟨hall, hfin⟩
  · have hready : t.q.input ≠ [] ∨ t.q.fin = true ∨ t.q.rst = true →
        streamSource.ready t.q = true := by
      intro hn
      have hiff : streamSource.ready t.q = true ↔ (t.q.input ≠ [] ∨ t.q.rst = true) ∨ t.q.fin = true := by
        simp only [streamSource, Stream.ready, Bool.or_eq_true, decide_eq_true_eq]
      exact hiff.mpr (by tauto)
    rcases hnews with hin | hfin | hrst | hfail
    · exact Or.inl (hready (Or.inl hin))
    · exact Or.inl (hready (Or.inr (Or.inl hfin)))
    · exact Or.inl (hready (Or.inr (Or.inr hrst)))
    · exact Or.inr (Or.inr hfail)

/-- Three bytes arrive while the caller waits; the peer ends the stream between two calls. -/
theorem ffsock_recv_stream_end : ∃ t os, exec (step streamSource (streamKind true))
      (Sys.init ⟨[], false, false⟩) [.call 2 true, .push (.bytes [1, 2, 3]), .complete, .signal,
        .call 2 true, .push .fin, .call 2 true, .call 2 true] = some (t, os) ∧
    gotBytes os = [1, 2, 3] ∧ .eof ∈ results os ∧ gotBytes os ++ t.q.input =
      arrivedBytes [.call 2 true, .push (.bytes [1, 2, 3]), .complete, .signal, .call 2 true,
        .push .fin, .call 2 true, .call 2 true] :=
  ⟨_, _, rfl, rfl, by decide, (ffsock_recv_stream true
    [.call 2 true, .push (.bytes [1, 2, 3]), .complete, .signal, .call 2 true, .push .fin,
      .call 2 true, .call 2 true] _ _ rfl).1⟩

/-! ## Datagrams in every run -/

/-- What the caller has got. -/
def gotDatagrams (win : Bool) (os : List (Ev Received)) : List (Option (List UInt8 × List UInt8)) :=
  (results os).map (Received.seen win)

/-- A datagram and its sender as they were sent. -/
def Datagram.whole (d : Datagram) : Option (List UInt8 × List UInt8) := some (d.peer, d.data)

/-- The datagram that the request has received. -/
def Sys.heldDatagrams (s : Sys (List Datagram) Received) : List Datagram :=
  s.op.held datagramSource

section Datagram

variable {win : Bool} {C : Nat → Prop} {s s' : Sys (List Datagram) Received} {a : Act Datagram}
  {ev : Ev Received}

/-- The buffers of a request are those of the calls. -/
structure Caps (C : Nat → Prop) (s : Sys (List Datagram) Received) : Prop where
  room : ∀ cap, s.op = .pending (some cap) → C cap
  done : ∀ r, s.op = .done (some r) → C r.cap

theorem caps_idle (hop : s.op = .idle) : Caps C s :=
  ⟨fun cap h => (by rw [hop] at h; cases h), fun r h => by rw [hop] at h; cases h⟩

theorem recvDatagram_cap {cap : Nat} {q q' : List Datagram} {r : Received}
    (h : recvDatagram cap q = some (r, q')) : r.cap = cap := by
  cases q with
  | nil => cases h
  | cons d q =>
    cases h
    rfl

theorem recvOrStart_caps (takes : Bool) (hc : Caps C s) {cap : Nat} (hcap : C cap) (ok : Bool) :
    Caps C (recvOrStart datagramSource takes s cap ok).2 ∧
      ∀ r, (recvOrStart datagramSource takes s cap ok).1 = .result r → C r.cap := by
  unfold recvOrStart
  have hrecv : datagramSource.recv cap s.q = recvDatagram cap s.q := rfl
  rw [hrecv]
  cases hq : recvDatagram cap s.q with
  | some p =>
    refine ⟨⟨hc.room, hc.done⟩, fun r h => ?_⟩
    cases h
    rw [recvDatagram_cap hq]
    exact hcap
  | none =>
    cases ok with
    | true =>
      refine ⟨⟨fun cap' h => ?_, fun r h => by cases h⟩, fun r h => by cases h⟩
      cases takes with
      | true =>
        cases h
        exact hcap
      | false => cases h
    | false => exact ⟨hc, fun r h => by cases h⟩

theorem recvAsync_caps (hc : Caps C s) {cap : Nat} (hcap : C cap) (ok : Bool) (k : Kind) :
    Caps C (recvAsync datagramSource k s cap ok).2 ∧
      ∀ r, (recvAsync datagramSource k s cap ok).1 = .result r → C r.cap := by
  cases k with
  | unix =>
    unfold recvAsync recvUnix
    have hrecv : datagramSource.recv cap s.q = recvDatagram cap s.q := rfl
    rw [hrecv]
    cases hq : recvDatagram cap s.q with
    | some p =>
      refine ⟨⟨hc.room, hc.done⟩, fun r h => ?_⟩
      cases h
      rw [recvDatagram_cap hq]
      exact hcap
    | none => exact ⟨⟨hc.room, hc.done⟩, fun r h => by cases h⟩
  | win takes =>
    simp only [recvAsync, recvWin]
    by_cases hact : s.active = true
    · simp only [hact, if_true]
      cases hop : s.op with
      | idle | pending room => exact ⟨hc, fun r h => by cases h⟩
      | failed => exact ⟨caps_idle rfl, fun r h => by cases h⟩
      | done r =>
        cases takes with
        | true =>
          cases r with
          | none => exact ⟨caps_idle rfl, fun r h => by cases h⟩
          | some r =>
            refine ⟨caps_idle rfl, fun r' h => ?_⟩
            cases h
            exact hc.done r hop
        | false => exact recvOrStart_caps false (caps_idle rfl) hcap ok
    · rw [if_neg hact]
      exact recvOrStart_caps takes hc hcap ok

theorem caps_step {k : Kind} (hc : Caps C s) (ha : ∀ cap ok, a = .call cap ok → C cap)
    (h : step datagramSource k s a = some (s', ev)) :
    Caps C s' ∧ ∀ r, ev = .ret (.result r) → C r.cap := by
  cases a with
  | push a =>
    simp only [step, datagramSource, Option.map_some, Option.some.injEq, Prod.mk.injEq] at h
    obtain ⟨rfl, rfl⟩ := h
    exact ⟨⟨hc.room, hc.done⟩, fun r h => by cases h⟩
  | complete =>
    obtain ⟨s₁, hs₁, hs⟩ := Option.map_eq_some_iff.mp h
    cases hs
    refine ⟨?_, fun r h => by cases h⟩
    unfold complete at hs₁
    split at hs₁
    · split at hs₁
      · cases hs₁
        exact ⟨fun cap h => (by cases h), fun r h => by cases h⟩
      · cases hs₁
    · rename_i cap hop
      obtain ⟨p, hp, hs₁⟩ := Option.map_eq_some_iff.mp hs₁
      cases hs₁
      refine ⟨fun cap h => (by cases h), fun r h => ?_⟩
      cases h
      rw [recvDatagram_cap hp]
      exact hc.room cap hop
    · cases hs₁
  | fail =>
    rw [step] at h
    split at h
    · cases h
      exact ⟨⟨fun cap h => (by cases h), fun r h => by cases h⟩, fun r h => by cases h⟩
    · cases h
  | call cap ok =>
    rw [step] at h
    split at h
    · cases h
    · cases h
      obtain ⟨hc', hr⟩ := recvAsync_caps hc (ha cap ok rfl) ok k
      exact ⟨⟨hc'.room, hc'.done⟩, fun r he => hr r (Ev.ret.inj he)⟩
  | signal =>
    rw [step] at h
    split at h
    · cases h
      exact ⟨⟨hc.room, hc.done⟩, fun r h => by cases h⟩
    · cases h

/-- Every datagram is received into the buffer of a call. -/
theorem caps_run {as : List (Act Datagram)} {t : Sys (List Datagram) Received}
    {os : List (Ev Received)}
    (h : exec (step datagramSource (datagramKind win)) (Sys.init []) as = some (t, os)) :
    ∀ r ∈ results os, ∃ ok, .call r.cap ok ∈ as := by
  have hrun := exec_output (A := fun a => a ∈ as) (B := fun _ => True)
    (Q := fun ev => ∀ r, ev = .ret (.result r) → ∃ ok, .call r.cap ok ∈ as)
    (I := Caps fun cap => ∃ ok, .call cap ok ∈ as)
    (fun s a s' ev hc ha _ hs => caps_step hc (fun cap ok he => ⟨ok, he ▸ ha⟩) hs)
    as (Sys.init []) t os (caps_idle rfl) (fun a ha => ha) (by simp) h
  intro r hr
  obtain ⟨ev, hev, he⟩ := List.mem_filterMap.mp hr
  cases ev with
  | quiet => cases he
  | ret ret =>
    cases ret with
    | result r' =>
      cases he
      exact hrun.2 _ hev r rfl
    | again | error => cases he

end Datagram

/-- **Datagrams are received once and in order.**  On UNIX and on Windows, in every interleaving:
    the datagrams received by the calls of `ffsock_recvfrom_async()`, then the one that the request
    has received into the buffer, then those in the socket are those that have arrived, in order;
    each was received into a buffer of the size that some call offered; if all fit these buffers,
    then the caller gets all of them whole and with their senders; and a caller that waits, while
    there is a datagram or a failed request, is woken. -/
theorem ffsock_recvfrom_datagrams (win : Bool) (as : List (Act Datagram))
    (t : Sys (List Datagram) Received) (os : List (Ev Received))
    (h : exec (step datagramSource (datagramKind win)) (Sys.init []) as = some (t, os)) :
    (results os).map Received.dgram ++ t.heldDatagrams ++ t.q =
        as.flatMap (Act.items datagramSource) ∧
      (∀ r ∈ results os, ∃ ok, .call r.cap ok ∈ as) ∧
      ((∀ d cap ok, .push d ∈ as → .call cap ok ∈ as → d.data.length ≤ cap) →
        gotDatagrams win os ++ (t.heldDatagrams ++ t.q).map Datagram.whole =
          (as.flatMap (Act.items datagramSource)).map Datagram.whole) ∧
      (t.waiting = true → t.q ≠ [] ∨ t.heldDatagrams ≠ [] ∨ t.op = .failed →
        Awake datagramSource (datagramKind win) t ∨
          ∃ t', step datagramSource (datagramKind win) t .complete = some (t', .quiet) ∧
            Awake datagramSource (datagramKind win) t') := by
  have I₀ := inv_init datagramSource (datagramKind win) ([] : List Datagram)
  obtain ⟨I, heq⟩ := conserved_run I₀ h
  have hgiven : (results os).flatMap datagramSource.given = (results os).map Received.dgram :=
    List.flatMap_pure_eq_map _ _
  have hleft : t.left datagramSource = t.heldDatagrams ++ t.q := rfl
  have hall : (results os).map Received.dgram ++ t.heldDatagrams ++ t.q =
      as.flatMap (Act.items datagramSource) := by
    rw [flatMap_got, hgiven, hleft] at heq
    rw [List.append_assoc]
    exact heq.symm
  have hcaps := caps_run h
  refine ⟨hall, hcaps, fun hfit => ?_, fun hw hnews => wakes I hw ?_⟩
  · have hwhole : gotDatagrams win os = ((results os).map Received.dgram).map Datagram.whole := by
      rw [gotDatagrams, List.map_map]
      refine List.map_congr_left fun r hr => ?_
      obtain ⟨ok, hcall⟩ := hcaps r hr
      have hmem : r.dgram ∈ as.flatMap (Act.items datagramSource) := by
        rw [← hall]
        exact List.mem_append_left _ (List.mem_append_left _ (List.mem_map_of_mem hr))
      obtain ⟨a, ha, hitem⟩ := List.mem_flatMap.mp hmem
      cases a with
      | push d =>
        have hd : r.dgram = d := List.mem_singleton.mp hitem
        have hle := hfit d r.cap ok ha hcall
        rw [← hd] at hle
        rw [Received.seen, if_neg (by omega), List.take_of_length_le hle]
        rfl
      | complete | fail | call cap ok | signal => cases hitem
    rw [hwhole, ← List.map_append, ← List.append_assoc, hall]
  · rcases hnews with hq | hheld | hfail
    · refine Or.inl ?_
      cases hq' : t.q with
      | nil => exact absurd hq' hq
      | cons d q => rfl
    · refine Or.inr (Or.inl ?_)
      cases hop : t.op with
      | done r => exact ⟨r, rfl⟩
      | idle | pending room | failed =>
        exact absurd (by rw [Sys.heldDatagrams, hop]; rfl) hheld
    · exact Or.inr (Or.inr hfail)

/-- The second datagram is longer than the buffer of the request. -/
theorem ffsock_recvfrom_datagrams_long : ∃ t os, exec (step datagramSource (datagramKind true))
      (Sys.init []) [.call 2 true, .push ⟨[7], [1]⟩, .complete, .push ⟨[8], [1, 2, 3]⟩, .signal,
        .call 2 true, .call 2 true] = some (t, os) ∧
    gotDatagrams true os = [some ([7], [1]), none] ∧
    (results os).map Received.dgram ++ t.heldDatagrams ++ t.q = [⟨[7], [1]⟩, ⟨[8], [1, 2, 3]⟩] :=
  ⟨_, _, rfl, rfl, (ffsock_recvfrom_datagrams true
    [.call 2 true, .push ⟨[7], [1]⟩, .complete, .push ⟨[8], [1, 2, 3]⟩, .signal, .call 2 true,
      .call 2 true] _ _ rfl).1⟩

end FFSys.Socket.Recv
