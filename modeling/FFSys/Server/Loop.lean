import Mathlib.Data.List.Basic
import Mathlib.Logic.Function.Basic
import FFSys.Lib.Run

/-!
# The single-threaded TCP servers over an edge-triggered kqueue

`examples/tcp-msg-router.c` and `examples/tcp-echo-server.c` are one program up to three points:
the router keeps its connections in the vector `srv->conns`, sends what it receives to all of them
and only warns when a client does not accept more data; the echo server sends to the client the
data came from and dies instead.  `Prog` holds these points; `mrt` and `ecs` are the two programs.

A step is one system call of the server together with the code up to the next one, or something
that a client does.  Clients act between any two system calls.

* `Tcp`, `Srv`, `Pc` — what the kernel knows of a connection, the server with the kernel around
  it, the next system call.
* `step` — the transition function; `SStep`, `step_cases` — what a step can do.
* `Ev.fault` — the server uses an `mrt_conn` that has been freed, or a closed descriptor.
-/

set_option autoImplicit false

namespace FFSys.Server

open FFSys.Lib

/-- A connection, as the kernel keeps it. -/
structure Tcp where
  /-- received from the client and not yet read -/
  input : List UInt8
  /-- the client sends no more -/
  eof : Bool
  /-- free bytes of the send buffer -/
  room : Nat
  /-- the `data` of `ffkq_attach_socket`; closing the socket removes it -/
  data : Option Nat
  /-- there is an event that `ffkq_wait` has not returned yet -/
  edge : Bool

/-- Something has happened: with `EPOLLET` it is reported once. -/
def Tcp.wake (t : Tcp) : Tcp := { t with edge := t.edge || t.data.isSome }

/-- `EPOLL_CTL_ADD` reports what is there already. -/
def Tcp.attach (t : Tcp) (p : Nat) : Tcp :=
  { t with data := some p, edge := !t.input.isEmpty || t.eof || t.room != 0 }

/-- The next system call of the server. -/
inductive Pc
  /-- `mrt_run`: `ffkq_wait` -/
  | wait
  /-- `mrt_srv_accept1`: `ffsock_accept` -/
  | accept
  /-- `mrt_srv_accept1`: `ffkq_attach_socket` for the connection at this address -/
  | attach (c : Nat)
  /-- `mrt_conn_recv`: `ffsock_recv` -/
  | recv (c : Nat)
  /-- `mrt_srv_send`, called from `mrt_conn_recv(c)`: `ffsock_send` for each of `its` -/
  | send (c : Nat) (data : List UInt8) (its : List Nat)
  /-- after `DIE` -/
  | dead
deriving DecidableEq

/-- What the two programs differ in. -/
structure Prog where
  /-- the program has the vector `srv->conns` -/
  vector : Bool
  /-- the connections that a chunk received on the second argument is sent to -/
  targets : List Nat → Nat → List Nat
  /-- `EAGAIN` of `ffsock_send` is fatal -/
  againDies : Bool

/-- tcp-msg-router.c -/
def mrt : Prog := ⟨true, fun conns _ => conns, false⟩

/-- tcp-echo-server.c -/
def ecs : Prog := ⟨false, fun _ c => [c], true⟩

/-- The server and the kernel around it.  Connections have numbers that are never used again, in
    the order in which the clients connect; descriptors and addresses are used again. -/
structure Srv where
  tcp : Nat → Tcp
  next : Nat
  /-- connections that `ffsock_accept` has not returned yet -/
  backlog : List Nat
  /-- the listening socket has an event that `ffkq_wait` has not returned yet -/
  listenEdge : Bool
  /-- open descriptors -/
  fd : Nat → Option Nat
  /-- the live `struct mrt_conn` objects: address and `sk` -/
  heap : Nat → Option Nat
  /-- `srv->conns` -/
  conns : List Nat
  pc : Pc

/-- The server after `mrt_srv_listen`. -/
def Srv.init : Srv :=
  { tcp := fun _ => ⟨[], false, 0, none, false⟩, next := 0, backlog := [], listenEdge := false,
    fd := fun _ => none, heap := fun _ => none, conns := [], pc := .wait }

/-- The choices of the clients, of the kernel and of the allocator. -/
inductive Act
  | connect (room : Nat)
  | arrive (k : Nat) (bs : List UInt8)
  | fin (k : Nat)
  | drain (k : Nat) (n : Nat)
  /-- `ffkq_wait` returns the event of the listening socket -/
  | waitListen
  /-- `ffkq_wait` returns an event of connection `k` -/
  | waitConn (k : Nat)
  /-- `ffsock_accept` gives descriptor `sk`, `ffmem_new` the address `c` -/
  | accept (sk c : Nat)
  | attach
  /-- `ffsock_recv` returns `n` bytes, if there are any -/
  | recv (n : Nat)
  /-- `ffsock_send` takes `n` bytes, if there is room -/
  | send (n : Nat)
  /-- the system call fails with another error than `EAGAIN` -/
  | fail
deriving DecidableEq

/-- What can be seen of a step. -/
inductive Ev
  | quiet
  | accepted (k : Nat)
  | received (k : Nat) (data : List UInt8)
  /-- `n` bytes of `data` have been accepted for client `k`; 0 after `EAGAIN` -/
  | sent (k : Nat) (data : List UInt8) (n : Nat)
  | closed (k : Nat)
  | died
  | fault
deriving DecidableEq

/-- The connection of the object at address `c`. -/
def Srv.conn (s : Srv) (c : Nat) : Option Nat := (s.heap c).bind s.fd

def Srv.setTcp (s : Srv) (k : Nat) (t : Tcp) : Srv := { s with tcp := Function.update s.tcp k t }

/-- `ffslice_rmswapT(v, i, 1)`: the last element takes the place of the removed one. -/
def rmswap (v : List Nat) (i : Nat) : List Nat :=
  match v.getLast? with
  | none => v
  | some e => (v.set i e).dropLast

/-- `mrt_srv_unlink_conn`. -/
def unlinkConn (conns : List Nat) (c : Nat) : List Nat :=
  if c ∈ conns then rmswap conns (conns.idxOf c) else conns

/-- `mrt_conn_free` for the object at `c` with descriptor `sk` of connection `k`. -/
def Srv.connFree (s : Srv) (c sk k : Nat) : Srv :=
  { s with
    conns := unlinkConn s.conns c
    fd := Function.update s.fd sk none
    heap := Function.update s.heap c none
    tcp := Function.update s.tcp k { s.tcp k with data := none, edge := false } }

/-- The loop of `mrt_srv_send`, then back to the loop of `mrt_conn_recv`. -/
def sendNext (c : Nat) (data : List UInt8) : List Nat → Pc
  | [] => .recv c
  | its => .send c data its

/-- `ffsock_accept` returns a connection. -/
def accepted (P : Prog) (s : Srv) (sk c k : Nat) (rest : List Nat) : Srv :=
  { s with
    backlog := rest
    fd := Function.update s.fd sk (some k)
    heap := Function.update s.heap c (some sk)
    conns := if P.vector then s.conns ++ [c] else s.conns
    pc := .attach c }

/-- The system call at `mrt_conn_recv`. -/
def recvStep (P : Prog) (s : Srv) (c n : Nat) : Option (Srv × Ev) :=
  match s.heap c with
  | none => some ({ s with pc := .dead }, .fault)
  | some sk =>
    match s.fd sk with
    | none => some ({ s with pc := .dead }, .fault)
    | some k =>
      if (s.tcp k).input = [] then
        if (s.tcp k).eof then
          some ({ s.connFree c sk k with pc := .wait }, .closed k)
        else
          some ({ s with pc := .wait }, .quiet)
      else if 0 < n ∧ n ≤ 1024 ∧ n ≤ (s.tcp k).input.length then
        some ({ s.setTcp k { s.tcp k with input := (s.tcp k).input.drop n } with
            pc := sendNext c ((s.tcp k).input.take n) (P.targets s.conns c) },
          .received k ((s.tcp k).input.take n))
      else none

/-- The system call at `mrt_conn_send`. -/
def sendStep (P : Prog) (s : Srv) (c : Nat) (data : List UInt8) (it : Nat) (its : List Nat)
    (n : Nat) : Option (Srv × Ev) :=
  match s.conn it with
  | none => some ({ s with pc := .dead }, .fault)
  | some k =>
    if (s.tcp k).room = 0 then
      if P.againDies then some ({ s with pc := .dead }, .died)
      else some ({ s with pc := sendNext c data its }, .sent k data 0)
    else if 0 < n ∧ n ≤ (s.tcp k).room ∧ n ≤ data.length then
      some ({ s.setTcp k { s.tcp k with room := (s.tcp k).room - n } with
          pc := sendNext c data its }, .sent k data n)
    else none

/-- One step. -/
def step (P : Prog) (s : Srv) : Act → Option (Srv × Ev)
  | .connect room =>
    some ({ s with
      tcp := Function.update s.tcp s.next ⟨[], false, room, none, false⟩
      next := s.next + 1
      backlog := s.backlog ++ [s.next]
      listenEdge := true }, .quiet)
  | .arrive k bs =>
    if k < s.next ∧ (s.tcp k).eof = false then
      some (s.setTcp k { s.tcp k with input := (s.tcp k).input ++ bs }.wake, .quiet)
    else none
  | .fin k =>
    if k < s.next then some (s.setTcp k { s.tcp k with eof := true }.wake, .quiet) else none
  | .drain k n =>
    if k < s.next then
      some (s.setTcp k { s.tcp k with room := (s.tcp k).room + n }.wake, .quiet)
    else none
  | .waitListen =>
    if s.pc = .wait ∧ s.listenEdge then
      some ({ s with pc := .accept, listenEdge := false }, .quiet)
    else none
  | .waitConn k =>
    if s.pc = .wait ∧ (s.tcp k).edge then
      match (s.tcp k).data with
      | none => none
      | some c =>
        -- `t->handler(t)` reads the object
        match s.heap c with
        | none => some ({ s with pc := .dead }, .fault)
        | some _ => some ({ s.setTcp k { s.tcp k with edge := false } with pc := .recv c }, .quiet)
    else none
  | .accept sk c =>
    if s.pc = .accept then
      match s.backlog with
      | [] => some ({ s with pc := .wait }, .quiet)
      | k :: rest =>
        if s.fd sk = none ∧ s.heap c = none then
          some (accepted P s sk c k rest, .accepted k)
        else none
    else none
  | .attach =>
    match s.pc with
    | .attach c =>
      match s.conn c with
      | none => some ({ s with pc := .dead }, .fault)
      | some k => some ({ s.setTcp k ((s.tcp k).attach c) with pc := .recv c }, .quiet)
    | _ => none
  | .recv n =>
    -- whatever calls `mrt_conn_recv` waits for the next event after it: the `;` after the
    -- condition in `mrt_srv_accept` makes its `break` unconditional
    match s.pc with
    | .recv c => recvStep P s c n
    | _ => none
  | .send n =>
    match s.pc with
    | .send c data (it :: its) => sendStep P s c data it its n
    | _ => none
  | .fail => if s.pc = .dead then none else some ({ s with pc := .dead }, .died)

/-- What a step can do. -/
inductive SStep (P : Prog) (s : Srv) : Act → Srv → Ev → Prop
  | connect (room : Nat) : SStep P s (.connect room)
      { s with
        tcp := Function.update s.tcp s.next ⟨[], false, room, none, false⟩
        next := s.next + 1
        backlog := s.backlog ++ [s.next]
        listenEdge := true } .quiet
  | arrive (k : Nat) (bs : List UInt8) (hk : k < s.next) (he : (s.tcp k).eof = false) :
      SStep P s (.arrive k bs)
        (s.setTcp k { s.tcp k with input := (s.tcp k).input ++ bs }.wake) .quiet
  | fin (k : Nat) (hk : k < s.next) :
      SStep P s (.fin k) (s.setTcp k { s.tcp k with eof := true }.wake) .quiet
  | drain (k n : Nat) (hk : k < s.next) :
      SStep P s (.drain k n)
        (s.setTcp k { s.tcp k with room := (s.tcp k).room + n }.wake) .quiet
  | waitListen (hpc : s.pc = .wait) (he : s.listenEdge = true) :
      SStep P s .waitListen { s with pc := .accept, listenEdge := false } .quiet
  | waitConn (k c sk : Nat) (hpc : s.pc = .wait) (he : (s.tcp k).edge = true)
      (hd : (s.tcp k).data = some c) (hc : s.heap c = some sk) :
      SStep P s (.waitConn k) { s.setTcp k { s.tcp k with edge := false } with pc := .recv c }
        .quiet
  | waitFault (k c : Nat) (hpc : s.pc = .wait) (hd : (s.tcp k).data = some c)
      (hc : s.heap c = none) :
      SStep P s (.waitConn k) { s with pc := .dead } .fault
  | acceptAgain (sk c : Nat) (hpc : s.pc = .accept) (hb : s.backlog = []) :
      SStep P s (.accept sk c) { s with pc := .wait } .quiet
  | accept (sk c k : Nat) (rest : List Nat) (hpc : s.pc = .accept) (hb : s.backlog = k :: rest)
      (hsk : s.fd sk = none) (hc : s.heap c = none) :
      SStep P s (.accept sk c) (accepted P s sk c k rest) (.accepted k)
  | attach (c k : Nat) (hpc : s.pc = .attach c) (hk : s.conn c = some k) :
      SStep P s .attach { s.setTcp k ((s.tcp k).attach c) with pc := .recv c } .quiet
  | attachFault (c : Nat) (hpc : s.pc = .attach c) (hk : s.conn c = none) :
      SStep P s .attach { s with pc := .dead } .fault
  | closed (n c sk k : Nat) (hpc : s.pc = .recv c) (hc : s.heap c = some sk)
      (hk : s.fd sk = some k) (hi : (s.tcp k).input = []) (he : (s.tcp k).eof = true) :
      SStep P s (.recv n) { s.connFree c sk k with pc := .wait } (.closed k)
  | again (n c k : Nat) (hpc : s.pc = .recv c) (hk : s.conn c = some k)
      (hi : (s.tcp k).input = []) (he : (s.tcp k).eof = false) :
      SStep P s (.recv n) { s with pc := .wait } .quiet
  | received (n c k : Nat) (hpc : s.pc = .recv c) (hk : s.conn c = some k)
      (hn : 0 < n) (hmax : n ≤ 1024) (hlen : n ≤ (s.tcp k).input.length) :
      SStep P s (.recv n)
        { s.setTcp k { s.tcp k with input := (s.tcp k).input.drop n } with
          pc := sendNext c ((s.tcp k).input.take n) (P.targets s.conns c) }
        (.received k ((s.tcp k).input.take n))
  | recvFault (n c : Nat) (hpc : s.pc = .recv c) (hk : s.conn c = none) :
      SStep P s (.recv n) { s with pc := .dead } .fault
  | sendAgain (n c it k : Nat) (data : List UInt8) (its : List Nat)
      (hpc : s.pc = .send c data (it :: its)) (hk : s.conn it = some k)
      (hr : (s.tcp k).room = 0) (ha : P.againDies = false) :
      SStep P s (.send n) { s with pc := sendNext c data its } (.sent k data 0)
  | sendDies (n c it k : Nat) (data : List UInt8) (its : List Nat)
      (hpc : s.pc = .send c data (it :: its)) (hk : s.conn it = some k)
      (hr : (s.tcp k).room = 0) (ha : P.againDies = true) :
      SStep P s (.send n) { s with pc := .dead } .died
  | sent (n c it k : Nat) (data : List UInt8) (its : List Nat)
      (hpc : s.pc = .send c data (it :: its)) (hk : s.conn it = some k)
      (hn : 0 < n) (hr : n ≤ (s.tcp k).room) (hlen : n ≤ data.length) :
      SStep P s (.send n)
        { s.setTcp k { s.tcp k with room := (s.tcp k).room - n } with pc := sendNext c data its }
        (.sent k data n)
  | sendFault (n c it : Nat) (data : List UInt8) (its : List Nat)
      (hpc : s.pc = .send c data (it :: its)) (hk : s.conn it = none) :
      SStep P s (.send n) { s with pc := .dead } .fault
  | fail (hpc : s.pc ≠ .dead) : SStep P s .fail { s with pc := .dead } .died

variable {P : Prog} {s s' : Srv} {a : Act} {ev : Ev}

theorem conn_eq_some {s : Srv} {c k : Nat} :
    s.conn c = some k ↔ ∃ sk, s.heap c = some sk ∧ s.fd sk = some k :=
  Option.bind_eq_some_iff

theorem recvStep_cases {c n : Nat} (hpc : s.pc = .recv c)
    (h : recvStep P s c n = some (s', ev)) : SStep P s (.recv n) s' ev := by
  unfold recvStep at h
  split at h
  · rename_i hc
    cases h
    exact .recvFault n c hpc (by simp [Srv.conn, hc])
  · rename_i sk hc
    split at h
    · rename_i hk
      cases h
      exact .recvFault n c hpc (by simp [Srv.conn, hc, hk])
    · rename_i k hk
      have hconn : s.conn c = some k := conn_eq_some.mpr ⟨sk, hc, hk⟩
      split at h
      · rename_i hi
        split at h
        · rename_i he
          cases h
          exact .closed n c sk k hpc hc hk hi he
        · rename_i he
          cases h
          exact .again n c k hpc hconn hi (by simpa using he)
      · split at h
        · rename_i hn
          cases h
          exact .received n c k hpc hconn hn.1 hn.2.1 hn.2.2
        · cases h

theorem sendStep_cases {c it n : Nat} {data : List UInt8} {its : List Nat}
    (hpc : s.pc = .send c data (it :: its))
    (h : sendStep P s c data it its n = some (s', ev)) : SStep P s (.send n) s' ev := by
  unfold sendStep at h
  split at h
  · rename_i hk
    cases h
    exact .sendFault n c it data its hpc hk
  · rename_i k hk
    split at h
    · rename_i hr
      split at h
      · rename_i ha
        cases h
        exact .sendDies n c it k data its hpc hk hr ha
      · rename_i ha
        cases h
        exact .sendAgain n c it k data its hpc hk hr (by simpa using ha)
    · split at h
      · rename_i hn
        cases h
        exact .sent n c it k data its hpc hk hn.1 hn.2.1 hn.2.2
      · cases h

theorem step_cases (h : step P s a = some (s', ev)) : SStep P s a s' ev := by
  cases a with
  | connect room =>
    cases h
    exact .connect room
  | arrive k bs =>
    simp only [step] at h
    split at h
    · rename_i hk
      cases h
      exact .arrive k bs hk.1 hk.2
    · cases h
  | fin k =>
    simp only [step] at h
    split at h
    · rename_i hk
      cases h
      exact .fin k hk
    · cases h
  | drain k n =>
    simp only [step] at h
    split at h
    · rename_i hk
      cases h
      exact .drain k n hk
    · cases h
  | waitListen =>
    simp only [step] at h
    split at h
    · rename_i hw
      cases h
      exact .waitListen hw.1 hw.2
    · cases h
  | waitConn k =>
    simp only [step] at h
    split at h
    · rename_i hw
      split at h
      · cases h
      · rename_i c hd
        split at h
        · rename_i hc
          cases h
          exact .waitFault k c hw.1 hd hc
        · rename_i sk hc
          cases h
          exact .waitConn k c sk hw.1 hw.2 hd hc
    · cases h
  | accept sk c =>
    simp only [step] at h
    split at h
    · rename_i hpc
      split at h
      · rename_i hb
        cases h
        exact .acceptAgain sk c hpc hb
      · rename_i k rest hb
        split at h
        · rename_i hfree
          cases h
          exact .accept sk c k rest hpc hb hfree.1 hfree.2
        · cases h
    · cases h
  | attach =>
    simp only [step] at h
    split at h
    · rename_i c hpc
      split at h
      · rename_i hk
        cases h
        exact .attachFault c hpc hk
      · rename_i k hk
        cases h
        exact .attach c k hpc hk
    · cases h
  | recv n =>
    simp only [step] at h
    split at h
    · rename_i c hpc
      exact recvStep_cases hpc h
    · cases h
  | send n =>
    simp only [step] at h
    split at h
    · rename_i c data it its hpc
      exact sendStep_cases hpc h
    · cases h
  | fail =>
    simp only [step] at h
    split at h
    · cases h
    · rename_i hpc
      cases h
      exact .fail hpc

end FFSys.Server
