import FFSys.Server.Deliver

/-!
# Events that are reported once

The descriptors are attached with `EPOLLET`: `ffkq_wait` reports what has happened since it was
asked last, not what there is to read.

* `EdgeInv` — a connection with unread bytes or an unread end of stream has an event in the queue,
  or is the one that the server is reading; `EdgeInv.step` keeps it.
* `conn_edge_not_lost` — connections: at `ffkq_wait` whatever there is to read is reported.
* `accept_starves` — the listening socket: each event accepts one connection at most, and what is
  left in the backlog after it stays there until another client connects.
-/

set_option autoImplicit false

namespace FFSys.Server

open FFSys.Lib

/-- The connection at `c` is not attached yet, or never will be. -/
def Pc.Attaching (c : Nat) : Pc → Prop
  | .attach d => d = c
  | .dead => True
  | _ => False

/-- The connection at `c` is the one that is being read, or nothing is. -/
def Pc.Reading (c : Nat) : Pc → Prop
  | .attach d | .recv d | .send d _ _ => d = c
  | .dead => True
  | _ => False

theorem reading_sendNext {c d : Nat} {data : List UInt8} {its : List Nat} :
    (sendNext c data its).Reading d ↔ c = d := by
  cases its <;> rfl

theorem Pc.Attaching.reading {c : Nat} : ∀ {pc : Pc}, pc.Attaching c → pc.Reading c
  | .attach _, h => h
  | .dead, h => h

/-- There is something to read. -/
def Tcp.Readable (t : Tcp) : Prop := t.input ≠ [] ∨ t.eof = true

structure EdgeInv (s : Srv) : Prop where
  attached : ∀ {c k}, s.conn c = some k → (s.tcp k).data = some c ∨ s.pc.Attaching c
  edge : ∀ {c k}, s.conn c = some k → (s.tcp k).Readable →
    (s.tcp k).edge = true ∨ s.pc.Reading c

theorem edgeInv_init : EdgeInv Srv.init where
  attached h := by cases h
  edge h := by cases h

section Step

variable {P : Prog} {s s' : Srv} {a : Act} {ev : Ev}

/-- Steps that change what the kernel knows of one connection, and the program counter. -/
theorem EdgeInv.setTcp (E : EdgeInv s) {k : Nat} {t : Tcp} {pc : Pc}
    (hatt : ∀ c j, s.conn c = some j → j ≠ k → s.pc.Attaching c → pc.Attaching c)
    (hread : ∀ c j, s.conn c = some j → j ≠ k → s.pc.Reading c → pc.Reading c)
    (hdata : ∀ c, s.conn c = some k → t.data = some c ∨ pc.Attaching c)
    (hedge : ∀ c, s.conn c = some k → t.Readable → t.edge = true ∨ pc.Reading c) :
    EdgeInv { s.setTcp k t with pc := pc } := by
  constructor
  · intro c j hc
    by_cases hj : j = k
    · subst hj
      simp only [Srv.setTcp, Function.update_self]
      exact hdata c hc
    · simp only [Srv.setTcp, Function.update_of_ne hj]
      exact (E.attached hc).imp_right (hatt c j hc hj)
  · intro c j hc hr
    by_cases hj : j = k
    · subst hj
      simp only [Srv.setTcp, Function.update_self] at hr ⊢
      exact hedge c hc hr
    · simp only [Srv.setTcp, Function.update_of_ne hj] at hr ⊢
      exact (E.edge hc hr).imp_right (hread c j hc hj)

/-- What a client does is reported, unless the server is about to look. -/
theorem EdgeInv.client (E : EdgeInv s) {k : Nat} {t : Tcp} (hd : t.data = (s.tcp k).data) :
    EdgeInv (s.setTcp k t.wake) := by
  suffices h : EdgeInv { s.setTcp k t.wake with pc := s.pc } from h
  refine E.setTcp (fun _ _ _ _ h => h) (fun _ _ _ _ h => h) ?_ ?_
  · intro c hc
    rw [wake_data, hd]
    exact E.attached hc
  · intro c hc _
    rcases E.attached hc with h | h
    · left
      simp [Tcp.wake, hd, h]
    · exact Or.inr h.reading

/-- Steps that change the program counter: whoever was being read still is, or has been read to
    the end. -/
theorem EdgeInv.setPc (E : EdgeInv s) {pc : Pc}
    (hatt : ∀ c, s.pc.Attaching c → pc.Attaching c)
    (hread : ∀ c k, s.conn c = some k → (s.tcp k).Readable → s.pc.Reading c → pc.Reading c) :
    EdgeInv { s with pc := pc } :=
  ⟨fun hc => (E.attached hc).imp_right (hatt _),
    fun hc hr => (E.edge hc hr).imp_right (hread _ _ hc hr)⟩

theorem EdgeInv.accepted (E : EdgeInv s) (I : Inv P s) (hpc : s.pc = .accept) {sk c k : Nat}
    {rest : List Nat} (hsk : s.fd sk = none) (hc : s.heap c = none) :
    EdgeInv (accepted P s sk c k rest) := by
  constructor
  · intro d j hd
    rcases (I.conn_accepted hsk hc).mp hd with ⟨rfl, _⟩ | hd
    · exact Or.inr rfl
    · refine (E.attached hd).imp_right fun h => ?_
      rw [hpc] at h
      exact h.elim
  · intro d j hd hr
    rcases (I.conn_accepted hsk hc).mp hd with ⟨rfl, _⟩ | hd
    · exact Or.inr rfl
    · refine (E.edge hd hr).imp_right fun h => ?_
      rw [hpc] at h
      exact h.elim

theorem EdgeInv.connFree (E : EdgeInv s) (I : Inv P s) {c sk k : Nat} (hpc : s.pc = .recv c)
    (hc : s.heap c = some sk) (hk : s.fd sk = some k) :
    EdgeInv { s.connFree c sk k with pc := .wait } := by
  have hconn : s.conn c = some k := conn_eq_some.mpr ⟨sk, hc, hk⟩
  have htcp {d j} (hdc : d ≠ c) (hd : s.conn d = some j) : (s.connFree c sk k).tcp j = s.tcp j := by
    refine Function.update_of_ne ?_ _ _
    rintro rfl
    exact hdc (I.connInj hd hconn)
  constructor
  · intro d j hd
    obtain ⟨hdc, hd⟩ := (I.conn_connFree (k := k) hc).mp hd
    change ((s.connFree c sk k).tcp j).data = _ ∨ _
    rw [htcp hdc hd]
    refine (E.attached hd).imp_right fun h => ?_
    rw [hpc] at h
    exact h.elim
  · intro d j hd hr
    obtain ⟨hdc, hd⟩ := (I.conn_connFree (k := k) hc).mp hd
    change ((s.connFree c sk k).tcp j).Readable at hr
    change ((s.connFree c sk k).tcp j).edge = true ∨ _
    rw [htcp hdc hd] at hr ⊢
    refine (E.edge hd hr).imp_right fun h => ?_
    rw [hpc] at h
    exact absurd h.symm hdc

/-- The invariant over one step. -/
theorem EdgeInv.step (E : EdgeInv s) (I : Inv P s) (hs : SStep P s a s' ev) : EdgeInv s' := by
  have hdead : EdgeInv { s with pc := .dead } :=
    E.setPc (fun _ _ => trivial) (fun _ _ _ _ _ => trivial)
  -- the server stays in the walk over the chunk that it has read from `c`
  have hsend {c data it its} (hpc : s.pc = .send c data (it :: its)) (d : Nat)
      (h : s.pc.Reading d) : (sendNext c data its).Reading d := by
    rw [hpc] at h
    exact reading_sendNext.mpr h
  cases hs with
  | connect room =>
    constructor
    · intro c k hc
      have hk : k ≠ s.next := by
        obtain ⟨sk, _, hk⟩ := conn_eq_some.mp hc
        exact Nat.ne_of_lt (I.bound hk)
      simp only [Function.update_of_ne hk]
      exact E.attached hc
    · intro c k hc hr
      have hk : k ≠ s.next := by
        obtain ⟨sk, _, hk⟩ := conn_eq_some.mp hc
        exact Nat.ne_of_lt (I.bound hk)
      simp only [Function.update_of_ne hk] at hr ⊢
      exact E.edge hc hr
  | arrive k bs hk he | fin k hk | drain k n hk => exact E.client rfl
  | waitListen hpc he =>
    refine ⟨fun hc => (E.attached hc).imp_right ?_, fun hc hr => (E.edge hc hr).imp_right ?_⟩
    · intro h
      rw [hpc] at h
      exact h.elim
    · intro h
      rw [hpc] at h
      exact h.elim
  | waitConn k c sk hpc he hd hc =>
    have hreg : s.conn c = some k := I.data hd
    refine E.setTcp ?_ ?_ ?_ ?_
    · intro d j _ _ h
      rw [hpc] at h
      exact h.elim
    · intro d j _ _ h
      rw [hpc] at h
      exact h.elim
    · intro d hdk
      cases I.connInj hdk hreg
      exact Or.inl hd
    · intro d hdk _
      exact Or.inr (I.connInj hreg hdk)
  | acceptAgain sk c hpc hb =>
    refine E.setPc ?_ ?_
    · intro d h
      rw [hpc] at h
      exact h.elim
    · intro d k _ _ h
      rw [hpc] at h
      exact h.elim
  | accept sk c k rest hpc hb hsk hc => exact E.accepted I hpc hsk hc
  | attach c k hpc hk =>
    refine E.setTcp ?_ ?_ ?_ ?_
    · intro d j hd hj h
      rw [hpc] at h
      cases h
      rw [hk] at hd
      cases hd
      exact absurd rfl hj
    · intro d j _ _ h
      rw [hpc] at h
      exact h
    · intro d hd
      cases I.connInj hd hk
      exact Or.inl rfl
    · intro d hd _
      exact Or.inr (I.connInj hk hd)
  | waitFault k c hpc hd hc | attachFault c hpc hk | recvFault n c hpc hk
  | sendDies n c it k data its hpc hk hr ha | sendFault n c it data its hpc hk | fail hpc =>
    exact hdead
  | closed n c sk k hpc hc hk hi he => exact E.connFree I hpc hc hk
  | again n c k hpc hk hi he =>
    refine E.setPc ?_ ?_
    · intro d h
      rw [hpc] at h
      exact h.elim
    · intro d j hd hr h
      -- the only connection being read has nothing left
      rw [hpc] at h
      cases h
      rw [hk] at hd
      cases hd
      rcases hr with hr | hr
      · exact absurd hi hr
      · rw [he] at hr
        cases hr
  | received n c k hpc hk hn hmax hlen =>
    refine E.setTcp ?_ ?_ ?_ ?_
    · intro d j _ _ h
      rw [hpc] at h
      exact h.elim
    · intro d j _ _ h
      rw [hpc] at h
      exact reading_sendNext.mpr h
    · intro d hd
      refine Or.inl ((E.attached hd).resolve_right ?_)
      rw [hpc]
      exact id
    · intro d hd _
      exact Or.inr (reading_sendNext.mpr (I.connInj hk hd))
  | sendAgain n c it k data its hpc hk hr ha =>
    refine E.setPc ?_ (fun d j _ _ h => hsend hpc d h)
    intro d h
    rw [hpc] at h
    exact h.elim
  | sent n c it k data its hpc hk hn hr hlen =>
    refine E.setTcp ?_ (fun d j _ _ h => hsend hpc d h) ?_ ?_
    · intro d j _ _ h
      rw [hpc] at h
      exact h.elim
    · intro d hd
      refine Or.inl ((E.attached hd).resolve_right ?_)
      rw [hpc]
      exact id
    · intro d hd hr
      exact (E.edge hd hr).imp_right (hsend hpc d)

end Step

theorem run_edge {P : Prog} (hP : P.Local) {as : List Act} {t : Srv} {os : List Ev}
    (h : exec (step P) Srv.init as = some (t, os)) : Inv P t ∧ EdgeInv t :=
  exec_keeps (I := fun s => Inv P s ∧ EdgeInv s)
    (fun _ _ _ _ I hs => ⟨I.1.step hP (step_cases hs), I.2.step I.1 (step_cases hs)⟩)
    ⟨inv_init P, edgeInv_init⟩ h

/-- **No event of a connection is lost.**  Whenever the router is about to wait, every connection
    that it has and that has unread bytes or an unread end of stream is in the queue of events,
    and if `ffkq_wait` returns this event then the handler runs for this connection. -/
theorem conn_edge_not_lost (as : List Act) (t : Srv) (os : List Ev)
    (h : exec (step mrt) Srv.init as = some (t, os)) (hw : t.pc = .wait) (c k : Nat)
    (hc : t.conn c = some k) (hr : (t.tcp k).Readable) :
    ∃ t', step mrt t (.waitConn k) = some (t', .quiet) ∧ t'.pc = .recv c ∧ t'.conn c = some k := by
  obtain ⟨I, E⟩ := run_edge mrt_local h
  have hd : (t.tcp k).data = some c := by
    refine (E.attached hc).resolve_right ?_
    rw [hw]
    exact id
  have he : (t.tcp k).edge = true := by
    refine (E.edge hc hr).resolve_right ?_
    rw [hw]
    exact id
  obtain ⟨sk, hsk, _⟩ := conn_eq_some.mp hc
  refine ⟨{ t.setTcp k { t.tcp k with edge := false } with pc := .recv c }, ?_, rfl, hc⟩
  rw [step, if_pos ⟨hw, he⟩]
  split
  · rename_i hnone
    rw [hd] at hnone
    cases hnone
  · rename_i d hsome
    rw [hd] at hsome
    cases hsome
    rw [hsk]

/-- At the end of the run below client 0 has sent two more bytes. -/
theorem conn_edge_not_lost_two : ∃ t os, exec (step mrt) Srv.init
      (twoClients ++ [.arrive 0 [8, 9]]) = some (t, os) ∧
    ∃ t', step mrt t (.waitConn 0) = some (t', .quiet) ∧ t'.pc = .recv 100 ∧ t'.conn 100 = some 0 :=
  ⟨_, _, rfl, conn_edge_not_lost (twoClients ++ [.arrive 0 [8, 9]]) _ _ rfl rfl 100 0 rfl (Or.inl (by decide))⟩

/-! ## The listening socket -/

/-- The steps of a kind in a run. -/
def connects (as : List Act) : Nat := as.countP fun a => a matches .connect _

def listenEvents (as : List Act) : Nat := as.countP fun a => a matches .waitListen

/-- `ffsock_accept` has an event that it was called for and has not used. -/
def Pc.accepting : Pc → Nat
  | .accept => 1
  | _ => 0

/-- The clients accepted in a run. -/
def accepts (os : List Ev) : Nat := os.countP fun ev => ev matches .accepted _

theorem SStep.backlog_length {P : Prog} {s s' : Srv} {a : Act} {ev : Ev} (hs : SStep P s a s' ev) :
    s.backlog.length + connects [a] = s'.backlog.length + accepts [ev] := by
  cases hs with
  | accept sk c k rest hpc hb hsk hc => simp [connects, accepts, accepted, hb]
  | connect room => simp [connects, accepts]
  | _ => simp [connects, accepts, Srv.setTcp, Srv.connFree]

theorem SStep.accepts_le {P : Prog} {s s' : Srv} {a : Act} {ev : Ev} (hs : SStep P s a s' ev) :
    accepts [ev] + s'.pc.accepting ≤ listenEvents [a] + s.pc.accepting := by
  have hnext (c : Nat) (data : List UInt8) (its : List Nat) : (sendNext c data its).accepting = 0 := by
    cases its <;> rfl
  cases hs with
  | accept sk c k rest hpc hb hsk hc => simp [accepts, listenEvents, accepted, hpc, Pc.accepting]
  | waitListen hpc he => simp [accepts, listenEvents, hpc, Pc.accepting]
  | connect room | arrive k bs hk he | fin k hk | drain k n hk => exact Nat.le_refl _
  | received n c k hpc hk hn hmax hlen | sendAgain n c it k data its hpc hk hr ha
  | sent n c it k data its hpc hk hn hr hlen => simp [accepts, listenEvents, hnext]
  | _ => simp [accepts, listenEvents, Pc.accepting]

theorem countP_cons_singleton {α : Type} (p : α → Bool) (a : α) (as : List α) :
    (a :: as).countP p = [a].countP p + as.countP p := by
  rw [List.countP_cons, List.countP_singleton, Nat.add_comm]

theorem accepts_run {P : Prog} : ∀ {as : List Act} {s t : Srv} {os : List Ev},
    exec (step P) s as = some (t, os) →
      s.backlog.length + connects as = t.backlog.length + accepts os ∧
        accepts os + t.pc.accepting ≤ listenEvents as + s.pc.accepting
  | [], s, t, os, h => by
    simp only [exec, Option.some.injEq, Prod.mk.injEq] at h
    obtain ⟨rfl, rfl⟩ := h
    exact ⟨rfl, Nat.le_refl _⟩
  | a :: as, s, t, os, h => by
    obtain ⟨s', ev, os', hs, hrun, rfl⟩ := exec_cons h
    have h₁ := (step_cases hs).backlog_length
    have h₂ := (step_cases hs).accepts_le
    obtain ⟨h₃, h₄⟩ := accepts_run hrun
    simp only [connects, accepts, listenEvents] at h₁ h₂ h₃ h₄ ⊢
    rw [countP_cons_singleton _ a as, countP_cons_singleton _ ev os', countP_cons_singleton _ a as]
    omega

/-- Without an event nobody calls `ffsock_accept`, and only a new client makes an event. -/
structure Starving (b : List Nat) (s : Srv) : Prop where
  backlog : s.backlog = b
  edge : s.listenEdge = false
  pc : s.pc ≠ .accept

theorem Starving.step {P : Prog} {b : List Nat} {s s' : Srv} {a : Act} {ev : Ev}
    (S : Starving b s) (hs : SStep P s a s' ev) (ha : ∀ room, a ≠ .connect room) :
    Starving b s' := by
  have hnext (c : Nat) (data : List UInt8) (its : List Nat) : sendNext c data its ≠ .accept := by
    cases its <;> simp [sendNext]
  obtain ⟨hb, he, hpc⟩ := S
  cases hs with
  | connect room => exact absurd rfl (ha room)
  | waitListen hw hedge =>
    rw [he] at hedge
    cases hedge
  | acceptAgain sk c hacc _ | accept sk c k rest hacc _ _ _ => exact absurd hacc hpc
  | arrive k bs hk _ | fin k hk | drain k n hk => exact ⟨hb, he, hpc⟩
  | received n c k _ _ _ _ _ | sendAgain n c it k data its _ _ _ _
  | sent n c it k data its _ _ _ _ _ => exact ⟨hb, he, hnext _ _ _⟩
  | _ => exact ⟨hb, he, by simp⟩

theorem starving_run {P : Prog} {b : List Nat} : ∀ {as : List Act} {s t : Srv} {os : List Ev},
    Starving b s → (∀ a ∈ as, ∀ room, a ≠ .connect room) → exec (step P) s as = some (t, os) →
      Starving b t
  | [], s, t, os, S, _, h => by
    simp only [exec, Option.some.injEq, Prod.mk.injEq] at h
    exact h.1 ▸ S
  | a :: as, s, t, os, S, ha, h => by
    obtain ⟨s', ev, os', hs, hrun, _⟩ := exec_cons h
    exact starving_run (S.step (step_cases hs) (ha a List.mem_cons_self))
      (fun b hb => ha b (List.mem_cons_of_mem _ hb)) hrun

/-- **An event of the listening socket is worth one client.**  In every run of either program the
    clients that have connected are those accepted and those in the backlog, and no more are
    accepted than events of the listening socket are returned; when the server waits and there is
    no such event, then whatever the connected clients do, nobody in the backlog is accepted
    before another client connects. -/
theorem accept_starves (P : Prog) (as : List Act) (s : Srv) (os : List Ev)
    (h : exec (step P) Srv.init as = some (s, os)) :
    connects as = accepts os + s.backlog.length ∧ accepts os ≤ listenEvents as ∧
      (s.pc = .wait → s.listenEdge = false → ∀ bs t os',
        (∀ a ∈ bs, ∀ room, a ≠ .connect room) → exec (step P) s bs = some (t, os') →
          t.backlog = s.backlog ∧ accepts os' = 0) := by
  obtain ⟨h₁, h₂⟩ := accepts_run h
  simp only [Srv.init, List.length_nil, Nat.zero_add, Pc.accepting] at h₁ h₂
  refine ⟨by omega, by omega, ?_⟩
  intro hw he bs t os' hbs hrun
  have hback := (starving_run ⟨rfl, he, by rw [hw]; simp⟩ hbs hrun).backlog
  refine ⟨hback, ?_⟩
  have hcount := (accepts_run hrun).1
  have hnone : connects bs = 0 := by
    refine List.countP_eq_zero.mpr ?_
    intro a ha hm
    cases a with
    | connect room => exact hbs _ ha room rfl
    | _ => cases hm
  rw [hback] at hcount
  omega

/-- Two clients connect before the server asks: one event, and one client is left behind. -/
theorem accept_starves_two : ∃ s os, exec (step mrt) Srv.init
      [.connect 4, .connect 4, .waitListen, .accept 7 100, .attach, .recv 1] = some (s, os) ∧
    s.backlog = [1] ∧ s.listenEdge = false ∧ s.pc = .wait ∧
    (∀ bs t os', (∀ a ∈ bs, ∀ room, a ≠ .connect room) → exec (step mrt) s bs = some (t, os') →
      t.backlog = [1] ∧ accepts os' = 0) :=
  ⟨_, _, rfl, rfl, rfl, rfl, (accept_starves mrt
    [.connect 4, .connect 4, .waitListen, .accept 7 100, .attach, .recv 1] _ _ rfl).2.2 rfl rfl⟩

end FFSys.Server
