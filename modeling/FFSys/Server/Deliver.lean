import FFSys.Server.Safe

/-!
# What the clients of the servers receive

The results are about the events of a run: `received k data` is a chunk that the server has read
from client `k`, `sent k data n` says that it has offered the chunk to client `k` and that `n`
bytes of it have been accepted.

* `chunksOf`, `arrived` — what has been read from a client, what the client has sent;
  `chunksOf_arrived`: the first is the second without the bytes not read yet.
* `due` — the chunks that a client has to get; `handed` — the chunks offered to it.
* `mrt_broadcast` — the router offers every chunk once to every client that is connected, its
  sender included, to all of them in one order; what a client does not take at once is lost.
* `ecs_echo` — the echo server.
-/

set_option autoImplicit false

namespace FFSys.Server

open FFSys.Lib

/-! ## Observations -/

/-- What client `k` sends in a run. -/
def arrived (k : Nat) (as : List Act) : List UInt8 :=
  as.flatMap fun a =>
    match a with
    | .arrive j bs => if j = k then bs else []
    | _ => []

/-- The chunk that an event reads from client `k`. -/
def Ev.chunk (k : Nat) : Ev → List (List UInt8)
  | .received j data => if j = k then [data] else []
  | _ => []

/-- The chunks read from client `k`. -/
def chunksOf (k : Nat) (os : List Ev) : List (List UInt8) := os.flatMap (Ev.chunk k)

/-- The chunk that an event offers to client `k`, with the number of bytes accepted. -/
def Ev.handed (k : Nat) : Ev → List (List UInt8 × Nat)
  | .sent j data n => if j = k then [(data, n)] else []
  | _ => []

/-- The chunks offered to client `k`. -/
def handed (k : Nat) (os : List Ev) : List (List UInt8 × Nat) := os.flatMap (Ev.handed k)

/-- The bytes accepted for client `k`. -/
def delivered (k : Nat) (os : List Ev) : List UInt8 :=
  (handed k os).flatMap fun p => p.1.take p.2

/-- Client `k` is connected after the event. -/
def Ev.online (k : Nat) (on : Bool) : Ev → Bool
  | .accepted j => if j = k then true else on
  | .closed j => if j = k then false else on
  | _ => on

/-- A chunk read from client `j` has to go to client `k`: the router sends to whoever is
    connected, the echo server to `j`. -/
def Prog.addressee (P : Prog) (k : Nat) (on : Bool) (j : Nat) : Bool :=
  if P.vector then on else j = k

def Ev.due (P : Prog) (k : Nat) (on : Bool) : Ev → List (List UInt8)
  | .received j data => if P.addressee k on j then [data] else []
  | _ => []

/-- The chunks that client `k` has to get; `on` says whether it is connected at the start. -/
def due (P : Prog) (k : Nat) : Bool → List Ev → List (List UInt8)
  | _, [] => []
  | on, ev :: os => ev.due P k on ++ due P k (ev.online k on) os

/-- The chunk that the server is sending round and that client `k` has not been offered yet. -/
def Srv.pending (s : Srv) (k : Nat) : List (List UInt8) :=
  match s.pc with
  | .send _ data its => if some k ∈ its.map s.conn then [data] else []
  | _ => []

/-! ## Reading -/

/-- Nothing has come from the connections that do not exist yet. -/
def Fresh (s : Srv) : Prop := ∀ k, s.next ≤ k → (s.tcp k).input = []

section Step

variable {P : Prog} {s s' : Srv} {a : Act} {ev : Ev}

theorem conn_setPc (s : Srv) (pc : Pc) : ({ s with pc := pc } : Srv).conn = s.conn := rfl

theorem conn_setTcp (s : Srv) (k : Nat) (t : Tcp) (pc : Pc) :
    ({ s.setTcp k t with pc := pc } : Srv).conn = s.conn := rfl

/-- The input buffers over a step that changes one connection. -/
theorem input_setTcp (s : Srv) {j k : Nat} {t : Tcp} {w : List UInt8}
    (ht : t.input = (s.tcp j).input ++ w) :
    (Function.update s.tcp j t k).input = (s.tcp k).input ++ if j = k then w else [] := by
  by_cases hk : k = j
  · subst hk
    simp [ht]
  · rw [Function.update_of_ne hk, if_neg (Ne.symm hk), List.append_nil]

theorem SStep.input (hs : SStep P s a s' ev) (F : Fresh s) (k : Nat) :
    (ev.chunk k).flatten ++ (s'.tcp k).input = (s.tcp k).input ++ arrived k [a] := by
  have hnil (j : Nat) (t : Tcp) (ht : t.input = (s.tcp j).input) :
      (Function.update s.tcp j t k).input = (s.tcp k).input := by
    have := input_setTcp s (k := k) (t := t) (w := []) (by rw [ht, List.append_nil])
    rw [this]
    split <;> simp
  cases hs with
  | connect room =>
    have hfresh := hnil s.next ⟨[], false, room, none, false⟩ (F s.next (Nat.le_refl _)).symm
    simp [arrived, Ev.chunk, hfresh]
  | arrive j bs hk he =>
    have hin := input_setTcp s (k := k)
      (t := { s.tcp j with input := (s.tcp j).input ++ bs }.wake) (w := bs) rfl
    simp only [Srv.setTcp, hin, Ev.chunk, arrived]
    simp
  | fin j hk => simp [arrived, Ev.chunk, Srv.setTcp, hnil j _, Tcp.wake]
  | drain j n hk => simp [arrived, Ev.chunk, Srv.setTcp, hnil j _, Tcp.wake]
  | waitConn j c sk hpc he hd hc => simp [arrived, Ev.chunk, Srv.setTcp, hnil j _]
  | attach c j hpc hk => simp [arrived, Ev.chunk, Srv.setTcp, hnil j _, Tcp.attach]
  | closed n c sk j hpc hc hk hi he => simp [arrived, Ev.chunk, Srv.connFree, hnil j _]
  | received n c j hpc hk hn hmax hlen =>
    by_cases hj : k = j
    · subst hj
      simp [arrived, Ev.chunk, Srv.setTcp]
    · simp [arrived, Ev.chunk, Srv.setTcp, Function.update_of_ne hj, Ne.symm hj]
  | sent n c it j data its hpc hk hn hr hlen =>
    simp [arrived, Ev.chunk, Srv.setTcp, hnil j _]
  | _ => simp [arrived, Ev.chunk, accepted]

theorem SStep.next_le (hs : SStep P s a s' ev) : s.next ≤ s'.next := by
  cases hs with
  | connect room => exact Nat.le_succ _
  | _ => exact Nat.le_refl _

/-- Bytes come only from connections that exist. -/
theorem SStep.arrived_lt (hs : SStep P s a s' ev) {k : Nat} (hk : s.next ≤ k) :
    arrived k [a] = [] := by
  cases hs with
  | arrive j bs hj he =>
    have hne : j ≠ k := by omega
    simp [arrived, hne]
  | _ => simp [arrived]

theorem SStep.fresh (hs : SStep P s a s' ev) (F : Fresh s) : Fresh s' := by
  intro k hk
  have hlt := Nat.le_trans hs.next_le hk
  have hin := hs.input F k
  rw [F k hlt, hs.arrived_lt hlt, List.append_nil] at hin
  exact (List.append_eq_nil_iff.mp hin).2

end Step

theorem arrived_cons (k : Nat) (a : Act) (as : List Act) :
    arrived k (a :: as) = arrived k [a] ++ arrived k as := by
  simp [arrived]

/-- Reading loses nothing and changes nothing: the chunks read from a client and the bytes that
    wait in the kernel are what the client has sent. -/
theorem chunksOf_arrived {P : Prog} (k : Nat) : ∀ {as : List Act} {s t : Srv} {os : List Ev},
    Fresh s → exec (step P) s as = some (t, os) →
      (chunksOf k os).flatten ++ (t.tcp k).input = (s.tcp k).input ++ arrived k as
  | [], s, t, os, _, h => by
    simp only [exec, Option.some.injEq, Prod.mk.injEq] at h
    obtain ⟨rfl, rfl⟩ := h
    simp [chunksOf, arrived]
  | a :: as, s, t, os, F, h => by
    obtain ⟨s', ev, os', hs, hrun, rfl⟩ := exec_cons h
    have hstep := step_cases hs
    have ih := chunksOf_arrived k (hstep.fresh F) hrun
    calc (chunksOf k (ev :: os')).flatten ++ (t.tcp k).input
        = (ev.chunk k).flatten ++ ((chunksOf k os').flatten ++ (t.tcp k).input) := by
          simp [chunksOf]
      _ = (ev.chunk k).flatten ++ (s'.tcp k).input ++ arrived k as := by rw [ih, List.append_assoc]
      _ = (s.tcp k).input ++ arrived k (a :: as) := by
          rw [hstep.input F k, List.append_assoc, ← arrived_cons]

/-! ## Sending -/

/-- The two programs: everybody, or the client itself. -/
def Prog.Exact (P : Prog) : Prop :=
  P.targets = if P.vector then fun conns _ => conns else fun _ c => [c]

theorem mrt_exact : mrt.Exact := rfl

theorem ecs_exact : ecs.Exact := rfl

theorem Prog.Exact.isLocal {P : Prog} (hP : P.Exact) : P.Local := by
  intro conns c it hit
  rw [hP] at hit
  split at hit
  · exact Or.inr hit
  · exact Or.inl (List.mem_singleton.mp hit)

/-- The list of a walk has no connection twice. -/
def Pc.Once : Pc → Prop
  | .send _ _ its => its.Nodup
  | _ => True

theorem once_sendNext {c : Nat} {data : List UInt8} {its : List Nat} (h : its.Nodup) :
    (sendNext c data its).Once := by
  cases its with
  | nil => trivial
  | cons it its => exact h

theorem pending_sendNext (s : Srv) (c : Nat) (data : List UInt8) (its : List Nat) (k : Nat) :
    ({ s with pc := sendNext c data its } : Srv).pending k =
      if some k ∈ its.map s.conn then [data] else [] := by
  cases its with
  | nil => simp [sendNext, Srv.pending]
  | cons it its => rfl

/-- The state of the delivery to client `k`: the invariant, the connection state, and the chunk
    that is still to be offered.  After `DIE` the chunk remains. -/
structure Due (P : Prog) (k : Nat) (s : Srv) (on : Bool) (rest : List (List UInt8)) : Prop where
  inv : Inv P s
  once : s.pc.Once
  online : on = true ↔ ∃ c, s.conn c = some k
  offer : s.pc ≠ .dead → rest = s.pending k
  length : rest.length ≤ 1

section Due

variable {P : Prog} {s s' : Srv} {a : Act} {ev : Ev} {k : Nat} {on : Bool}
  {rest : List (List UInt8)}

theorem pending_length (s : Srv) (k : Nat) : (s.pending k).length ≤ 1 := by
  unfold Srv.pending
  split
  · split <;> simp
  · simp

theorem pending_of_not_send (h : ∀ c data its, s.pc ≠ .send c data its) : s.pending k = [] := by
  unfold Srv.pending
  split
  · rename_i c data its hpc
    exact absurd hpc (h c data its)
  · rfl

/-- Steps outside of a walk. -/
theorem Due.quiet (D : Due P k s on rest) (I' : Inv P s') (hconn : s'.conn = s.conn)
    (hdead : s.pc = .dead → s'.pc = .dead)
    (hpend : s'.pc ≠ .dead → s'.pending k = s.pending k) (honce : s'.pc.Once) :
    Due P k s' on rest := by
  refine ⟨I', honce, by rw [hconn]; exact D.online, ?_, D.length⟩
  intro hd
  rw [hpend hd]
  exact D.offer (fun h => hd (hdead h))

/-- A walk goes on by one connection. -/
theorem Due.walk (D : Due P k s on rest) (I' : Inv P s') {c it j n : Nat} {data : List UInt8}
    {its : List Nat} (hpc : s.pc = .send c data (it :: its)) (hj : s.conn it = some j)
    (hconn : s'.conn = s.conn) (hpend : s'.pending k = if some k ∈ its.map s.conn then [data] else [])
    (hpc' : s'.pc = sendNext c data its) :
    Due P k s' on (s'.pending k) ∧
      rest = (Ev.handed k (.sent j data n)).map Prod.fst ++ s'.pending k := by
  have hnodup : it ∉ its ∧ its.Nodup := by
    have := D.once
    rw [hpc] at this
    exact List.nodup_cons.mp this
  have hrest : rest = if some k ∈ (it :: its).map s.conn then [data] else [] := by
    rw [D.offer (by rw [hpc]; intro h; cases h), Srv.pending, hpc]
  refine ⟨⟨I', hpc' ▸ once_sendNext hnodup.2, by rw [hconn]; exact D.online, fun _ => rfl,
    pending_length _ _⟩, ?_⟩
  rw [hrest, hpend]
  by_cases hjk : j = k
  · subst hjk
    have hnot : some j ∉ its.map s.conn := by
      intro h
      obtain ⟨d, hd, hdj⟩ := List.mem_map.mp h
      exact hnodup.1 (D.inv.connInj hdj hj ▸ hd)
    rw [if_neg hnot, if_pos (by simp [hj])]
    simp [Ev.handed]
  · have hiff : some k ∈ (it :: its).map s.conn ↔ some k ∈ its.map s.conn := by
      simp [hj, Ne.symm hjk]
    simp only [hiff, Ev.handed, hjk]
    simp

/-- Whom a chunk goes to. -/
theorem Due.targets (D : Due P k s on rest) (hP : P.Exact) {c j : Nat} (hj : s.conn c = some j) :
    some k ∈ (P.targets s.conns c).map s.conn ↔ P.addressee k on j = true := by
  rw [hP, Prog.addressee]
  cases hv : P.vector with
  | true =>
    simp only [if_true, List.mem_map]
    rw [D.online]
    constructor
    · rintro ⟨d, _, hd⟩
      exact ⟨d, hd⟩
    · rintro ⟨d, hd⟩
      exact ⟨d, D.inv.vector hv (D.inv.conn_ne_none.mp (by simp [hd])), hd⟩
  | false =>
    simp [hj, eq_comm]

theorem targets_nodup (hP : P.Exact) {conns : List Nat} (h : conns.Nodup) (c : Nat) :
    (P.targets conns c).Nodup := by
  rw [hP]
  split
  · exact h
  · simp

theorem Due.accepted (D : Due P k s on rest) {sk c j : Nat} {tl : List Nat}
    (hpc : s.pc = .accept) (hb : s.backlog = j :: tl) (hsk : s.fd sk = none)
    (hc : s.heap c = none) :
    Due P k (Server.accepted P s sk c j tl) (Ev.online k on (.accepted j)) rest := by
  have hrest : rest = [] := by
    rw [D.offer (by rw [hpc]; intro h; cases h)]
    exact pending_of_not_send (by simp [hpc])
  have I' := D.inv.accepted hb hsk hc
  refine ⟨I', trivial, ?_, ?_, by simp [hrest]⟩
  · simp only [D.inv.conn_accepted hsk hc]
    by_cases hjk : j = k
    · subst hjk
      simp only [Ev.online, if_true, true_iff]
      exact ⟨c, Or.inl ⟨rfl, trivial⟩⟩
    · simp only [Ev.online, hjk, if_false, D.online, Ne.symm hjk, and_false, false_or]
  · intro _
    rw [hrest]
    rfl

theorem Due.closed (D : Due P k s on rest) {c sk j : Nat} (hpc : s.pc = .recv c)
    (hc : s.heap c = some sk) (hj : s.fd sk = some j) :
    Due P k { s.connFree c sk j with pc := .wait } (Ev.online k on (.closed j)) rest := by
  have hrest : rest = [] := by
    rw [D.offer (by rw [hpc]; intro h; cases h)]
    exact pending_of_not_send (by simp [hpc])
  have hconn : s.conn c = some j := conn_eq_some.mpr ⟨sk, hc, hj⟩
  refine ⟨D.inv.connFree hc hj, trivial, ?_, fun _ => hrest, by simp [hrest]⟩
  change _ ↔ ∃ d, (s.connFree c sk j).conn d = some k
  simp only [D.inv.conn_connFree hc]
  by_cases hjk : j = k
  · subst hjk
    simp only [Ev.online, if_true, Bool.false_eq_true, false_iff]
    rintro ⟨d, hd⟩
    exact hd.1 (D.inv.connInj hd.2 hconn)
  · simp only [Ev.online, hjk, if_false, D.online]
    constructor
    · rintro ⟨d, hd⟩
      refine ⟨d, ?_, hd⟩
      rintro rfl
      rw [hconn] at hd
      cases hd
      exact hjk rfl
    · rintro ⟨d, hd⟩
      exact ⟨d, hd.2⟩

/-- The delivery over one step: what was still to be offered and what becomes due is what is
    offered and what is still to be offered. -/
theorem Due.step (hP : P.Exact) (D : Due P k s on rest) (hs : SStep P s a s' ev) :
    ∃ rest', Due P k s' (ev.online k on) rest' ∧
      rest ++ ev.due P k on = (ev.handed k).map Prod.fst ++ rest' := by
  have I' := D.inv.step hP.isLocal hs
  have hidle {pc : Pc} (hpc : s.pc = pc) (h : ∀ c data its, pc ≠ .send c data its) :
      s.pending k = [] := pending_of_not_send (hpc ▸ h)
  have hdies {ev : Ev} (hpc : s'.pc = .dead) (hconn : s'.conn = s.conn) (hon : ev.online k on = on)
      (hdue : ev.due P k on = []) (hhand : ev.handed k = []) :
      ∃ rest', Due P k s' (ev.online k on) rest' ∧
        rest ++ ev.due P k on = (ev.handed k).map Prod.fst ++ rest' := by
    refine ⟨rest, ?_, by simp [hdue, hhand]⟩
    rw [hon]
    exact D.quiet I' hconn (fun _ => hpc) (fun h => absurd hpc h) (by rw [hpc]; trivial)
  cases hs with
  | connect room | arrive j bs hj he | fin j hj | drain j n hj =>
    exact ⟨rest, D.quiet I' rfl id (fun _ => rfl) D.once, by simp [Ev.due, Ev.handed]⟩
  | waitListen hpc he | waitConn j c sk hpc he hd hc | acceptAgain sk c hpc hb =>
    refine ⟨rest, D.quiet I' rfl (by simp [hpc]) (fun _ => ?_) trivial, by simp [Ev.due, Ev.handed]⟩
    rw [hidle hpc (by simp)]
    rfl
  | accept sk c j tl hpc hb hsk hc =>
    exact ⟨rest, D.accepted hpc hb hsk hc, by simp [Ev.due, Ev.handed]⟩
  | attach c j hpc hj =>
    refine ⟨rest, D.quiet I' rfl (by simp [hpc]) (fun _ => ?_) trivial, by simp [Ev.due, Ev.handed]⟩
    rw [hidle hpc (by simp)]
    rfl
  | again n c j hpc hj hi he =>
    refine ⟨rest, D.quiet I' rfl (by simp [hpc]) (fun _ => ?_) trivial, by simp [Ev.due, Ev.handed]⟩
    rw [hidle hpc (by simp)]
    rfl
  | waitFault j c hpc hd hc | attachFault c hpc hj | recvFault n c hpc hj
  | sendDies n c it j data its hpc hj hr ha | sendFault n c it data its hpc hj | fail hpc =>
    exact hdies rfl rfl rfl rfl rfl
  | closed n c sk j hpc hc hj hi he =>
    exact ⟨rest, D.closed hpc hc hj, by simp [Ev.due, Ev.handed]⟩
  | received n c j hpc hj hn hmax hlen =>
    have hrest : rest = [] := by
      rw [D.offer (by rw [hpc]; intro h; cases h)]
      exact hidle hpc (by simp)
    refine ⟨_, ⟨I', ?_, D.online, fun _ => rfl, pending_length _ _⟩, ?_⟩
    · exact once_sendNext (targets_nodup hP D.inv.nodup c)
    · rw [pending_sendNext, hrest, List.nil_append]
      change _ = [] ++ if some k ∈ (P.targets s.conns c).map s.conn then _ else _
      simp only [Ev.due, D.targets hP hj, List.nil_append]
  | sendAgain n c it j data its hpc hj hr ha =>
    obtain ⟨hD, hrest⟩ := D.walk I' (n := 0) hpc hj rfl (pending_sendNext _ _ _ _ _) rfl
    exact ⟨_, hD, by rw [← hrest]; simp [Ev.due]⟩
  | sent n c it j data its hpc hj hn hr hlen =>
    obtain ⟨hD, hrest⟩ := D.walk I' (n := n) hpc hj rfl (pending_sendNext _ _ _ _ _) rfl
    exact ⟨_, hD, by rw [← hrest]; simp [Ev.due]⟩

end Due

/-- The delivery over a run. -/
theorem due_run {P : Prog} (hP : P.Exact) (k : Nat) :
    ∀ {as : List Act} {s t : Srv} {os : List Ev} {on : Bool} {rest : List (List UInt8)},
      Due P k s on rest → exec (step P) s as = some (t, os) →
        ∃ on' rest', Due P k t on' rest' ∧
          rest ++ due P k on os = (handed k os).map Prod.fst ++ rest'
  | [], s, t, os, on, rest, D, h => by
    simp only [exec, Option.some.injEq, Prod.mk.injEq] at h
    obtain ⟨rfl, rfl⟩ := h
    exact ⟨on, rest, D, by simp [due, handed]⟩
  | a :: as, s, t, os, on, rest, D, h => by
    obtain ⟨s', ev, os', hs, hrun, rfl⟩ := exec_cons h
    obtain ⟨rest₁, D₁, h₁⟩ := D.step hP (step_cases hs)
    obtain ⟨on', rest₂, D₂, h₂⟩ := due_run hP k D₁ hrun
    refine ⟨on', rest₂, D₂, ?_⟩
    calc rest ++ due P k on (ev :: os')
        = (rest ++ ev.due P k on) ++ due P k (ev.online k on) os' := by
          rw [due, List.append_assoc]
      _ = (ev.handed k).map Prod.fst ++ (rest₁ ++ due P k (ev.online k on) os') := by
          rw [h₁, List.append_assoc]
      _ = (handed k (ev :: os')).map Prod.fst ++ rest₂ := by
          rw [h₂]
          simp [handed]

theorem due_init (P : Prog) (k : Nat) : Due P k Srv.init false [] where
  inv := inv_init P
  once := trivial
  online := by simp [Srv.conn, Srv.init]
  offer _ := rfl
  length := Nat.zero_le _

/-- No send accepts more than it is offered; where `EAGAIN` is fatal, none accepts nothing. -/
theorem handed_bounds {P : Prog} {as : List Act} {s t : Srv} {os : List Ev}
    (h : exec (step P) s as = some (t, os)) :
    ∀ k, ∀ p ∈ handed k os, p.2 ≤ p.1.length ∧ (P.againDies = true → 0 < p.2) := by
  have hrun := exec_output (A := fun _ => True) (B := fun _ => True) (I := fun _ => True)
    (Q := fun ev => ∀ k, ∀ p ∈ ev.handed k, p.2 ≤ p.1.length ∧ (P.againDies = true → 0 < p.2))
    (fun s a s' ev _ _ _ hs => ⟨trivial, by
      intro k p hp
      cases step_cases hs with
      | sendAgain n c it j data its hpc hj hr ha =>
        simp only [Ev.handed] at hp
        split at hp
        · cases List.mem_singleton.mp hp
          exact ⟨Nat.zero_le _, fun h => by rw [ha] at h; cases h⟩
        · cases hp
      | sent n c it j data its hpc hj hn hr hlen =>
        simp only [Ev.handed] at hp
        split at hp
        · cases List.mem_singleton.mp hp
          exact ⟨hlen, fun _ => hn⟩
        · cases hp
      | _ => cases hp⟩)
    as s t os trivial (by simp) (by simp) h
  intro k p hp
  obtain ⟨ev, hev, hp⟩ := List.mem_flatMap.mp hp
  exact hrun.2 ev hev k p hp

theorem fresh_init : Fresh Srv.init := fun _ _ => rfl

/-- At `ffkq_wait` nothing remains to be offered. -/
theorem Due.at_wait {P : Prog} {k : Nat} {s : Srv} {on : Bool} {rest : List (List UInt8)}
    (D : Due P k s on rest) (h : s.pc = .wait) : rest = [] := by
  rw [D.offer (by rw [h]; intro he; cases he)]
  exact pending_of_not_send (by simp [h])

/-- **The router broadcasts in one order.**  In every run, the chunks offered to a client are the
    chunks that the server has read from any client, this one included, while the client was
    connected: each once and in the order in which they were read, up to the one that is being
    sent round.  The chunks read from a client are what it has sent, cut anywhere. -/
theorem mrt_broadcast (as : List Act) (t : Srv) (os : List Ev)
    (h : exec (step mrt) Srv.init as = some (t, os)) (k : Nat) :
    (chunksOf k os).flatten ++ (t.tcp k).input = arrived k as ∧
      (∀ p ∈ handed k os, p.2 ≤ p.1.length) ∧
      ∃ rest, (handed k os).map Prod.fst ++ rest = due mrt k false os ∧ rest.length ≤ 1 ∧
        (t.pc = .wait → rest = []) := by
  obtain ⟨on, rest, D, hrun⟩ := due_run mrt_exact k (due_init mrt k) h
  refine ⟨?_, fun p hp => (handed_bounds h k p hp).1, rest, ?_, D.length, D.at_wait⟩
  · rw [chunksOf_arrived k fresh_init h]
    rfl
  · rw [← hrun, List.nil_append]

/-- The first client gets its own chunk back, the second one loses a byte of it. -/
theorem mrt_broadcast_two : ∃ t os, exec (step mrt) Srv.init twoClients = some (t, os) ∧
    handed 0 os = [([1, 2, 3], 3)] ∧ handed 1 os = [([1, 2, 3], 2)] ∧
    ∃ rest, (handed 1 os).map Prod.fst ++ rest = due mrt 1 false os ∧ rest.length ≤ 1 ∧
      (t.pc = .wait → rest = []) :=
  ⟨_, _, rfl, rfl, rfl, (mrt_broadcast twoClients _ _ rfl 1).2.2⟩

theorem due_ecs (k : Nat) : ∀ (on : Bool) (os : List Ev), due ecs k on os = chunksOf k os
  | _, [] => rfl
  | on, ev :: os => by
    have hev : ev.due ecs k on = ev.chunk k := by
      cases ev with
      | received j data => simp [Ev.due, Ev.chunk, Prog.addressee, ecs]
      | _ => rfl
    rw [due, hev, due_ecs k _ os]
    rfl

theorem delivered_of_complete : ∀ {l : List (List UInt8 × Nat)},
    (∀ p ∈ l, p.2 = p.1.length) → (l.flatMap fun p => p.1.take p.2) = (l.map Prod.fst).flatten
  | [], _ => rfl
  | p :: l, h => by
    rw [List.flatMap_cons, delivered_of_complete (fun q hq => h q (List.mem_cons_of_mem _ hq)),
      h p List.mem_cons_self, List.take_length]
    rfl

/-- **The echo server.**  In every run a client is offered exactly the chunks read from itself,
    in order, and takes a part of each that is not empty; if it always takes all of it, then at
    `ffkq_wait` what it has got and what is not read yet is what it has sent. -/
theorem ecs_echo (as : List Act) (t : Srv) (os : List Ev)
    (h : exec (step ecs) Srv.init as = some (t, os)) (k : Nat) :
    (∀ p ∈ handed k os, 0 < p.2 ∧ p.2 ≤ p.1.length) ∧
      ∃ rest, (handed k os).map Prod.fst ++ rest = chunksOf k os ∧ rest.length ≤ 1 ∧
        (t.pc = .wait → rest = []) ∧
        ((∀ p ∈ handed k os, p.2 = p.1.length) →
          delivered k os ++ rest.flatten ++ (t.tcp k).input = arrived k as) := by
  obtain ⟨on, rest, D, hrun⟩ := due_run ecs_exact k (due_init ecs k) h
  have hrest : (handed k os).map Prod.fst ++ rest = chunksOf k os := by
    rw [← hrun, List.nil_append, due_ecs]
  refine ⟨fun p hp => ⟨(handed_bounds h k p hp).2 rfl, (handed_bounds h k p hp).1⟩, rest, hrest,
    D.length, D.at_wait, ?_⟩
  intro hall
  have harr := chunksOf_arrived k fresh_init h
  rw [← hrest, List.flatten_append] at harr
  rw [delivered, delivered_of_complete hall, harr]
  rfl

theorem ecs_echo_one : ∃ t os, exec (step ecs) Srv.init
      [.connect 8, .waitListen, .accept 7 100, .attach, .arrive 0 [1, 2, 3], .recv 2, .send 2] =
        some (t, os) ∧
    delivered 0 os = [1, 2] ∧ (∀ p ∈ handed 0 os, 0 < p.2 ∧ p.2 ≤ p.1.length) :=
  ⟨_, _, rfl, rfl, (ecs_echo [.connect 8, .waitListen, .accept 7 100, .attach, .arrive 0 [1, 2, 3],
    .recv 2, .send 2] _ _ rfl 0).1⟩

end FFSys.Server
