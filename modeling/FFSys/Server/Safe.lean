import FFSys.Server.Loop

/-!
# The servers never touch a freed connection, and leak none

* `Inv` — live objects and open descriptors belong together one to one, an event in the kernel
  queue carries the address of a live object, `srv->conns` holds each live object once.
* `Inv.step`, `Inv.no_fault` — every step keeps the invariant and none of them is a fault.
* `mrt_conns_exact` — the router over whole runs.
-/

set_option autoImplicit false

namespace FFSys.Server

open FFSys.Lib

/-! ## The swap of `ffslice_rmswapT` -/

theorem rmswap_perm {v : List Nat} {i : Nat} (hi : i < v.length) :
    (rmswap v i).Perm (v.eraseIdx i) := by
  obtain ⟨l, e, rfl⟩ : ∃ l e, v = l ++ [e] :=
    ⟨v.dropLast, v.getLast (by rintro rfl; simp at hi), (List.dropLast_append_getLast _).symm⟩
  simp only [List.length_append, List.length_singleton] at hi
  simp only [rmswap, List.getLast?_append, List.getLast?_singleton, Option.some_or]
  by_cases hlast : i = l.length
  · subst hlast
    simp [List.eraseIdx_append]
  · have hil : i < l.length := by omega
    obtain ⟨l₁, x, l₂, rfl, rfl⟩ : ∃ l₁ x l₂, l = l₁ ++ x :: l₂ ∧ l₁.length = i :=
      ⟨l.take i, l[i], l.drop (i + 1), by simp, by simp; omega⟩
    simp only [List.append_assoc, List.cons_append, List.set_append, List.eraseIdx_append,
      Nat.lt_irrefl, if_false, Nat.sub_self, List.set_cons_zero, List.eraseIdx_cons_zero]
    rw [show l₁ ++ e :: (l₂ ++ [e]) = (l₁ ++ e :: l₂) ++ [e] by simp, List.dropLast_concat]
    refine List.Perm.append_left l₁ ?_
    exact (List.perm_append_singleton e l₂).symm

theorem unlinkConn_perm (conns : List Nat) (c : Nat) : (unlinkConn conns c).Perm (conns.erase c) := by
  unfold unlinkConn
  split
  · rename_i hc
    rw [List.erase_eq_eraseIdx_of_idxOf rfl]
    exact rmswap_perm (List.idxOf_lt_length_iff.mpr hc)
  · rename_i hc
    rw [List.erase_of_not_mem hc]

theorem mem_unlinkConn {conns : List Nat} (h : conns.Nodup) {c d : Nat} :
    d ∈ unlinkConn conns c ↔ d ≠ c ∧ d ∈ conns := by
  rw [(unlinkConn_perm conns c).mem_iff, h.mem_erase_iff]

theorem unlinkConn_nodup {conns : List Nat} (h : conns.Nodup) (c : Nat) :
    (unlinkConn conns c).Nodup :=
  (unlinkConn_perm conns c).nodup_iff.mpr (h.erase c)

/-! ## The invariant -/

/-- The objects that the code still uses before the next `ffkq_wait`. -/
def Pc.objs : Pc → List Nat
  | .attach c | .recv c => [c]
  | .send c _ its => c :: its
  | _ => []

@[simp] theorem objs_sendNext (c : Nat) (data : List UInt8) (its : List Nat) :
    ∀ d, d ∈ (sendNext c data its).objs ↔ d ∈ c :: its := by
  intro d
  cases its <;> simp [sendNext, Pc.objs]

/-- Chunks are sent to the connection they came from and to elements of `srv->conns` only. -/
def Prog.Local (P : Prog) : Prop := ∀ conns c, ∀ it ∈ P.targets conns c, it = c ∨ it ∈ conns

theorem mrt_local : mrt.Local := fun _ _ _ h => Or.inr h

theorem ecs_local : ecs.Local := fun _ _ _ h => Or.inl (List.mem_singleton.mp h)

structure Inv (P : Prog) (s : Srv) : Prop where
  fdInj : ∀ {sk sk' k}, s.fd sk = some k → s.fd sk' = some k → sk = sk'
  heapInj : ∀ {c c' sk}, s.heap c = some sk → s.heap c' = some sk → c = c'
  live : ∀ {c sk}, s.heap c = some sk → ∃ k, s.fd sk = some k
  owned : ∀ {sk k}, s.fd sk = some k → ∃ c, s.heap c = some sk
  bound : ∀ {sk k}, s.fd sk = some k → k < s.next
  data : ∀ {k c}, (s.tcp k).data = some c → s.conn c = some k
  edge : ∀ {k}, (s.tcp k).edge = true → (s.tcp k).data ≠ none
  backlog : ∀ {k}, k ∈ s.backlog → k < s.next ∧ ∀ sk, s.fd sk ≠ some k
  backlogNodup : s.backlog.Nodup
  nodup : s.conns.Nodup
  conns : ∀ {c}, c ∈ s.conns → s.heap c ≠ none
  vector : P.vector = true → ∀ {c}, s.heap c ≠ none → c ∈ s.conns
  pc : ∀ c ∈ s.pc.objs, s.conn c ≠ none

theorem inv_init (P : Prog) : Inv P Srv.init where
  fdInj h := by cases h
  heapInj h := by cases h
  live h := by cases h
  owned h := by cases h
  bound h := by cases h
  data h := by cases h
  edge h := by cases h
  backlog h := by cases h
  backlogNodup := List.nodup_nil
  nodup := List.nodup_nil
  conns h := by cases h
  vector _ _ h := absurd rfl h
  pc _ h := by cases h

@[simp] theorem wake_data (t : Tcp) : t.wake.data = t.data := rfl

theorem wake_edge {t : Tcp} (h : t.edge = true → t.data ≠ none) (hw : t.wake.edge = true) :
    t.wake.data ≠ none := by
  simp only [Tcp.wake, Bool.or_eq_true] at hw
  rcases hw with hw | hw
  · exact h hw
  · intro hd
    rw [wake_data] at hd
    rw [hd] at hw
    cases hw

section Step

variable {P : Prog} {s s' : Srv} {a : Act} {ev : Ev}

theorem Inv.conn_ne_none (I : Inv P s) {c : Nat} : s.conn c ≠ none ↔ s.heap c ≠ none := by
  constructor
  · intro h hc
    exact h (by simp [Srv.conn, hc])
  · intro h
    obtain ⟨sk, hsk⟩ := Option.ne_none_iff_exists'.mp h
    obtain ⟨k, hk⟩ := I.live hsk
    simp [conn_eq_some.mpr ⟨sk, hsk, hk⟩]

theorem Inv.connInj (I : Inv P s) {c c' k : Nat} (h : s.conn c = some k) (h' : s.conn c' = some k) :
    c = c' := by
  obtain ⟨sk, hc, hk⟩ := conn_eq_some.mp h
  obtain ⟨sk', hc', hk'⟩ := conn_eq_some.mp h'
  cases I.fdInj hk hk'
  exact I.heapInj hc hc'

/-- Steps that neither open nor close a connection. -/
theorem Inv.frame (I : Inv P s) (hfd : s'.fd = s.fd) (hheap : s'.heap = s.heap)
    (hconns : s'.conns = s.conns) (hnext : s.next ≤ s'.next)
    (hdata : ∀ {k c}, (s'.tcp k).data = some c → s.conn c = some k)
    (hedge : ∀ {k}, (s'.tcp k).edge = true → (s'.tcp k).data ≠ none)
    (hback : ∀ {k}, k ∈ s'.backlog → k < s'.next ∧ ∀ sk, s.fd sk ≠ some k)
    (hnodup : s'.backlog.Nodup) (hpc : ∀ c ∈ s'.pc.objs, s.conn c ≠ none) : Inv P s' := by
  have hconn : s'.conn = s.conn := by funext c; simp only [Srv.conn, hfd, hheap]
  constructor
  · rw [hfd]; exact I.fdInj
  · rw [hheap]; exact I.heapInj
  · rw [hfd, hheap]; exact I.live
  · rw [hfd, hheap]; exact I.owned
  · rw [hfd]; exact fun h => Nat.lt_of_lt_of_le (I.bound h) hnext
  · rw [hconn]; exact hdata
  · exact hedge
  · rw [hfd]; exact hback
  · exact hnodup
  · rw [hconns]; exact I.nodup
  · rw [hconns, hheap]; exact I.conns
  · rw [hconns, hheap]; exact I.vector
  · rw [hconn]; exact hpc

/-- Steps that change what the kernel knows of one connection, and the program counter. -/
theorem Inv.setTcp (I : Inv P s) {k : Nat} {t : Tcp} {pc : Pc}
    (hdata : ∀ c, t.data = some c → s.conn c = some k) (hedge : t.edge = true → t.data ≠ none)
    (hpc : ∀ c ∈ pc.objs, s.conn c ≠ none) : Inv P { s.setTcp k t with pc := pc } := by
  refine I.frame rfl rfl rfl (Nat.le_refl _) ?_ ?_ I.backlog I.backlogNodup hpc
  · intro j c h
    by_cases hj : j = k
    · subst hj
      simp only [Srv.setTcp, Function.update_self] at h
      exact hdata c h
    · simp only [Srv.setTcp, Function.update_of_ne hj] at h
      exact I.data h
  · intro j h
    by_cases hj : j = k
    · subst hj
      simp only [Srv.setTcp, Function.update_self] at h ⊢
      exact hedge h
    · simp only [Srv.setTcp, Function.update_of_ne hj] at h ⊢
      exact I.edge h

/-- What a client does to its connection. -/
theorem Inv.client (I : Inv P s) {k : Nat} {t : Tcp} (hd : t.data = (s.tcp k).data)
    (he : t.edge = (s.tcp k).edge) : Inv P (s.setTcp k t.wake) := by
  have hedge : t.edge = true → t.data ≠ none := by rw [hd, he]; exact I.edge
  have hkeep : Inv P { s.setTcp k t.wake with pc := s.pc } :=
    I.setTcp (fun c h => I.data (by rw [← hd]; exact h)) (wake_edge hedge) I.pc
  exact hkeep

theorem Inv.setPc (I : Inv P s) {pc : Pc} (hpc : ∀ c ∈ pc.objs, s.conn c ≠ none) :
    Inv P { s with pc := pc } :=
  I.frame rfl rfl rfl (Nat.le_refl _) I.data I.edge I.backlog I.backlogNodup hpc

theorem Inv.connect (I : Inv P s) (room : Nat) :
    Inv P { s with
      tcp := Function.update s.tcp s.next ⟨[], false, room, none, false⟩
      next := s.next + 1
      backlog := s.backlog ++ [s.next]
      listenEdge := true } := by
  refine I.frame rfl rfl rfl (Nat.le_succ _) ?_ ?_ ?_ ?_ I.pc
  · intro k c h
    by_cases hk : k = s.next
    · subst hk
      simp at h
    · simp only [Function.update_of_ne hk] at h
      exact I.data h
  · intro k h
    by_cases hk : k = s.next
    · subst hk
      simp at h
    · simp only [Function.update_of_ne hk] at h ⊢
      exact I.edge h
  · intro k h
    rcases List.mem_append.mp h with h | h
    · exact ⟨Nat.lt_succ_of_lt (I.backlog h).1, (I.backlog h).2⟩
    · cases List.mem_singleton.mp h
      exact ⟨Nat.lt_succ_self _, fun sk hsk => Nat.lt_irrefl _ (I.bound hsk)⟩
  · refine List.nodup_append.mpr ⟨I.backlogNodup, by simp, ?_⟩
    intro k hk j hj hkj
    cases List.mem_singleton.mp hj
    subst hkj
    exact Nat.lt_irrefl _ (I.backlog hk).1

/-- The connections after `ffsock_accept`. -/
theorem Inv.conn_accepted (I : Inv P s) {sk c k : Nat} {rest : List Nat} (hsk : s.fd sk = none)
    (hc : s.heap c = none) {d j : Nat} :
    (Server.accepted P s sk c k rest).conn d = some j ↔ d = c ∧ j = k ∨ s.conn d = some j := by
  by_cases hd : d = c
  · subst hd
    have hnew : (Server.accepted P s sk d k rest).conn d = some k := by
      simp [Srv.conn, Server.accepted]
    have hold : s.conn d = none := by simp [Srv.conn, hc]
    rw [hnew, hold, Option.some.injEq]
    simp [eq_comm]
  · have hheap : (Server.accepted P s sk c k rest).heap d = s.heap d := Function.update_of_ne hd _ _
    simp only [hd, false_and, false_or, Srv.conn, hheap]
    cases hs : s.heap d with
    | none => rfl
    | some sk' =>
      have hne : sk' ≠ sk := by
        rintro rfl
        obtain ⟨i, hi⟩ := I.live hs
        rw [hsk] at hi
        cases hi
      have hfd : (Server.accepted P s sk c k rest).fd sk' = s.fd sk' := Function.update_of_ne hne _ _
      rw [Option.bind_some, Option.bind_some, hfd]

/-- The connections after `mrt_conn_free`. -/
theorem Inv.conn_connFree (I : Inv P s) {c sk k : Nat} (hc : s.heap c = some sk) {d j : Nat} :
    (s.connFree c sk k).conn d = some j ↔ d ≠ c ∧ s.conn d = some j := by
  by_cases hd : d = c
  · subst hd
    simp [Srv.conn, Srv.connFree]
  · have hheap : (s.connFree c sk k).heap d = s.heap d := Function.update_of_ne hd _ _
    simp only [Srv.conn, hheap, ne_eq, hd, not_false_eq_true, true_and]
    cases hs : s.heap d with
    | none => rfl
    | some sk' =>
      have hne : sk' ≠ sk := by
        rintro rfl
        exact hd (I.heapInj hs hc)
      have hfd : (s.connFree c sk k).fd sk' = s.fd sk' := Function.update_of_ne hne _ _
      rw [Option.bind_some, Option.bind_some, hfd]

theorem Inv.accepted (I : Inv P s) {sk c k : Nat} {rest : List Nat} (hb : s.backlog = k :: rest)
    (hsk : s.fd sk = none) (hc : s.heap c = none) : Inv P (accepted P s sk c k rest) := by
  have hk := I.backlog (show k ∈ s.backlog by simp [hb])
  have hrest : k ∉ rest ∧ rest.Nodup := List.nodup_cons.mp (hb ▸ I.backlogNodup)
  have hheap {d sk'} (h : s.heap d = some sk') : d ≠ c ∧ sk' ≠ sk := by
    refine ⟨?_, ?_⟩
    · rintro rfl
      rw [hc] at h
      cases h
    · rintro rfl
      obtain ⟨j, hj⟩ := I.live h
      rw [hsk] at hj
      cases hj
  have hnew : c ∉ s.conns := fun h => I.conns h hc
  constructor
  · intro sk₁ sk₂ j h₁ h₂
    simp only [Server.accepted, Function.update_apply] at h₁ h₂
    split at h₁ <;> split at h₂
    · rename_i e₁ e₂
      rw [e₁, e₂]
    · cases h₁
      exact absurd h₂ (hk.2 _)
    · cases h₂
      exact absurd h₁ (hk.2 _)
    · exact I.fdInj h₁ h₂
  · intro d₁ d₂ sk' h₁ h₂
    simp only [Server.accepted, Function.update_apply] at h₁ h₂
    split at h₁ <;> split at h₂
    · rename_i e₁ e₂
      rw [e₁, e₂]
    · cases h₁
      exact absurd rfl (hheap h₂).2
    · cases h₂
      exact absurd rfl (hheap h₁).2
    · exact I.heapInj h₁ h₂
  · intro d sk' h
    simp only [Server.accepted, Function.update_apply] at h ⊢
    split at h
    · cases h
      exact ⟨k, by simp⟩
    · rw [if_neg (hheap h).2]
      exact I.live h
  · intro sk' j h
    simp only [Server.accepted, Function.update_apply] at h ⊢
    split at h
    · rename_i e
      exact ⟨c, by simp [e]⟩
    · obtain ⟨d, hd⟩ := I.owned h
      exact ⟨d, by rw [if_neg (hheap hd).1, hd]⟩
  · intro sk' j h
    simp only [Server.accepted, Function.update_apply] at h ⊢
    split at h
    · cases h
      exact hk.1
    · exact I.bound h
  · intro j d h
    exact (I.conn_accepted hsk hc).mpr (Or.inr (I.data h))
  · exact I.edge
  · intro j h
    have hj := I.backlog (show j ∈ s.backlog by rw [hb]; exact List.mem_cons_of_mem _ h)
    refine ⟨hj.1, ?_⟩
    intro sk' h'
    simp only [Server.accepted, Function.update_apply] at h'
    split at h'
    · cases h'
      exact hrest.1 h
    · exact hj.2 sk' h'
  · exact hrest.2
  · simp only [Server.accepted]
    split
    · exact List.nodup_append.mpr ⟨I.nodup, by simp, by
        intro d hd e he hde
        cases List.mem_singleton.mp he
        exact hnew (hde ▸ hd)⟩
    · exact I.nodup
  · intro d hd
    simp only [Server.accepted, Function.update_apply] at hd ⊢
    split
    · simp
    · rename_i hdc
      split at hd
      · rcases List.mem_append.mp hd with hd | hd
        · exact I.conns hd
        · exact absurd (List.mem_singleton.mp hd) hdc
      · exact I.conns hd
  · intro hv d hd
    simp only [Server.accepted, Function.update_apply, hv, if_true] at hd ⊢
    split at hd
    · rename_i e
      simp [e]
    · exact List.mem_append_left _ (I.vector hv hd)
  · intro d hd
    cases List.mem_singleton.mp hd
    simp [Srv.conn, Server.accepted]

theorem Inv.connFree (I : Inv P s) {c sk k : Nat} (hc : s.heap c = some sk)
    (hk : s.fd sk = some k) : Inv P { s.connFree c sk k with pc := .wait } := by
  have hother {d sk'} (hd : d ≠ c) (h : s.heap d = some sk') : sk' ≠ sk := by
    rintro rfl
    exact hd (I.heapInj h hc)
  constructor
  · intro sk₁ sk₂ j h₁ h₂
    simp only [Srv.connFree, Function.update_apply] at h₁ h₂
    split at h₁
    · cases h₁
    · split at h₂
      · cases h₂
      · exact I.fdInj h₁ h₂
  · intro d₁ d₂ sk' h₁ h₂
    simp only [Srv.connFree, Function.update_apply] at h₁ h₂
    split at h₁
    · cases h₁
    · split at h₂
      · cases h₂
      · exact I.heapInj h₁ h₂
  · intro d sk' h
    simp only [Srv.connFree, Function.update_apply] at h ⊢
    split at h
    · cases h
    · rename_i hd
      rw [if_neg (hother hd h)]
      exact I.live h
  · intro sk' j h
    simp only [Srv.connFree, Function.update_apply] at h ⊢
    split at h
    · cases h
    · rename_i hsk
      obtain ⟨d, hd⟩ := I.owned h
      refine ⟨d, ?_⟩
      rw [if_neg, hd]
      rintro rfl
      rw [hc] at hd
      cases hd
      exact hsk rfl
  · intro sk' j h
    simp only [Srv.connFree, Function.update_apply] at h ⊢
    split at h
    · cases h
    · exact I.bound h
  · intro j d h
    by_cases hj : j = k
    · subst hj
      simp [Srv.connFree] at h
    · simp only [Srv.connFree, Function.update_of_ne hj] at h
      refine (I.conn_connFree (k := k) hc).mpr ⟨?_, I.data h⟩
      rintro rfl
      have hd := I.data h
      rw [conn_eq_some.mpr ⟨sk, hc, hk⟩] at hd
      cases hd
      exact hj rfl
  · intro j h
    by_cases hj : j = k
    · subst hj
      simp [Srv.connFree] at h
    · simp only [Srv.connFree, Function.update_of_ne hj] at h ⊢
      exact I.edge h
  · intro j h
    refine ⟨(I.backlog h).1, ?_⟩
    intro sk' h'
    simp only [Srv.connFree, Function.update_apply] at h'
    split at h'
    · cases h'
    · exact (I.backlog h).2 sk' h'
  · exact I.backlogNodup
  · exact unlinkConn_nodup I.nodup c
  · intro d hd
    obtain ⟨hdc, hmem⟩ := (mem_unlinkConn I.nodup).mp hd
    simp only [Srv.connFree, Function.update_of_ne hdc]
    exact I.conns hmem
  · intro hv d hd
    simp only [Srv.connFree, Function.update_apply] at hd ⊢
    split at hd
    · exact absurd rfl hd
    · rename_i hdc
      exact (mem_unlinkConn I.nodup).mpr ⟨hdc, I.vector hv hd⟩
  · intro d hd
    cases hd

theorem Inv.no_fault (I : Inv P s) (hs : SStep P s a s' ev) : ev ≠ .fault := by
  intro hev
  cases hs with
  | waitFault k c hpc hd hc =>
    have := I.data hd
    simp [Srv.conn, hc] at this
  | attachFault c hpc hk | recvFault n c hpc hk =>
    exact I.pc c (by simp [hpc, Pc.objs]) hk
  | sendFault n c it data its hpc hk =>
    exact I.pc it (by simp [hpc, Pc.objs]) hk
  | _ => cases hev

/-- The invariant over one step. -/
theorem Inv.step (hP : P.Local) (I : Inv P s) (hs : SStep P s a s' ev) : Inv P s' := by
  have hnil : ∀ c ∈ ([] : List Nat), s.conn c ≠ none := by simp
  have hsend {c data it its} (hpc : s.pc = .send c data (it :: its)) :
      ∀ d ∈ (sendNext c data its).objs, s.conn d ≠ none := by
    intro d hd
    refine I.pc d ?_
    rw [hpc]
    rcases List.mem_cons.mp ((objs_sendNext c data its d).mp hd) with h | h
    · simp [Pc.objs, h]
    · simp [Pc.objs, h]
  cases hs with
  | connect room => exact I.connect room
  | arrive k bs hk he | fin k hk | drain k n hk => exact I.client rfl rfl
  | waitListen hpc he =>
    exact I.frame rfl rfl rfl (Nat.le_refl _) I.data I.edge I.backlog I.backlogNodup hnil
  | waitConn k c sk hpc he hd hc =>
    refine I.setTcp (fun d h => I.data h) (fun h => by cases h) ?_
    intro d hmem
    cases List.mem_singleton.mp hmem
    exact I.conn_ne_none.mpr (by simp [hc])
  | waitFault k c hpc hd hc => exact I.setPc hnil
  | acceptAgain sk c hpc hb => exact I.setPc hnil
  | accept sk c k rest hpc hb hsk hc => exact I.accepted hb hsk hc
  | attach c k hpc hk =>
    refine I.setTcp (fun d h => by cases h; exact hk) (fun _ h => by cases h) ?_
    intro d hmem
    cases List.mem_singleton.mp hmem
    simp [hk]
  | attachFault c hpc hk | recvFault n c hpc hk | fail hpc => exact I.setPc hnil
  | closed n c sk k hpc hc hk hi he => exact I.connFree hc hk
  | again n c k hpc hk hi he => exact I.setPc hnil
  | received n c k hpc hk hn hmax hlen =>
    refine I.setTcp (fun d h => I.data h) I.edge ?_
    intro d hmem
    have hc : s.conn c ≠ none := by simp [hk]
    rcases List.mem_cons.mp ((objs_sendNext _ _ _ d).mp hmem) with rfl | hmem
    · exact hc
    · rcases hP _ _ d hmem with rfl | hmem
      · exact hc
      · exact I.conn_ne_none.mpr (I.conns hmem)
  | sendAgain n c it k data its hpc hk hr ha => exact I.setPc (hsend hpc)
  | sendDies n c it k data its hpc hk hr ha | sendFault n c it data its hpc hk =>
    exact I.setPc hnil
  | sent n c it k data its hpc hk hn hr hlen =>
    exact I.setTcp (fun d h => I.data h) I.edge (hsend hpc)

theorem run_inv (hP : P.Local) {as : List Act} {t : Srv} {os : List Ev}
    (h : exec (Server.step P) Srv.init as = some (t, os)) : Inv P t ∧ .fault ∉ os := by
  have hrun := exec_output (A := fun _ => True) (B := fun _ => True) (Q := fun ev => ev ≠ .fault)
    (fun s a s' ev I _ _ hs => ⟨Inv.step hP I (step_cases hs), I.no_fault (step_cases hs)⟩)
    as Srv.init t os (inv_init P) (by simp) (by simp) h
  exact ⟨hrun.1, fun hf => hrun.2 _ hf rfl⟩

end Step

/-- **The vector of the router is exact.**  In every run `srv->conns` holds each live connection
    once and no other address, every live connection has an open descriptor of its own and every
    open descriptor belongs to a live connection, every event that `ffkq_wait` may still return
    carries the address of a live connection that is open; no step uses freed memory or a closed
    descriptor. -/
theorem mrt_conns_exact (as : List Act) (t : Srv) (os : List Ev)
    (h : exec (step mrt) Srv.init as = some (t, os)) :
    Ev.fault ∉ os ∧ t.conns.Nodup ∧ (∀ c, c ∈ t.conns ↔ t.heap c ≠ none) ∧
      (∀ c d, t.heap c ≠ none → t.heap c = t.heap d → c = d) ∧
      (∀ sk, t.fd sk ≠ none ↔ ∃ c ∈ t.conns, t.heap c = some sk) ∧
      (∀ k c, (t.tcp k).data = some c → c ∈ t.conns ∧ t.conn c = some k) ∧
      ∀ k, (t.tcp k).edge = true → ∃ c ∈ t.conns, t.conn c = some k := by
  obtain ⟨I, hf⟩ := run_inv mrt_local h
  have hmem (c : Nat) : c ∈ t.conns ↔ t.heap c ≠ none := ⟨I.conns, I.vector rfl⟩
  have hdata (k c : Nat) (hd : (t.tcp k).data = some c) : c ∈ t.conns ∧ t.conn c = some k := by
    have hk := I.data hd
    exact ⟨(hmem c).mpr (I.conn_ne_none.mp (by simp [hk])), hk⟩
  refine ⟨hf, I.nodup, hmem, ?_, ?_, hdata, ?_⟩
  · intro c d hc hcd
    obtain ⟨sk, hsk⟩ := Option.ne_none_iff_exists'.mp hc
    exact I.heapInj hsk (hcd ▸ hsk)
  · intro sk
    constructor
    · intro hsk
      obtain ⟨k, hk⟩ := Option.ne_none_iff_exists'.mp hsk
      obtain ⟨c, hc⟩ := I.owned hk
      exact ⟨c, (hmem c).mpr (by simp [hc]), hc⟩
    · rintro ⟨c, _, hc⟩
      obtain ⟨k, hk⟩ := I.live hc
      simp [hk]
  · intro k he
    obtain ⟨c, hc⟩ := Option.ne_none_iff_exists'.mp (I.edge he)
    exact ⟨c, hdata k c hc⟩

/-- Two clients connect; the first one sends three bytes, of which the second takes two. -/
def twoClients : List Act :=
  [.connect 8, .waitListen, .accept 7 100, .attach, .recv 1, .connect 2, .waitListen, .accept 8 200,
    .attach, .recv 1, .arrive 0 [1, 2, 3], .waitConn 0, .recv 3, .send 3, .send 2, .recv 1]

/-- The first client leaves, and its address is used again. -/
theorem mrt_conns_exact_reuse : ∃ t os, exec (step mrt) Srv.init
      (twoClients ++ [.fin 0, .waitConn 0, .recv 1, .connect 1, .waitListen, .accept 7 100]) =
        some (t, os) ∧
    t.conns = [200, 100] ∧ Ev.fault ∉ os ∧ (∀ c, c ∈ t.conns ↔ t.heap c ≠ none) := by
  refine ⟨_, _, rfl, rfl, ?_⟩
  have h := mrt_conns_exact _ _ _ (rfl : exec (step mrt) Srv.init
    (twoClients ++ [.fin 0, .waitConn 0, .recv 1, .connect 1, .waitListen, .accept 7 100]) = some _)
  exact ⟨h.1, h.2.2.1⟩

end FFSys.Server
