import FFSys.Timer.Refine

/-!
# Periodic timers

A periodic timer is re-added with the key `ffmax(key + interval_msec, now_msec + 1)`, a maximum of
two `ffuint` values, while everything else in the queue compares keys by their signed difference.

* `rearmKey_eq_iff` — the maximum is the later of the two keys exactly if both or none of them
  have passed the wrap of the clock.
* `periodic_iff` — hence exactly then a periodic timer is re-added with the later key, is called
  once in a `process` call, and is not called again before `key + interval_msec`.
-/

set_option autoImplicit false

namespace FFSys.Timer

open FFSys.Lib

variable {ι T : Type} [DecidableEq ι] {F : Ffrbt ι T}

/-- The later of two times less than half a turn apart. -/
def circLater (a b : BitVec 32) : BitVec 32 := if (a - b).toInt < 0 then b else a

/-- How late the timer is at the time `now`. -/
def lateBy (n : Node) (now : BitVec 32) : Nat := (now - n.key).toNat

/-- Of the two times `key + interval_msec` and `now + 1`, both or none are past the wrap of the
    clock, counted from `key`. -/
def SameTurn (n : Node) (now : BitVec 32) : Prop :=
  n.key.toNat + n.intervalMsec.toNat < 2 ^ 32 ↔ n.key.toNat + lateBy n now + 1 < 2 ^ 32

instance (n : Node) (now : BitVec 32) : Decidable (SameTurn n now) :=
  inferInstanceAs (Decidable (_ ↔ _))

/-- The time `t` is `now` or later, and before `key + interval_msec`. -/
def BeforeNext (n : Node) (now t : BitVec 32) : Prop :=
  ∃ e : Nat, t = now + BitVec.ofNat 32 e ∧ lateBy n now + e < n.intervalMsec.toNat

/-! ## The key -/

section Key

variable {n : Node} {now : BitVec 32}

theorem now_eq (n : Node) (now : BitVec 32) :
    now.toNat = (n.key.toNat + lateBy n now) % 2 ^ 32 := by
  unfold lateBy
  bv_omega

theorem interval_small (h : 0 < n.intervalMsec.toInt) :
    0 < n.intervalMsec.toNat ∧ n.intervalMsec.toNat < 2 ^ 31 := by
  rw [BitVec.toInt_eq_toNat_cond] at h
  have := n.intervalMsec.isLt
  split at h <;> omega

theorem next_toNat (n : Node) : (n.key + n.intervalMsec).toNat =
    (n.key.toNat + n.intervalMsec.toNat) % 2 ^ 32 := BitVec.toNat_add ..

theorem now_succ_toNat (n : Node) (now : BitVec 32) :
    (now + 1).toNat = (n.key.toNat + lateBy n now + 1) % 2 ^ 32 := by
  have := now_eq n now
  rw [BitVec.toNat_add, this]
  simp

theorem circLater_eq (hi : 0 < n.intervalMsec.toInt) (hl : lateBy n now < 2 ^ 31) :
    circLater (n.key + n.intervalMsec) (now + 1) =
      if lateBy n now < n.intervalMsec.toNat then n.key + n.intervalMsec else now + 1 := by
  obtain ⟨hi0, hi1⟩ := interval_small hi
  have ha := next_toNat n
  have hb := now_succ_toNat n now
  have hsub := BitVec.toNat_sub (n.key + n.intervalMsec) (now + 1)
  rw [ha, hb] at hsub
  have hsign : (n.key + n.intervalMsec - (now + 1)).toInt < 0 ↔
      ¬ lateBy n now < n.intervalMsec.toNat := by
    rw [BitVec.toInt_eq_toNat_cond]
    split <;> omega
  unfold circLater
  by_cases h : lateBy n now < n.intervalMsec.toNat
  · rw [if_pos h, if_neg (by rw [hsign]; exact not_not.mpr h)]
  · rw [if_neg h, if_pos (hsign.mpr h)]

/-- **The maximum is the later key exactly if both are on the same side of the wrap.** -/
theorem rearmKey_eq_iff (hi : 0 < n.intervalMsec.toInt) (hl : lateBy n now < 2 ^ 31) :
    rearmKey n now = circLater (n.key + n.intervalMsec) (now + 1) ↔ SameTurn n now := by
  obtain ⟨hi0, hi1⟩ := interval_small hi
  have ha := next_toNat n
  have hb := now_succ_toNat n now
  have hk := n.key.isLt
  rw [circLater_eq hi hl, rearmKey, ffmax, SameTurn, ← BitVec.toNat_inj, ha, hb]
  split <;> split <;> omega

/-- The later key is after `now`. -/
theorem circLater_after (hi : 0 < n.intervalMsec.toInt) (hl : lateBy n now < 2 ^ 31) :
    0 < (circLater (n.key + n.intervalMsec) (now + 1) - now).toInt := by
  obtain ⟨hi0, hi1⟩ := interval_small hi
  have ha := next_toNat n
  have hb := now_succ_toNat n now
  have hn := now_eq n now
  rw [circLater_eq hi hl, BitVec.toInt_eq_toNat_cond, BitVec.toNat_sub]
  split <;> split <;> omega

/-- If the timer is not late by an interval, the later key is after every time before
    `key + interval_msec`. -/
theorem circLater_after_of_beforeNext (hi : 0 < n.intervalMsec.toInt) (hl : lateBy n now < 2 ^ 31)
    {t : BitVec 32} (ht : BeforeNext n now t) :
    0 < (circLater (n.key + n.intervalMsec) (now + 1) - t).toInt := by
  obtain ⟨e, rfl, he⟩ := ht
  obtain ⟨hi0, hi1⟩ := interval_small hi
  have ha := next_toNat n
  have hn := now_eq n now
  have ht : (now + BitVec.ofNat 32 e).toNat = (n.key.toNat + lateBy n now + e) % 2 ^ 32 := by
    rw [BitVec.toNat_add, BitVec.toNat_ofNat, hn]
    omega
  rw [circLater_eq hi hl, if_pos (by omega), BitVec.toInt_eq_toNat_cond, BitVec.toNat_sub, ha, ht]
  split <;> omega

end Key

/-! ## The calls -/

/-- A handler is only called at a time that is not before the key. -/
theorem called_due {s s' : St (Timerqueue ι T) (BitVec 32)} {op : Op ι (BitVec 32)} {x : ι}
    {func param : Nat} (L : Linked F s.q)
    (h : QueueStep (codeOps F) s op = some (s', .called x func param)) :
    ∃ now n frames, s.frames = (now, n) :: frames ∧ ((s.q.mem x).key - now).toInt ≤ 0 ∧
      s'.frames = s.frames ∧ s'.q = expired F s.q x now := by
  rcases queueStep_q h with ⟨ho, _⟩ | ⟨now, n, frames, y, _, _, _, hfr, hfr', ho, hq⟩
  · exact absurd rfl (ho x func param)
  · cases ho
    obtain ⟨_, hdue, he⟩ := processNext_some L hq
    exact ⟨now, n, frames, hfr, hdue, hfr', he⟩

omit [DecidableEq ι] in
/-- Where the times of the `process` calls in progress come from. -/
theorem frames_times {τ Q : Type} {I : QueueOps ι τ Q} {s s' : St Q τ} {op : Op ι τ} {o : Out ι}
    (h : QueueStep I s op = some (s', o)) :
    ∀ f ∈ s'.frames, (∃ f' ∈ s.frames, f'.1 = f.1) ∨ op = .process f.1 := by
  intro f hf
  cases op with
  | add x now interval func param =>
    simp only [QueueStep] at h
    split at h <;> cases h
    exact Or.inl ⟨f, hf, rfl⟩
  | addnode x =>
    simp only [QueueStep] at h
    split at h <;> cases h
    exact Or.inl ⟨f, hf, rfl⟩
  | remove x =>
    simp only [QueueStep] at h
    split at h <;> cases h
    exact Or.inl ⟨f, hf, rfl⟩
  | process now =>
    simp only [QueueStep] at h
    split at h <;> cases h
    rcases List.mem_cons.mp hf with rfl | hf
    · exact Or.inr rfl
    · exact Or.inl ⟨f, hf, rfl⟩
  | next =>
    simp only [QueueStep] at h
    split at h
    · rename_i now n frames _ hfr
      split at h <;> cases h
      · exact Or.inl ⟨f, by rw [hfr]; exact List.mem_cons_of_mem _ hf, rfl⟩
      · exact Or.inl ⟨f, hf, rfl⟩
    · cases h
  | ret =>
    simp only [QueueStep] at h
    split at h
    · rename_i now n frames _ hfr
      cases h
      rw [hfr]
      rcases List.mem_cons.mp hf with rfl | hf
      · exact Or.inl ⟨(now, n), List.mem_cons_self, rfl⟩
      · exact Or.inl ⟨f, List.mem_cons_of_mem _ hf, rfl⟩
    · cases h

omit [DecidableEq ι] in
/-- Within a `process` call whose handlers only return, its time stays the same. -/
theorem frames_same {τ Q : Type} {I : QueueOps ι τ Q} {s s' : St Q τ} {op : Op ι τ} {o : Out ι}
    (h : QueueStep I s op = some (s', o)) (hop : op = .ret ∨ op = .next) (ho : ∀ n, o ≠ .finished n)
    {now : τ} (hf : ∃ n frames, s.frames = (now, n) :: frames) :
    ∃ n frames, s'.frames = (now, n) :: frames := by
  obtain ⟨n, frames, hf⟩ := hf
  rcases hop with rfl | rfl
  · simp only [QueueStep, hf] at h
    split at h
    · rename_i heq
      cases heq
      cases h
      exact ⟨_, _, rfl⟩
    · cases h
  · simp only [QueueStep, hf] at h
    split at h
    · rename_i heq
      cases heq
      split at h <;> cases h
      · exact absurd rfl (ho n)
      · exact ⟨n, frames, rfl⟩
    · cases h

/-- What a call of the handler of the periodic timer `x`, with the node `n`, at the time `now` has
    to lead to: the state `s` in which the handler runs. -/
structure Rearmed (F : Ffrbt ι T) (n : Node) (now : BitVec 32) (x : ι)
    (s : St (Timerqueue ι T) (BitVec 32)) : Prop where
  /-- It is queued again with the later of the two keys, -/
  queued : x ∈ s.q.nodes F
  key : (s.q.mem x).key = circLater (n.key + n.intervalMsec) (now + 1)
  /-- which is after `now`. -/
  after : 0 < ((s.q.mem x).key - now).toInt
  /-- Until this `process` call ends, it is not called again if the handlers only return. -/
  once : ∀ ops s' os, (∀ op ∈ ops, op = .ret ∨ op = .next) →
    exec (QueueStep (codeOps F)) s ops = some (s', os) → (∀ k, .finished k ∉ os) →
    x ∉ handlerCalls os
  /-- It is not called by any `process` call before `key + interval_msec`. -/
  notBefore : (∀ f ∈ s.frames, BeforeNext n now f.1) → ∀ ops s' os,
    (∀ op ∈ ops, ¬ op.Adds x ∧ ∀ t, op = .process t → BeforeNext n now t) →
    exec (QueueStep (codeOps F)) s ops = some (s', os) → x ∉ handlerCalls os

section Calls

variable {s : St (Timerqueue ι T) (BitVec 32)} {x : ι}

/-- A node whose key is after the time of the innermost `process` call is not called by it. -/
theorem not_called_once (L : Linked F s.q) {now : BitVec 32}
    (hf : ∃ n frames, s.frames = (now, n) :: frames)
    (hafter : 0 < ((s.q.mem x).key - now).toInt) {ops : List (Op ι (BitVec 32))}
    {s' : St (Timerqueue ι T) (BitVec 32)} {os : List (Out ι)}
    (hops : ∀ op ∈ ops, op = .ret ∨ op = .next)
    (hrun : exec (QueueStep (codeOps F)) s ops = some (s', os)) (hos : ∀ k, .finished k ∉ os) :
    x ∉ handlerCalls os := by
  have hstep : ∀ s op s' o, (Linked F s.q ∧ (∃ n frames, s.frames = (now, n) :: frames) ∧
        0 < ((s.q.mem x).key - now).toInt) → (op = .ret ∨ op = .next) → (∀ k, o ≠ .finished k) →
      QueueStep (codeOps F) s op = some (s', o) →
      (Linked F s'.q ∧ (∃ n frames, s'.frames = (now, n) :: frames) ∧
        0 < ((s'.q.mem x).key - now).toInt) ∧ ∀ func param, o ≠ .called x func param := by
    rintro s op s' o ⟨L, hf, hafter⟩ hop ho hs
    have hno : ∀ func param, o ≠ .called x func param := by
      rintro func param rfl
      obtain ⟨t, n, frames, hfr, hdue, _⟩ := called_due L hs
      obtain ⟨n', frames', hfr'⟩ := hf
      rw [hfr'] at hfr
      cases hfr
      omega
    have hadds : ¬ op.Adds x := by
      rcases hop with rfl | rfl <;> exact id
    obtain ⟨L', hother⟩ := step_linked L hs
    refine ⟨⟨L', frames_same hs hop ho hf, ?_⟩, hno⟩
    rw [(hother x hadds hno).2]
    exact hafter
  exact not_mem_handlerCalls (exec_output hstep ops s s' os ⟨L, hf, hafter⟩ hops
    (fun o ho k he => hos k (he ▸ ho)) hrun).2

/-- A node whose key is after the times of all `process` calls is not called. -/
theorem not_called_later (L : Linked F s.q) {P : BitVec 32 → Prop}
    (hP : ∀ t, P t → 0 < ((s.q.mem x).key - t).toInt) (hf : ∀ f ∈ s.frames, P f.1)
    {ops : List (Op ι (BitVec 32))} {s' : St (Timerqueue ι T) (BitVec 32)} {os : List (Out ι)}
    (hops : ∀ op ∈ ops, ¬ op.Adds x ∧ ∀ t, op = .process t → P t)
    (hrun : exec (QueueStep (codeOps F)) s ops = some (s', os)) : x ∉ handlerCalls os := by
  have hstep : ∀ s op s' o, (Linked F s.q ∧ (∀ f ∈ s.frames, P f.1) ∧
        ∀ t, P t → 0 < ((s.q.mem x).key - t).toInt) →
      (¬ op.Adds x ∧ ∀ t, op = .process t → P t) → True →
      QueueStep (codeOps F) s op = some (s', o) →
      (Linked F s'.q ∧ (∀ f ∈ s'.frames, P f.1) ∧
        ∀ t, P t → 0 < ((s'.q.mem x).key - t).toInt) ∧ ∀ func param, o ≠ .called x func param := by
    rintro s op s' o ⟨L, hf, hP⟩ ⟨hadds, hproc⟩ _ hs
    have hno : ∀ func param, o ≠ .called x func param := by
      rintro func param rfl
      obtain ⟨t, n, frames, hfr, hdue, _⟩ := called_due L hs
      have := hP t (hf (t, n) (by rw [hfr]; exact List.mem_cons_self))
      omega
    obtain ⟨L', hother⟩ := step_linked L hs
    refine ⟨⟨L', ?_, ?_⟩, hno⟩
    · intro f hf'
      rcases frames_times hs f hf' with ⟨f', hmem, he⟩ | he
      · rw [← he]; exact hf f' hmem
      · exact hproc f.1 he
    · rw [(hother x hadds hno).2]
      exact hP
  exact not_mem_handlerCalls (exec_output hstep ops s s' os ⟨L, hf, hP⟩ hops (by simp) hrun).2

end Calls

/-- The node of a periodic timer when its handler is called. -/
theorem expired_periodic {q : Timerqueue ι T} {x : ι} {now : BitVec 32} (L : Linked F q)
    (hi : 0 < (q.mem x).intervalMsec.toInt) :
    x ∈ (expired F q x now).nodes F ∧ ((expired F q x now).mem x).key = rearmKey (q.mem x) now := by
  obtain ⟨L1, _⟩ := remove_spec L x
  unfold expired
  simp only [if_pos hi]
  generalize (fftimerqueueRemove F q x).1 = q1 at L1 ⊢
  have L2 : Linked F (q1.set x { q1.mem x with key := rearmKey (q.mem x) now }) := L1.set rfl
  obtain ⟨_, hn, _, hm⟩ := addnode_spec L2 x
  refine ⟨hn.mem_iff.mpr List.mem_cons_self, ?_⟩
  rw [key_update_active hm, set_mem_self]

/-- **Periodic timers.**  When `fftimerqueue_process(now)` calls the handler of a periodic timer
    that is less than half a turn late, the timer is re-armed as it should be if and only if
    `key + interval_msec` and `now + 1` are on the same side of the wrap of the clock. -/
theorem periodic_iff (F : Ffrbt ι T) (t : T) (ops : List (Op ι (BitVec 32)))
    (s s' : St (Timerqueue ι T) (BitVec 32)) (os : List (Out ι)) (x : ι) (func param : Nat)
    (now n : BitVec 32) (frames : List (BitVec 32 × BitVec 32))
    (hrun : exec (QueueStep (codeOps F)) (startSt F t) ops = some (s, os))
    (hframes : s.frames = (now, n) :: frames)
    (hcall : QueueStep (codeOps F) s .next = some (s', .called x func param))
    (hi : 0 < (s.q.mem x).intervalMsec.toInt) (hl : (now - (s.q.mem x).key).toNat < 2 ^ 31) :
    Rearmed F (s.q.mem x) now x s' ↔ SameTurn (s.q.mem x) now := by
  have L := run_linked hrun
  have L' := (step_linked L hcall).1
  obtain ⟨now', n', frames', hf, _, hf', hq⟩ := called_due L hcall
  rw [hframes] at hf
  cases hf
  obtain ⟨hmem, hkey⟩ := @expired_periodic _ _ _ F s.q x now L hi
  rw [← hq] at hmem hkey
  constructor
  · intro h
    rw [← rearmKey_eq_iff hi hl, ← hkey]
    exact h.key
  · intro h
    rw [← rearmKey_eq_iff hi hl] at h
    have hk : (s'.q.mem x).key =
        circLater ((s.q.mem x).key + (s.q.mem x).intervalMsec) (now + 1) := hkey.trans h
    have hafter : 0 < ((s'.q.mem x).key - now).toInt := by
      rw [hk]; exact circLater_after hi hl
    refine ⟨hmem, hk, hafter, ?_, ?_⟩
    · intro ops' s₂ os₂ hops hr hos
      exact not_called_once L' ⟨n, frames, by rw [hf', hframes]⟩ hafter hops hr hos
    · intro hb ops' s₂ os₂ hops hr
      refine not_called_later L' (fun t ht => ?_) hb hops hr
      rw [hk]
      exact circLater_after_of_beforeNext hi hl ht

/-- A run and the next step after it, from what is seen of them. -/
theorem run_next {ops : List (Op (Fin 1) (BitVec 32))} {frames : List (BitVec 32 × BitVec 32)}
    {node : Node} {o : Out (Fin 1)} {key : BitVec 32}
    (h : (exec (QueueStep (codeOps (plainRbt (Fin 1)))) (startSt (plainRbt (Fin 1)) .nil) ops).map
      (fun r => (r.1.frames, r.1.q.mem 0,
        (QueueStep (codeOps (plainRbt (Fin 1))) r.1 .next).map fun r => (r.2, (r.1.q.mem 0).key))) =
      some (frames, node, some (o, key))) :
    ∃ s os s', exec (QueueStep (codeOps (plainRbt (Fin 1)))) (startSt (plainRbt (Fin 1)) .nil) ops =
        some (s, os) ∧ s.frames = frames ∧ s.q.mem 0 = node ∧
      QueueStep (codeOps (plainRbt (Fin 1))) s .next = some (s', o) ∧ (s'.q.mem 0).key = key := by
  obtain ⟨⟨s, os⟩, hrun, heq⟩ := Option.map_eq_some_iff.mp h
  simp only [Prod.mk.injEq] at heq
  obtain ⟨hframes, hnode, hstep⟩ := heq
  obtain ⟨⟨s', o'⟩, hcall, heq⟩ := Option.map_eq_some_iff.mp hstep
  simp only [Prod.mk.injEq] at heq
  obtain ⟨rfl, hkey⟩ := heq
  exact ⟨s, os, s', hrun, hframes, hnode, hcall, hkey⟩

/-- A timer with an interval of 2 ms that is processed on time. -/
theorem periodic_on_time :
    ∃ s s' os, exec (QueueStep (codeOps (plainRbt (Fin 1)))) (startSt (plainRbt (Fin 1)) .nil)
        [.add 0 1 2 7 0, .process 3] = some (s, os) ∧
      QueueStep (codeOps (plainRbt (Fin 1))) s .next = some (s', .called 0 7 0) ∧
      (s'.q.mem 0).key = 5 ∧ Rearmed (plainRbt (Fin 1)) (s.q.mem 0) 3 0 s' := by
  have h : (exec (QueueStep (codeOps (plainRbt (Fin 1)))) (startSt (plainRbt (Fin 1)) .nil)
      [.add 0 1 2 7 0, .process 3]).map (fun r => (r.1.frames, r.1.q.mem 0,
        (QueueStep (codeOps (plainRbt (Fin 1))) r.1 .next).map fun r => (r.2, (r.1.q.mem 0).key))) =
      some ([(3, 0)], ⟨3, 2, true, 7, 0⟩, some (.called 0 7 0, 5)) := by
    decide +kernel
  obtain ⟨s, os, s', hrun, hframes, hnode, hcall, hkey⟩ := run_next h
  refine ⟨s, s', os, hrun, hcall, hkey, ?_⟩
  refine (periodic_iff _ _ _ s s' os 0 7 0 3 0 [] hrun hframes hcall ?_ ?_).mpr ?_
  · rw [hnode]; decide
  · rw [hnode]; decide
  · rw [hnode]; decide

/-- A timer with the key `0xfffffffa` and an interval of 10 ms that is processed at `0xfffffffc`:
    `key + interval_msec` is 4, but the maximum is `0xfffffffd`. -/
theorem periodic_wrap :
    ¬ ∀ (ops : List (Op (Fin 1) (BitVec 32)))
      (s s' : St (Timerqueue (Fin 1) (BinaryTree (Fin 1))) (BitVec 32)) (os : List (Out (Fin 1)))
      (x : Fin 1) (func param : Nat) (now n : BitVec 32) (frames : List (BitVec 32 × BitVec 32)),
      exec (QueueStep (codeOps (plainRbt (Fin 1)))) (startSt (plainRbt (Fin 1)) .nil) ops = some (s, os) →
      s.frames = (now, n) :: frames →
      QueueStep (codeOps (plainRbt (Fin 1))) s .next = some (s', .called x func param) →
      0 < (s.q.mem x).intervalMsec.toInt → (now - (s.q.mem x).key).toNat < 2 ^ 31 →
      Rearmed (plainRbt (Fin 1)) (s.q.mem x) now x s' := by
  have h : (exec (QueueStep (codeOps (plainRbt (Fin 1)))) (startSt (plainRbt (Fin 1)) .nil)
      [.add 0 0xfffffff0 10 7 0, .process 0xfffffffc]).map (fun r => (r.1.frames, r.1.q.mem 0,
        (QueueStep (codeOps (plainRbt (Fin 1))) r.1 .next).map fun r => (r.2, (r.1.q.mem 0).key))) =
      some ([(0xfffffffc, 0)], ⟨0xfffffffa, 10, true, 7, 0⟩, some (.called 0 7 0, 0xfffffffd)) := by
    decide +kernel
  obtain ⟨s, os, s', hrun, hframes, hnode, hcall, hkey⟩ := run_next h
  intro hall
  have hkey' := (hall _ s s' os 0 7 0 _ _ _ hrun hframes hcall (by rw [hnode]; decide)
    (by rw [hnode]; decide)).key
  rw [hkey, hnode] at hkey'
  revert hkey'
  decide

end FFSys.Timer
