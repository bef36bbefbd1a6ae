import FFSys.Timer.Ideal

/-!
# Runs of the timer queue against the ideal queue

* `step_refines` — a step of one-shot timers refines the ideal step as long as the ideal queue
  stays within a window shorter than `2^31`.
* `ideal_drain` — an ideal `process` whose handlers leave the queue alone calls the handlers of
  the timers that are due, in the order of their deadlines.
* `timerqueue_refines` — every run makes the handler calls of the ideal run, however often the
  32-bit clock goes round.
-/

set_option autoImplicit false

namespace FFSys.Timer

open FFSys.Lib

variable {ι T : Type} [DecidableEq ι] {F : Ffrbt ι T}

/-- The queues are related, and the `process` calls in progress go by the same times. -/
structure StRefines (F : Ffrbt ι T) (s : St (Timerqueue ι T) (BitVec 32)) (s' : St (Ideal ι) Int) :
    Prop where
  q : Refines F s.q s'.q
  frames : s.frames = s'.frames.map (fun f => (msec f.1, f.2))
  atHead : s.atHead = s'.atHead


/-! ## One step -/

theorem step_refines {s : St (Timerqueue ι T) (BitVec 32)} {s' : St (Ideal ι) Int} {op : Op ι Int}
    (R : StRefines F s s') (hone : op.OneShot) (hw : InWindow s')
    (hw' : ∀ t' o, QueueStep idealOps s' op = some (t', o) → InWindow t') :
    SameStep (StRefines F) (QueueStep (codeOps F) s op.toMsec) (QueueStep idealOps s' op) := by
  obtain ⟨Rq, hframes, hat⟩ := R
  cases op with
  | add x now interval func param =>
    simp only [Op.toMsec, QueueStep, hat] at hw' ⊢
    cases hh : s'.atHead with
    | true => trivial
    | false =>
      obtain ⟨w, hq, _⟩ := hw' _ _ (by rw [hh]; rfl)
      exact ⟨rfl, add_refines Rq hone hq, hframes, rfl⟩
  | addnode x =>
    simp only [Op.toMsec, QueueStep, hat] at hw' ⊢
    cases hh : s'.atHead with
    | true => trivial
    | false =>
      obtain ⟨w, hq, _⟩ := hw' _ _ (by rw [hh]; rfl)
      exact ⟨rfl, addnode_refines Rq.toAgrees (Rq.order.sublist List.erase_sublist) hq, hframes, rfl⟩
  | remove x =>
    simp only [Op.toMsec, QueueStep, hat]
    cases hh : s'.atHead with
    | true => trivial
    | false =>
      obtain ⟨Rq', hr⟩ := remove_refines Rq x
      exact ⟨congrArg Out.removed hr, Rq', hframes, rfl⟩
  | process now =>
    simp only [Op.toMsec, QueueStep, hat]
    cases hh : s'.atHead with
    | true => trivial
    | false => exact ⟨rfl, Rq, by simp [hframes], rfl⟩
  | next =>
    obtain ⟨w, hq, hf⟩ := hw
    simp only [Op.toMsec, QueueStep, hat, hframes]
    cases hh : s'.atHead with
    | false => trivial
    | true =>
      cases hfr : s'.frames with
      | nil => trivial
      | cons f frames =>
        obtain ⟨now, n⟩ := f
        have hnow : Within w now := hf (now, n) (by rw [hfr]; exact List.mem_cons_self)
        have hnext := next_refines Rq hq hnow
        simp only [List.map_cons, codeOps, idealOps]
        cases h1 : processNext F s.q (msec now) with
        | none =>
          cases h2 : s'.q.next now with
          | none => exact ⟨rfl, Rq, rfl, rfl⟩
          | some y => rw [h1, h2] at hnext; exact hnext.elim
        | some z =>
          cases h2 : s'.q.next now with
          | none => rw [h1, h2] at hnext; exact hnext.elim
          | some y =>
            rw [h1, h2] at hnext
            obtain ⟨q, c⟩ := z
            obtain ⟨q', c'⟩ := y
            obtain ⟨rfl, Rq'⟩ := hnext
            exact ⟨rfl, Rq', by simp, rfl⟩
  | ret =>
    simp only [Op.toMsec, QueueStep, hat, hframes]
    cases hh : s'.atHead with
    | true => trivial
    | false =>
      cases hfr : s'.frames with
      | nil => trivial
      | cons f frames => exact ⟨rfl, Rq, by simp, rfl⟩

theorem start_refines (F : Ffrbt ι T) (t : T) : StRefines F (startSt F t) idealStart := by
  have hnodes : (startSt F t).q.nodes F = [] := by
    simp [startSt, fftimerqueueInit, Timerqueue.nodes, F.shape_init, inorder]
  have I := start_inv F t
  refine ⟨⟨⟨I.toLinked, ?_, ?_, ?_, ?_, ?_⟩, I.order⟩, rfl, rfl⟩
  · intro x; rfl
  · intro x; exact ⟨rfl, rfl⟩
  · intro x
    change (0 : BitVec 32).toInt ≤ 0
    decide
  · rw [hnodes]; exact List.Perm.refl _
  · exact List.Pairwise.nil

/-- Related states have runs with the same outputs that lead to related states. -/
theorem run_refines {s : St (Timerqueue ι T) (BitVec 32)} {s' : St (Ideal ι) Int} {ops : List (Op ι Int)}
    (R : StRefines F s s') (hone : ∀ op ∈ ops, op.OneShot)
    (hw : Always (QueueStep idealOps) InWindow s' ops) :
    SameStep (StRefines F) (exec (QueueStep (codeOps F)) s (ops.map Op.toMsec))
      (exec (QueueStep idealOps) s' ops) :=
  exec_sim (A := Op.OneShot) (P := InWindow)
    (fun _ _ _ hR hA hP hP' => step_refines hR hA hP hP') ops s s' R hone hw

/-! ## Handlers that leave the queue alone -/

/-- The loop makes `k` iterations with a handler call, and each handler only returns. -/
def drain {τ : Type} : Nat → List (Op ι τ)
  | 0 => [.next]
  | k + 1 => .next :: .ret :: drain k

/-- The nodes whose handlers were called, in order. -/
def handlerCalls (os : List (Out ι)) : List ι :=
  os.filterMap fun
    | .called x _ _ => some x
    | _ => none

omit [DecidableEq ι] in
theorem not_mem_handlerCalls {os : List (Out ι)} {x : ι}
    (h : ∀ o ∈ os, ∀ func param, o ≠ .called x func param) : x ∉ handlerCalls os := by
  intro hmem
  simp only [handlerCalls, List.mem_filterMap] at hmem
  obtain ⟨o, ho, hx⟩ := hmem
  cases o with
  | called y func param =>
    simp only [Option.some.injEq] at hx
    exact h _ ho func param (by rw [hx])
  | silent => cases hx
  | removed r => cases hx
  | finished n => cases hx

omit [DecidableEq ι] in
/-- Fewer timers and fewer `process` calls fit into the same window. -/
theorem InWindow.mono {s t : St (Ideal ι) Int} (h : InWindow s) (hm : t.q.mem = s.q.mem)
    (hq : ∀ x ∈ t.q.queue, x ∈ s.q.queue) (hf : ∀ f ∈ t.frames, ∃ f' ∈ s.frames, f'.1 = f.1) :
    InWindow t := by
  obtain ⟨w, h1, h2⟩ := h
  refine ⟨w, fun x hx => ?_, fun f hx => ?_⟩
  · rw [hm]; exact h1 x (hq x hx)
  · obtain ⟨f', hf', he⟩ := hf f hx
    rw [← he]; exact h2 f' hf'

theorem ideal_next_none {q : Ideal ι} {now : Int} (h : q.next now = none) :
    ∀ x ∈ q.queue, now < (q.mem x).deadline := by
  intro x hx
  unfold Ideal.next at h
  split at h
  · rename_i hmin
    rw [earliest_none hmin] at hx
    cases hx
  · rename_i y hmin
    split at h
    · rename_i hd
      have := (earliest_spec hmin).2 x hx
      omega
    · cases h

theorem ideal_next_some {q q' : Ideal ι} {now : Int} {x : ι} {func param : Nat}
    (h : q.next now = some (q', x, func, param)) :
    x ∈ q.queue ∧ (q.mem x).deadline ≤ now ∧ (∀ y ∈ q.queue, (q.mem x).deadline ≤ (q.mem y).deadline) ∧
      q' = { q with queue := q.queue.erase x } := by
  unfold Ideal.next at h
  split at h
  · cases h
  · rename_i y hmin
    split at h
    · cases h
    · rename_i hd
      simp only [Option.some.injEq, Prod.mk.injEq] at h
      obtain ⟨rfl, rfl, _, _⟩ := h
      obtain ⟨h1, h2⟩ := earliest_spec hmin
      exact ⟨h1, by omega, h2, rfl⟩

section Loop

variable {τ Q : Type} {I : QueueOps ι τ Q} {q q' : Q} {now : τ} {n : BitVec 32}
  {frames : List (τ × BitVec 32)} {x : ι} {func param : Nat}

omit [DecidableEq ι] in
theorem loop_break (h : I.next q now = none) :
    QueueStep I ⟨q, (now, n) :: frames, true⟩ .next = some (⟨q, frames, false⟩, .finished n) := by
  simp [QueueStep, h]

omit [DecidableEq ι] in
theorem loop_call (h : I.next q now = some (q', x, func, param)) :
    QueueStep I ⟨q, (now, n) :: frames, true⟩ .next =
      some (⟨q', (now, n) :: frames, false⟩, .called x func param) := by
  simp [QueueStep, h]

omit [DecidableEq ι] in
theorem loop_return (q : Q) :
    QueueStep I ⟨q, (now, n) :: frames, false⟩ .ret =
      some (⟨q, (now, n + 1) :: frames, true⟩, .silent) := rfl

end Loop

/-- **An ideal `process` whose handlers leave the queue alone** calls the handlers of the timers
    that are due, each once and in the order of their deadlines. -/
theorem ideal_drain (now : Int) (frames : List (Int × BitVec 32)) :
    ∀ (k : Nat) (q : Ideal ι) (n : BitVec 32), q.queue.length = k → ∃ L s os,
      L.Perm (q.queue.filter fun x => decide ((q.mem x).deadline ≤ now)) ∧
      L.Pairwise (fun x y => (q.mem x).deadline ≤ (q.mem y).deadline) ∧
      exec (QueueStep idealOps) ⟨q, (now, n) :: frames, true⟩ (drain L.length) = some (s, os) ∧
      handlerCalls os = L ∧ os.getLast? = some (.finished (n + BitVec.ofNat 32 L.length)) ∧
      (InWindow ⟨q, (now, n) :: frames, true⟩ →
        Always (QueueStep idealOps) InWindow ⟨q, (now, n) :: frames, true⟩ (drain L.length)) := by
  intro k
  induction k using Nat.strong_induction_on with
  | _ k ih =>
    intro q n hk
    cases hnext : q.next now with
    | none =>
      have hlate := ideal_next_none hnext
      refine ⟨[], ⟨q, frames, false⟩, [.finished n], ?_, List.Pairwise.nil, ?_, rfl, ?_, fun hw => ?_⟩
      · have hnil : q.queue.filter (fun x => decide ((q.mem x).deadline ≤ now)) = [] := by
          rw [List.filter_eq_nil_iff]
          intro x hx
          have := hlate x hx
          simp only [decide_eq_true_eq]
          omega
        rw [hnil]
      · rw [List.length_nil, drain, exec_of_step (loop_break hnext)]
        rfl
      · simp
      · refine ⟨hw, ?_⟩
        rw [loop_break hnext]
        exact hw.mono rfl (fun x hx => hx) (fun f hf => ⟨f, List.mem_cons_of_mem _ hf, rfl⟩)
    | some r =>
      obtain ⟨q', x, func, param⟩ := r
      obtain ⟨hx, hdue, hmin, hq'⟩ := ideal_next_some hnext
      have hlen : q'.queue.length < k := by
        rw [hq', ← hk, List.length_erase_of_mem hx]
        have := List.length_pos_of_mem hx
        omega
      have hmem : q'.mem = q.mem := by rw [hq']
      obtain ⟨L, s, os, hperm, hsort, hrun, hcalls, hlast, halways⟩ :=
        ih _ hlen q' (n + 1) rfl
      rw [hmem] at hperm hsort
      have hsub : ∀ y ∈ q'.queue, y ∈ q.queue := by
        rw [hq']; exact fun y hy => List.mem_of_mem_erase hy
      refine ⟨x :: L, s, .called x func param :: .silent :: os, ?_, ?_, ?_, ?_, ?_, fun hw => ?_⟩
      · apply (hperm.cons x).trans
        have := (List.perm_cons_erase hx).filter fun y => decide ((q.mem y).deadline ≤ now)
        rw [List.filter_cons_of_pos (by simpa using hdue)] at this
        rw [hq']
        exact this.symm
      · rw [List.pairwise_cons]
        refine ⟨fun y hy => hmin y (hsub y ?_), hsort⟩
        exact List.mem_of_mem_filter (hperm.mem_iff.mp hy)
      · rw [List.length_cons, drain, exec_of_step (loop_call hnext), exec_of_step (loop_return q'), hrun]
        rfl
      · simp only [handlerCalls, List.filterMap_cons] at hcalls ⊢
        rw [hcalls]
      · have hsum : n + BitVec.ofNat 32 (x :: L).length = n + 1 + BitVec.ofNat 32 L.length := by
          rw [List.length_cons, Nat.add_comm, BitVec.ofNat_add, BitVec.add_assoc]
          rfl
        rw [List.getLast?_cons_cons, List.getLast?_cons, hlast, hsum]
        rfl
      · have hframe : ∀ (m : BitVec 32), ∀ f ∈ (now, m) :: frames,
            ∃ f' ∈ (now, n) :: frames, f'.1 = f.1 := by
          intro m f hf
          rcases List.mem_cons.mp hf with rfl | hf
          · exact ⟨(now, n), List.mem_cons_self, rfl⟩
          · exact ⟨f, List.mem_cons_of_mem _ hf, rfl⟩
        refine ⟨hw, ?_⟩
        rw [loop_call hnext]
        refine ⟨hw.mono hmem hsub (hframe n), ?_⟩
        rw [loop_return q']
        exact halways (hw.mono hmem hsub (hframe (n + 1)))

/-! ## Timers that are not queued -/

/-- A node that is not in the tree is not called and stays out until it is added. -/
theorem step_not_called {x : ι} {s s' : St (Timerqueue ι T) (BitVec 32)} {op : Op ι (BitVec 32)}
    {o : Out ι} (hI : Linked F s.q ∧ x ∉ s.q.nodes F) (hop : ¬ op.Adds x)
    (h : QueueStep (codeOps F) s op = some (s', o)) :
    (Linked F s'.q ∧ x ∉ s'.q.nodes F) ∧ ∀ func param, o ≠ .called x func param := by
  obtain ⟨L, hx⟩ := hI
  obtain ⟨L', hother⟩ := step_linked L h
  have ho : ∀ func param, o ≠ .called x func param := by
    rintro func param rfl
    rcases queueStep_q h with ⟨hno, _⟩ | ⟨now, n, frames, y, _, _, _, _, _, ho, hq⟩
    · exact hno x func param rfl
    · cases ho
      exact hx (List.mem_of_head? (processNext_some L hq).1)
  exact ⟨⟨L', fun hm => hx ((hother x hop ho).1 hm)⟩, ho⟩

/-! ## Runs -/

section Related

variable {s : St (Timerqueue ι T) (BitVec 32)} {s' : St (Ideal ι) Int}

/-- No handler is called before its deadline. -/
theorem not_early (R : StRefines F s s') (hw : InWindow s') {s₂ : St (Timerqueue ι T) (BitVec 32)}
    {x : ι} {func param : Nat}
    (h : QueueStep (codeOps F) s .next = some (s₂, .called x func param)) :
    x ∈ s'.q.queue ∧ ∃ now n frames, s'.frames = (now, n) :: frames ∧ (s'.q.mem x).deadline ≤ now := by
  rcases queueStep_q h with ⟨ho, _⟩ | ⟨now, n, frames, y, _, _, _, hfr, _, ho, hq⟩
  · exact absurd rfl (ho x func param)
  · cases ho
    obtain ⟨w, hd, hf⟩ := hw
    have hframes := R.frames
    rw [hfr] at hframes
    cases hs : s'.frames with
    | nil => rw [hs] at hframes; cases hframes
    | cons f rest =>
      obtain ⟨now', n'⟩ := f
      rw [hs, List.map_cons] at hframes
      simp only [List.cons.injEq, Prod.mk.injEq] at hframes
      have hnow : Within w now' := hf (now', n') (by rw [hs]; exact List.mem_cons_self)
      have hnext := next_refines R.q hd hnow
      change processNext F s.q now = _ at hq
      rw [← hframes.1.1, hq] at hnext
      cases h2 : s'.q.next now' with
      | none => rw [h2] at hnext; exact hnext.elim
      | some r =>
        rw [h2] at hnext
        obtain ⟨q', c⟩ := r
        obtain ⟨rfl, _⟩ := hnext
        obtain ⟨hx, hle, _⟩ := ideal_next_some h2
        exact ⟨hx, now', n', rest, rfl, hle⟩

/-- No handler is called for a timer that was removed and not added again. -/
theorem removed_not_called (L : Linked F s.q) {x : ι} {more : List (Op ι (BitVec 32))}
    {s₂ : St (Timerqueue ι T) (BitVec 32)} {os₂ : List (Out ι)} (hmore : ∀ op ∈ more, ¬ op.Adds x)
    (h : exec (QueueStep (codeOps F)) s (.remove x :: more) = some (s₂, os₂)) :
    x ∉ handlerCalls os₂ := by
  obtain ⟨s₁, o, os, h1, h2, rfl⟩ := exec_cons h
  have hstep : (Linked F s₁.q ∧ x ∉ s₁.q.nodes F) ∧ o = .removed (fftimerqueueRemove F s.q x).2 := by
    simp only [QueueStep] at h1
    split at h1
    · cases h1
    · cases h1
      obtain ⟨L1, hn, _⟩ := remove_spec L x
      refine ⟨⟨L1, ?_⟩, rfl⟩
      change x ∉ (fftimerqueueRemove F s.q x).1.nodes F
      rw [hn]
      exact L.nodup.not_mem_erase
  have hout := (exec_output (A := fun op => ¬ op.Adds x) (B := fun _ => True)
    (fun s a s' o hI hA _ hs => step_not_called hI hA hs) more s₁ s₂ os hstep.1 hmore (by simp) h2).2
  refine not_mem_handlerCalls fun o' ho' func param => ?_
  rcases List.mem_cons.mp ho' with rfl | ho'
  · rw [hstep.2]
    intro he
    cases he
  · exact hout o' ho' func param

omit [DecidableEq ι] in
theorem drain_toMsec : ∀ k : Nat, (drain k : List (Op ι Int)).map Op.toMsec = drain k
  | 0 => rfl
  | k + 1 => by simp [drain, Op.toMsec, drain_toMsec k]

omit [DecidableEq ι] in
theorem drain_oneShot : ∀ k : Nat, ∀ op ∈ (drain k : List (Op ι Int)), op.OneShot
  | 0, op, h => by
    rw [drain, List.mem_singleton] at h
    rw [h]; trivial
  | k + 1, op, h => by
    rw [drain, List.mem_cons, List.mem_cons] at h
    rcases h with rfl | rfl | h
    · trivial
    · trivial
    · exact drain_oneShot k op h

/-- A `process` whose handlers leave the queue alone. -/
theorem process_drains (R : StRefines F s s') (hat : s'.atHead = false) {now : Int}
    (hw : InWindow { s' with frames := (now, 0) :: s'.frames }) :
    ∃ L s₂ os₂, L.Nodup ∧
      (∀ x, x ∈ L ↔ x ∈ s'.q.queue ∧ (s'.q.mem x).deadline ≤ now) ∧
      L.Pairwise (fun x y => (s'.q.mem x).deadline ≤ (s'.q.mem y).deadline) ∧
      exec (QueueStep (codeOps F)) s (.process (msec now) :: drain L.length) = some (s₂, os₂) ∧
      handlerCalls os₂ = L ∧ os₂.getLast? = some (.finished (BitVec.ofNat 32 L.length)) := by
  obtain ⟨L, t', os, hperm, hsort, hrun, hcalls, hlast, halways⟩ :=
    ideal_drain now s'.frames _ s'.q 0 rfl
  refine ⟨L, ?_⟩
  have R1 : StRefines F { s with frames := (msec now, 0) :: s.frames, atHead := true }
      ⟨s'.q, (now, 0) :: s'.frames, true⟩ :=
    ⟨R.q, by simp [R.frames], rfl⟩
  have hsim := run_refines R1 (drain_oneShot L.length) (halways hw)
  rw [hrun, drain_toMsec] at hsim
  cases hcode : exec (QueueStep (codeOps F)) { s with frames := (msec now, 0) :: s.frames, atHead := true }
      (drain L.length) with
  | none => rw [hcode] at hsim; exact hsim.elim
  | some r =>
    obtain ⟨s₂, os'⟩ := r
    rw [hcode] at hsim
    obtain ⟨rfl, _⟩ := hsim
    have hproc : QueueStep (codeOps F) s (.process (msec now)) =
        some ({ s with frames := (msec now, 0) :: s.frames, atHead := true }, .silent) := by
      simp [QueueStep, R.atHead, hat]
    refine ⟨s₂, .silent :: os', ?_, ?_, hsort, ?_, ?_, ?_⟩
    · rw [hperm.nodup_iff]
      exact R.q.nodup.filter _
    · intro x
      rw [hperm.mem_iff, List.mem_filter, decide_eq_true_eq]
    · rw [exec_of_step hproc, hcode]
      rfl
    · simpa [handlerCalls] using hcalls
    · rw [List.getLast?_cons, hlast]
      simp

end Related

/-- **The timer queue refines the ideal queue.**  For one-shot timers, as long as the deadlines of
    the queued timers and the times of the `process` calls in progress lie in a window shorter
    than `2^31`, the code makes the handler calls of the ideal queue.  In particular no handler is
    called before its deadline, none is called for a timer that was removed, and if the handlers
    leave the queue alone, exactly the timers that are due are called, once each and in the order
    of their deadlines. -/
theorem timerqueue_refines (F : Ffrbt ι T) (t : T) (ops : List (Op ι Int))
    (hone : ∀ op ∈ ops, op.OneShot)
    (hw : Always (QueueStep idealOps) InWindow idealStart ops) :
    (exec (QueueStep (codeOps F)) (startSt F t) (ops.map Op.toMsec)).map Prod.snd =
      (exec (QueueStep idealOps) idealStart ops).map Prod.snd ∧
    ∀ s os s' os',
      exec (QueueStep (codeOps F)) (startSt F t) (ops.map Op.toMsec) = some (s, os) →
      exec (QueueStep idealOps) idealStart ops = some (s', os') →
      (∀ s₂ x func param, QueueStep (codeOps F) s .next = some (s₂, .called x func param) →
        x ∈ s'.q.queue ∧ ∃ now n frames, s'.frames = (now, n) :: frames ∧
          (s'.q.mem x).deadline ≤ now) ∧
      (∀ x more s₂ os₂, (∀ op ∈ more, ¬ op.Adds x) →
        exec (QueueStep (codeOps F)) s (.remove x :: more) = some (s₂, os₂) →
        x ∉ handlerCalls os₂) ∧
      (∀ now, s'.atHead = false → InWindow { s' with frames := (now, 0) :: s'.frames } →
        ∃ L s₂ os₂, L.Nodup ∧
          (∀ x, x ∈ L ↔ x ∈ s'.q.queue ∧ (s'.q.mem x).deadline ≤ now) ∧
          L.Pairwise (fun x y => (s'.q.mem x).deadline ≤ (s'.q.mem y).deadline) ∧
          exec (QueueStep (codeOps F)) s (.process (msec now) :: drain L.length) = some (s₂, os₂) ∧
          handlerCalls os₂ = L ∧ os₂.getLast? = some (.finished (BitVec.ofNat 32 L.length))) := by
  have hsim := run_refines (start_refines F t) hone hw
  refine ⟨hsim.outputs_eq, ?_⟩
  intro s os s' os' h1 h2
  rw [h1, h2] at hsim
  obtain ⟨_, R⟩ := hsim
  refine ⟨fun s₂ x func param h => not_early R (hw.last h2) h, ?_, ?_⟩
  · intro x more s₂ os₂ hmore h
    exact removed_not_called R.q.linked hmore h
  · intro now hat hwin
    exact process_drains R hat hwin

/-- Two timers on either side of the wrap of the clock at `2^32`, and one that the first handler
    removes. -/
theorem timerqueue_refines_wrap :
    (exec (QueueStep (codeOps (plainRbt (Fin 3)))) (startSt (plainRbt (Fin 3)) .nil)
      ([.add 0 4294967293 (-1) 7 0, .add 1 4294967294 (-4) 8 0, .add 2 4294967293 (-1) 9 0,
        .process 4294967298, .next, .remove 2, .ret, .next, .ret, .next].map Op.toMsec)).map Prod.snd =
    some [.silent, .silent, .silent, .silent, .called 0 7 0, .removed true, .silent, .called 1 8 0,
      .silent, .finished 2] := by
  refine (timerqueue_refines (plainRbt (Fin 3)) .nil _ ?_ ?_).1.trans (by decide +kernel)
  · intro op h
    simp only [List.mem_cons, List.not_mem_nil, or_false] at h
    rcases h with rfl | rfl | rfl | rfl | rfl | rfl | rfl | rfl | rfl | rfl <;>
      simp [Op.OneShot]
  · refine Always.mono (P := fun s => (∀ x ∈ s.q.queue, Within 4294967290 (s.q.mem x).deadline) ∧
      ∀ f ∈ s.frames, Within 4294967290 f.1) (fun s h => ⟨_, h⟩) ?_
    decide +kernel

end FFSys.Timer
