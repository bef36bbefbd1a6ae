import FFSys.Process.ExecWait

/-!
# What `ffps_exec_info_wait` collects

* `Books` — holds in every run: nothing is lost or out of order between the process and the two
  vectors, the loop ends only after `ffps_wait`, and a null pointer is used only if exactly one of
  `output` and `error` is given.
* `FifoInv` — while events come in order, each unread byte is announced by an event or about to be
  read, and the event for the exit comes after the ones for the output.
* `ffps_exec_info_wait_output` — then the function returns 0 only with all of the output; after a
  SIGCHLD for another child it may return 0 without the rest.
* `ffps_exec_info_wait_returns` — after the exit the function returns after a bounded number of
  steps.
-/

set_option autoImplicit false

namespace FFSys.Process.ExecWait

open FFSys.Lib

variable {has : Stream → Bool} {s s' : Sys} {a : Act} {o : Unit}

/-! ## Every run -/

/-- What holds where the function is. -/
def AtPc (has : Stream → Bool) (s : Sys) : Prop :=
  match s.pc with
  | .kq | .sig => s.waited = false
  | .out => s.waited = false ∧ has .out = true
  | .err => (s.waited = true → s.drained .out = true) ∧ (has .out = true ∨ has .err = true)
  | .both => s.waited = true ∧ (has .out = true ∨ has .err = true)
  | .done rc => rc = 0 → s.waited = true ∧ has .out = has .err
  | .crash => has .out ≠ has .err

structure Books (has : Stream → Bool) (s : Sys) : Prop where
  conserved : ∀ b, (s.pipe b).got ++ (s.pipe b).data = (s.pipe b).written
  unused : ∀ b, has b = false → (s.pipe b).data = []
  attached : ∀ b, Src.pipe b ∈ s.queue → has b = true
  drained_has : ∀ b, s.drained b = true → has b = true ∨ ∀ b', has b' = false
  waited : s.waited = true → s.exited.isSome ∧ s.code = s.exited
  at_pc : AtPc has s

theorem Books.at {pc : Pc} (hi : Books has s) (h : s.pc = pc) : AtPc has { s with pc := pc } := by
  subst h
  exact hi.at_pc

/-- Where pipe `b` is read: if the process is gone, it is `output`, or `output` has been read. -/
theorem Books.reading {b : Stream} (hi : Books has s) (hpc : reads s.pc = some b) (hw : s.waited = true) :
    s.pc = .both ∧ b = .out ∨ s.pc = .err ∧ b = .err ∧ s.drained .out = true := by
  cases hp : s.pc <;> rw [hp] at hpc <;> cases hpc
  · have := (hi.at hp).1
    rw [hw] at this
    cases this
  · exact Or.inr ⟨rfl, rfl, (hi.at hp).1 hw⟩
  · exact Or.inl ⟨rfl, rfl⟩

theorem books_init {q : List Src} (hq : q = [] ∨ q = [.sig]) : Books has (init q) := by
  refine ⟨fun _ => rfl, fun _ _ => rfl, ?_, ?_, ?_, rfl⟩
  · intro b hb
    rcases hq with rfl | rfl
    · cases hb
    · simp [init] at hb
  · intro b h
    cases h
  · intro h
    cases h

theorem pipe_write_conserved {p : Pipe} (h : p.got ++ p.data = p.written) (bs : List UInt8) :
    (p.write bs).got ++ (p.write bs).data = (p.write bs).written := by
  simp [Pipe.write, ← h]

theorem pipe_read_conserved {p : Pipe} (h : p.got ++ p.data = p.written) (n : Nat) :
    (p.read n).got ++ (p.read n).data = (p.read n).written := by
  simp [Pipe.read, ← h]

theorem update_pipe {Q : Stream → Pipe → Prop} {f : Stream → Pipe} {b : Stream} {p : Pipe}
    (h : ∀ c, Q c (f c)) (hp : Q b p) (c : Stream) : Q c (Function.update f b p c) := by
  by_cases hc : c = b
  · subst hc
    rw [Function.update_self]
    exact hp
  · rw [Function.update_of_ne hc]
    exact h c

/-- All bits are set only if both vectors are given or none. -/
theorem drained_all {d : Stream → Bool} (hd : ∀ b, d b = true → has b = true ∨ ∀ b', has b' = false)
    (hall : ∀ b, d b = true) : has .out = has .err := by
  rcases hd .out (hall .out) with ho | hn
  · rcases hd .err (hall .err) with he | hn
    · rw [ho, he]
    · rw [hn .out, hn .err]
  · rw [hn .out, hn .err]

theorem attached_notify {x : Src} (hi : ∀ b, Src.pipe b ∈ s.queue → has b = true)
    (hx : ∀ b, x = .pipe b → has b = true) (b : Stream) (hb : Src.pipe b ∈ (s.notify x).queue) :
    has b = true := by
  rcases mem_notify.mp hb with hb | hb
  · exact hi b hb
  · exact hx b hb.symm

theorem books_wait {c : Int} (hi : Books has s) (hc : s.exited = some c) : Books has (s.afterWait has c) := by
  have hdr : ∀ b, (s.afterWait has c).drained b = true → has b = true ∨ ∀ b', has b' = false := by
    intro b hb
    simp only [afterWait_drained, Bool.or_eq_true, Bool.and_eq_true, Bool.not_eq_true'] at hb
    rcases hb with hb | ⟨ho, he⟩
    · exact hi.drained_has b hb
    · refine Or.inr ?_
      rintro (_ | _)
      · exact ho
      · exact he
  refine ⟨hi.conserved, hi.unused, hi.attached, hdr, fun _ => ⟨by simp [hc], by simp [hc]⟩, ?_⟩
  rcases afterWait_pc s has c with ⟨hp, hall⟩ | ⟨hp, e, he⟩
  · rw [AtPc, hp]
    exact fun _ => ⟨rfl, drained_all hdr hall⟩
  · rw [AtPc, hp]
    refine ⟨rfl, ?_⟩
    simp only [afterWait_drained, Bool.or_eq_false_iff, Bool.and_eq_false_iff, Bool.not_eq_false'] at he
    exact he.2

theorem books_again {b : Stream} (hi : Books has s) (hpc : reads s.pc = some b) (hb : has b = true) :
    Books has (s.setDrained b) := by
  have hdr : ∀ c, (s.setDrained b).drained c = true → has c = true ∨ ∀ b', has b' = false := by
    intro c hc
    by_cases hcb : c = b
    · subst hcb
      exact Or.inl hb
    · rw [setDrained_drained, Function.update_of_ne hcb] at hc
      exact hi.drained_has c hc
  refine ⟨hi.conserved, hi.unused, hi.attached, hdr, hi.waited, ?_⟩
  rcases setDrained_pc s b with ⟨hp, hw, hall⟩ | ⟨hp, hne⟩
  · rw [AtPc, hp]
    exact fun _ => ⟨hw, drained_all hdr hall⟩
  · by_cases hboth : s.pc = .both
    · rw [if_pos hboth] at hp
      rw [hboth] at hpc
      cases hpc
      rw [AtPc, hp]
      exact ⟨fun _ => by rw [setDrained_drained, Function.update_self], Or.inl hb⟩
    · rw [if_neg hboth] at hp
      rw [AtPc, hp]
      -- a turn of the loop ends here only as long as the process is not known to be gone
      by_contra hw
      have hw' : s.waited = true := by simpa using hw
      rcases hi.reading hpc hw' with ⟨h, _⟩ | ⟨_, rfl, ho⟩
      · exact hboth h
      · obtain ⟨c, hc⟩ := hne hw'
        cases c
        · rw [setDrained_drained, Function.update_of_ne (by simp), ho] at hc
          cases hc
        · rw [setDrained_drained, Function.update_self] at hc
          cases hc

theorem books_crash {b : Stream} (hi : Books has s) (hpc : reads s.pc = some b) (hb : has b = false) :
    has .out ≠ has .err := by
  intro heq
  have hnone : ∀ c, has c = false := by
    intro c
    cases b <;> cases c
    · exact hb
    · exact heq ▸ hb
    · exact heq.trans hb
    · exact hb
  cases hp : s.pc <;> rw [hp] at hpc <;> cases hpc
  · have := (hi.at hp).2
    simp [hnone] at this
  · have := (hi.at hp).2
    simp [hnone] at this
  · have := (hi.at hp).2
    simp [hnone] at this

theorem books_step (hi : Books has s) (h : SStep has s a s') : Books has s' := by
  cases h with
  | write b bs hrun hb =>
    refine ⟨?_, ?_, attached_notify hi.attached (fun c hc => Src.pipe.inj hc ▸ hb), hi.drained_has,
      hi.waited, hi.at_pc⟩
    · exact update_pipe (Q := fun _ p => p.got ++ p.data = p.written) hi.conserved
        (pipe_write_conserved (hi.conserved b) bs)
    · exact update_pipe (Q := fun c p => has c = false → p.data = []) hi.unused
        (fun hn => absurd hb (by simp [hn]))
  | exit c hrun =>
    refine ⟨hi.conserved, hi.unused, attached_notify hi.attached (fun c hc => by cases hc),
      hi.drained_has, ?_, hi.at_pc⟩
    intro hw
    have := (hi.waited hw).1
    rw [hrun] at this
    cases this
  | stray =>
    exact ⟨hi.conserved, hi.unused, attached_notify hi.attached (fun c hc => by cases hc),
      hi.drained_has, hi.waited, hi.at_pc⟩
  | fetch x hpc hx =>
    have hw : s.waited = false := hi.at hpc
    refine ⟨hi.conserved, hi.unused, fun b hb => hi.attached b (List.mem_of_mem_erase hb),
      hi.drained_has, hi.waited, ?_⟩
    obtain _ | b := x
    · exact hw
    · cases b
      · exact ⟨hw, hi.attached _ hx⟩
      · exact ⟨fun h => absurd h (by simp [hw]), Or.inr (hi.attached _ hx)⟩
  | drop b hb hd =>
    exact ⟨hi.conserved, hi.unused, fun b hb => hi.attached b (List.mem_of_mem_erase hb),
      hi.drained_has, hi.waited, hi.at_pc⟩
  | wait c hpc hc => exact books_wait hi hc
  | waitFails hpc =>
    have hw : s.waited = false := hi.at hpc
    exact ⟨hi.conserved, hi.unused, hi.attached, hi.drained_has, hi.waited, hw⟩
  | crash n b hpc hb =>
    exact ⟨hi.conserved, hi.unused, hi.attached, hi.drained_has, hi.waited, books_crash hi hpc hb⟩
  | again n b hpc hb hd => exact books_again hi hpc hb
  | read n b hpc hd hn =>
    refine ⟨?_, ?_, hi.attached, hi.drained_has, hi.waited, hi.at_pc⟩
    · exact update_pipe (Q := fun _ p => p.got ++ p.data = p.written) hi.conserved
        (pipe_read_conserved (hi.conserved b) n)
    · exact update_pipe (Q := fun c p => has c = false → p.data = []) hi.unused
        (fun hn => absurd (hi.unused b hn) hd)
  | fail hpc =>
    exact ⟨hi.conserved, hi.unused, hi.attached, hi.drained_has, hi.waited, fun h => by cases h⟩

/-! ## Events in order -/

/-- The pipe is read in this state before the next `ffkq_wait`, or the function has ended. -/
def covers : Pc → Stream → Prop
  | .kq, _ | .sig, _ => False
  | .out, b => b = .out
  | .err, b => b = .err
  | _, _ => True

def Ended (pc : Pc) : Prop := pc = .crash ∨ ∃ rc, pc = .done rc

/-- A SIGCHLD that was there from the start comes first. -/
def Stale (s : Sys) : Prop :=
  s.pc = .kq ∧ s.queue.head? = some .sig ∧ ∀ b, s.drained b = false

structure FifoInv (s : Sys) : Prop where
  nodup : s.queue.Nodup
  unread : ∀ b, (s.pipe b).data ≠ [] → Src.pipe b ∈ s.queue ∨ covers s.pc b
  sig : ¬ Ended s.pc → Src.sig ∈ s.queue → Stale s ∨ s.exited.isSome ∧ ∃ q, s.queue = q ++ [.sig]
  waited_drained : s.waited = true → s.drained .err = true → (s.pipe .err).data = []
  waited_err : s.waited = true → s.pc = .err → (s.pipe .out).data = []
  sig_pc : s.pc = .sig → (∃ b, s.drained b = true) →
    s.exited.isSome ∧ ∀ b, (s.pipe b).data = []
  done : s.pc = .done 0 → ∀ b, (s.pipe b).data = []

theorem fifoInv_init {q : List Src} (hq : q = [] ∨ q = [.sig]) : FifoInv (init q) := by
  refine ⟨?_, fun b h => absurd rfl h, ?_, ?_, ?_, ?_, fun _ _ => rfl⟩
  · rcases hq with rfl | rfl
    · exact List.nodup_nil
    · exact List.pairwise_singleton _ _
  · intro _ hs
    rcases hq with rfl | rfl
    · cases hs
    · exact Or.inl ⟨rfl, rfl, fun _ => rfl⟩
  all_goals intro h
  all_goals cases h

theorem notify_nodup (x : Src) (h : s.queue.Nodup) : (s.notify x).queue.Nodup := by
  unfold Sys.notify
  by_cases hx : x ∈ s.queue
  · simpa only [if_pos hx] using h
  · simp only [if_neg hx]
    refine List.nodup_append.mpr ⟨h, List.pairwise_singleton _ _, ?_⟩
    intro y hy z hz hyz
    rw [List.mem_singleton] at hz
    exact hx (hz ▸ hyz ▸ hy)

theorem notify_head {x y : Src} (h : s.queue.head? = some y) : (s.notify x).queue.head? = some y := by
  unfold Sys.notify
  split
  · exact h
  · simp [h]

/-- The event for the exit stays the last one when another one is taken out. -/
theorem erase_sig_last {q q' : List Src} {b : Stream} (hb : Src.pipe b ∈ q') (h : q' = q ++ [.sig]) :
    ∃ q, q'.erase (.pipe b) = q ++ [.sig] := by
  have hq : Src.pipe b ∈ q := by simpa [h] using hb
  exact ⟨q.erase (.pipe b), by rw [h, List.erase_append_left _ hq]⟩

theorem sig_only {q : List Src} (hn : q.Nodup) (hh : q.head? = some .sig)
    (hl : ∃ q', q = q' ++ [.sig]) : q = [.sig] := by
  obtain ⟨q', rfl⟩ := hl
  cases q' with
  | nil => rfl
  | cons x t =>
    simp only [List.cons_append, List.head?_cons, Option.some.injEq] at hh
    subst hh
    simp at hn

theorem fifoInv_write {b : Stream} {bs : List UInt8} (hB : Books has s) (hi : FifoInv s)
    (hrun : s.exited = none) : FifoInv ((s.setPipe b ((s.pipe b).write bs)).notify (.pipe b)) := by
  have hw : s.waited = false := by
    cases hw : s.waited
    · rfl
    · have := (hB.waited hw).1
      simp [hrun] at this
  refine ⟨notify_nodup (s := s.setPipe b _) _ hi.nodup, ?_, ?_, ?_, ?_, ?_, ?_⟩
  · intro c hc
    rw [mem_notify]
    by_cases hcb : c = b
    · exact Or.inl (Or.inr (congrArg _ hcb))
    · have hd : (s.pipe c).data ≠ [] := by
        simpa [Function.update_of_ne hcb] using hc
      rcases hi.unread c hd with h | h
      · exact Or.inl (Or.inl h)
      · exact Or.inr h
  · intro he hs
    rcases mem_notify.mp hs with hs | hs
    · rcases hi.sig he hs with ⟨hpc, hh, hdr⟩ | ⟨hx, _⟩
      · exact Or.inl ⟨hpc, notify_head (s := s.setPipe b _) hh, hdr⟩
      · simp [hrun] at hx
    · cases hs
  · intro h
    simp [hw] at h
  · intro h
    simp [hw] at h
  · intro hpc hdr
    have := (hi.sig_pc hpc hdr).1
    simp [hrun] at this
  · intro hpc
    have := ((hB.at hpc) rfl).1
    simp [hw] at this

theorem fifoInv_exit {c : Int} (hi : FifoInv s) (hrun : s.exited = none) :
    FifoInv ({ s with exited := some c }.notify .sig) := by
  refine ⟨notify_nodup (s := { s with exited := some c }) _ hi.nodup, ?_, ?_,
    hi.waited_drained, hi.waited_err, ?_, hi.done⟩
  · intro b hb
    rw [mem_notify]
    rcases hi.unread b hb with h | h
    · exact Or.inl (Or.inl h)
    · exact Or.inr h
  · intro he _
    by_cases hs : Src.sig ∈ s.queue
    · rcases hi.sig he hs with ⟨hpc, hh, hdr⟩ | ⟨hx, _⟩
      · exact Or.inl ⟨hpc, notify_head (s := { s with exited := some c }) hh, hdr⟩
      · simp [hrun] at hx
    · refine Or.inr ⟨rfl, s.queue, ?_⟩
      simp [Sys.notify, hs]
  · intro hpc hdr
    have := (hi.sig_pc hpc hdr).1
    simp [hrun] at this

theorem fifoInv_fetch {x : Src} (hB : Books has s) (hi : FifoInv s) (hpc : s.pc = .kq)
    (hx : s.queue.head? = some x) :
    FifoInv { s with queue := s.queue.erase x, pc := stateOf x } := by
  have hw : s.waited = false := hB.at hpc
  have hunread : ∀ b, (s.pipe b).data ≠ [] → Src.pipe b ∈ s.queue := by
    intro b hb
    rcases hi.unread b hb with h | h
    · exact h
    · rw [hpc] at h
      cases h
  have hsig := hi.sig (by rw [hpc]; rintro (h | ⟨_, h⟩) <;> cases h)
  have hmem : x ∈ s.queue := List.mem_of_head? hx
  refine ⟨hi.nodup.erase x, ?_, ?_, by simp [hw], by simp [hw], ?_, ?_⟩
  · intro b hb
    by_cases hbx : Src.pipe b = x
    · subst hbx
      refine Or.inr ?_
      cases b <;> rfl
    · exact Or.inl ((List.mem_erase_of_ne hbx).mpr (hunread b hb))
  · intro _ hs
    obtain _ | b := x
    · exact absurd hs (hi.nodup.not_mem_erase)
    · rcases hsig (List.mem_of_mem_erase hs) with ⟨_, hh, _⟩ | ⟨hex, q, hq⟩
      · rw [hx] at hh
        cases hh
      · exact Or.inr ⟨hex, erase_sig_last hmem hq⟩
  · intro hs hdr
    obtain _ | b := x
    · rcases hsig hmem with ⟨_, _, hno⟩ | ⟨hex, hq⟩
      · obtain ⟨b, hb⟩ := hdr
        simp [hno b] at hb
      · refine ⟨hex, ?_⟩
        intro b
        by_contra hb
        have := hunread b hb
        rw [sig_only hi.nodup hx hq] at this
        simp at this
    · cases b <;> cases hs
  · intro hs
    obtain _ | b := x
    · cases hs
    · cases b <;> cases hs

theorem fifoInv_drop {b : Stream} (hi : FifoInv s) (hb : Src.pipe b ∈ s.queue)
    (hd : (s.pipe b).data = []) : FifoInv { s with queue := s.queue.erase (.pipe b) } := by
  refine ⟨hi.nodup.erase _, ?_, ?_, hi.waited_drained, hi.waited_err, hi.sig_pc, hi.done⟩
  · intro c hc
    rcases hi.unread c hc with h | h
    · refine Or.inl ((List.mem_erase_of_ne ?_).mpr h)
      rintro hcb
      cases hcb
      exact hc hd
    · exact Or.inr h
  · intro he hs
    rcases hi.sig he (List.mem_of_mem_erase hs) with ⟨hpc, hh, hdr⟩ | ⟨hex, q, hq⟩
    · refine Or.inl ⟨hpc, ?_, hdr⟩
      cases hq : s.queue with
      | nil => simp [hq] at hh
      | cons y t =>
        simp only [hq, List.head?_cons, Option.some.injEq] at hh
        subst hh
        simp
    · exact Or.inr ⟨hex, erase_sig_last hb hq⟩

theorem fifoInv_wait {c : Int} (hB : Books has s) (hi : FifoInv s) (hpc : s.pc = .sig)
    (hc : s.exited = some c) : FifoInv (s.afterWait has c) := by
  have hunread : ∀ b, (s.pipe b).data ≠ [] → Src.pipe b ∈ s.queue := by
    intro b hb
    rcases hi.unread b hb with h | h
    · exact h
    · rw [hpc] at h
      cases h
  have hsig : Src.sig ∈ s.queue → s.exited.isSome ∧ ∃ q, s.queue = q ++ [.sig] := by
    intro hs
    rcases hi.sig (by rw [hpc]; rintro (h | ⟨_, h⟩) <;> cases h) hs with ⟨hkq, _⟩ | h
    · rw [hpc] at hkq
      cases hkq
    · exact h
  rcases afterWait_pc s has c with ⟨hp, hall⟩ | ⟨hp, e, he⟩
  · -- all bits are set: both pipes are empty already, or there are none
    have hempty : ∀ b, (s.pipe b).data = [] := by
      by_cases hdr : ∃ b, s.drained b = true
      · exact (hi.sig_pc hpc hdr).2
      · intro b
        refine hB.unused b ?_
        have h1 := hall .out
        have hno : ∀ b, s.drained b = false := by simpa using hdr
        simp only [afterWait_drained, hno, Bool.false_or, Bool.and_eq_true, Bool.not_eq_true'] at h1
        cases b
        · exact h1.1
        · exact h1.2
    exact ⟨hi.nodup, fun b hb => Or.inl (hunread b hb), fun _ hs => Or.inr (hsig hs),
      fun _ _ => hempty .err, fun _ _ => hempty .out, fun _ _ => ⟨by simp [hc], hempty⟩, fun _ => hempty⟩
  · have hold : (s.afterWait has c).drained = s.drained := by
      have hany : (!has .out && !has .err) = false := by
        simp only [afterWait_drained, Bool.or_eq_false_iff] at he
        exact he.2
      funext b
      simp only [afterWait_drained, hany, Bool.or_false]
    refine ⟨hi.nodup, fun b hb => Or.inl (hunread b hb), fun _ hs => Or.inr (hsig hs), ?_, ?_, ?_, ?_⟩
    · intro _ hdr
      rw [hold] at hdr
      exact (hi.sig_pc hpc ⟨.err, hdr⟩).2 .err
    all_goals intro h
    · intro h
      rw [hp] at h
      cases h
    all_goals rw [hp] at h
    all_goals cases h

theorem reads_covers {pc : Pc} {b c : Stream} (hr : reads pc = some b) (hc : covers pc c) (hne : c ≠ b) :
    pc = .both ∧ c = .err ∧ b = .out := by
  cases pc <;> cases hr
  · exact absurd hc hne
  · exact absurd hc hne
  · refine ⟨rfl, ?_, rfl⟩
    cases c
    · exact absurd rfl hne
    · rfl

theorem fifoInv_again {b : Stream} (hB : Books has s) (hi : FifoInv s) (hpc : reads s.pc = some b)
    (hd : (s.pipe b).data = []) : FifoInv (s.setDrained b) := by
  have hsig : Src.sig ∈ s.queue → s.exited.isSome ∧ ∃ q, s.queue = q ++ [.sig] := by
    intro hs
    have hne : ¬ Ended s.pc := by
      rintro (h | ⟨_, h⟩) <;> rw [h] at hpc <;> cases hpc
    rcases hi.sig hne hs with ⟨h, _⟩ | h
    · rw [h] at hpc
      cases hpc
    · exact h
  rcases setDrained_pc s b with ⟨hp, hw, hall⟩ | ⟨hp, hne⟩
  · -- the last bit: the other pipe has been found empty since the process is gone
    have hempty : ∀ c, (s.pipe c).data = [] := by
      rcases hB.reading hpc hw with ⟨_, rfl⟩ | ⟨hp', rfl, _⟩
      · have herr := hall .err
        rw [setDrained_drained, Function.update_of_ne (by simp)] at herr
        rintro (_ | _)
        · exact hd
        · exact hi.waited_drained hw herr
      · rintro (_ | _)
        · exact hi.waited_err hw hp'
        · exact hd
    refine ⟨hi.nodup, fun c hc => absurd (hempty c) hc, fun _ hs => Or.inr (hsig hs),
      fun _ _ => hempty .err, fun _ _ => hempty .out, ?_, fun _ => hempty⟩
    intro h
    rw [hp] at h
    cases h
  · have hboth : s.waited = true → s.pc = .both ∧ b = .out := by
      intro hw
      rcases hB.reading hpc hw with h | ⟨_, rfl, ho⟩
      · exact h
      · obtain ⟨c, hc⟩ := hne hw
        cases c
        · rw [setDrained_drained, Function.update_of_ne (by simp), ho] at hc
          cases hc
        · rw [setDrained_drained, Function.update_self] at hc
          cases hc
    refine ⟨hi.nodup, ?_, fun _ hs => Or.inr (hsig hs), ?_, ?_, ?_, ?_⟩
    · intro c hc
      have hcb : c ≠ b := fun h => hc (h ▸ hd)
      rcases hi.unread c hc with h | h
      · exact Or.inl h
      · obtain ⟨h1, h2, _⟩ := reads_covers hpc h hcb
        refine Or.inr ?_
        rw [hp, if_pos h1]
        exact h2
    · intro hw hdr
      obtain ⟨_, rfl⟩ := hboth hw
      rw [setDrained_drained, Function.update_of_ne (by simp)] at hdr
      exact hi.waited_drained hw hdr
    · intro hw _
      obtain ⟨_, rfl⟩ := hboth hw
      exact hd
    all_goals intro h
    all_goals rw [hp] at h
    all_goals split at h
    all_goals cases h

theorem fifoInv_read {b : Stream} (n : Nat) (hi : FifoInv s) (hd : (s.pipe b).data ≠ []) :
    FifoInv (s.setPipe b ((s.pipe b).read n)) := by
  have hempty : ∀ c, (s.pipe c).data = [] →
      ((s.setPipe b ((s.pipe b).read n)).pipe c).data = [] := by
    intro c hc
    have hcb : c ≠ b := fun h => hd (h ▸ hc)
    rw [setPipe_pipe, Function.update_of_ne hcb]
    exact hc
  refine ⟨hi.nodup, ?_, hi.sig, fun hw h => hempty .err (hi.waited_drained hw h),
    fun hw h => hempty .out (hi.waited_err hw h), ?_, fun h c => hempty c (hi.done h c)⟩
  · intro c hc
    exact hi.unread c (fun h => hc (hempty c h))
  · intro h hdr
    exact ⟨(hi.sig_pc h hdr).1, fun c => hempty c ((hi.sig_pc h hdr).2 c)⟩

/-- The function has ended without success. -/
theorem fifoInv_ended {pc : Pc} (hi : FifoInv s) (he : pc = .crash ∨ pc = .done (-1)) :
    FifoInv { s with pc := pc } := by
  have hend : Ended pc := by
    rcases he with h | h
    · exact Or.inl h
    · exact Or.inr ⟨_, h⟩
  refine ⟨hi.nodup, fun b _ => Or.inr ?_, fun h => absurd hend h, hi.waited_drained, ?_, ?_, ?_⟩
  · rcases he with rfl | rfl <;> trivial
  all_goals intro h
  · intro h
    rcases he with rfl | rfl <;> cases h
  all_goals rcases he with rfl | rfl <;> cases h

theorem fifoInv_waitFails (hi : FifoInv s) (hpc : s.pc = .sig) : FifoInv { s with pc := .kq } := by
  refine ⟨hi.nodup, ?_, ?_, hi.waited_drained, fun _ h => (by cases h), ?_, ?_⟩
  · intro b hb
    have := hi.unread b hb
    rwa [hpc] at this
  · intro _ hs
    rcases hi.sig (by rw [hpc]; rintro (h | ⟨_, h⟩) <;> cases h) hs with ⟨h, _⟩ | h
    · rw [hpc] at h
      cases h
    · exact Or.inr h
  all_goals intro h
  all_goals cases h

theorem fifoInv_step (hB : Books has s) (hi : FifoInv s) (hf : Fifo s a) (h : SStep has s a s') :
    FifoInv s' := by
  cases h with
  | write b bs hrun _ => exact fifoInv_write hB hi hrun
  | exit c hrun => exact fifoInv_exit hi hrun
  | stray => exact absurd hf id
  | fetch x hpc _ => exact fifoInv_fetch hB hi hpc hf
  | drop b hb hd => exact fifoInv_drop hi hb hd
  | wait c hpc hc => exact fifoInv_wait hB hi hpc hc
  | waitFails hpc => exact fifoInv_waitFails hi hpc
  | crash n b _ _ => exact fifoInv_ended hi (Or.inl rfl)
  | again n b hpc _ hd => exact fifoInv_again hB hi hpc hd
  | read n b _ hd _ => exact fifoInv_read n hi hd
  | fail _ => exact fifoInv_ended hi (Or.inr rfl)

/-! ## The end -/

/-- Steps of the function, not of the processes or the kernel around it. -/
def Act.own : Act → Bool
  | .fetch _ | .wait | .read _ | .fail => true
  | _ => false

def Pc.work : Pc → Nat
  | .kq => 1
  | .out | .err => 2
  | .both => 3
  | .sig => 4
  | .done _ | .crash => 0

/-- From here the function may come to the next `ffkq_wait`. -/
def Pc.fetches : Pc → Bool
  | .kq | .out | .err => true
  | _ => false

def Sys.unread (s : Sys) : Nat := (s.pipe .out).data.length + (s.pipe .err).data.length

/-- After `ffps_wait` no event is fetched. -/
def Sys.events (s : Sys) : Nat := if s.waited || !s.pc.fetches then 0 else 4 * s.queue.length

/-- A bound for the steps left after the exit. -/
def Sys.work (s : Sys) : Nat := s.events + s.unread + s.pc.work

theorem work_ge (s : Sys) : s.unread + s.pc.work ≤ s.work := by
  unfold Sys.work
  omega

theorem work_ended (h : Ended s.pc) : s.work = s.unread := by
  rcases h with h | ⟨rc, h⟩ <;> simp [Sys.work, Sys.events, h, Pc.fetches, Pc.work]

/-- SIGCHLD is still to come, until it is fetched. -/
def Pending (s : Sys) : Prop :=
  s.exited.isSome → s.pc.fetches = true → s.waited = false → Src.sig ∈ s.queue

theorem fetches_reads {b : Stream} (hpc : reads s.pc = some b) :
    s.pc = .both ∨ s.pc.fetches = true ∧ s.pc ≠ .both ∧ s.pc.work = 2 := by
  cases hp : s.pc <;> rw [hp] at hpc <;> cases hpc
  · exact Or.inr ⟨rfl, by simp, rfl⟩
  · exact Or.inr ⟨rfl, by simp, rfl⟩
  · exact Or.inl rfl

theorem reads_work {b : Stream} (hpc : reads s.pc = some b) : 2 ≤ s.pc.work := by
  rcases fetches_reads hpc with h | ⟨_, _, h⟩
  · rw [h]
    decide
  · omega

theorem pending_step (hB : Books has s) (hi : Pending s) (ha : a ≠ .waitFails) (h : SStep has s a s') :
    Pending s' := by
  cases h with
  | write b bs hrun hb =>
    intro hx
    simp [hrun] at hx
  | exit c hrun => exact fun _ _ _ => mem_notify.mpr (Or.inr rfl)
  | stray => exact fun _ _ _ => mem_notify.mpr (Or.inr rfl)
  | fetch x hpc hx =>
    intro hex hf hw
    have hs := hi hex (by rw [hpc]; rfl) hw
    obtain _ | b := x
    · cases hf
    · exact (List.mem_erase_of_ne (by simp)).mpr hs
  | drop b hb hd =>
    intro hex hf hw
    exact (List.mem_erase_of_ne (by simp)).mpr (hi hex hf hw)
  | wait c hpc hc =>
    intro _ _ hw
    cases hw
  | waitFails hpc => exact absurd rfl ha
  | crash n b hpc hb =>
    intro _ hf
    cases hf
  | again n b hpc hb hd =>
    intro hex _ hw
    rcases fetches_reads hpc with hboth | ⟨hf, _⟩
    · have := (hB.at hboth).1
      rw [show s.waited = false from hw] at this
      cases this
    · exact hi hex hf hw
  | read n b hpc hd hn => exact hi
  | fail hpc =>
    intro _ hf
    cases hf

theorem update_length (f : Stream → Pipe) (b : Stream) (p : Pipe) :
    (Function.update f b p .out).data.length + (Function.update f b p .err).data.length +
      (f b).data.length = (f .out).data.length + (f .err).data.length + p.data.length := by
  cases b
  · rw [Function.update_self, Function.update_of_ne (by simp)]
    omega
  · rw [Function.update_self, Function.update_of_ne (by simp)]
    omega

theorem work_step (hB : Books has s) (hi : Pending s) (hex : s.exited.isSome) (ha : a ≠ .waitFails)
    (h : SStep has s a s') : s'.work + (if a.own then 1 else 0) ≤ s.work := by
  cases h with
  | write b bs hrun hb => simp [hrun] at hex
  | exit c hrun => simp [hrun] at hex
  | stray =>
    by_cases hf : s.pc.fetches = true ∧ s.waited = false
    · have hq : (s.notify .sig).queue = s.queue := if_pos (hi hex hf.1 hf.2)
      simp [Sys.work, Sys.events, Sys.unread, Act.own, hq]
    · have hz : (s.waited || !s.pc.fetches) = true := by
        simp only [Bool.or_eq_true, Bool.not_eq_true']
        by_contra hne
        simp only [not_or, Bool.not_eq_true, Bool.not_eq_false] at hne
        exact hf ⟨hne.2, hne.1⟩
      simp [Sys.work, Sys.events, Sys.unread, Act.own, hz]
  | fetch x hpc hx =>
    have hw : s.waited = false := hB.at hpc
    have hlen := List.length_erase_of_mem hx
    have hpos := List.length_pos_of_mem hx
    obtain _ | b := x
    · simp only [Sys.work, Sys.events, Sys.unread, Act.own, hw, hpc, stateOf, Pc.fetches, Pc.work]
      simp only [Bool.not_false, Bool.not_true, Bool.or_true, Bool.or_false, Bool.false_eq_true, if_true, if_false]
      omega
    · cases b
      all_goals simp only [Sys.work, Sys.events, Sys.unread, Act.own, hw, hpc, stateOf, Pc.fetches, Pc.work]
      all_goals simp only [Bool.not_true, Bool.or_false, Bool.false_eq_true, if_true, if_false]
      all_goals omega
  | drop b hb hd =>
    have hlen := List.length_erase_of_mem hb
    simp only [Sys.work, Sys.events, Sys.unread, Act.own]
    split
    · simp
    · simp
      omega
  | wait c hpc hc =>
    have hz : (s.waited || !s.pc.fetches) = true := by simp [hpc, Pc.fetches]
    rcases afterWait_pc s has c with ⟨hp, _⟩ | ⟨hp, _⟩
    · simp [Sys.work, Sys.events, Sys.unread, Act.own, hp, hpc, Pc.work, Pc.fetches]
    · simp [Sys.work, Sys.events, Sys.unread, Act.own, hp, hpc, Pc.work, Pc.fetches]
  | waitFails hpc => exact absurd rfl ha
  | crash n b hpc hb =>
    have hpos := reads_work hpc
    have hge := work_ge s
    have hended : Sys.work { s with pc := .crash } = s.unread := work_ended (Or.inl rfl)
    rw [hended, show (Act.read n).own = true from rfl, if_pos rfl]
    omega
  | again n b hpc hb hd =>
    have hpos := reads_work hpc
    rcases setDrained_pc s b with ⟨hp, _⟩ | ⟨hp, _⟩
    · have hge := work_ge s
      have hended : (s.setDrained b).work = s.unread := work_ended (Or.inr ⟨0, hp⟩)
      rw [hended, show (Act.read n).own = true from rfl, if_pos rfl]
      omega
    · rcases fetches_reads hpc with hboth | ⟨hf, hne, hwk⟩
      · have hw := (hB.at hboth).1
        rw [if_pos hboth] at hp
        simp [Sys.work, Sys.events, Sys.unread, Act.own, hp, hboth, Pc.fetches, Pc.work, show s.waited = true from hw]
      · rw [if_neg hne] at hp
        have hev : (s.setDrained b).events = s.events := by
          unfold Sys.events
          rw [hp, hf]
          rfl
        have hun : (s.setDrained b).unread = s.unread := rfl
        simp only [Sys.work, hev, hun, hp, hwk, show (Act.read n).own = true from rfl, if_true,
          show Pc.kq.work = 1 from rfl]
        omega
  | read n b hpc hd hn =>
    have hlen := update_length s.pipe b ((s.pipe b).read n)
    have hdrop : ((s.pipe b).read n).data.length + 1 ≤ (s.pipe b).data.length := by
      have := List.length_pos_of_ne_nil hd
      simp only [Pipe.read, List.length_drop]
      omega
    have hev : (s.setPipe b ((s.pipe b).read n)).events = s.events := rfl
    simp only [Sys.work, Sys.unread, hev, setPipe_pipe, setPipe_pc, show (Act.read n).own = true from rfl,
      if_true]
    omega
  | fail hpc =>
    have hpos : 1 ≤ s.pc.work := by
      rcases hpc with h | h
      · rw [h]
        exact Nat.le_refl 1
      · obtain ⟨b, hb⟩ := Option.isSome_iff_exists.mp h
        exact Nat.le_trans (by omega) (reads_work hb)
    have hge := work_ge s
    have hended : Sys.work { s with pc := .done (-1) } = s.unread := work_ended (Or.inr ⟨_, rfl⟩)
    rw [hended, show Act.fail.own = true from rfl, if_pos rfl]
    omega

/-- Until it ends, the function can go on. -/
theorem own_enabled (hB : Books has s) (hi : Pending s) (hex : s.exited.isSome) (he : ¬ Ended s.pc) :
    ∃ a s', a.own = true ∧ step has s a = some (s', ()) := by
  obtain ⟨c, hc⟩ := Option.isSome_iff_exists.mp hex
  have hread : ∀ b, reads s.pc = some b → ∃ s', step has s (.read 1) = some (s', ()) := by
    intro b hb
    simp only [step, hb]
    split
    · exact ⟨_, rfl⟩
    · rw [if_neg (by omega)]
      split
      · exact ⟨_, rfl⟩
      · exact ⟨_, rfl⟩
  cases hp : s.pc with
  | kq =>
    have hs := hi hex (by rw [hp]; rfl) (hB.at hp)
    exact ⟨.fetch .sig, _, rfl, if_pos ⟨hp, hs⟩⟩
  | sig =>
    refine ⟨.wait, s.afterWait has c, rfl, ?_⟩
    simp only [step, hc, hp, if_true]
  | out =>
    obtain ⟨s', h⟩ := hread .out (by rw [hp]; rfl)
    exact ⟨_, s', rfl, h⟩
  | err =>
    obtain ⟨s', h⟩ := hread .err (by rw [hp]; rfl)
    exact ⟨_, s', rfl, h⟩
  | both =>
    obtain ⟨s', h⟩ := hread .out (by rw [hp]; rfl)
    exact ⟨_, s', rfl, h⟩
  | done rc => exact absurd (Or.inr ⟨rc, hp⟩) he
  | crash => exact absurd (Or.inl hp) he

theorem exited_step (hex : s.exited.isSome) (h : SStep has s a s') : s'.exited.isSome := by
  cases h with
  | exit c hrun => rfl
  | _ => exact hex

theorem books_pending {q : List Src} (hq : q = [] ∨ q = [.sig]) {as : List Act} {os : List Unit}
    (hno : ∀ a ∈ as, a ≠ .waitFails) (h : exec (step has) (init q) as = some (s, os)) :
    Books has s ∧ Pending s := by
  have := exec_output (A := (· ≠ .waitFails)) (B := fun _ => True) (Q := fun _ => True)
    (I := fun s => Books has s ∧ Pending s)
    (fun s a s' o hi ha _ hst => ⟨⟨books_step hi.1 (step_cases hst),
      pending_step hi.1 hi.2 ha (step_cases hst)⟩, trivial⟩)
    as (init q) s os ⟨books_init hq, fun hx => by cases hx⟩ hno (fun _ _ => trivial) h
  exact this.1

/-- **The function returns.** In every run, if `ffps_wait` does not fail, the function can go on from
    the moment when the process has exited until it has returned (or follows a null pointer), and it
    makes at most four steps for each event in the queue, one for each unread byte and four more,
    whatever other children do. -/
theorem ffps_exec_info_wait_returns (has : Stream → Bool) (q : List Src) (hq : q = [] ∨ q = [.sig])
    (as : List Act) (s : Sys) (os : List Unit) (h : exec (step has) (init q) as = some (s, os))
    (hex : s.exited.isSome) (bs : List Act) (t : Sys) (os' : List Unit)
    (hbs : exec (step has) s bs = some (t, os')) (hno : ∀ a ∈ as ++ bs, a ≠ .waitFails) :
    (¬ Ended t.pc → ∃ a t', a.own = true ∧ step has t a = some (t', ())) ∧
    bs.countP Act.own ≤ 4 * s.queue.length + s.unread + 4 := by
  have hs := books_pending hq (fun a ha => hno a (List.mem_append_left _ ha)) h
  obtain ⟨⟨ht, hext⟩, hle⟩ := @exec_countP _ _ _ (step has) (· ≠ .waitFails)
    (fun s => (Books has s ∧ Pending s) ∧ s.exited.isSome) Sys.work Act.own
    (fun s a s' o hi ha hst => ⟨⟨⟨books_step hi.1.1 (step_cases hst),
      pending_step hi.1.1 hi.1.2 ha (step_cases hst)⟩, exited_step hi.2 (step_cases hst)⟩,
      work_step hi.1.1 hi.1.2 hi.2 ha (step_cases hst)⟩)
    bs s t os' ⟨hs, hex⟩ (fun a ha => hno a (List.mem_append_right _ ha)) hbs
  refine ⟨own_enabled ht.1 ht.2 hext, ?_⟩
  have hpc : s.pc.work ≤ 4 := by
    cases s.pc <;> simp [Pc.work]
  have hq : s.events ≤ 4 * s.queue.length := by
    unfold Sys.events
    split <;> omega
  have hw : s.work ≤ 4 * s.queue.length + s.unread + 4 := by
    unfold Sys.work
    omega
  omega

/-! ## What is collected -/

theorem always_inv {q : List Src} (hq : q = [] ∨ q = [.sig]) {as : List Act}
    (hf : EachStep (step has) Fifo (init q) as) :
    Always (step has) (fun s => Books has s ∧ FifoInv s) (init q) as := by
  refine always_of_eachStep (C := Fifo) ?_ as (init q) ⟨books_init hq, fifoInv_init hq⟩ hf
  intro s a s' o hs hC hst
  exact ⟨books_step hs.1 (step_cases hst), fifoInv_step hs.1 hs.2 hC (step_cases hst)⟩

/-- A run in which the process writes, the function reads, another child exits and then the process
    writes again and exits. -/
def strayRun : List Act :=
  [.write .out [1], .write .err [2], .fetch (.pipe .out), .read 4096, .read 4096,
    .fetch (.pipe .err), .read 4096, .read 4096, .stray, .fetch .sig, .write .out [3], .exit 0, .wait]

/-- **All output is collected.** In every run what is in `output` and `error`, followed by what is in
    the pipes, is what the process has written; the function ends with success only after
    `ffps_wait`, with the exit code, and it follows a null pointer only if exactly one of the two
    vectors is given.  As long as events come in order and no other child exits, success means that
    both vectors are complete; one SIGCHLD for another child suffices for success without the
    rest. -/
theorem ffps_exec_info_wait_output (has : Stream → Bool) (q : List Src) (hq : q = [] ∨ q = [.sig])
    (as : List Act) (s : Sys) (os : List Unit) (h : exec (step has) (init q) as = some (s, os)) :
    (∀ b, (s.pipe b).got ++ (s.pipe b).data = (s.pipe b).written) ∧
    (s.pc = .done 0 → has .out = has .err ∧ s.exited.isSome ∧ s.code = s.exited) ∧
    (s.pc = .crash → has .out ≠ has .err) ∧
    (EachStep (step has) Fifo (init q) as → s.pc = .done 0 →
      ∀ b, (s.pipe b).got = (s.pipe b).written) ∧
    ∃ t os', exec (step fun _ => true) (init []) strayRun = some (t, os') ∧ t.pc = .done 0 ∧
      (t.pipe .out).got ≠ (t.pipe .out).written := by
  have hB : Books has s :=
    exec_keeps (fun _ _ _ _ hi hst => books_step hi (step_cases hst)) (books_init hq) h
  refine ⟨hB.conserved, ?_, fun hc => hB.at hc, ?_, ⟨_, _, rfl, rfl, ?_⟩⟩
  · intro hd
    obtain ⟨hw, heq⟩ := hB.at hd rfl
    exact ⟨heq, hB.waited hw⟩
  · intro hf hd b
    have hi := (always_inv hq hf).last h
    have := hB.conserved b
    rwa [hi.2.done hd b, List.append_nil] at this
  · decide

/-- A process that writes a line and exits. -/
def echoRun : List Act :=
  [.write .out [72, 73], .exit 0, .fetch (.pipe .out), .read 4096, .read 4096, .fetch .sig, .wait,
    .read 4096, .read 4096]

theorem ffps_exec_info_wait_output_echo :
    ∃ s os, exec (step fun _ => true) (init []) echoRun = some (s, os) ∧
      s.pc = .done 0 ∧ (s.pipe .out).got = (s.pipe .out).written := by
  have hf : EachStep (step fun _ => true) Fifo (init []) echoRun :=
    ⟨trivial, trivial, rfl, trivial, trivial, rfl, trivial, trivial, trivial, trivial⟩
  exact ⟨_, _, rfl, rfl,
    (ffps_exec_info_wait_output (fun _ => true) [] (Or.inl rfl) echoRun _ _ rfl).2.2.2.1 hf rfl .out⟩

theorem ffps_exec_info_wait_returns_echo :
    ∃ s os, exec (step fun _ => true) (init []) (echoRun.take 2) = some (s, os) ∧
      (echoRun.drop 2).countP Act.own ≤ 4 * s.queue.length + s.unread + 4 :=
  ⟨_, _, rfl, (ffps_exec_info_wait_returns (fun _ => true) [] (Or.inl rfl) (echoRun.take 2) _ _ rfl rfl
    (echoRun.drop 2) _ _ rfl (by simp [echoRun])).2⟩

end FFSys.Process.ExecWait
