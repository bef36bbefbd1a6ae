import FFSys.Kcall.Queue

/-!
# No lost wake-up

A worker posts the `kqpost` event only if the completion ring was empty before its `ffrq_add`, and
the post is a step of its own.  `WakeupComing` is the invariant that makes this enough, and
`kcall_no_lost_wakeup` its proof over all runs.
-/

set_option autoImplicit false

namespace FFSys.Kcall

open FFSys.Lib

variable {ι ω : Type} {Q : Queue} {s s' : Sys ι ω}

/-- If there is something in the completion ring, an event is pending, or the reader has woken and
    not yet seen the ring empty, or a worker is about to post. -/
def WakeupComing (s : Sys ι ω) : Prop :=
  s.cq ≠ [] → 0 < s.posted ∨ s.reader ≠ .idle ∨ ∃ w, s.worker w = .added 0

/-- A step that leaves ring, reader and events alone, and does not take a worker away from its
    post. -/
theorem WakeupComing.keep (h : WakeupComing s) (hcq : s'.cq = s.cq) (hp : s'.posted = s.posted)
    (hr : s'.reader = s.reader) (hw : ∀ w, s.worker w = .added 0 → s'.worker w = .added 0) :
    WakeupComing s' := by
  intro hne
  rw [hcq] at hne
  rcases h hne with h | h | ⟨w, h⟩
  · exact Or.inl (by rw [hp]; exact h)
  · exact Or.inr (Or.inl (by rw [hr]; exact h))
  · exact Or.inr (Or.inr ⟨w, hw w h⟩)

variable [DecidableEq ω]

/-- A step of a worker that is not about to post. -/
theorem work_added {w : ω} {p q : Worker ι} (hw : s.worker w = p) (hp : p ≠ .added 0) (w' : ω)
    (h : s.worker w' = .added 0) : (s.work w q).worker w' = .added 0 := by
  have hne : w' ≠ w := by
    rintro rfl
    exact hp (hw ▸ h)
  simp [Sys.work, hne, h]

variable [DecidableEq ι]

theorem kstep_wakeup (hQ : Q.kqpost = true) {a : Act ι ω} {ev : Ev ι} (h : WakeupComing s)
    (hs : kstep Q s a = some (s', ev)) : WakeupComing s' := by
  cases kstep_rule hs with
  | busy x c | direct x c r e | sqEmpty w => exact h
  | completed x c | prepared x c | submitted x c | refused x c | cancel x =>
    exact h.keep rfl rfl rfl fun _ hw => hw
  | fetchSq w x sq hw => exact h.keep rfl rfl rfl (work_added hw (by simp))
  | dropped w r e x hw => exact h.keep rfl rfl rfl (work_added hw (by simp))
  | executed w r e x c hw => exact h.keep rfl rfl rfl (work_added hw (by simp))
  | mark w x hw => exact h.keep rfl rfl rfl (work_added hw (by simp))
  | cqFull w x hw => exact h.keep rfl rfl rfl (work_added hw (by simp))
  | added w x hw =>
    -- an element is added to an empty ring by a worker that has to post
    intro _
    by_cases hne : s.cq = []
    · exact Or.inr (Or.inr ⟨w, by simp [Sys.work, hne]⟩)
    · rcases h hne with h | h | ⟨w', h⟩
      · exact Or.inl h
      · exact Or.inr (Or.inl h)
      · exact Or.inr (Or.inr ⟨w', work_added hw (by simp) w' h⟩)
  | post w used hw =>
    intro hne
    rcases h hne with h | h | ⟨w', h⟩
    · exact Or.inl (Nat.lt_of_lt_of_le h (Nat.le_add_right ..))
    · exact Or.inr (Or.inl h)
    · by_cases hww : w' = w
      · subst hww
        rw [hw] at h
        cases h
        exact Or.inl (by simp [Sys.work, hQ])
      · exact Or.inr (Or.inr ⟨w', by simp [Sys.work, hww, h]⟩)
  | poll hr | wait k hr | consumed hr | fetchCq x cq hr =>
    exact fun _ => Or.inr (Or.inl (by simp))
  | consume hr => exact fun _ => Or.inr (Or.inl (by simp [hr]))
  | clear x hr | notified x hr | cancelled x hr => exact fun _ => Or.inr (Or.inl (by simp))
  | cqEmpty hr hcq => exact fun hne => absurd hcq hne

/-- **No lost wake-up.**  In every state of every run, if the completion ring is not empty, then a
    `kqpost` event is pending, or the reader has woken and has not yet seen the ring empty, or a
    worker has added an element to the empty ring and has not yet posted. -/
theorem kcall_no_lost_wakeup (Q : Queue) (hQ : Q.kqpost = true) (q : ι → Bool) (as : List (Act ι ω))
    (s : Sys ι ω) (os : List (Ev ι)) (hrun : exec (kstep Q) (startSys q) as = some (s, os))
    (hne : s.cq ≠ []) :
    0 < s.posted ∨ s.reader ≠ .idle ∨ ∃ w, s.worker w = .added 0 := by
  have h : WakeupComing s :=
    exec_keeps (fun _ _ _ _ hI hs => kstep_wakeup hQ hI hs) (fun h => absurd rfl h) hrun
  exact h hne

/-- A worker has added the result of a read to the empty ring and not yet posted. -/
theorem kcall_no_lost_wakeup_read : ∃ s os,
    exec (kstep ⟨1, 1, true, true, false⟩) (startSys fun _ => true : Sys Unit Unit)
      [.call () (.fileRead 3 64 10), .add (), .fetchSq (), .exec () 5 0, .mark (), .complete ()] = some (s, os) ∧
    s.cq = [()] ∧ s.posted = 0 ∧ s.reader = .idle ∧
      (0 < s.posted ∨ s.reader ≠ .idle ∨ ∃ w, s.worker w = .added 0) := by
  have h : (exec (kstep ⟨1, 1, true, true, false⟩) (startSys fun _ => true : Sys Unit Unit)
      [.call () (.fileRead 3 64 10), .add (), .fetchSq (), .exec () 5 0, .mark (), .complete ()]).map
        (fun r => (r.1.cq, r.1.posted, r.1.reader)) = some ([()], 0, .idle) := by decide +kernel
  obtain ⟨⟨s, os⟩, hrun, heq⟩ := Option.map_eq_some_iff.mp h
  simp only [Prod.mk.injEq] at heq
  obtain ⟨hcq, hposted, hreader⟩ := heq
  exact ⟨s, os, hrun, hcq, hposted, hreader,
    kcall_no_lost_wakeup _ rfl _ _ s os hrun (by rw [hcq]; simp)⟩

end FFSys.Kcall
