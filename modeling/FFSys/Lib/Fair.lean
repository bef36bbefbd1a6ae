import Mathlib.Data.List.Basic

/-!
# Progress of fair runs

A run without end is a sequence of states.  A thread is treated fairly if its turn comes again and
again.

* `LeadsTo run P G` — whenever `P` holds, `G` holds then or later.
* `leadsTo_of_rank` — the rank rule: a rank that no step raises and every turn of a fair thread
  lowers.
* `last_of_stay` — what does not hold for ever holds up to a last state.
-/

set_option autoImplicit false

namespace FFSys.Lib

variable {σ : Type} {run : Nat → σ} {P G H : σ → Prop}

def LeadsTo (run : Nat → σ) (P G : σ → Prop) : Prop :=
  ∀ n, P (run n) → ∃ m, n ≤ m ∧ G (run m)

theorem LeadsTo.trans (h : LeadsTo run P G) (h' : LeadsTo run G H) : LeadsTo run P H := by
  intro n hn
  obtain ⟨m, hm, hG⟩ := h n hn
  obtain ⟨k, hk, hH⟩ := h' m hG
  exact ⟨k, Nat.le_trans hm hk, hH⟩

/-- One step under a rank: the goal is reached, or the rank is not raised, and is lowered if it was
    the turn of the thread. -/
def RankStep (P G : σ → Prop) (rank : σ → Nat) (turn : Prop) (s s' : σ) : Prop :=
  G s' ∨ P s' ∧ rank s' ≤ rank s ∧ (turn → rank s' < rank s)

theorem walk_rank {rank : σ → Nat} {turn : Nat → Prop}
    (hstep : ∀ n, P (run n) → RankStep P G rank (turn n) (run n) (run (n + 1))) {n : Nat}
    (hn : P (run n)) : ∀ d, (∃ m, n ≤ m ∧ G (run m)) ∨
      P (run (n + d)) ∧ rank (run (n + d)) ≤ rank (run n)
  | 0 => Or.inr ⟨hn, Nat.le_refl _⟩
  | d + 1 => by
    rcases walk_rank hstep hn d with h | ⟨hP, hle⟩
    · exact Or.inl h
    · rcases hstep (n + d) hP with hG | ⟨hP', hle', _⟩
      · exact Or.inl ⟨n + d + 1, by omega, hG⟩
      · exact Or.inr ⟨hP', Nat.le_trans hle' hle⟩

/-- **The rank rule.** -/
theorem leadsTo_of_rank (rank : σ → Nat) {turn : Nat → Prop} (hfair : ∀ n, ∃ m, n ≤ m ∧ turn m)
    (hstep : ∀ n, P (run n) → RankStep P G rank (turn n) (run n) (run (n + 1))) :
    LeadsTo run P G := by
  have key : ∀ r n, rank (run n) = r → P (run n) → ∃ m, n ≤ m ∧ G (run m) := by
    intro r
    induction r using Nat.strongRecOn with
    | ind r ih =>
      intro n hr hn
      -- up to the next turn of the thread the rank does not rise, and then it falls
      obtain ⟨m, hm, hturn⟩ := hfair n
      obtain ⟨d, rfl⟩ := Nat.exists_eq_add_of_le hm
      rcases walk_rank hstep hn d with h | ⟨hP, hle⟩
      · exact h
      · rcases hstep (n + d) hP with hG | ⟨hP', _, hlt⟩
        · exact ⟨n + d + 1, by omega, hG⟩
        · obtain ⟨k, hk, hG⟩ := ih _ (by have := hlt hturn; omega) (n + d + 1) rfl hP'
          exact ⟨k, by omega, hG⟩
  exact fun n hn => key _ n rfl hn

theorem last_of_stay {n d : Nat} (hn : P (run n)) (hnot : ¬ P (run (n + d))) :
    ∃ k, n ≤ k ∧ (∀ j, n ≤ j → j ≤ k → P (run j)) ∧ ¬ P (run (k + 1)) := by
  induction d generalizing n with
  | zero => exact absurd hn hnot
  | succ d ih =>
    by_cases h1 : P (run (n + 1))
    · obtain ⟨k, hk, hall, hlast⟩ := ih h1 (by rwa [Nat.add_assoc, Nat.add_comm 1])
      refine ⟨k, by omega, fun j hj hjk => ?_, hlast⟩
      rcases Nat.eq_or_lt_of_le hj with rfl | hlt
      · exact hn
      · exact hall j hlt hjk
    · refine ⟨n, Nat.le_refl n, fun j hj hjn => ?_, h1⟩
      rw [Nat.le_antisymm hjn hj]
      exact hn

/-- The run that a sequence of actions leads to; an action that is not possible is left out. -/
def follow {α ο : Type} (step : σ → α → Option (σ × ο)) (acts : Nat → α) (s : σ) : Nat → σ
  | 0 => s
  | n + 1 =>
    match step (follow step acts s n) (acts n) with
    | none => follow step acts s n
    | some (s', _) => s'

theorem follow_succ {α ο : Type} {step : σ → α → Option (σ × ο)} {acts : Nat → α} {s s' : σ} {n : Nat}
    {o : ο} (h : step (follow step acts s n) (acts n) = some (s', o)) :
    follow step acts s (n + 1) = s' := by
  rw [follow]
  simp only [h]

end FFSys.Lib
