import Mathlib.Data.List.Basic

/-!
# Runs of a transition function

A system is a transition function `step : σ → α → Option (σ × ο)`: in state `s` the action `a` is
not possible (`none`) or leads to a state and an output.

* `exec step s as` — the state and the outputs of the run of the actions `as`.
* `Always step P s as` — `P` holds in every state of the run, the first and the last included;
  `EachStep step C s as` — `C` holds of every step of it.
* `exec_invariant`, `exec_output` — the invariant rules; `exec_sim` — the simulation rule;
  `exec_variant` — the variant rule for loops; `exec_countP` — a bound for the steps of a kind.
-/

set_option autoImplicit false

namespace FFSys.Lib

variable {σ σ' α ο : Type} {step : σ → α → Option (σ × ο)}

/-- The run of a list of actions; `none` if one of them is not possible. -/
def exec (step : σ → α → Option (σ × ο)) : σ → List α → Option (σ × List ο)
  | s, [] => some (s, [])
  | s, a :: as =>
    match step s a with
    | none => none
    | some (s', o) =>
      match exec step s' as with
      | none => none
      | some (s'', os) => some (s'', o :: os)

/-- `P` holds in every state of the run. -/
def Always (step : σ → α → Option (σ × ο)) (P : σ → Prop) : σ → List α → Prop
  | s, [] => P s
  | s, a :: as =>
    P s ∧
      match step s a with
      | none => True
      | some (s', _) => Always step P s' as

/-- `C` holds of every step of the run: of the state before it and the action. -/
def EachStep (step : σ → α → Option (σ × ο)) (C : σ → α → Prop) : σ → List α → Prop
  | _, [] => True
  | s, a :: as =>
    C s a ∧
      match step s a with
      | none => True
      | some (s', _) => EachStep step C s' as

instance Always.decidable {P : σ → Prop} [DecidablePred P] :
    ∀ (s : σ) (as : List α), Decidable (Always step P s as)
  | s, [] => inferInstanceAs (Decidable (P s))
  | s, a :: as =>
    have : Decidable (match step s a with
        | none => True
        | some (s', _) => Always step P s' as) :=
      match step s a with
      | none => isTrue trivial
      | some (s', _) => Always.decidable s' as
    inferInstanceAs (Decidable (_ ∧ _))

theorem exec_cons {s t : σ} {a : α} {as : List α} {os : List ο} (h : exec step s (a :: as) = some (t, os)) :
    ∃ s' o os', step s a = some (s', o) ∧ exec step s' as = some (t, os') ∧ os = o :: os' := by
  rw [exec] at h
  split at h
  · cases h
  · rename_i s' o hs
    split at h
    · cases h
    · rename_i t' os' ht
      cases h
      exact ⟨s', o, os', hs, ht, rfl⟩

theorem exec_of_step {s s' : σ} {a : α} {o : ο} (h : step s a = some (s', o)) (as : List α) :
    exec step s (a :: as) = (exec step s' as).map fun r => (r.1, o :: r.2) := by
  rw [exec]
  cases h1 : exec step s' as <;> simp [h, h1]

theorem exec_append : ∀ {as : List α} (bs : List α) {s t : σ} {os : List ο},
    exec step s as = some (t, os) →
      exec step s (as ++ bs) = (exec step t bs).map fun r => (r.1, os ++ r.2)
  | [], bs, s, t, os, h => by
    simp only [exec, Option.some.injEq, Prod.mk.injEq] at h
    obtain ⟨rfl, rfl⟩ := h
    simp
  | a :: as, bs, s, t, os, h => by
    obtain ⟨s', o, os', h1, h2, rfl⟩ := exec_cons h
    rw [List.cons_append, exec_of_step h1, exec_append bs h2, Option.map_map]
    rfl

theorem Always.head {P : σ → Prop} {s : σ} : ∀ {as : List α}, Always step P s as → P s
  | [], h => h
  | _ :: _, h => h.1

theorem Always.tail {P : σ → Prop} {s s' : σ} {a : α} {as : List α} {o : ο}
    (h : Always step P s (a :: as)) (hs : step s a = some (s', o)) : Always step P s' as := by
  have := h.2
  rw [hs] at this
  exact this

theorem Always.mono {P Q : σ → Prop} (h : ∀ s, P s → Q s) :
    ∀ {as : List α} {s : σ}, Always step P s as → Always step Q s as
  | [], s, hs => h s hs
  | a :: as, s, hs => by
    refine ⟨h s hs.1, ?_⟩
    have h2 := hs.2
    cases hst : step s a with
    | none => trivial
    | some r =>
      rw [hst] at h2
      exact Always.mono h h2

theorem Always.last {P : σ → Prop} : ∀ {as : List α} {s t : σ} {os : List ο},
    Always step P s as → exec step s as = some (t, os) → P t
  | [], s, t, os, h, he => by
    simp only [exec, Option.some.injEq, Prod.mk.injEq] at he
    exact he.1 ▸ h
  | a :: as, s, t, os, h, he => by
    obtain ⟨s', o, os', h1, h2, _⟩ := exec_cons he
    exact Always.last (h.tail h1) h2

theorem EachStep.tail {C : σ → α → Prop} {s s' : σ} {a : α} {as : List α} {o : ο}
    (h : EachStep step C s (a :: as)) (hs : step s a = some (s', o)) : EachStep step C s' as := by
  have := h.2
  rw [hs] at this
  exact this

/-- The invariant rule under a condition on the steps. -/
theorem always_of_eachStep {C : σ → α → Prop} {I : σ → Prop}
    (hstep : ∀ s a s' o, I s → C s a → step s a = some (s', o) → I s') :
    ∀ (as : List α) (s : σ), I s → EachStep step C s as → Always step I s as
  | [], _, hs, _ => hs
  | a :: as, s, hs, hC => by
    refine ⟨hs, ?_⟩
    cases hst : step s a with
    | none => trivial
    | some r =>
      obtain ⟨s', o⟩ := r
      exact always_of_eachStep hstep as s' (hstep s a s' o hs hC.1 hst) (hC.tail hst)

/-- The other way round: if a step into a state with `P` needs `C`, every run inside of `P` has `C`
    at each step. -/
theorem eachStep_of_always {C : σ → α → Prop} {P I : σ → Prop}
    (hstep : ∀ s a s' o, I s → step s a = some (s', o) → P s' → C s a ∧ I s')
    (htotal : ∀ s a, step s a ≠ none) :
    ∀ (as : List α) (s : σ), I s → Always step P s as → EachStep step C s as
  | [], _, _, _ => trivial
  | a :: as, s, hs, hP => by
    cases hst : step s a with
    | none => exact absurd hst (htotal s a)
    | some r =>
      obtain ⟨s', o⟩ := r
      have hP' := hP.tail hst
      obtain ⟨hC, hs'⟩ := hstep s a s' o hs hst hP'.head
      refine ⟨hC, ?_⟩
      rw [hst]
      exact eachStep_of_always hstep htotal as s' hs' hP'

/-- The invariant rule under a condition `P` on the states: what holds at the start and is kept
    by every step into a state with `P` holds at the end of every run inside of `P`. -/
theorem exec_invariant {P I : σ → Prop}
    (hstep : ∀ s a s' o, I s → step s a = some (s', o) → P s' → I s') :
    ∀ (as : List α) (s t : σ) (os : List ο), I s → Always step P s as →
      exec step s as = some (t, os) → I t
  | [], s, t, os, hs, _, h => by
    simp only [exec, Option.some.injEq, Prod.mk.injEq] at h
    exact h.1 ▸ hs
  | a :: as, s, t, os, hs, hP, h => by
    obtain ⟨s', o, os', h1, h2, _⟩ := exec_cons h
    exact exec_invariant hstep as s' t os' (hstep s a s' o hs h1 (hP.tail h1).head) (hP.tail h1) h2

/-- The invariant rule for outputs: what every step out of an invariant state by an admissible
    action puts out holds of every output of a run of admissible actions, as long as the run
    puts out nothing but `B`. -/
theorem exec_output {A : α → Prop} {B Q : ο → Prop} {I : σ → Prop}
    (hstep : ∀ s a s' o, I s → A a → B o → step s a = some (s', o) → I s' ∧ Q o) :
    ∀ (as : List α) (s t : σ) (os : List ο), I s → (∀ a ∈ as, A a) → (∀ o ∈ os, B o) →
      exec step s as = some (t, os) → I t ∧ ∀ o ∈ os, Q o
  | [], s, t, os, hs, _, _, h => by
    simp only [exec, Option.some.injEq, Prod.mk.injEq] at h
    obtain ⟨rfl, rfl⟩ := h
    exact ⟨hs, by simp⟩
  | a :: as, s, t, os, hs, hA, hB, h => by
    obtain ⟨s', o, os', h1, h2, rfl⟩ := exec_cons h
    obtain ⟨hI, hQ⟩ := hstep s a s' o hs (hA a List.mem_cons_self) (hB o List.mem_cons_self) h1
    obtain ⟨ht, hos⟩ := exec_output hstep as s' t os' hI
      (fun b hb => hA b (List.mem_cons_of_mem _ hb)) (fun b hb => hB b (List.mem_cons_of_mem _ hb)) h2
    refine ⟨ht, ?_⟩
    intro x hx
    rcases List.mem_cons.mp hx with rfl | hx
    · exact hQ
    · exact hos x hx

/-- The invariant rule without conditions. -/
theorem exec_keeps {I : σ → Prop} (hstep : ∀ s a s' o, I s → step s a = some (s', o) → I s')
    {as : List α} {s t : σ} {os : List ο} (hs : I s) (h : exec step s as = some (t, os)) : I t := by
  have hout := exec_output (A := fun _ => True) (B := fun _ => True) (Q := fun _ => True)
    (fun s a s' o hI _ _ hst => ⟨hstep s a s' o hI hst, trivial⟩) as s t os hs (by simp) (by simp) h
  exact hout.1

/-- **The variant rule.**  A loop makes the turns `body k`, `body (k + 1)`, ….  If in every state
    with `I` either the next turn leads to a state with `I` and a smaller variant `μ`, or the loop
    can be left, then it is left after at most `μ s` turns. -/
theorem exec_variant {body : Nat → List α} {exit : List α} {I : Nat → σ → Prop}
    {Q : Nat → σ → List ο → Prop} {μ : σ → Nat}
    (hturn : ∀ k s, I k s → (∃ t os, exec step s exit = some (t, os) ∧ Q k t os) ∨
      ∃ t os, exec step s (body k) = some (t, os) ∧ I (k + 1) t ∧ μ t < μ s) :
    ∀ k s, I k s → ∃ m, m ≤ μ s ∧ ∃ t os os',
      exec step s ((List.range' k m).flatMap body ++ exit) = some (t, os ++ os') ∧
        Q (k + m) t os' := by
  intro k s hI
  induction hμ : μ s using Nat.strongRecOn generalizing k s with
  | ind v ih =>
    subst hμ
    rcases hturn k s hI with ⟨t, os, hexit, hQ⟩ | ⟨t, os, hbody, hI', hlt⟩
    · exact ⟨0, Nat.zero_le _, t, [], os, hexit, hQ⟩
    · obtain ⟨m, hm, u, os₁, os₂, hrun, hQ⟩ := ih _ hlt (k + 1) t hI' rfl
      refine ⟨m + 1, by omega, u, os ++ os₁, os₂, ?_, ?_⟩
      · rw [List.range'_succ, List.flatMap_cons, List.append_assoc, exec_append _ hbody, hrun]
        simp
      · rw [← Nat.add_assoc, Nat.add_right_comm]
        exact hQ

/-- If the steps by an action with `own` make `μ` smaller and no other step makes it larger, a run
    has at most `μ` of them. -/
theorem exec_countP {A : α → Prop} {I : σ → Prop} {μ : σ → Nat} {own : α → Bool}
    (hstep : ∀ s a s' o, I s → A a → step s a = some (s', o) →
      I s' ∧ μ s' + (if own a then 1 else 0) ≤ μ s) :
    ∀ (as : List α) (s t : σ) (os : List ο), I s → (∀ a ∈ as, A a) →
      exec step s as = some (t, os) → I t ∧ μ t + as.countP own ≤ μ s
  | [], s, t, os, hs, _, h => by
    simp only [exec, Option.some.injEq, Prod.mk.injEq] at h
    obtain ⟨rfl, rfl⟩ := h
    exact ⟨hs, by rw [List.countP_nil]; omega⟩
  | a :: as, s, t, os, hs, hA, h => by
    obtain ⟨s', o, os', h1, h2, rfl⟩ := exec_cons h
    obtain ⟨hI, hle⟩ := hstep s a s' o hs (hA a List.mem_cons_self) h1
    obtain ⟨ht, hrun⟩ := exec_countP hstep as s' t os' hI
      (fun b hb => hA b (List.mem_cons_of_mem _ hb)) h2
    refine ⟨ht, ?_⟩
    rw [List.countP_cons]
    omega

/-- One step of a simulation: the two systems make the same step or both cannot. -/
def SameStep (R : σ → σ' → Prop) (x : Option (σ × ο)) (y : Option (σ' × ο)) : Prop :=
  match x, y with
  | none, none => True
  | some (s, o), some (s', o') => o = o' ∧ R s s'
  | _, _ => False

theorem SameStep.outputs_eq {R : σ → σ' → Prop} {x : Option (σ × ο)} {y : Option (σ' × ο)}
    (h : SameStep R x y) : x.map Prod.snd = y.map Prod.snd := by
  cases x with
  | none =>
    cases y with
    | none => rfl
    | some y => exact h.elim
  | some x =>
    cases y with
    | none => exact h.elim
    | some y => exact congrArg some h.1

/-- **The simulation rule.**  If related states make related steps with the same outputs, as long
    as the second system stays inside of `P`, then related states have runs with the same
    outputs. -/
theorem exec_sim {α' : Type} {step' : σ' → α' → Option (σ' × ο)} {f : α' → α} {A : α' → Prop}
    {P : σ' → Prop} {R : σ → σ' → Prop}
    (hstep : ∀ s s' a, R s s' → A a → P s' →
      (∀ t' o, step' s' a = some (t', o) → P t') → SameStep R (step s (f a)) (step' s' a)) :
    ∀ (as : List α') (s : σ) (s' : σ'), R s s' → (∀ a ∈ as, A a) → Always step' P s' as →
      SameStep R (exec step s (as.map f)) (exec step' s' as)
  | [], s, s', hR, _, _ => ⟨rfl, hR⟩
  | a :: as, s, s', hR, hA, hP => by
    have h := hstep s s' a hR (hA a List.mem_cons_self) hP.head
      (fun t' o ht => (hP.tail ht).head)
    rw [List.map_cons, exec, exec]
    cases h1 : step s (f a) with
    | none =>
      cases h2 : step' s' a with
      | none => trivial
      | some y => rw [h1, h2] at h; exact h.elim
    | some x =>
      cases h2 : step' s' a with
      | none => rw [h1, h2] at h; exact h.elim
      | some y =>
        obtain ⟨t, o⟩ := x
        obtain ⟨t', o'⟩ := y
        rw [h1, h2] at h
        obtain ⟨rfl, hR'⟩ := h
        have ih := exec_sim hstep as t t' hR' (fun b hb => hA b (List.mem_cons_of_mem _ hb))
          (hP.tail h2)
        simp only
        cases e1 : exec step t (as.map f) with
        | none =>
          cases e2 : exec step' t' as with
          | none => trivial
          | some y => rw [e1, e2] at ih; exact ih.elim
        | some x =>
          cases e2 : exec step' t' as with
          | none => rw [e1, e2] at ih; exact ih.elim
          | some y =>
            rw [e1, e2] at ih
            exact ⟨by rw [ih.1], ih.2⟩

end FFSys.Lib
