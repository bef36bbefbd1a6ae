import Mathlib.Data.List.Basic

/-!
# Left folds that may stop early

`foldStop stop next` folds a list from the left until `stop` says so.  `Along stop next P` says
that `P` holds at every element the fold gets to, and `Along.invariant` carries an invariant over
the fold under such a side condition.
-/

set_option autoImplicit false

namespace FFSys.Lib

variable {σ α : Type} {stop : σ → α → Bool} {next : σ → α → σ} {P Q : σ → α → Prop}

/-- Fold until `stop`; `none` if it stopped. -/
def foldStop (stop : σ → α → Bool) (next : σ → α → σ) : σ → List α → Option σ
  | s, [] => some s
  | s, a :: as => if stop s a then none else foldStop stop next (next s a) as

/-- `P` holds at every element that `foldStop` gets to. -/
def Along (stop : σ → α → Bool) (next : σ → α → σ) (P : σ → α → Prop) : σ → List α → Prop
  | _, [] => True
  | s, a :: as => P s a ∧ (stop s a = false → Along stop next P (next s a) as)

instance Along.decidable [∀ s a, Decidable (P s a)] :
    ∀ (s : σ) (as : List α), Decidable (Along stop next P s as)
  | _, [] => isTrue trivial
  | s, a :: as =>
    have := Along.decidable (next s a) as
    inferInstanceAs (Decidable (P s a ∧ (stop s a = false → Along stop next P (next s a) as)))

theorem foldStop_cons_false {s : σ} {a : α} {as : List α} (h : stop s a = false) :
    foldStop stop next s (a :: as) = foldStop stop next (next s a) as := by
  simp [foldStop, h]

/-- What holds at the elements in every state holds along the fold. -/
theorem along_of_forall : ∀ (as : List α) (s : σ), (∀ a ∈ as, ∀ s, P s a) → Along stop next P s as
  | [], _, _ => trivial
  | a :: as, s, h =>
    ⟨h a List.mem_cons_self s,
      fun _ => along_of_forall as _ fun b hb => h b (List.mem_cons_of_mem _ hb)⟩

/-- The invariant rule: what the start satisfies and every step under `P` keeps, the end of a
    fold that is not stopped satisfies. -/
theorem Along.invariant {I : σ → Prop}
    (hstep : ∀ s a, I s → P s a → stop s a = false → I (next s a)) :
    ∀ (as : List α) (s t : σ), I s → Along stop next P s as → foldStop stop next s as = some t → I t
  | [], s, t, hs, _, h => by
    simp only [foldStop, Option.some.injEq] at h
    exact h ▸ hs
  | a :: as, s, t, hs, hp, h => by
    cases hst : stop s a with
    | true => simp [foldStop, hst] at h
    | false =>
      rw [foldStop_cons_false hst] at h
      exact Along.invariant hstep as _ t (hstep s a hs hp.1 hst) (hp.2 hst) h

/-- With nothing to stop it, the fold gets to every element. -/
theorem along_never_iff : ∀ (as : List α) (s : σ),
    Along (fun _ _ => false) next P s as ↔
      ∀ (i : Nat) (a : α), as[i]? = some a → P ((as.take i).foldl next s) a
  | [], s => by simp [Along]
  | a :: as, s => by
    simp only [Along, forall_const, along_never_iff as]
    constructor
    · rintro ⟨h0, h⟩ i b hb
      cases i with
      | zero =>
        simp only [List.getElem?_cons_zero, Option.some.injEq] at hb
        exact hb ▸ h0
      | succ i => exact h i b hb
    · intro h
      exact ⟨h 0 a rfl, fun i b hb => h (i + 1) b hb⟩

end FFSys.Lib
