import Mathlib.Data.List.Basic

/-!
# Cursors

A cursor gives the elements of a list one after another, each as a result or as an error at which
it stays.

* `enumAll` — the loop that takes results until there is an error.
* `IsCursor` — what one call has to do.
* `yielded` — what the loop has to give; `IsCursor.enumAll_eq`.
* `yielded_eq_map` — a list without errors is given whole.
-/

set_option autoImplicit false

namespace FFSys.Lib

variable {σ α β ρ : Type}

/-- Results until an error; the number is the fuel. -/
def enumAll (next : σ → Option (Except ρ α × σ)) : Nat → σ → Option (List α × ρ × σ)
  | 0, _ => none
  | n + 1, s =>
    match next s with
    | none => none
    | some (.error r, s') => some ([], r, s')
    | some (.ok a, s') => (enumAll next n s').map fun p => (a :: p.1, p.2)

/-- The results before the first error, and this error or the one of the end. -/
def yielded (out : β → Except ρ α) (fin : ρ) : List β → List α × ρ
  | [] => ([], fin)
  | x :: xs =>
    match out x with
    | .error r => ([], r)
    | .ok a => (a :: (yielded out fin xs).1, (yielded out fin xs).2)

/-- A cursor at `pos` in `xs`, for states with `I`. -/
structure IsCursor (next : σ → Option (Except ρ α × σ)) (pos : σ → Nat) (I : σ → Prop)
    (xs : List β) (out : β → Except ρ α) (fin : ρ) : Prop where
  entry : ∀ s x, I s → xs[pos s]? = some x → ∃ s', next s = some (out x, s') ∧ I s' ∧
    pos s' = if (out x).isOk then pos s + 1 else pos s
  done : ∀ s, I s → xs.length ≤ pos s → ∃ s', next s = some (.error fin, s') ∧ I s' ∧ pos s' = pos s

theorem yielded_eq_map {out : β → Except ρ α} {fin : ρ} {f : β → α} {xs : List β}
    (h : ∀ x ∈ xs, out x = .ok (f x)) : yielded out fin xs = (xs.map f, fin) := by
  induction xs with
  | nil => rfl
  | cons x xs ih =>
    rw [yielded, h x List.mem_cons_self, ih fun y hy => h y (List.mem_cons_of_mem _ hy)]
    rfl

namespace IsCursor

variable {next : σ → Option (Except ρ α × σ)} {pos : σ → Nat} {I : σ → Prop} {xs : List β}
  {out : β → Except ρ α} {fin : ρ}

/-- At the end of the list. -/
theorem enumAll_done (C : IsCursor next pos I xs out fin) {s : σ} (hI : I s)
    (hpos : xs.length ≤ pos s) (n : Nat) : ∃ s', enumAll next (n + 1) s = some ([], fin, s') ∧
      I s' ∧ xs.drop (pos s') = [] := by
  obtain ⟨s', hnext, hI', hpos'⟩ := C.done s hI hpos
  refine ⟨s', ?_, hI', ?_⟩
  · rw [enumAll, hnext]
  · rw [hpos']
    exact List.drop_eq_nil_of_le hpos

/-- Induction on the fuel: the loop gives what is left, and ends where it would end again. -/
theorem enumAll_eq (C : IsCursor next pos I xs out fin) : ∀ (n : Nat) (s : σ), I s →
    xs.length ≤ n + pos s → ∃ s', enumAll next (n + 1) s =
      some ((yielded out fin (xs.drop (pos s))).1, (yielded out fin (xs.drop (pos s))).2, s') ∧
      I s' ∧ yielded out fin (xs.drop (pos s')) = ([], (yielded out fin (xs.drop (pos s))).2) := by
  intro n
  induction n with
  | zero =>
    intro s hI hn
    obtain ⟨s', hrun, hI', hdrop⟩ := C.enumAll_done hI (by omega) 0
    rw [List.drop_eq_nil_of_le (by omega)]
    exact ⟨s', hrun, hI', by rw [hdrop]; rfl⟩
  | succ n ih =>
    intro s hI hn
    rcases Nat.lt_or_ge (pos s) xs.length with hlt | hge
    · have hx : xs[pos s]? = some xs[pos s] := List.getElem?_eq_getElem hlt
      have hdrop : xs.drop (pos s) = xs[pos s] :: xs.drop (pos s + 1) :=
        List.drop_eq_getElem_cons hlt
      obtain ⟨s', hnext, hI', hpos⟩ := C.entry s _ hI hx
      rw [hdrop, enumAll, hnext, yielded]
      cases hout : out xs[pos s] with
      | error r =>
        rw [hout] at hpos
        have hstay : pos s' = pos s := hpos
        refine ⟨s', rfl, hI', ?_⟩
        rw [hstay, hdrop, yielded, hout]
      | ok a =>
        rw [hout] at hpos
        have hnextPos : pos s' = pos s + 1 := hpos
        obtain ⟨s'', hrun, hI'', hend⟩ := ih s' hI' (by omega)
        refine ⟨s'', ?_, hI'', ?_⟩
        · simp only [hrun, hnextPos, Option.map_some]
        · rw [hend, hnextPos]
    · obtain ⟨s', hrun, hI', hdrop⟩ := C.enumAll_done hI hge (n + 1)
      rw [List.drop_eq_nil_of_le hge]
      exact ⟨s', hrun, hI', by rw [hdrop]; rfl⟩

/-- Where the loop has ended, it ends at once. -/
theorem enumAll_again (C : IsCursor next pos I xs out fin) {s : σ} {r : ρ} (hI : I s)
    (h : yielded out fin (xs.drop (pos s)) = ([], r)) :
    ∃ s', enumAll next 1 s = some ([], r, s') := by
  rcases Nat.lt_or_ge (pos s) xs.length with hlt | hge
  · have hx : xs[pos s]? = some xs[pos s] := List.getElem?_eq_getElem hlt
    obtain ⟨s', hnext, -, -⟩ := C.entry s _ hI hx
    rw [List.drop_eq_getElem_cons hlt, yielded] at h
    rw [enumAll, hnext]
    cases hout : out xs[pos s] with
    | error r' =>
      rw [hout] at h
      cases h
      exact ⟨s', rfl⟩
    | ok a =>
      rw [hout] at h
      cases h
  · obtain ⟨s', hrun, -, -⟩ := C.enumAll_done hI hge 0
    rw [List.drop_eq_nil_of_le hge] at h
    cases h
    exact ⟨s', hrun⟩

end IsCursor

end FFSys.Lib
