import Mathlib.Data.Finset.Card
import Mathlib.Data.Fintype.Basic
import FFSys.Lib.Fair
import FFSys.Kcall.Once

/-!
# Every submitted call is delivered

In a run without end in which every worker and the reader make a step again and again, a call that
was submitted goes through the submission ring, the hands of a worker, the completion ring and the
hands of the reader.  For each of the four there is a rank that falls with every step of the thread
that has to act and that no other step raises.

* `sq_rankStep`, `held_rankStep`, `cq_rankStep`, `reader_rankStep` — the four ranks.
* `submitted_delivered` — a submitted call is executed once and then notified once.
* `kcall_exactly_once` — the contract of the queue.
-/

set_option autoImplicit false

namespace FFSys.Kcall

open FFSys.Lib

variable {ι ω : Type}

variable [DecidableEq ι] [DecidableEq ω] {Q : Queue} {s s' : Sys ι ω} {a : Act ι ω} {ev : Ev ι}
  {x : ι} {w : ω}

/-! ## The submission ring -/

/-- How many steps a worker is away from its next fetch. -/
def Worker.left : Worker ι → Nat
  | .idle => 0
  | .added _ => 1
  | .marked _ => 2
  | .executed _ => 3
  | .fetched _ => 4

def sqRank (x : ι) (w : ω) (s : Sys ι ω) : Nat := 5 * s.sq.idxOf x + (s.worker w).left

omit [DecidableEq ω] in
/-- A step that does not concern the submission ring. -/
theorem sq_rankStep_of_eq {turn : Prop} (hx : x ∈ s.sq) (hsq : s'.sq = s.sq)
    (hle : (s'.worker w).left ≤ (s.worker w).left)
    (hlt : turn → (s'.worker w).left < (s.worker w).left) :
    RankStep (fun s => x ∈ s.sq) (fun s => ∃ w, s.worker w = .fetched x) (sqRank x w) turn s s' := by
  have hx' : x ∈ s'.sq := by rw [hsq]; exact hx
  refine Or.inr ⟨hx', ?_, fun ht => ?_⟩
  · rw [sqRank, sqRank, hsq]
    omega
  · have := hlt ht
    rw [sqRank, sqRank, hsq]
    omega

/-- A step of a worker between two fetches. -/
theorem sq_rankStep_of_work {w' : ω} {p : Worker ι} (hx : x ∈ s.sq) (hsq : s'.sq = s.sq)
    (hw : s'.worker = Function.update s.worker w' p) (hp : p.left < (s.worker w').left) :
    RankStep (fun s => x ∈ s.sq) (fun s => ∃ w, s.worker w = .fetched x) (sqRank x w) (w' = w) s s' := by
  by_cases hww : w' = w
  · subst hww
    refine sq_rankStep_of_eq hx hsq ?_ fun _ => ?_
    · rw [hw, Function.update_self]; exact hp.le
    · rw [hw, Function.update_self]; exact hp
  · refine sq_rankStep_of_eq hx hsq ?_ fun h => absurd h hww
    rw [hw, Function.update_of_ne (Ne.symm hww)]

theorem sq_rankStep (hs : KStep Q s a s' ev) (hx : x ∈ s.sq) :
    RankStep (fun s => x ∈ s.sq) (fun s => ∃ w, s.worker w = .fetched x) (sqRank x w)
      (a.byWorker w) s s' := by
  cases hs with
  | submitted y c hc hcap =>
    refine Or.inr ⟨List.mem_append_left _ hx, ?_, fun h => h.elim⟩
    rw [sqRank, sqRank, List.idxOf_append_of_mem hx]
  | fetchSq w' y sq hw hsq =>
    by_cases hy : y = x
    · subst hy
      exact Or.inl ⟨w', by simp [Sys.work]⟩
    · have hx' : x ∈ sq := by
        rw [hsq] at hx
        exact (List.mem_cons.mp hx).resolve_left (Ne.symm hy)
      have hidx : s.sq.idxOf x = sq.idxOf x + 1 := by
        rw [hsq, List.idxOf_cons_ne _ hy]
      refine Or.inr ⟨hx', ?_⟩
      simp only [sqRank, hidx, Sys.work]
      by_cases hww : w' = w
      · subst hww
        simp only [Function.update_self, hw, Worker.left]
        omega
      · rw [Function.update_of_ne (Ne.symm hww)]
        omega
  | sqEmpty w' hw hsq =>
    rw [hsq] at hx
    cases hx
  | dropped w' r e y hw | executed w' r e y c hw | mark w' y hw | added w' y hw | cqFull w' y hw
  | post w' used hw =>
    exact sq_rankStep_of_work hx rfl rfl (by rw [hw]; simp [Worker.left])
  | _ => exact sq_rankStep_of_eq hx rfl (Nat.le_refl _) fun h => h.elim

/-! ## The hands of a worker -/

/-- Only its own steps concern a worker. -/
theorem worker_eq (hs : KStep Q s a s' ev) (hturn : ¬ a.byWorker w) : s'.worker w = s.worker w := by
  cases hs with
  | fetchSq w' y sq | dropped w' r e y | executed w' r e y c | mark w' y | added w' y | cqFull w' y
  | post w' used =>
    exact Function.update_of_ne (fun h => hturn h.symm) ..
  | _ => rfl

theorem held_rankStep [Fintype ι] (hcap : Fintype.card ι ≤ Q.cqCap) {ph : ι → Phase}
    {loc : ι → Option (Loc ω)} (G : Good s ph loc) (hs : KStep Q s a s' ev) {st : Stage}
    (hx : (s.worker w).held = some (x, st)) :
    RankStep (fun s => ∃ st, (s.worker w).held = some (x, st)) (fun s => x ∈ s.cq)
      (fun s => (s.worker w).left) (a.byWorker w) s s' := by
  by_cases hturn : a.byWorker w
  · have hloc := G.placed.held_at hx
    have hagree := G.agree_at hloc
    cases hs with
    | fetchSq w' y sq hw | sqEmpty w' hw | post w' used hw =>
      cases hturn
      rw [hw] at hx
      cases hx
    | dropped w' r e y hw hl =>
      cases hturn
      rw [hw] at hx
      cases hx
      obtain ⟨c, _, hload, _⟩ := hagree.waiting (Or.inr rfl)
      rw [hl] at hload
      cases hload
    | executed w' r e y c hw | mark w' y hw =>
      cases hturn
      rw [hw] at hx
      cases hx
      refine Or.inr ⟨⟨_, by simp only [Sys.work, Function.update_self]; rfl⟩, ?_⟩
      simp [Sys.work, hw, Worker.left]
    | added w' y hw =>
      cases hturn
      rw [hw] at hx
      cases hx
      exact Or.inl (List.mem_append_right _ List.mem_cons_self)
    | cqFull w' y hw hfull =>
      cases hturn
      rw [hw] at hx
      cases hx
      have := G.placed.cq_not_full hcap (x := x) (by simp [hloc])
      omega
    | _ => exact hturn.elim
  · have hw := worker_eq hs hturn
    exact Or.inr ⟨⟨st, by rw [hw]; exact hx⟩, (congrArg Worker.left hw).le, fun h => absurd h hturn⟩

/-! ## The completion ring -/

section Cq

variable [Fintype ω]

/-- How many workers are about to post the event. -/
def posting (s : Sys ι ω) : Nat := (Finset.univ.filter fun w => s.worker w = .added 0).card

/-- How many steps the reader is away from its next fetch.  `ffkq_post_consume` reads the event
    again if a worker has posted meanwhile. -/
def readerLeft (s : Sys ι ω) : Nat :=
  match s.reader with
  | .idle => 3 + 2 * posting s
  | .woken => 1 + 2 * posting s + if 0 < s.posted then 1 else 0
  | .draining => 0
  | .holding _ => 2
  | .cleared _ => 1

def cqRank (x : ι) (s : Sys ι ω) : Nat := 3 * s.cq.idxOf x + readerLeft s

theorem posting_work {p : Worker ι} (hp : p ≠ .added 0) : posting (s.work w p) ≤ posting s := by
  refine Finset.card_le_card fun w' hw' => ?_
  simp only [Finset.mem_filter, Finset.mem_univ, true_and] at hw' ⊢
  by_cases h : w' = w
  · subst h
    rw [work_worker_self] at hw'
    exact absurd hw' hp
  · rwa [work_worker_of_ne s p h] at hw'

theorem posting_post (hw : s.worker w = .added 0) : posting (s.work w .idle) < posting s := by
  refine Finset.card_lt_card ((Finset.ssubset_iff_of_subset fun w' hw' => ?_).mpr ⟨w, ?_, ?_⟩)
  · simp only [Finset.mem_filter, Finset.mem_univ, true_and] at hw' ⊢
    by_cases h : w' = w
    · subst h; exact hw
    · rwa [work_worker_of_ne s _ h] at hw'
  · simp [hw]
  · simp

omit [DecidableEq ω] in
/-- A step of another thread that keeps the ring, or adds to it. -/
theorem cq_rankStep_of_other {turn : Prop} (hx : x ∈ s.cq) (hcq : ∃ l, s'.cq = s.cq ++ l)
    (hr : s'.reader = s.reader) (hle : posting s' ≤ posting s)
    (hposted : s'.posted = s.posted ∨ posting s' < posting s) (hturn : ¬ turn) :
    RankStep (fun s => x ∈ s.cq) (fun s => s.reader = .holding x) (cqRank x) turn s s' := by
  obtain ⟨l, hl⟩ := hcq
  have hx' : x ∈ s'.cq := by rw [hl]; exact List.mem_append_left l hx
  have hleft : readerLeft s' ≤ readerLeft s := by
    simp only [readerLeft, hr]
    cases s.reader with
    | woken =>
      rcases hposted with h | h
      · simp only [h]
        omega
      · simp only
        split <;> split <;> omega
    | idle | draining | holding y | cleared y => simp only; omega
  refine Or.inr ⟨hx', ?_, fun h => absurd h hturn⟩
  rw [cqRank, cqRank, hl, List.idxOf_append_of_mem hx]
  omega

theorem cq_rankStep (hs : KStep Q s a s' ev) (hx : x ∈ s.cq) :
    RankStep (fun s => x ∈ s.cq) (fun s => s.reader = .holding x) (cqRank x) a.byReader s s' := by
  have hsame : ∃ l, s.cq = s.cq ++ l := ⟨[], (List.append_nil _).symm⟩
  cases hs with
  | busy y c | direct y c r e | completed y c | prepared y c | submitted y c | refused y c | cancel y
  | sqEmpty w =>
    exact cq_rankStep_of_other hx hsame rfl (Nat.le_refl _) (Or.inl rfl) fun h => h.elim
  | fetchSq w y sq hw | dropped w r e y hw | executed w r e y c hw | mark w y hw | cqFull w y hw =>
    exact cq_rankStep_of_other hx hsame rfl (posting_work (by simp)) (Or.inl rfl) fun h => h.elim
  | added w y hw =>
    -- the ring is not empty, so that the worker will not post
    have hpos : s.cq.length ≠ 0 := fun h => by simp [List.length_eq_zero_iff.mp h] at hx
    exact cq_rankStep_of_other hx ⟨[y], rfl⟩ rfl (posting_work (by simp [hpos])) (Or.inl rfl)
      fun h => h.elim
  | post w used hw =>
    by_cases h0 : used = 0
    · subst h0
      have hlt := posting_post hw
      exact cq_rankStep_of_other hx hsame rfl hlt.le (Or.inr hlt) fun h => h.elim
    · exact cq_rankStep_of_other hx hsame rfl (posting_work (by simp)) (Or.inl (by simp [Sys.work, h0]))
        fun h => h.elim
  | poll hr =>
    refine Or.inr ⟨hx, ?_⟩
    simp only [cqRank, readerLeft, hr]
    omega
  | wait k hr hk =>
    refine Or.inr ⟨hx, ?_⟩
    simp only [cqRank, readerLeft, hr, posting]
    generalize (if Q.waitTakes = true then s.posted - k else s.posted) = posted
    split <;> omega
  | consume hr hp =>
    refine Or.inr ⟨hx, ?_⟩
    simp [cqRank, readerLeft, hr, hp, posting]
  | consumed hr =>
    refine Or.inr ⟨hx, ?_⟩
    simp only [cqRank, readerLeft, hr]
    omega
  | fetchCq y cq hr hcq =>
    by_cases hy : y = x
    · subst hy
      exact Or.inl rfl
    · have hx' : x ∈ cq := by
        rw [hcq] at hx
        exact (List.mem_cons.mp hx).resolve_left (Ne.symm hy)
      refine Or.inr ⟨hx', ?_⟩
      simp only [cqRank, readerLeft, hr, hcq, List.idxOf_cons_ne _ hy]
      omega
  | cqEmpty hr hcq =>
    rw [hcq] at hx
    cases hx
  | clear y hr | notified y hr | cancelled y hr =>
    refine Or.inr ⟨hx, ?_⟩
    simp [cqRank, readerLeft, hr, Sys.set]

end Cq

/-! ## The hands of the reader -/

/-- Only its own steps concern the reader. -/
theorem reader_eq (hs : KStep Q s a s' ev) (hturn : ¬ a.byReader) : s'.reader = s.reader := by
  cases hs with
  | poll | wait k | consume | consumed | fetchCq y cq | cqEmpty | clear y | notified y | cancelled y =>
    exact absurd trivial hturn
  | _ => rfl

theorem reader_rankStep {ph : ι → Phase} {loc : ι → Option (Loc ω)} (G : Good s ph loc)
    (hs : KStep Q s a s' ev) {b : Bool} (hx : s.reader.held = some (x, b)) :
    RankStep (fun g : Sys ι ω × (ι → Phase) => ∃ b, g.1.reader.held = some (x, b))
      (fun g => ∃ c r e, g.2 x = .notified c r e)
      (fun g => if g.1.reader = .holding x then 1 else 0) a.byReader (s, ph) (s', observe ph ev) := by
  by_cases hturn : a.byReader
  · have hagree := G.agree_at (G.placed.reader_at hx)
    obtain ⟨c, r, e, hp, hres, _⟩ := hagree.done (by simp)
    cases hs with
    | poll hr | wait k hr | consume hr | consumed hr | fetchCq y cq hr | cqEmpty hr =>
      rw [hr] at hx
      cases hx
    | clear y hr =>
      rw [hr] at hx
      cases hx
      refine Or.inr ⟨⟨true, rfl⟩, ?_⟩
      simp [hr]
    | notified y hr =>
      rw [hr] at hx
      cases hx
      refine Or.inl ⟨c, r, e, ?_⟩
      change observe ph (.handler x) x = _
      rw [observe_self rfl, hp]
      rfl
    | cancelled y hr hop =>
      rw [hr] at hx
      cases hx
      exact absurd (hres.1.symm.trans hop) c.op_ne_zero
    | _ => exact hturn.elim
  · have hr := reader_eq hs hturn
    refine Or.inr ⟨⟨b, by rw [hr]; exact hx⟩, ?_, fun h => absurd h hturn⟩
    simp [hr]

/-! ## Fair runs -/

/-- A run without end of disciplined clients, in which every worker and the reader make a step
    again and again. -/
structure FairRun (Q : Queue) (q : ι → Bool) (run : Nat → Sys ι ω × (ι → Phase)) (acts : Nat → Act ι ω)
    (evs : Nat → Ev ι) : Prop where
  start : run 0 = (startSys q, fun _ => .idle)
  step : ∀ n, gstep Q (run n) (acts n) = some (run (n + 1), evs n)
  worker : ∀ w n, ∃ m, n ≤ m ∧ (acts m).byWorker w
  reader : ∀ n, ∃ m, n ≤ m ∧ (acts m).byReader

/-- The call of `x` that was submitted at `n` is executed once, then the handler of `x` is called
    once, and nothing else happens to `x` until then. -/
def DeliveredOnce (run : Nat → Sys ι ω × (ι → Phase)) (evs : Nat → Ev ι) (n : Nat) (x : ι) (c : Call) : Prop :=
  ∃ k m r e, n < k ∧ k < m ∧ evs k = .executed x c r e ∧ evs m = .handler x ∧
    (∀ j, n < j → j < m → (evs j).about = some x → j = k) ∧ (run (m + 1)).2 x = .notified c r e

section Fair

variable {q : ι → Bool} {run : Nat → Sys ι ω × (ι → Phase)} {acts : Nat → Act ι ω} {evs : Nat → Ev ι}

theorem FairRun.rule (F : FairRun Q q run acts evs) (n : Nat) :
    KStep Q (run n).1 (acts n) (run (n + 1)).1 (evs n) :=
  kstep_rule (gstep_cases (F.step n)).2.1

theorem FairRun.phase (F : FairRun Q q run acts evs) (n : Nat) :
    (run (n + 1)).2 = observe (run n).2 (evs n) :=
  (gstep_cases (F.step n)).2.2

variable [Fintype ι] (hcap : Fintype.card ι ≤ Q.cqCap)

include hcap

theorem FairRun.good (F : FairRun Q q run acts evs) : ∀ n, ∃ loc, Good (run n).1 (run n).2 loc
  | 0 => by
    rw [F.start]
    exact ⟨_, start_good q⟩
  | n + 1 => gstep_good hcap (F.good n) (F.step n)

omit [DecidableEq ι] [DecidableEq ω] [Fintype ι] hcap in
/-- A submitted call that was not executed is in the ring or has been fetched. -/
theorem Good.submitted_at {ph : ι → Phase} {loc : ι → Option (Loc ω)} (G : Good s ph loc) {c : Call}
    (hp : ph x = .submitted c) : x ∈ s.sq ∨ ∃ w, s.worker w = .fetched x := by
  have hx := G.agree x
  rw [hp] at hx
  cases hc : s.caller x with
  | some c' =>
    rw [hc] at hx
    cases hx.2.1
  | none =>
    rw [hc] at hx
    rcases hl : loc x with _ | _ | ⟨w, _ | _ | _⟩ | _ | ⟨_ | _⟩
    · rw [hl] at hx; exact hx.elim
    · exact Or.inl ((G.placed.at_iff .sq x).mpr hl)
    · have hheld : (s.worker w).held = some (x, .fetched) :=
        (G.placed.at_iff (.worker w .fetched) x).mpr hl
      refine Or.inr ⟨w, ?_⟩
      cases hw : s.worker w with
      | fetched y => rw [hw] at hheld; cases hheld; rfl
      | idle | executed y | marked y | added u => rw [hw] at hheld; cases hheld
    all_goals rw [hl] at hx; exact hx.elim

variable [Fintype ω]

/-- From the fetch to the handler. -/
theorem FairRun.fetched_leadsTo (F : FairRun Q q run acts evs) (x : ι) :
    LeadsTo run (fun g => ∃ w, g.1.worker w = .fetched x) (fun g => ∃ c r e, g.2 x = .notified c r e) := by
  have hheld : LeadsTo run (fun g => ∃ w, g.1.worker w = .fetched x) fun g => x ∈ g.1.cq := by
    intro n hn
    obtain ⟨w, hw⟩ := hn
    have h : LeadsTo run (fun g => ∃ st, (g.1.worker w).held = some (x, st)) fun g => x ∈ g.1.cq := by
      refine leadsTo_of_rank (fun g => (g.1.worker w).left) (F.worker w) ?_
      rintro n ⟨st, hst⟩
      obtain ⟨loc, G⟩ := F.good hcap n
      exact held_rankStep hcap G (F.rule n) hst
    exact h n ⟨.fetched, by simp only [hw, Worker.held]⟩
  have hcq : LeadsTo run (fun g => x ∈ g.1.cq) fun g => g.1.reader = .holding x :=
    leadsTo_of_rank (fun g => cqRank x g.1) F.reader fun n hn => cq_rankStep (F.rule n) hn
  have hread : LeadsTo run (fun g => g.1.reader = .holding x) fun g => ∃ c r e, g.2 x = .notified c r e := by
    intro n hn
    have h : LeadsTo run (fun g => ∃ b, g.1.reader.held = some (x, b))
        fun g => ∃ c r e, g.2 x = .notified c r e := by
      refine leadsTo_of_rank (fun g => if g.1.reader = .holding x then 1 else 0) F.reader ?_
      rintro n ⟨b, hb⟩
      obtain ⟨loc, G⟩ := F.good hcap n
      have := reader_rankStep G (F.rule n) hb
      rw [← F.phase n] at this
      exact this
    exact h n ⟨false, by simp only [hn, Reader.held]⟩
  exact (hheld.trans hcq).trans hread

theorem FairRun.submitted_leadsTo [Nonempty ω] (F : FairRun Q q run acts evs) (x : ι) (c : Call) :
    LeadsTo run (fun g => g.2 x = .submitted c) (fun g => ∃ c r e, g.2 x = .notified c r e) := by
  intro n hn
  obtain ⟨loc, G⟩ := F.good hcap n
  have hsq : LeadsTo run (fun g => x ∈ g.1.sq) fun g => ∃ w, g.1.worker w = .fetched x := by
    obtain ⟨w⟩ := ‹Nonempty ω›
    exact leadsTo_of_rank (fun g => sqRank x w g.1) (F.worker w)
      fun n hn => sq_rankStep (F.rule n) hn
  rcases G.submitted_at hn with h | h
  · exact (hsq.trans (F.fetched_leadsTo hcap x)) n h
  · exact F.fetched_leadsTo hcap x n h

/-! ## Exactly once -/

omit [Fintype ι] [Fintype ω] hcap in
theorem FairRun.stays (F : FairRun Q q run acts evs) {n : Nat} (h : (evs n).about ≠ some x) :
    (run (n + 1)).2 x = (run n).2 x := by
  rw [F.phase n]
  cases hev : (evs n).about with
  | none => simp only [observe, hev]
  | some y =>
    refine observe_of_ne hev fun hxy => ?_
    exact h (hxy ▸ hev)

omit [Fintype ι] [Fintype ω] hcap in
theorem FairRun.moves (F : FairRun Q q run acts evs) {n : Nat} (h : (evs n).about = some x) :
    (run (n + 1)).2 x = ((run n).2 x).next (evs n) := by
  rw [F.phase n, observe_self h]

omit [DecidableEq ι] [DecidableEq ω] [Fintype ι] [Fintype ω] hcap in
theorem submitted_next {c : Call} {ev : Ev ι} (h : ev.about = some x)
    (hne : (Phase.submitted c).next ev ≠ .wrong) : ∃ r e, ev = .executed x c r e := by
  cases ev with
  | executed y c' r e =>
    simp only [Phase.next] at hne
    split at hne
    · rename_i hc
      cases h
      exact ⟨r, e, by rw [hc]⟩
    · exact absurd rfl hne
  | silent | direct y c' v e => cases h
  | _ => exact absurd rfl hne

omit [DecidableEq ι] [DecidableEq ω] [Fintype ι] [Fintype ω] hcap in
theorem executed_next {c : Call} {r : BitVec 64} {e : BitVec 32} {ev : Ev ι} (h : ev.about = some x)
    (hne : (Phase.executed c r e).next ev ≠ .wrong) : ev = .handler x := by
  cases ev with
  | handler y => cases h; rfl
  | silent | direct y c' v e' => cases h
  | _ => exact absurd rfl hne

omit [Fintype ι] [Fintype ω] hcap in
/-- An object leaves a phase with its first event. -/
theorem FairRun.leaves (F : FairRun Q q run acts evs) {p : Phase} {n m : Nat} (hn : (run n).2 x = p)
    (hm : n ≤ m) (hleft : (run m).2 x ≠ p) (hnext : ∀ ev : Ev ι, ev.about = some x → p.next ev ≠ p) :
    ∃ k, n ≤ k ∧ k < m ∧ (run k).2 x = p ∧ (evs k).about = some x ∧
      ∀ j, n ≤ j → j < k → (evs j).about ≠ some x := by
  obtain ⟨d, rfl⟩ := Nat.exists_eq_add_of_le hm
  obtain ⟨k, hk, hall, hlast⟩ := last_of_stay (P := fun g : Sys ι ω × (ι → Phase) => g.2 x = p) hn hleft
  refine ⟨k, hk, ?_, hall k hk (Nat.le_refl k), ?_, ?_⟩
  · by_contra hkm
    exact hleft (hall _ hm (by omega))
  · by_contra hev
    exact hlast ((F.stays hev).trans (hall k hk (Nat.le_refl k)))
  · intro j hj hjk hev
    apply hnext (evs j) hev
    rw [← hall j hj hjk.le, ← F.moves hev]
    exact (hall (j + 1) (by omega) hjk).trans (hall j hj hjk.le).symm

omit [Fintype ω] in
theorem FairRun.not_wrong (F : FairRun Q q run acts evs) (n : Nat) (x : ι) : (run n).2 x ≠ .wrong := by
  obtain ⟨loc, G⟩ := F.good hcap n
  exact G.not_wrong x

/-- **A submitted call is executed once, with the submitted arguments, and then its handler is
    called once.** -/
theorem FairRun.submitted_delivered [Nonempty ω] (F : FairRun Q q run acts evs) {n : Nat} {c : Call}
    (hn : evs n = .submitted x c) : DeliveredOnce run evs n x c := by
  have hsub : (run (n + 1)).2 x = .submitted c := by
    have hmoves := F.moves (x := x) (n := n) (by rw [hn]; rfl)
    have hne := F.not_wrong hcap (n + 1) x
    rw [hmoves, hn] at hne
    rw [hmoves, hn]
    cases hp : (run n).2 x with
    | idle => rfl
    | submitted _ | executed _ _ _ | notified _ _ _ | wrong => rw [hp] at hne; exact absurd rfl hne
  obtain ⟨t, ht, c', r', e', hnot⟩ := F.submitted_leadsTo hcap x c (n + 1) hsub
  -- the event that ends the wait for a worker
  obtain ⟨k, hk, hkt, hkp, hka, hkq⟩ := F.leaves hsub ht (by rw [hnot]; simp) fun ev hev heq => by
    obtain ⟨r, e, rfl⟩ := submitted_next hev (by rw [heq]; simp)
    simp [Phase.next] at heq
  obtain ⟨r, e, hexec⟩ := submitted_next hka fun h =>
    F.not_wrong hcap (k + 1) x ((F.moves hka).trans (hkp ▸ h))
  have hdone : (run (k + 1)).2 x = .executed c r e := by
    rw [F.moves hka, hkp, hexec]
    simp [Phase.next]
  -- the event that ends the wait for the reader
  obtain ⟨m, hm, _, hmp, hma, hmq⟩ := F.leaves hdone hkt (by rw [hnot]; simp) fun ev hev heq => by
    have := executed_next hev (by rw [heq]; simp)
    subst this
    cases heq
  have hhandler := executed_next hma fun h =>
    F.not_wrong hcap (m + 1) x ((F.moves hma).trans (hmp ▸ h))
  refine ⟨k, m, r, e, hk, hm, hexec, hhandler, fun j hj hjm hev => ?_, ?_⟩
  · by_contra hjk
    rcases Nat.lt_or_gt_of_ne hjk with h | h
    · exact hkq j hj h hev
    · exact hmq j h hjm hev
  · rw [F.moves hma, hmp, hhandler]
    rfl

end Fair

/-! ## The contract -/

/-- What a client can rely on in every state. -/
structure ClientView (Q : Queue) (s : Sys ι ω) (p : Phase) (x : ι) : Prop where
  legal : p ≠ .wrong
  idle : p = .idle → s.caller x = none →
    (s.obj x).op = 0 ∧ (s.obj x).state = 0 ∧ ∀ k, ¬ At s k x
  retry : p = .idle → s.caller x = none → (s.obj x).q = true → ∀ c,
    ∃ s', kstep Q s (.call x c) = some (s', .silent) ∧
      (s.sq.length < Q.sqCap → ∃ s'', kstep Q s' (.add x) = some (s'', .submitted x c))
  result : ∀ c₀ r e, p = .notified c₀ r e → ∀ c s' ev, c.op = c₀.op →
    kstep Q s (.call x c) = some (s', ev) →
    ev = .completed x c (c₀.cast r) e ∧ (s'.obj x).op = 0 ∧ (s'.obj x).state = 0

theorem Good.clientView {ph : ι → Phase} {loc : ι → Option (Loc ω)} (G : Good s ph loc) (x : ι) :
    ClientView Q s (ph x) x := by
  refine ⟨G.not_wrong x, fun hp hc => ?_, fun hp hc hq c => idle_submits hp hc G hq c,
    fun c₀ r e hp c s' ev hop hs => notified_completes G hp hop hs⟩
  have hx := G.agree x
  rw [hc, hp] at hx
  obtain ⟨hl, hop, hst⟩ := hx.idle
  refine ⟨hop, hst, fun k hk => ?_⟩
  rw [G.placed.at_iff, hl] at hk
  cases hk

/-- **The contract of the queue.**  Any objects, any workers, one reader, any interleaving; the
    clients are disciplined and the completion ring has room for all objects.  The life of every
    object is that of `Phase.next`, the completion ring is never full, and what a client finds is
    `ClientView`; and in a run in which no thread is left out, every submitted call is executed
    once with its arguments and notified once after that. -/
theorem kcall_exactly_once [Fintype ι] [Fintype ω] (Q : Queue) (hcap : Fintype.card ι ≤ Q.cqCap)
    (q : ι → Bool) :
    (∀ (as : List (Act ι ω)) (s : Sys ι ω) (ph : ι → Phase) (os : List (Ev ι)),
      exec (gstep Q) (startSys q, fun _ => .idle) as = some ((s, ph), os) →
        ph = os.foldl observe (fun _ => .idle) ∧ (∀ x, Ev.cqFull x ∉ os) ∧ ∀ x, ClientView Q s (ph x) x) ∧
    ∀ (run : Nat → Sys ι ω × (ι → Phase)) (acts : Nat → Act ι ω) (evs : Nat → Ev ι),
      FairRun Q q run acts evs → Nonempty ω →
        ∀ n x c, evs n = .submitted x c → DeliveredOnce run evs n x c := by
  refine ⟨fun as s ph os hrun => ?_, fun run acts evs F hw n x c hn => F.submitted_delivered hcap hn⟩
  have h := exec_output (A := fun _ => True) (B := fun _ => True)
    (I := fun g : Sys ι ω × (ι → Phase) => ∃ loc, Good g.1 g.2 loc) (Q := fun ev => ∀ x, ev ≠ .cqFull x)
    (fun g a g' ev hG _ _ hs => ⟨gstep_good hcap hG hs, gstep_not_full hcap hG hs⟩) as _ _ os
    ⟨_, start_good q⟩ (by simp) (by simp) hrun
  obtain ⟨⟨loc, G⟩, hfull⟩ := h
  exact ⟨phases_eq hrun, fun x hx => hfull _ hx x rfl, G.clientView⟩

/-- One object, one worker: a read is submitted and delivered, and then the threads find nothing
    to do. -/
def readRound : List (Act Unit Unit) :=
  [.call () (.fileRead 3 64 10), .add (), .fetchSq (), .exec () 5 0, .mark (), .complete (), .post (),
    .wait 1, .consume, .consume, .fetchCq, .clear, .notify, .fetchCq]

def readActs (n : Nat) : Act Unit Unit :=
  if n < 14 then readRound.getD n .poll
  else if (n - 14) % 3 = 0 then .poll
  else if (n - 14) % 3 = 1 then .fetchCq
  else .fetchSq ()

def readQueue : Queue := ⟨1, 1, true, true, false⟩

def readRun : Nat → Sys Unit Unit × (Unit → Phase) :=
  follow (gstep readQueue) readActs (startSys fun _ => true, fun _ => .idle)

/-- No thread has anything to do. -/
def Quiet (s : Sys Unit Unit) : Prop :=
  s.sq = [] ∧ s.cq = [] ∧ s.worker () = .idle ∧ s.reader = .idle

instance Quiet.decidable (s : Sys Unit Unit) : Decidable (Quiet s) :=
  inferInstanceAs (Decidable (_ ∧ _))

theorem quiet_round {g : Sys Unit Unit × (Unit → Phase)} (h : Quiet g.1) :
    gstep readQueue g .poll = some (({ g.1 with reader := .draining }, g.2), .silent) ∧
      gstep readQueue ({ g.1 with reader := .draining }, g.2) .fetchCq = some (g, .silent) ∧
      gstep readQueue g (.fetchSq ()) = some (g, .silent) := by
  obtain ⟨⟨obj, caller, sq, cq, worker, reader, posted, semPosts⟩, ph⟩ := g
  obtain ⟨hsq, hcq, hw, hr⟩ := h
  simp only at hsq hcq hw hr
  subst hsq hcq hr
  refine ⟨rfl, rfl, ?_⟩
  simp [gstep, allowed, kstep, hw, observe, Ev.about]

theorem readActs_round (k : Nat) : readActs (14 + 3 * k) = .poll ∧
    readActs (14 + 3 * k + 1) = .fetchCq ∧ readActs (14 + 3 * k + 2) = .fetchSq () := by
  unfold readActs
  refine ⟨?_, ?_, ?_⟩
  · rw [if_neg (by omega), if_pos (by omega)]
  · rw [if_neg (by omega), if_neg (by omega), if_pos (by omega)]
  · rw [if_neg (by omega), if_neg (by omega), if_neg (by omega)]

theorem readRun_round (k : Nat) (h : Quiet (readRun (14 + 3 * k)).1) :
    (∀ i < 3, ∃ ev, gstep readQueue (readRun (14 + 3 * k + i)) (readActs (14 + 3 * k + i)) =
      some (readRun (14 + 3 * k + i + 1), ev)) ∧ Quiet (readRun (14 + 3 * (k + 1))).1 := by
  obtain ⟨h0, h1, h2⟩ := quiet_round h
  obtain ⟨a0, a1, a2⟩ := readActs_round k
  rw [← a0] at h0
  have r1 : readRun (14 + 3 * k + 1) = _ := follow_succ h0
  rw [← a1, ← r1] at h1
  have r2 : readRun (14 + 3 * k + 2) = _ := follow_succ h1
  rw [← a2] at h2
  nth_rewrite 1 [← r2] at h2
  have r3 : readRun (14 + 3 * k + 3) = _ := follow_succ h2
  refine ⟨fun i hi => ?_, ?_⟩
  · obtain rfl | rfl | rfl : i = 0 ∨ i = 1 ∨ i = 2 := by omega
    · exact ⟨_, by rw [r1]; exact h0⟩
    · exact ⟨_, by rw [r2]; exact h1⟩
    · exact ⟨_, by rw [r3]; exact h2⟩
  · rw [show 14 + 3 * (k + 1) = 14 + 3 * k + 3 by omega, r3]
    exact h

theorem readRun_quiet : ∀ k, Quiet (readRun (14 + 3 * k)).1
  | 0 => by decide +kernel
  | k + 1 => (readRun_round k (readRun_quiet k)).2

theorem readRun_first : ∀ n < 14, (gstep readQueue (readRun n) (readActs n)).isSome = true := by
  decide +kernel

theorem readRun_step (n : Nat) :
    ∃ ev, gstep readQueue (readRun n) (readActs n) = some (readRun (n + 1), ev) := by
  rcases Nat.lt_or_ge n 14 with h | h
  · obtain ⟨⟨g, ev⟩, hs⟩ := Option.isSome_iff_exists.mp (readRun_first n h)
    have hg : readRun (n + 1) = g := follow_succ hs
    exact ⟨ev, by rw [hg]; exact hs⟩
  · obtain ⟨d, rfl⟩ := Nat.exists_eq_add_of_le h
    have hd : 14 + d = 14 + 3 * (d / 3) + d % 3 := by omega
    rw [hd]
    exact (readRun_round (d / 3) (readRun_quiet _)).1 (d % 3) (Nat.mod_lt _ (by decide))

theorem kcall_exactly_once_read : ∃ evs,
    FairRun readQueue (fun _ => true) readRun readActs evs ∧
      evs 1 = .submitted () (.fileRead 3 64 10) ∧
      DeliveredOnce readRun evs 1 () (.fileRead 3 64 10) := by
  choose evs hevs using readRun_step
  have F : FairRun readQueue (fun _ => true) readRun readActs evs := by
    refine ⟨rfl, hevs, fun w n => ⟨14 + 3 * n + 2, by omega, ?_⟩, fun n => ⟨14 + 3 * n, by omega, ?_⟩⟩
    · rw [(readActs_round n).2.2]
      exact Subsingleton.elim _ _
    · rw [(readActs_round n).1]
      trivial
  have hsub : evs 1 = .submitted () (.fileRead 3 64 10) := by
    have h : (gstep readQueue (readRun 1) (readActs 1)).map Prod.snd =
      some (.submitted () (.fileRead 3 64 10)) := by decide +kernel
    rw [hevs 1] at h
    exact Option.some.inj h
  exact ⟨evs, F, hsub, (kcall_exactly_once readQueue (by decide) _).2 _ _ _ F ⟨()⟩ 1 () _ hsub⟩

end FFSys.Kcall
