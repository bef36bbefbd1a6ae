import Mathlib.Algebra.BigOperators.Group.Finset.Piecewise
import FFSys.Semaphore.Named

/-!
# A named semaphore as a lock

Processes that open one name with one initial value, and post only what they have waited for, share
that many permits.

* `Sys.holders` — the permits that are out; `Fair` — the rules that the processes follow.
* `Shared` — the invariant.
* `Waits` — what waits do, with and without a time limit, if there is a free permit and if not.
* `ffsem_lock` — there are never more holders than permits, and a wait succeeds if there are fewer;
  what happens when a holder closes its descriptor on Windows, or somebody unlinks the name on UNIX.
-/

set_option autoImplicit false

namespace FFSys.Semaphore

open FFSys.Lib FFSys.Time

variable {ν τ : Type}

/-- The permits that are out. -/
def Sys.holders (s : Sys ν τ) : Nat := ∑ h ∈ Finset.range s.handles, s.held h

theorem holders_give (s : Sys ν τ) (o : Nat) : (s.give o).holders = s.holders := by
  show ∑ h ∈ Finset.range (s.handles + 1), Function.update s.held s.handles 0 h = s.holders
  rw [Finset.sum_range_succ, Function.update_self, Nat.add_zero]
  refine Finset.sum_congr rfl fun h hh => ?_
  exact Function.update_of_ne (by have := Finset.mem_range.mp hh; omega) ..

theorem holders_update {s : Sys ν τ} {h : Nat} (hlt : h < s.handles) (x : Nat) :
    ∑ k ∈ Finset.range s.handles, Function.update s.held h x k + s.held h = s.holders + x := by
  have hmem : h ∈ Finset.range s.handles := Finset.mem_range.mpr hlt
  unfold Sys.holders
  rw [Finset.sum_update_of_mem hmem, ← Finset.add_sum_erase _ _ hmem, Finset.sdiff_singleton_eq_erase]
  omega

theorem holders_take {s : Sys ν τ} {h : Nat} (hlt : h < s.handles) (o : Nat) :
    (s.take h o).holders = s.holders + 1 := by
  have : (s.take h o).holders + s.held h = s.holders + (s.held h + 1) := holders_update hlt _
  omega

theorem holders_put {s : Sys ν τ} {h : Nat} (hlt : h < s.handles) (hpos : 0 < s.held h) (o : Nat) :
    (s.put h o).holders + 1 = s.holders := by
  have : (s.put h o).holders + s.held h = s.holders + (s.held h - 1) := holders_update hlt _
  omega

/-- All open one name with one value, and post only what they hold; the name is not unlinked, and on
    Windows nobody closes a descriptor that holds something. -/
def Fair (win : Bool) (n : ν) (v : Nat) (s : Sys ν τ) : Act ν τ → Prop
  | .semOpen _ name _ value => name = some n ∧ value = v
  | .post h => 0 < s.held h
  | .close h => win = true → s.held h = 0
  | .unlink _ => win = true
  | .resume _ | .wait _ _ => True

/-- All descriptors are for one semaphore, and its value and the permits that are out add up to `v`. -/
structure Shared (win : Bool) (n : ν) (v : Nat) (s : Sys ν τ) : Prop where
  inv : Inv s
  own : ∀ h o, s.handle h = some o → s.names n = some o
  count : ∀ o, s.names n = some o → s.count o + s.holders = v
  unnamed : s.names n = none → s.holders = 0
  released : win = true → ∀ h, s.handle h = none → s.held h = 0
  pending : ∀ t m w, s.creating t = some (.absent m w) → m = n ∧ w = v

/-- There are no more holders than permits. -/
theorem Shared.holders_le {win : Bool} {n : ν} {v : Nat} {s : Sys ν τ} (h : Shared win n v s) :
    s.holders ≤ v := by
  cases hn : s.names n with
  | none =>
    rw [h.unnamed hn]
    exact Nat.zero_le v
  | some o =>
    have := h.count o hn
    omega

theorem Shared.init (win : Bool) (n : ν) (v : Nat) : Shared win n v (Sys.init : Sys ν τ) :=
  ⟨Inv.init, fun _ _ h => (by cases h), fun _ h => (by cases h), fun _ => rfl, fun _ _ _ => rfl,
    fun _ _ _ h => (by cases h)⟩

theorem Shared.give {win : Bool} {n : ν} {v o : Nat} {s : Sys ν τ} (h : Shared win n v s)
    (hn : s.names n = some o) : Shared win n v (s.give o) := by
  refine ⟨h.inv.give (h.inv.names n o hn), ?_, ?_, ?_, ?_, h.pending⟩
  · intro k o' hk
    by_cases he : k = s.handles
    · subst he
      rw [show (s.give o).handle s.handles = some o from Function.update_self ..] at hk
      cases hk
      exact hn
    · rw [show (s.give o).handle k = s.handle k from Function.update_of_ne he ..] at hk
      exact h.own k o' hk
  · intro o' hn'
    rw [holders_give]
    exact h.count o' hn'
  · intro hn'
    rw [holders_give]
    exact h.unnamed hn'
  · intro hw k hk
    by_cases he : k = s.handles
    · subst he
      exact Function.update_self ..
    · rw [show (s.give o).handle k = s.handle k from Function.update_of_ne he ..] at hk
      rw [show (s.give o).held k = s.held k from Function.update_of_ne he ..]
      exact h.released hw k hk

/-- On Windows the name goes when no descriptor is open, and then nobody holds anything. -/
theorem Shared.expire {n : ν} {v : Nat} {s : Sys ν τ} (h : Shared true n v s) (o : Nat) :
    Shared true n v (s.expire o) := by
  have hhold : (s.expire o).holders = s.holders := by
    unfold Sys.holders
    rw [expire_handles, expire_held]
  have hrel : ∀ k, (s.expire o).handle k = none → (s.expire o).held k = 0 := by
    intro k hk
    rw [expire_handle] at hk
    rw [expire_held]
    exact h.released rfl k hk
  have hpend : ∀ t m w, (s.expire o).creating t = some (.absent m w) → m = n ∧ w = v := by
    rw [expire_creating]
    exact h.pending
  rcases expire_names (s := s) (o := o) n with he | ⟨hopen, hn, he⟩
  · refine ⟨h.inv.expire o, ?_, ?_, ?_, fun _ => hrel, hpend⟩
    · intro k o' hk
      rw [expire_handle] at hk
      rw [he]
      exact h.own k o' hk
    · intro o' hn
      rw [he] at hn
      rw [expire_count, hhold]
      exact h.count o' hn
    · intro hn
      rw [he] at hn
      rw [hhold]
      exact h.unnamed hn
  · have hclosed : ∀ k, s.handle k = none := by
      intro k
      cases hk : s.handle k with
      | none => rfl
      | some o' =>
        have ho := h.own k o' hk
        rw [hn] at ho
        cases ho
        rw [isOpen_of_handle (h.inv.handle k o hk).1 hk] at hopen
        cases hopen
    refine ⟨h.inv.expire o, ?_, ?_, ?_, fun _ => hrel, hpend⟩
    · intro k o' hk
      rw [expire_handle, hclosed k] at hk
      cases hk
    · intro o' hn'
      rw [he] at hn'
      cases hn'
    · intro _
      rw [hhold]
      exact Finset.sum_eq_zero fun k _ => h.released rfl k (hclosed k)

/-- A wait or a post moves permits between the value and a descriptor. -/
theorem Shared.settle {win : Bool} {n : ν} {v : Nat} {s : Sys ν τ} (h : Shared win n v s) {k o : Nat}
    (hk : s.handle k = some o) (c x : Nat)
    (hsum : c + Sys.holders { s with held := Function.update s.held k x } = v) :
    Shared win n v
      { s with count := Function.update s.count o c, held := Function.update s.held k x } := by
  have hn := h.own k o hk
  refine ⟨⟨h.inv.handle, h.inv.names⟩, h.own, ?_, ?_, ?_, h.pending⟩
  · intro o' hn'
    rw [show s.names n = some o' from hn'] at hn
    cases hn
    show Function.update s.count o c o + _ = v
    rw [Function.update_self]
    exact hsum
  · intro hn'
    rw [show s.names n = none from hn'] at hn
    cases hn
  · intro hw j hj
    have hne : j ≠ k := by
      rintro rfl
      rw [show s.handle j = none from hj] at hk
      cases hk
    exact (Function.update_of_ne hne ..).trans (h.released hw j hj)

theorem Shared.drop {win : Bool} {n : ν} {v : Nat} {s : Sys ν τ} (h : Shared win n v s) {k : Nat}
    (hk : win = true → s.held k = 0) : Shared win n v (s.drop k) := by
  refine ⟨h.inv.drop k, ?_, h.count, h.unnamed, ?_, h.pending⟩
  · intro j o hj
    exact h.own j o (drop_handle_some hj).2
  · intro hw j hj
    by_cases he : j = k
    · subst he
      exact hk hw
    · rw [drop_handle_ne he] at hj
      exact h.released hw j hj

/-- `creating` does not matter but for the calls that are to make the semaphore. -/
theorem Shared.creating [DecidableEq τ] {win : Bool} {n : ν} {v : Nat} {s : Sys ν τ}
    (h : Shared win n v s) (t : τ) (c : Option (Creating ν)) (temp : List Nat)
    (hc : ∀ m w, c = some (.absent m w) → m = n ∧ w = v) :
    Shared win n v { s with creating := Function.update s.creating t c, temp := temp } := by
  refine ⟨⟨h.inv.handle, h.inv.names⟩, h.own, h.count, h.unnamed, h.released, ?_⟩
  intro u m w hu
  replace hu : Function.update s.creating t c u = some (.absent m w) := hu
  by_cases he : u = t
  · subst he
    rw [Function.update_self] at hu
    exact hc m w hu
  · rw [Function.update_of_ne he] at hu
    exact h.pending u m w hu

/-! ## Waits -/

/-- `ffsem_wait` returns success. -/
def Succeeds (step : Sys ν τ → Act ν τ → Option (Sys ν τ × Out)) (s : Sys ν τ) (h : Nat) (w : Wait) :
    Prop :=
  ∃ s', step s (.wait h w) = some (s', .ret 0)

/-- The wait has no deadline, or `ffsem_wait` computes one that is normalised. -/
def Timely (w : Wait) : Prop :=
  w.timeMs = 0 ∨ w.timeMs = 0xffffffff ∨ ∃ d, ffsemDeadline w.now w.timeMs = some d ∧ d.Normal

theorem timedwait_normal {d : Timespec} (hd : d.Normal) (early : Bool) (value : Nat) :
    timedwait early d value = decide (value ≠ 0) := by
  have hnonneg := hd.nonneg
  have hlt := hd.lt
  rw [timedwait, if_neg (by omega)]

theorem Unix.answer_iff {w : Wait} (hw : Timely w) (value : Nat) :
    Unix.answer w value = some true ↔ value ≠ 0 := by
  refine ⟨Unix.answer_true, fun hv => ?_⟩
  rw [Unix.answer, ffsemWait, if_neg (by decide)]
  by_cases hzero : w.timeMs = 0
  · rw [if_pos hzero]
    simp [hv]
  rw [if_neg hzero]
  by_cases hinf : w.timeMs = 0xffffffff
  · rw [if_pos hinf]
    simp [hv]
  rw [if_neg hinf]
  obtain ⟨d, hd, hnormal⟩ := (hw.resolve_left hzero).resolve_left hinf
  simp [hd, timedwait_normal hnormal, hv]

theorem Win.answer_iff (w : Wait) (value : Nat) : Win.answer w value = some true ↔ value ≠ 0 := by
  refine ⟨Win.answer_true, fun hv => ?_⟩
  rw [Win.answer, if_pos hv]

theorem Unix.answer_infinite {w : Wait} (hw : w.timeMs = 0xffffffff) {value : Nat} {ok : Bool}
    (h : Unix.answer w value = some ok) : ok = true := by
  rw [Unix.answer, ffsemWait, if_neg (by decide), if_neg (by rw [hw]; decide), if_pos hw] at h
  simp only [Option.bind_some] at h
  split at h
  · cases h
  · cases h
    rfl

theorem Win.answer_infinite {w : Wait} (hw : w.timeMs = 0xffffffff) {value : Nat} {ok : Bool}
    (h : Win.answer w value = some ok) : ok = true := by
  unfold Win.answer at h
  split at h
  · cases h
    rfl
  · cases h

theorem waitWith_succeeds {s : Sys ν τ} {h o : Nat} {answer : Nat → Option Bool} {fail : Int}
    (hfail : fail ≠ 0) (hh : s.handle h = some o) :
    (∃ s', s.waitWith h answer fail = some (s', .ret 0)) ↔ answer (s.count o) = some true := by
  simp only [Sys.waitWith, hh]
  cases answer (s.count o) with
  | none => simp
  | some ok => cases ok <;> simp [hfail]

/-- A wait succeeds only if there is a permit, and then all that are `timely` do; one without a time
    limit returns in no other way. -/
structure Waits (step : Sys ν τ → Act ν τ → Option (Sys ν τ × Out)) (timely : Wait → Prop)
    (s : Sys ν τ) (h : Nat) (free : Prop) : Prop where
  only : ∀ w, Succeeds step s h w → free
  all : free → ∀ w, timely w → Succeeds step s h w
  infinite : ∀ w s' out, w.timeMs = 0xffffffff → step s (.wait h w) = some (s', out) → out = .ret 0

theorem waits_of_answer {step : Sys ν τ → Act ν τ → Option (Sys ν τ × Out)}
    {answer : Wait → Nat → Option Bool} {fail : Int} {timely : Wait → Prop} {s : Sys ν τ} {h o : Nat}
    (hfail : fail ≠ 0) (hstep : ∀ w, step s (.wait h w) = s.waitWith h (answer w) fail)
    (honly : ∀ w value, answer w value = some true → value ≠ 0)
    (hall : ∀ w value, timely w → value ≠ 0 → answer w value = some true)
    (hinf : ∀ w value ok, w.timeMs = 0xffffffff → answer w value = some ok → ok = true)
    (hh : s.handle h = some o) : Waits step timely s h (s.count o ≠ 0) := by
  have hiff : ∀ w, Succeeds step s h w ↔ answer w (s.count o) = some true := by
    intro w
    unfold Succeeds
    rw [hstep]
    exact waitWith_succeeds hfail hh
  refine ⟨fun w hw => honly w _ ((hiff w).mp hw), fun hfree w hw => ?_, fun w s' out hw hst => ?_⟩
  · exact (hiff w).mpr (hall w _ hw hfree)
  · rw [hstep] at hst
    simp only [Sys.waitWith, hh] at hst
    obtain ⟨ok, hok, hs⟩ := Option.map_eq_some_iff.mp hst
    rw [hinf w _ ok hw hok] at hs
    cases hs
    rfl

theorem Waits.congr {step : Sys ν τ → Act ν τ → Option (Sys ν τ × Out)} {timely : Wait → Prop}
    {s : Sys ν τ} {h : Nat} {free free' : Prop} (W : Waits step timely s h free)
    (hiff : free ↔ free') : Waits step timely s h free' :=
  ⟨fun w hw => hiff.mp (W.only w hw), fun hf => W.all (hiff.mpr hf), W.infinite⟩

variable [DecidableEq ν]

/-- A new semaphore starts with all permits: nobody can hold one. -/
theorem Shared.make {win : Bool} {n : ν} {v : Nat} {s : Sys ν τ} (h : Shared win n v s)
    (hn : s.names n = none) : Shared win n v ((s.bind n (some s.sems)).make v) := by
  have hname : ((s.bind n (some s.sems)).make v).names n = some s.sems := Function.update_self ..
  have hhold : ((s.bind n (some s.sems)).make v).holders = 0 :=
    (holders_give _ s.sems).trans (h.unnamed hn)
  refine ⟨h.inv.bind_make n v, ?_, ?_, ?_, ?_, h.pending⟩
  · intro k o hk
    rw [hname]
    by_cases he : k = s.handles
    · subst he
      rwa [show ((s.bind n (some s.sems)).make v).handle s.handles = some s.sems from
        Function.update_self ..] at hk
    · rw [show ((s.bind n (some s.sems)).make v).handle k = s.handle k from
        Function.update_of_ne he ..] at hk
      rw [h.own k o hk] at hn
      cases hn
  · intro o ho
    rw [hname] at ho
    cases ho
    rw [hhold, Nat.add_zero]
    exact Function.update_self ..
  · intro hnone
    rw [hname] at hnone
    cases hnone
  · intro hw k hk
    by_cases he : k = s.handles
    · subst he
      exact Function.update_self ..
    · rw [show ((s.bind n (some s.sems)).make v).handle k = s.handle k from
        Function.update_of_ne he ..] at hk
      exact (Function.update_of_ne he ..).trans (h.released hw k hk)

theorem Unix.waits {s : Sys ν τ} {h o : Nat} (hh : s.handle h = some o) :
    Waits Unix.step Timely s h (s.count o ≠ 0) :=
  waits_of_answer (by decide) (fun _ => rfl) (fun _ _ => Unix.answer_true)
    (fun _ value hw => (Unix.answer_iff hw value).mpr) (fun _ _ _ hw => Unix.answer_infinite hw) hh

variable [DecidableEq τ]

theorem shared_step {win : Bool} {n : ν} {v : Nat} {s s' : Sys ν τ} {a : Act ν τ} {out : Out}
    (h : Shared win n v s) (hf : Fair win n v s a) (hr : Rule win s a s' out) :
    Shared win n v s' := by
  cases hr with
  | same a o ho => exact h
  | unnamed t f w => cases hf.1
  | found t m f w o hm hx =>
    obtain ⟨rfl, rfl⟩ : m = n ∧ w = v := ⟨Option.some.inj hf.1, hf.2⟩
    exact h.give hm
  | made t m f w hm =>
    obtain ⟨rfl, rfl⟩ : m = n ∧ w = v := ⟨Option.some.inj hf.1, hf.2⟩
    exact h.make hm
  | look t m w o hw hm => exact h.creating t _ _ fun _ _ he => (by cases he)
  | miss t m w hw hm =>
    refine h.creating t _ s.temp fun m' w' he => ?_
    cases he
    exact ⟨Option.some.inj hf.1, hf.2⟩
  | lookEnd t o hw hc =>
    subst hw
    exact (h.creating t none (s.temp.erase o) fun _ _ he => (by cases he)).expire o
  | refusedLate t m w hw hc => exact h.creating t none s.temp fun _ _ he => (by cases he)
  | foundLate t m w o hw hc hm =>
    obtain ⟨rfl, rfl⟩ := h.pending t m w hc
    exact (h.creating t none s.temp fun _ _ he => (by cases he)).give hm
  | madeLate t m w hw hc hm =>
    obtain ⟨rfl, rfl⟩ := h.pending t m w hc
    exact (h.creating t none s.temp fun _ _ he => (by cases he)).make hm
  | closeUnix k o hw hk => exact h.drop hf
  | closeWin k o hw hk =>
    subst hw
    exact (h.drop hf).expire o
  | take k w o hk hc =>
    have hsum := h.count o (h.own k o hk)
    refine h.settle hk (s.count o - 1) (s.held k + 1) ?_
    show s.count o - 1 + (s.take k o).holders = v
    rw [holders_take (h.inv.handle k o hk).1]
    omega
  | put k o hk =>
    have hsum := h.count o (h.own k o hk)
    have hput := holders_put (h.inv.handle k o hk).1 hf o
    refine h.settle hk (s.count o + 1) (s.held k - 1) ?_
    show s.count o + 1 + (s.put k o).holders = v
    omega
  | unlink m o hw hm =>
    rw [show win = true from hf] at hw
    cases hw

theorem Win.waits {s : Sys ν τ} {h o : Nat} (hh : s.handle h = some o) :
    Waits Win.step (fun _ => True) s h (s.count o ≠ 0) :=
  waits_of_answer (by decide) (fun _ => rfl) (fun _ _ => Win.answer_true)
    (fun w value _ => (Win.answer_iff w value).mpr) (fun _ _ _ hw => Win.answer_infinite hw) hh

/-- A wait without a time limit. -/
def infinite : Wait := ⟨0xffffffff, ⟨0, 0⟩, false⟩

/-- A descriptor that holds the only permit is closed, and the name is opened once more. -/
def closedRun : List (Act Unit Unit) :=
  [.semOpen () (some ()) .create 1, .wait 0 infinite, .close 0, .semOpen () (some ()) .create 1,
    .wait 1 infinite]

/-- The name is unlinked while somebody holds the only permit. -/
def unlinkedRun : List (Act Unit Unit) :=
  [.semOpen () (some ()) .create 1, .wait 0 infinite, .unlink (), .semOpen () (some ()) .create 1,
    .wait 1 infinite]

/-- For 500 ms, six tenths of a second into a second: the deadline is not normalised. -/
def halfSecond : Wait := ⟨500, ⟨0, 600000000⟩, true⟩

/-- **A named semaphore is a lock with `v` permits.**  If all open one name with the value `v` and post
    what they hold, at most `v` permits are out in every state of every run, and a wait succeeds
    exactly if fewer are, where one without a time limit returns in no other way — on UNIX as long as
    the name is not unlinked, whoever closes what, on Windows as long as no descriptor is closed that
    holds a permit.  On UNIX a wait with a time limit may fail in spite of a free permit, if its
    deadline is not normalised.  A single descriptor that is closed lets a second holder in, and so
    does an unlink on UNIX. -/
theorem ffsem_lock (n : ν) (v : Nat) (as : List (Act ν τ)) (s : Sys ν τ) (os : List Out) :
    (exec Unix.step Sys.init as = some (s, os) → EachStep Unix.step (Fair false n v) Sys.init as →
      s.holders ≤ v ∧ ∀ h o, s.handle h = some o → Waits Unix.step Timely s h (s.holders < v)) ∧
    (exec Win.step Sys.init as = some (s, os) → EachStep Win.step (Fair true n v) Sys.init as →
      s.holders ≤ v ∧
        ∀ h o, s.handle h = some o → Waits Win.step (fun _ => True) s h (s.holders < v)) ∧
    (∃ t os', exec Win.step Sys.init closedRun = some (t, os') ∧ t.holders = 2) ∧
    (∃ t os', exec Unix.step Sys.init unlinkedRun = some (t, os') ∧ t.holders = 2) ∧
    ∃ t os', exec Unix.step Sys.init [.semOpen () (some ()) .create 1] = some (t, os') ∧
      t.holders = 0 ∧ ¬ Succeeds Unix.step (t : Sys Unit Unit) 0 halfSecond := by
  have hfree : ∀ {win : Bool}, Shared win n v s → ∀ h o, s.handle h = some o →
      (s.count o ≠ 0 ↔ s.holders < v) := by
    intro win hs h o hh
    have := hs.count o (hs.own h o hh)
    omega
  refine ⟨?_, ?_, ⟨_, _, rfl, rfl⟩, ⟨_, _, rfl, rfl⟩, _, _, rfl, rfl, ?_⟩
  · intro hrun hfair
    have hs : Shared false n v s := (always_of_eachStep
      (fun _ _ _ _ hi hf hst => shared_step hi hf (Unix.step_rule hst)) as Sys.init
      (Shared.init false n v) hfair).last hrun
    exact ⟨hs.holders_le, fun h o hh => (Unix.waits hh).congr (hfree hs h o hh)⟩
  · intro hrun hfair
    have hs : Shared true n v s := (always_of_eachStep
      (fun _ _ _ _ hi hf hst => shared_step hi hf (Win.step_rule hst)) as Sys.init
      (Shared.init true n v) hfair).last hrun
    exact ⟨hs.holders_le, fun h o hh => (Win.waits hh).congr (hfree hs h o hh)⟩
  · rintro ⟨t, ht⟩
    cases ht

/-- Two open the name, and one waits. -/
def takenRun : List (Act Unit Unit) :=
  [.semOpen () (some ()) .create 1, .semOpen () (some ()) .create 1, .wait 0 infinite]

theorem ffsem_lock_taken :
    ∃ s os, exec Unix.step Sys.init takenRun = some (s, os) ∧
      (∀ w, ¬ Succeeds Unix.step s 1 w) ∧
      ∃ t os', exec Win.step Sys.init takenRun = some (t, os') ∧ ∀ w, ¬ Succeeds Win.step t 1 w := by
  have hunix : EachStep Unix.step (Fair false () 1) Sys.init takenRun :=
    ⟨⟨rfl, rfl⟩, ⟨rfl, rfl⟩, trivial, trivial⟩
  have hwin : EachStep Win.step (Fair true () 1) Sys.init takenRun :=
    ⟨⟨rfl, rfl⟩, ⟨rfl, rfl⟩, trivial, trivial⟩
  refine ⟨_, _, rfl, fun w hw => ?_, _, _, rfl, fun w hw => ?_⟩
  · exact absurd ((((ffsem_lock () 1 takenRun _ _).1 rfl hunix).2 1 0 rfl).only w hw) (Nat.lt_irrefl 1)
  · exact absurd ((((ffsem_lock () 1 takenRun _ _).2.1 rfl hwin).2 1 0 rfl).only w hw)
      (Nat.lt_irrefl 1)

end FFSys.Semaphore
