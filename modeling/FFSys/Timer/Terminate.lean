import FFSys.Timer.Periodic
import Mathlib.Algebra.Order.BigOperators.Group.List
import Mathlib.Algebra.Order.Group.Nat

/-!
# The loop of `fftimerqueue_process` ends

A periodic timer goes back into the tree that is being drained, and its new key may be in the past
again: the maximum in `rearmKey` ignores the wrap of the clock.  So the number of queued timers does
not decrease.  What decreases is how late they are, all together.

* `totalLateness` — the variant of the loop.  Neither the order of the tree nor `active` matters for
  it, and the keys may lie anywhere.
* `processNext_cases` — what an iteration does to the nodes of the tree and to the keys, in any
  state of the queue.
* `lateness_rearm` — a timer that is due is less late, or not due, with its new key.
* `process_terminates` — the loop ends, and no timer is due at the head of the tree.
-/

set_option autoImplicit false

namespace FFSys.Timer

open FFSys.Lib

variable {ι T : Type} [DecidableEq ι] {F : Ffrbt ι T} {q q' : Timerqueue ι T} {x : ι}
  {now : BitVec 32} {func param : Nat}

/-- How late the queued timers are, all together. -/
def totalLateness (F : Ffrbt ι T) (q : Timerqueue ι T) (now : BitVec 32) : Nat :=
  ((q.nodes F).map fun x => lateness now (q.mem x).key).sum

/-! ## One iteration -/

/-- The iteration takes the first node `x` of the tree, which is due, and puts it back with another
    key if it is periodic. -/
theorem processNext_cases (h : processNext F q now = some (q', x, func, param)) :
    ∃ rest, q.nodes F = x :: rest ∧ ((q.mem x).key - now).toInt ≤ 0 ∧
      ((0 < (q.mem x).intervalMsec.toInt ∧ (q'.nodes F).Perm (x :: rest) ∧
          ∀ y, (q'.mem y).key = if y = x then rearmKey (q.mem x) now else (q.mem y).key) ∨
        (q'.nodes F = rest ∧ ∀ y, (q'.mem y).key = (q.mem y).key)) := by
  unfold processNext at h
  split at h
  · cases h
  · rename_i y hmin
    rw [leftmost_eq_head?] at hmin
    obtain ⟨rest, hnodes⟩ := List.head?_eq_some_iff.mp hmin
    have hrm : (ffrbtRm F q y).nodes F = rest := by
      have := F.inorder_rm q.tree y (hnodes ▸ List.mem_cons_self)
      rw [hnodes, List.erase_cons_head] at this
      exact this
    simp only at h
    split at h
    · cases h
    · rename_i hdue
      simp only [Option.some.injEq, Prod.mk.injEq] at h
      obtain ⟨rfl, rfl, _, _⟩ := h
      refine ⟨rest, hnodes, Int.not_lt.mp hdue, ?_⟩
      simp only [set_mem_self]
      split
      · rename_i hper
        refine Or.inl ⟨hper, ?_, ?_⟩
        · rw [← hrm]
          exact nodes_insert_perm F _ y
        · intro z
          by_cases hz : z = y
          · subst hz
            rw [if_pos rfl, set_mem_self]
            simp [ffrbtInsert, set_mem_self, rearmKey]
          · rw [if_neg hz, set_mem_of_ne _ _ hz]
            simp [ffrbtInsert, set_mem_of_ne _ _ hz, ffrbtRm]
      · exact Or.inr ⟨hrm, fun z => key_update_active rfl z⟩

/-- The new key is `key + interval_msec` or `now_msec + 1`, whichever it is. -/
theorem lateness_rearm {n : Node} (hi : 0 < n.intervalMsec.toInt) (hdue : (n.key - now).toInt ≤ 0) :
    lateness now (rearmKey n now) < lateness now n.key := by
  unfold rearmKey ffmax
  split
  · have hnext : 0 < (now + 1 - now).toInt := by
      rw [add_sub_cancel_left]
      decide
    rw [lateness_of_after hnext, lateness_of_not_after hdue]
    exact Nat.succ_pos _
  · exact lateness_add_lt hdue hi

/-- **Every iteration that calls a handler makes the queue less late.** -/
theorem processNext_totalLateness (h : processNext F q now = some (q', x, func, param)) :
    totalLateness F q' now < totalLateness F q now := by
  obtain ⟨rest, hnodes, hdue, hcases⟩ := processNext_cases h
  unfold totalLateness
  rw [hnodes, List.map_cons, List.sum_cons]
  rcases hcases with ⟨hper, hperm, hkey⟩ | ⟨hrest, hkey⟩
  · have hx : lateness now (q'.mem x).key < lateness now (q.mem x).key := by
      rw [hkey, if_pos rfl]
      exact lateness_rearm hper hdue
    have hle : ∀ y ∈ rest, lateness now (q'.mem y).key ≤ lateness now (q.mem y).key := by
      intro y _
      by_cases hy : y = x
      · rw [hy]; exact Nat.le_of_lt hx
      · rw [hkey, if_neg hy]
    rw [(hperm.map _).sum_eq, List.map_cons, List.sum_cons]
    exact Nat.add_lt_add_of_lt_of_le hx (List.sum_le_sum hle)
  · have hpos : 0 < lateness now (q.mem x).key := by
      rw [lateness_of_not_after hdue]
      exact Nat.succ_pos _
    simp only [hrest, hkey]
    omega

theorem processNext_none (h : processNext F q now = none) :
    F.shape q.tree = .nil ∨
      ∃ x, leftmost (F.shape q.tree) = some x ∧ 0 < ((q.mem x).key - now).toInt := by
  unfold processNext at h
  split at h
  · rename_i hmin
    cases hshape : F.shape q.tree with
    | nil => exact Or.inl rfl
    | node y l r =>
      rw [hshape, leftmost_eq_head?] at hmin
      simp [inorder] at hmin
  · rename_i y hmin
    simp only at h
    split at h
    · rename_i hafter
      exact Or.inr ⟨y, hmin, hafter⟩
    · cases h

/-! ## The loop -/

/-- `k` iterations with a handler call, in which the `i`-th handler makes the operations
    `handler i`. -/
def turns {τ : Type} (handler : Nat → List (Op ι τ)) (k : Nat) : List (Op ι τ) :=
  (List.range k).flatMap fun i => .next :: handler i ++ [.ret]

/-- The handlers that `fftimerqueue_process(now)` calls in the state `s` do not modify the queue:
    whatever the `k`-th one does, it leaves everything as it was when it was called. -/
def Unmodified (F : Ffrbt ι T) (s : St (Timerqueue ι T) (BitVec 32)) (now : BitVec 32)
    (handler : Nat → List (Op ι (BitVec 32))) : Prop :=
  ∀ k s' os x func param,
    exec (QueueStep (codeOps F)) s (.process now :: (turns handler k ++ [.next])) =
      some (s', os ++ [.called x func param]) →
    ∃ os', exec (QueueStep (codeOps F)) s' (handler k) = some (s', os')

omit [DecidableEq ι] in
theorem turns_succ {τ : Type} (handler : Nat → List (Op ι τ)) (k : Nat) :
    turns handler (k + 1) = turns handler k ++ (.next :: handler k ++ [.ret]) := by
  simp [turns, List.range_succ]

/-- `fftimerqueue_process(now)`, called in the state `s₀`, has made `k` iterations and is in the
    state `s`. -/
structure Looping (F : Ffrbt ι T) (s₀ : St (Timerqueue ι T) (BitVec 32)) (now : BitVec 32)
    (handler : Nat → List (Op ι (BitVec 32))) (k : Nat) (s : St (Timerqueue ι T) (BitVec 32)) :
    Prop where
  reached : ∃ os, exec (QueueStep (codeOps F)) s₀ (.process now :: turns handler k) = some (s, os)
  frames : s.frames = (now, BitVec.ofNat 32 k) :: s₀.frames
  atHead : s.atHead = true

/-- It has returned to the caller, with the return value `k`, in the state `t`. -/
structure Returned (F : Ffrbt ι T) (s₀ : St (Timerqueue ι T) (BitVec 32)) (now : BitVec 32) (k : Nat)
    (t : St (Timerqueue ι T) (BitVec 32)) (os : List (Out ι)) : Prop where
  value : os = [.finished (BitVec.ofNat 32 k)]
  frames : t.frames = s₀.frames
  atHead : t.atHead = false
  rest : F.shape t.q.tree = .nil ∨
    ∃ x, leftmost (F.shape t.q.tree) = some x ∧ 0 < ((t.q.mem x).key - now).toInt

section Loop

variable {s₀ s : St (Timerqueue ι T) (BitVec 32)} {handler : Nat → List (Op ι (BitVec 32))} {k : Nat}

theorem looping_start (hat : s₀.atHead = false) :
    Looping F s₀ now handler 0 ⟨s₀.q, (now, 0) :: s₀.frames, true⟩ := by
  refine ⟨⟨[.silent], ?_⟩, rfl, rfl⟩
  simp [turns, exec, QueueStep, hat]

/-- The next iteration ends the loop, or it calls a handler and makes the queue less late. -/
theorem looping_turn (hun : Unmodified F s₀ now handler) (h : Looping F s₀ now handler k s) :
    (∃ t os, exec (QueueStep (codeOps F)) s [.next] = some (t, os) ∧ Returned F s₀ now k t os) ∨
      ∃ t os, exec (QueueStep (codeOps F)) s (.next :: handler k ++ [.ret]) = some (t, os) ∧
        Looping F s₀ now handler (k + 1) t ∧ totalLateness F t.q now < totalLateness F s.q now := by
  obtain ⟨⟨os₀, hrun⟩, hframes, hat⟩ := h
  obtain ⟨q, frames, atHead⟩ := s
  simp only at hframes hat
  subst hframes hat
  cases hnext : processNext F q now with
  | none =>
    refine Or.inl ⟨⟨q, s₀.frames, false⟩, [.finished (BitVec.ofNat 32 k)], ?_, ?_⟩
    · rw [exec_of_step (loop_break hnext)]
      rfl
    · exact ⟨rfl, rfl, rfl, processNext_none hnext⟩
  | some r =>
    obtain ⟨q', x, func, param⟩ := r
    have hcall := exec_of_step (@loop_call _ _ _ (codeOps F) q q' now (BitVec.ofNat 32 k) s₀.frames
      x func param hnext)
    -- the handler runs in the state that the iteration leads to, and leaves it as it is
    have hbefore := exec_append [.next] hrun
    rw [hcall, List.cons_append] at hbefore
    obtain ⟨os₁, hhandler⟩ := hun k _ _ x func param hbefore
    have hreturn := exec_of_step (@loop_return _ _ _ (codeOps F) now (BitVec.ofNat 32 k) s₀.frames q')
    have hturn : exec (QueueStep (codeOps F)) ⟨q, (now, BitVec.ofNat 32 k) :: s₀.frames, true⟩
        (.next :: handler k ++ [.ret]) =
          some (⟨q', (now, BitVec.ofNat 32 k + 1) :: s₀.frames, true⟩,
            .called x func param :: (os₁ ++ [.silent])) := by
      rw [List.cons_append, hcall, exec_append _ hhandler, hreturn]
      rfl
    refine Or.inr ⟨_, _, hturn, ⟨⟨os₀ ++ .called x func param :: (os₁ ++ [.silent]), ?_⟩, ?_, rfl⟩, ?_⟩
    · rw [turns_succ, ← List.cons_append, exec_append _ hrun, hturn]
      rfl
    · rw [BitVec.ofNat_add]
      rfl
    · exact processNext_totalLateness hnext

end Loop

/-- **`fftimerqueue_process` terminates.**  Whatever the keys of the queued timers, their intervals,
    the shape of the tree and `now_msec` are, if the handlers do not modify the queue, the loop ends
    after at most `totalLateness` handler calls and returns their number.  Then the tree is empty,
    or the key of its first node is after `now_msec`. -/
theorem process_terminates (F : Ffrbt ι T) (q : Timerqueue ι T)
    (frames : List (BitVec 32 × BitVec 32)) (now : BitVec 32)
    (handler : Nat → List (Op ι (BitVec 32))) (hun : Unmodified F ⟨q, frames, false⟩ now handler) :
    ∃ k, k ≤ totalLateness F q now ∧ ∃ q' os,
      exec (QueueStep (codeOps F)) ⟨q, frames, false⟩
          (.process now :: (turns handler k ++ [.next])) =
        some (⟨q', frames, false⟩, os ++ [.finished (BitVec.ofNat 32 k)]) ∧
      (F.shape q'.tree = .nil ∨
        ∃ x, leftmost (F.shape q'.tree) = some x ∧ 0 < ((q'.mem x).key - now).toInt) := by
  have hloop := @exec_variant _ _ _ (QueueStep (codeOps F)) (fun i => .next :: handler i ++ [.ret])
    [.next] (Looping F ⟨q, frames, false⟩ now handler) (Returned F ⟨q, frames, false⟩ now)
    (fun s => totalLateness F s.q now) (fun _ _ h => looping_turn hun h) 0 _ (looping_start rfl)
  obtain ⟨k, hk, ⟨q', frames', atHead⟩, os, os', hrun, hret⟩ := hloop
  obtain ⟨hvalue, hframes, hat, hrest⟩ := hret
  simp only at hframes hat
  subst hvalue hframes hat
  refine ⟨k, hk, q', .silent :: os, ?_, hrest⟩
  have hstart : QueueStep (codeOps F) ⟨q, frames', false⟩ (.process now) =
      some (⟨q, (now, 0) :: frames', true⟩, .silent) := rfl
  rw [exec_of_step hstart, turns, List.range_eq_range', hrun, Nat.zero_add]
  rfl

/-- A periodic timer with the key `0xfffffff0` and an interval of 4 ms at the time 5: it is re-added
    with keys in the past until its key passes the wrap. -/
theorem process_terminates_wrap :
    ∃ k, k ≤ 26 ∧ ∃ q' os,
      exec (QueueStep (codeOps (plainRbt (Fin 2))))
          ⟨⟨fun x => if x = 0 then ⟨0xfffffff0, 4, true, 7, 0⟩ else ⟨2, -1, true, 8, 0⟩,
            .node 0 .nil (.node 1 .nil .nil), [1, 0]⟩, [], false⟩
          (.process 5 :: (turns (fun _ => []) k ++ [.next])) =
        some (⟨q', [], false⟩, os ++ [.finished (BitVec.ofNat 32 k)]) ∧
      ((plainRbt (Fin 2)).shape q'.tree = .nil ∨
        ∃ x, leftmost ((plainRbt (Fin 2)).shape q'.tree) = some x ∧ 0 < ((q'.mem x).key - 5).toInt) := by
  obtain ⟨k, hk, h⟩ := process_terminates (plainRbt (Fin 2))
    ⟨fun x => if x = 0 then ⟨0xfffffff0, 4, true, 7, 0⟩ else ⟨2, -1, true, 8, 0⟩,
      .node 0 .nil (.node 1 .nil .nil), [1, 0]⟩ [] 5 (fun _ => []) (fun _ _ _ _ _ _ _ => ⟨[], rfl⟩)
  have hlate : totalLateness (plainRbt (Fin 2))
      ⟨fun x => if x = 0 then ⟨0xfffffff0, 4, true, 7, 0⟩ else ⟨2, -1, true, 8, 0⟩,
        .node 0 .nil (.node 1 .nil .nil), [1, 0]⟩ 5 = 26 := by
    decide
  rw [hlate] at hk
  exact ⟨k, hk, h⟩

end FFSys.Timer
