import Mathlib.Algebra.Order.Group.Abs
import FFSys.Timer.Invariant

/-!
# The ideal timer queue

Time is an unbounded integer, the queue is a list in insertion order, and the next timer is the
first one with the least deadline.  `Refines` relates the timer queue of the code to it: keys are
deadlines modulo `2^32`, the tree holds the queued timers, and both know the order of insertion.

* `refines_head` — within a window shorter than `2^31`, the leftmost node is the timer the ideal
  queue takes next.
* `remove_refines`, `addnode_refines`, `add_refines`, `next_refines` — hence the functions of the
  header do what the ideal queue does.
-/

set_option autoImplicit false

namespace FFSys.Timer

open FFSys.Lib

/-! ## The specification -/

/-- A timer with its true deadline and its handler. -/
structure Entry where
  deadline : Int
  func : Nat
  param : Nat

/-- The timers, and the queued ones in the order in which they were added. -/
structure Ideal (ι : Type) where
  mem : ι → Entry
  queue : List ι

variable {ι : Type} [DecidableEq ι]

def Ideal.set (q : Ideal ι) (x : ι) (e : Entry) : Ideal ι :=
  { q with mem := Function.update q.mem x e }

def Ideal.remove (q : Ideal ι) (x : ι) : Ideal ι × Bool :=
  ({ q with queue := q.queue.erase x }, decide (x ∈ q.queue))

def Ideal.addnode (q : Ideal ι) (x : ι) : Ideal ι := { q with queue := q.queue.erase x ++ [x] }

def Ideal.add (q : Ideal ι) (x : ι) (now : Int) (interval : BitVec 32) (func param : Nat) : Ideal ι :=
  (q.set x ⟨now + |interval.toInt|, func, param⟩).addnode x

/-- The first in insertion order of the timers with the earliest deadline. -/
def Ideal.earliest (q : Ideal ι) : Option ι :=
  q.queue.find? fun x => q.queue.all fun y => decide ((q.mem x).deadline ≤ (q.mem y).deadline)

/-- Take the earliest deadline, ties in insertion order, unless it is later than `now`. -/
def Ideal.next (q : Ideal ι) (now : Int) : Option (Ideal ι × ι × Nat × Nat) :=
  match q.earliest with
  | none => none
  | some x =>
    if (q.mem x).deadline > now then none
    else some ({ q with queue := q.queue.erase x }, x, (q.mem x).func, (q.mem x).param)

def idealOps : QueueOps ι Int (Ideal ι) := ⟨Ideal.add, Ideal.addnode, Ideal.remove, Ideal.next⟩

def idealStart : St (Ideal ι) Int := ⟨⟨fun _ => ⟨0, 0, 0⟩, []⟩, [], false⟩

/-- `t` is inside of the window that starts at `w`. -/
def Within (w t : Int) : Prop := w ≤ t ∧ t < w + 2 ^ 31

instance (w t : Int) : Decidable (Within w t) := inferInstanceAs (Decidable (_ ∧ _))

/-- The deadlines of the queued timers and the times of the `process` calls in progress lie in one
    window shorter than `2^31`. -/
def InWindow (s : St (Ideal ι) Int) : Prop :=
  ∃ w, (∀ x ∈ s.q.queue, Within w (s.q.mem x).deadline) ∧ ∀ f ∈ s.frames, Within w f.1

/-- The timer that is added is not periodic. -/
def Op.OneShot {τ : Type} : Op ι τ → Prop
  | .add _ _ interval _ _ => interval.toInt ≤ 0
  | _ => True

/-- The time modulo `2^32`. -/
def msec (t : Int) : BitVec 32 := BitVec.ofInt 32 t

def Op.toMsec : Op ι Int → Op ι (BitVec 32)
  | .add x now interval func param => .add x (msec now) interval func param
  | .addnode x => .addnode x
  | .remove x => .remove x
  | .process now => .process (msec now)
  | .next => .next
  | .ret => .ret

/-! ## The relation -/

variable {T : Type}

/-- The two queues hold the same timers, inserted in the same order. -/
structure Agrees (F : Ffrbt ι T) (q : Timerqueue ι T) (i : Ideal ι) : Prop where
  linked : Linked F q
  key : ∀ x, (q.mem x).key = msec (i.mem x).deadline
  call : ∀ x, (q.mem x).func = (i.mem x).func ∧ (q.mem x).param = (i.mem x).param
  oneShot : ∀ x, (q.mem x).intervalMsec.toInt ≤ 0
  perm : (q.nodes F).Perm i.queue
  recent : i.queue.Pairwise (fun x y => q.inserts.idxOf y < q.inserts.idxOf x)

/-- Moreover the tree is in order. -/
structure Refines (F : Ffrbt ι T) (q : Timerqueue ι T) (i : Ideal ι) : Prop extends Agrees F q i where
  order : (q.nodes F).Pairwise (Before q)

theorem ideal_set_self (i : Ideal ι) (x : ι) (e : Entry) : (i.set x e).mem x = e := by
  simp [Ideal.set]

theorem ideal_set_of_ne (i : Ideal ι) {x y : ι} (e : Entry) (h : y ≠ x) :
    (i.set x e).mem y = i.mem y := by
  simp [Ideal.set, h]

omit [DecidableEq ι] in
theorem earliest_spec {i : Ideal ι} {x : ι} (h : i.earliest = some x) :
    x ∈ i.queue ∧ ∀ y ∈ i.queue, (i.mem x).deadline ≤ (i.mem y).deadline := by
  refine ⟨List.mem_of_find?_eq_some h, fun y hy => ?_⟩
  have hall := List.find?_some h
  exact of_decide_eq_true (List.all_eq_true.mp hall y hy)

theorem earliest_of_first {i : Ideal ι} (hnd : i.queue.Nodup) {x : ι} (hx : x ∈ i.queue)
    (hmin : ∀ y ∈ i.queue, (i.mem x).deadline ≤ (i.mem y).deadline)
    (hfirst : ∀ y ∈ i.queue, (i.mem y).deadline ≤ (i.mem x).deadline →
      i.queue.idxOf x ≤ i.queue.idxOf y) : i.earliest = some x := by
  rw [Ideal.earliest, List.find?_eq_some_iff_getElem]
  refine ⟨List.all_eq_true.mpr fun y hy => decide_eq_true (hmin y hy), i.queue.idxOf x,
    List.idxOf_lt_length_iff.mpr hx, List.getElem_idxOf _, fun j hj => ?_⟩
  have hj' : j < i.queue.length := hj.trans (List.idxOf_lt_length_iff.mpr hx)
  by_contra hall
  simp only [Bool.not_eq_true', Bool.not_eq_false, List.all_eq_true, decide_eq_true_eq] at hall
  have := hfirst _ (List.getElem_mem hj') (hall x hx)
  rw [hnd.idxOf_getElem j hj'] at this
  omega

omit [DecidableEq ι] in
theorem earliest_none {i : Ideal ι} (h : i.earliest = none) : i.queue = [] := by
  by_contra hne
  have hmin := List.find?_eq_none.mp h (i.queue.minOn (fun x => (i.mem x).deadline) hne) List.minOn_mem
  refine hmin (List.all_eq_true.mpr fun y hy => decide_eq_true ?_)
  exact List.apply_minOn_le_of_mem (f := fun x => (i.mem x).deadline) hy

theorem msec_sub {w a b : Int} (ha : Within w a) (hb : Within w b) :
    (msec a - msec b).toInt = a - b := by
  unfold Within at ha hb
  exact toInt_ofInt_sub (by omega) (by omega)

theorem msec_add_abs (now : Int) (interval : BitVec 32) :
    msec now + ffintAbs interval = msec (now + |interval.toInt|) := by
  unfold ffintAbs msec
  rw [BitVec.ofInt_add]
  congr 1
  split
  · rename_i h
    rw [abs_of_neg h, BitVec.ofInt_neg, BitVec.ofInt_toInt]
  · rename_i h
    rw [abs_of_nonneg (by omega), BitVec.ofInt_toInt]

section Relation

variable {F : Ffrbt ι T} {q : Timerqueue ι T} {i : Ideal ι} {x : ι} {w : Int}

theorem Refines.inv (R : Refines F q i) : Inv F q := ⟨R.linked, R.order⟩

theorem Agrees.nodup (A : Agrees F q i) : i.queue.Nodup := A.perm.nodup_iff.mp A.linked.nodup

/-- Keys in a window of the integers lie in a circular window. -/
theorem windowed_of_within (hk : ∀ y, (q.mem y).key = msec (i.mem y).deadline)
    (hp : (q.nodes F).Perm i.queue) (hw : ∀ y ∈ i.queue, Within w (i.mem y).deadline) :
    Windowed F q := by
  refine ⟨msec w, fun y hy => ?_⟩
  obtain ⟨h1, h2⟩ := hw y (hp.mem_iff.mp hy)
  have := near_ofInt (w := 32) h1 (by omega)
  rw [hk, msec, msec]
  unfold Near at this
  omega

/-- A queue in insertion order: what was inserted earlier has the smaller index. -/
theorem Agrees.idxOf_lt (A : Agrees F q i) {a b : ι} (ha : a ∈ i.queue) (hb : b ∈ i.queue)
    (h : q.inserts.idxOf b < q.inserts.idxOf a) : i.queue.idxOf a ≤ i.queue.idxOf b := by
  by_contra hlt
  have hia := List.idxOf_lt_length_iff.mpr ha
  have hib := List.idxOf_lt_length_iff.mpr hb
  have := List.pairwise_iff_getElem.mp A.recent _ _ hib hia (by omega)
  rw [List.getElem_idxOf, List.getElem_idxOf] at this
  omega

/-- **The leftmost node is the timer the ideal queue takes next.** -/
theorem refines_head (R : Refines F q i) (hw : ∀ y ∈ i.queue, Within w (i.mem y).deadline) :
    (q.nodes F).head? = i.earliest := by
  cases hn : q.nodes F with
  | nil =>
    have hnil : i.queue = [] := List.perm_nil.mp (hn ▸ R.perm).symm
    rw [Ideal.earliest, hnil]
    rfl
  | cons x rest =>
    have hx : x ∈ i.queue := R.perm.mem_iff.mp (by rw [hn]; exact List.mem_cons_self)
    have hord := R.order
    rw [hn, List.pairwise_cons] at hord
    have hcases : ∀ a ∈ i.queue, a = x ∨ Before q x a := by
      intro a ha
      have ha' := R.perm.mem_iff.mpr ha
      rw [hn] at ha'
      rcases List.mem_cons.mp ha' with h | h
      · exact Or.inl h
      · exact Or.inr (hord.1 a h)
    have hle : ∀ a ∈ i.queue, Before q x a → (i.mem x).deadline ≤ (i.mem a).deadline := by
      intro a ha hab
      have := hab.1
      rw [R.key, R.key, msec_sub (hw a ha) (hw x hx)] at this
      omega
    symm
    rw [List.head?_cons]
    refine earliest_of_first R.nodup hx ?_ ?_
    · intro a ha
      rcases hcases a ha with rfl | hab
      · exact le_refl _
      · exact hle a ha hab
    · intro a ha hd
      rcases hcases a ha with rfl | hab
      · exact le_refl _
      · have heq : (i.mem x).deadline = (i.mem a).deadline := le_antisymm (hle a ha hab) hd
        exact R.idxOf_lt hx ha (hab.2 (by rw [R.key, R.key, heq]))

/-! ## The operations -/

theorem other_update_active {m m' : ι → Node} {b : Bool}
    (h : m' = Function.update m x { m x with active := b }) (y : ι) :
    (m' y).func = (m y).func ∧ (m' y).param = (m y).param ∧
      (m' y).intervalMsec = (m y).intervalMsec := by
  rw [h]
  by_cases hy : y = x
  · subst hy; simp
  · simp [Function.update_of_ne hy]

theorem remove_refines (R : Refines F q i) (x : ι) :
    Refines F (fftimerqueueRemove F q x).1 (i.remove x).1 ∧
      (fftimerqueueRemove F q x).2 = (i.remove x).2 := by
  obtain ⟨_, hn, hr, hi, hm⟩ := remove_spec R.linked x
  have hkey := key_update_active hm
  have hother := other_update_active hm
  have I := remove_inv R.inv x
  refine ⟨⟨⟨I.toLinked, ?_, ?_, ?_, ?_, ?_⟩, I.order⟩, ?_⟩
  · intro y; rw [hkey]; exact R.key y
  · intro y
    rw [(hother y).1, (hother y).2.1]
    exact R.call y
  · intro y
    rw [(hother y).2.2]
    exact R.oneShot y
  · rw [hn]; exact R.perm.erase x
  · rw [hi]; exact R.recent.sublist List.erase_sublist
  · rw [Bool.eq_iff_iff, hr, R.perm.mem_iff]
    simp [Ideal.remove]

theorem addnode_refines (A : Agrees F q i) (hs : ((q.nodes F).erase x).Pairwise (Before q))
    (hw : ∀ y ∈ (i.addnode x).queue, Within w (i.mem y).deadline) :
    Refines F (fftimerqueueAddnode F q x) (i.addnode x) := by
  obtain ⟨_, hn, hi, hm⟩ := addnode_spec A.linked x
  have hkey := key_update_active hm
  have hother := other_update_active hm
  have hperm : ((fftimerqueueAddnode F q x).nodes F).Perm (i.addnode x).queue := by
    refine hn.trans ((A.perm.erase x).cons x |>.trans ?_)
    exact (List.perm_append_singleton x _).symm
  have hkeys : ∀ y, ((fftimerqueueAddnode F q x).mem y).key = msec ((i.addnode x).mem y).deadline := by
    intro y; rw [hkey]; exact A.key y
  have I := addnode_inv A.linked hs (windowed_of_within hkeys hperm hw)
  refine ⟨⟨I.toLinked, hkeys, ?_, ?_, hperm, ?_⟩, I.order⟩
  · intro y
    rw [(hother y).1, (hother y).2.1]
    exact A.call y
  · intro y
    rw [(hother y).2.2]
    exact A.oneShot y
  · -- the new insertion is the last one
    have hne : ∀ a ∈ i.queue.erase x, x ≠ a := by
      rintro a ha rfl
      exact A.nodup.not_mem_erase ha
    rw [hi, Ideal.addnode, List.pairwise_append]
    refine ⟨?_, List.pairwise_singleton _ _, ?_⟩
    · apply (A.recent.sublist List.erase_sublist).imp_of_mem
      intro a b ha hb hab
      rw [List.idxOf_cons_ne _ (hne a ha), List.idxOf_cons_ne _ (hne b hb)]
      omega
    · intro a ha b hb
      rw [List.mem_singleton.mp hb, List.idxOf_cons_self, List.idxOf_cons_ne _ (hne a ha)]
      omega

theorem add_refines (R : Refines F q i) {now : Int} {interval : BitVec 32} {func param : Nat}
    (hone : interval.toInt ≤ 0)
    (hw : ∀ y ∈ (i.add x now interval func param).queue,
      Within w ((i.add x now interval func param).mem y).deadline) :
    Refines F (fftimerqueueAdd F q x (msec now) interval func param)
      (i.add x now interval func param) := by
  refine addnode_refines ⟨R.linked.set rfl, ?_, ?_, ?_, R.perm, R.recent⟩ ?_ hw
  · intro y
    by_cases hy : y = x
    · subst hy
      rw [set_mem_self, ideal_set_self]
      exact msec_add_abs now interval
    · rw [set_mem_of_ne _ _ hy, ideal_set_of_ne _ _ hy]
      exact R.key y
  · intro y
    by_cases hy : y = x
    · subst hy
      rw [set_mem_self, ideal_set_self]
      exact ⟨rfl, rfl⟩
    · rw [set_mem_of_ne _ _ hy, ideal_set_of_ne _ _ hy]
      exact R.call y
  · intro y
    by_cases hy : y = x
    · subst hy
      rw [set_mem_self]
      exact hone
    · rw [set_mem_of_ne _ _ hy]
      exact R.oneShot y
  · exact order_set (R.order.sublist List.erase_sublist) R.linked.nodup.not_mem_erase _

/-- One iteration of the loop. -/
theorem next_refines (R : Refines F q i) {now : Int}
    (hw : ∀ y ∈ i.queue, Within w (i.mem y).deadline) (hnow : Within w now) :
    SameStep (Refines F) (processNext F q (msec now)) (i.next now) := by
  rw [processNext_eq R.linked, refines_head R hw, Ideal.next]
  cases hx : i.earliest with
  | none => trivial
  | some x =>
    have hmem : x ∈ i.queue := (earliest_spec hx).1
    have hcmp : ((q.mem x).key - msec now).toInt = (i.mem x).deadline - now := by
      rw [R.key, msec_sub (hw x hmem) hnow]
    simp only [hcmp]
    by_cases hd : (i.mem x).deadline > now
    · rw [if_pos (by omega), if_pos hd]
      trivial
    · rw [if_neg (by omega), if_neg hd, (R.call x).1, (R.call x).2]
      refine ⟨rfl, ?_⟩
      rw [expired, if_neg (by have := R.oneShot x; omega)]
      exact (remove_refines R x).1

end Relation

end FFSys.Timer
