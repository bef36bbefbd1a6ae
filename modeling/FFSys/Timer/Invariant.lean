import FFSys.Lib.Circular
import FFSys.Timer.Queue

/-!
# The representation invariant of the timer queue

Membership is kept twice, in the tree and in `active`, and the order of the tree is only an order
while the keys lie within half a turn of the clock.

* `Linked` — `active` says which nodes are in the tree, each of them once.
* `Before` — the order of two nodes in the tree: by the signed difference of the keys, equal keys
  by insertion.
* `addnode_inv` — `fftimerqueue_addnode` needs no order at the node it adds; this is what makes
  `fftimerqueue_add` correct although it writes the key of a node that may be linked.
* `run_inv` — the invariant holds after every run in which the keys stay within a window.
-/

set_option autoImplicit false

namespace FFSys.Timer

open FFSys.Lib

variable {ι T : Type} [DecidableEq ι] {F : Ffrbt ι T} {q : Timerqueue ι T} {x y : ι}

/-- `active` says which nodes are in the tree, and each is there once. -/
structure Linked (F : Ffrbt ι T) (q : Timerqueue ι T) : Prop where
  active_iff : ∀ x, (q.mem x).active = true ↔ x ∈ q.nodes F
  nodup : (q.nodes F).Nodup

/-- `x` may stand before `y`: its key is not later and, if the keys are equal, it was inserted
    earlier. -/
def Before (q : Timerqueue ι T) (x y : ι) : Prop :=
  0 ≤ ((q.mem y).key - (q.mem x).key).toInt ∧
    ((q.mem x).key = (q.mem y).key → q.inserts.idxOf y < q.inserts.idxOf x)

/-- The representation invariant. -/
structure Inv (F : Ffrbt ι T) (q : Timerqueue ι T) : Prop extends Linked F q where
  order : (q.nodes F).Pairwise (Before q)

/-- The keys of the nodes of the tree lie in one circular window shorter than `2^31`. -/
def Windowed (F : Ffrbt ι T) (q : Timerqueue ι T) : Prop :=
  ∃ o : BitVec 32, ∀ x ∈ q.nodes F, ((q.mem x).key - o).toNat < 2 ^ 31

/-! ## The tree operations -/

theorem set_mem_self (q : Timerqueue ι T) (x : ι) (n : Node) : (q.set x n).mem x = n := by
  simp [Timerqueue.set]

theorem set_mem_of_ne (q : Timerqueue ι T) {x y : ι} (n : Node) (h : y ≠ x) :
    (q.set x n).mem y = q.mem y := by
  simp [Timerqueue.set, h]

theorem set_nodes (q : Timerqueue ι T) (x : ι) (n : Node) : (q.set x n).nodes F = q.nodes F := rfl

/-- Only keys and insertions matter for the order. -/
theorem before_congr {q' : Timerqueue ι T} (hx : (q'.mem x).key = (q.mem x).key)
    (hy : (q'.mem y).key = (q.mem y).key) (hi : q'.inserts = q.inserts) :
    Before q' x y ↔ Before q x y := by
  unfold Before
  rw [hx, hy, hi]

/-- Writing `active` leaves the keys alone. -/
theorem key_update_active {m m' : ι → Node} {b : Bool}
    (h : m' = Function.update m x { m x with active := b }) (y : ι) : (m' y).key = (m y).key := by
  rw [h]
  by_cases hy : y = x
  · subst hy; simp
  · rw [Function.update_of_ne hy]

theorem nodes_insert_perm (F : Ffrbt ι T) (q : Timerqueue ι T) (x : ι) :
    ((ffrbtInsert F q x).nodes F).Perm (x :: q.nodes F) := by
  simp only [Timerqueue.nodes, ffrbtInsert, F.inorder_insert]
  exact inorder_descend_perm _ x _

/-- Old nodes keep their order, since the new insertion is the last one. -/
theorem before_insert (hx : x ∉ q.nodes F) {a b : ι} (ha : a ∈ q.nodes F) (hb : b ∈ q.nodes F)
    (hab : Before q a b) : Before (ffrbtInsert F q x) a b := by
  have ha' : x ≠ a := fun e => hx (e ▸ ha)
  have hb' : x ≠ b := fun e => hx (e ▸ hb)
  refine ⟨hab.1, fun hk => ?_⟩
  have := hab.2 hk
  simp only [ffrbtInsert, List.idxOf_cons_ne _ ha', List.idxOf_cons_ne _ hb']
  omega

/-- The descent of `_fftmrq_node_insert` finds the place of the new node if all keys lie in one
    window. -/
theorem insert_order (hs : (q.nodes F).Pairwise (Before q)) (hx : x ∉ q.nodes F) {o : BitVec 32}
    (hw : ∀ y ∈ x :: q.nodes F, Near o (q.mem y).key) :
    ((ffrbtInsert F q x).nodes F).Pairwise (Before (ffrbtInsert F q x)) := by
  have hxo := hw x List.mem_cons_self
  have hcmp : ∀ a ∈ q.nodes F, ((q.mem x).key - (q.mem a).key).toInt =
      (((q.mem x).key - o).toNat : Int) - ((q.mem a).key - o).toNat :=
    fun a ha => toInt_sub_of_near (hw a (List.mem_cons_of_mem _ ha)) hxo
  have hmono : (q.nodes F).Pairwise (fun a b =>
      decide (((q.mem x).key - (q.mem a).key).toInt < 0) = true →
        decide (((q.mem x).key - (q.mem b).key).toInt < 0) = true) := by
    apply hs.imp_of_mem
    intro a b ha hb hab hlt
    have hab := hab.1
    rw [toInt_sub_of_near (hw a (List.mem_cons_of_mem _ ha)) (hw b (List.mem_cons_of_mem _ hb))] at hab
    rw [hcmp a ha] at hlt
    rw [hcmp b hb]
    simp only [decide_eq_true_eq] at hlt ⊢
    omega
  obtain ⟨A, B, hAB, hnodes, hA, hB⟩ := inorder_descend x (F.shape q.tree) hmono
  have hnodes' : (ffrbtInsert F q x).nodes F = A ++ x :: B := by
    simp only [Timerqueue.nodes, ffrbtInsert, F.inorder_insert]
    exact hnodes
  have hAB' : q.nodes F = A ++ B := hAB
  have hmemA : ∀ a ∈ A, a ∈ q.nodes F := fun a ha => by rw [hAB']; exact List.mem_append_left _ ha
  have hmemB : ∀ b ∈ B, b ∈ q.nodes F := fun b hb => by rw [hAB']; exact List.mem_append_right _ hb
  rw [hAB', List.pairwise_append] at hs
  obtain ⟨hsA, hsB, hsAB⟩ := hs
  rw [hnodes', List.pairwise_append, List.pairwise_cons]
  refine ⟨?_, ⟨?_, ?_⟩, ?_⟩
  · exact hsA.imp_of_mem fun ha hb => before_insert hx (hmemA _ ha) (hmemA _ hb)
  · intro b hb
    have hlt := hB b hb
    rw [hcmp b (hmemB b hb)] at hlt
    simp only [decide_eq_true_eq] at hlt
    have hge := toInt_sub_of_near hxo (hw b (List.mem_cons_of_mem _ (hmemB b hb)))
    refine ⟨?_, fun hk => ?_⟩
    · change 0 ≤ ((q.mem b).key - (q.mem x).key).toInt
      omega
    · change (q.mem x).key = (q.mem b).key at hk
      rw [hk] at hlt
      omega
  · exact hsB.imp_of_mem fun ha hb => before_insert hx (hmemB _ ha) (hmemB _ hb)
  · intro a ha b hb
    rcases List.mem_cons.mp hb with rfl | hb
    · have hle := hA a ha
      simp only [decide_eq_false_iff_not, Int.not_lt] at hle
      refine ⟨hle, fun _ => ?_⟩
      have hne : b ≠ a := fun e => hx (e ▸ hmemA a ha)
      simp [ffrbtInsert, List.idxOf_cons_ne _ hne]
    · exact before_insert hx (hmemA a ha) (hmemB b hb) (hsAB a ha b hb)

/-! ## The functions of the header -/

/-- What `fftimerqueue_remove` does. -/
theorem remove_spec (L : Linked F q) (x : ι) :
    Linked F (fftimerqueueRemove F q x).1 ∧
      (fftimerqueueRemove F q x).1.nodes F = (q.nodes F).erase x ∧
      ((fftimerqueueRemove F q x).2 = true ↔ x ∈ q.nodes F) ∧
      (fftimerqueueRemove F q x).1.inserts = q.inserts ∧
      (fftimerqueueRemove F q x).1.mem =
        Function.update q.mem x { q.mem x with active := false } := by
  have hact := L.active_iff x
  unfold fftimerqueueRemove
  by_cases hx : x ∈ q.nodes F
  · rw [if_pos (hact.mpr hx)]
    have hnodes : ((ffrbtRm F q x).set x { q.mem x with active := false }).nodes F =
        (q.nodes F).erase x := F.inorder_rm q.tree x hx
    refine ⟨⟨?_, ?_⟩, hnodes, by simp [hx], rfl, rfl⟩
    · intro y
      rw [hnodes, L.nodup.mem_erase_iff]
      by_cases hy : y = x
      · subst hy; simp [set_mem_self]
      · rw [set_mem_of_ne _ _ hy, ffrbtRm]
        simpa [hy] using L.active_iff y
    · rw [hnodes]; exact L.nodup.erase x
  · have hf : (q.mem x).active = false := by
      rw [← Bool.not_eq_true, hact]; exact hx
    rw [if_neg (by rw [hf]; simp)]
    refine ⟨L, (List.erase_of_not_mem hx).symm, by simp [hx], rfl, ?_⟩
    funext y
    by_cases hy : y = x
    · subst hy
      rw [Function.update_self, ← hf]
    · rw [Function.update_of_ne hy]

/-- What `fftimerqueue_addnode` does, whatever the order of the tree. -/
theorem addnode_spec (L : Linked F q) (x : ι) :
    Linked F (fftimerqueueAddnode F q x) ∧
      ((fftimerqueueAddnode F q x).nodes F).Perm (x :: (q.nodes F).erase x) ∧
      (fftimerqueueAddnode F q x).inserts = x :: q.inserts ∧
      (fftimerqueueAddnode F q x).mem =
        Function.update q.mem x { q.mem x with active := true } := by
  obtain ⟨L1, hn1, _, hi1, hm1⟩ := remove_spec L x
  have hperm : ((fftimerqueueAddnode F q x).nodes F).Perm (x :: (q.nodes F).erase x) := by
    rw [← hn1]; exact nodes_insert_perm F _ x
  have hmem : (fftimerqueueAddnode F q x).mem =
      Function.update q.mem x { q.mem x with active := true } := by
    simp only [fftimerqueueAddnode, Timerqueue.set, ffrbtInsert, hm1]
    rw [Function.update_idem, Function.update_self]
  have hnot : x ∉ (q.nodes F).erase x := L.nodup.not_mem_erase
  refine ⟨⟨?_, ?_⟩, hperm, ?_, hmem⟩
  · intro y
    rw [hperm.mem_iff, hmem, List.mem_cons, L.nodup.mem_erase_iff]
    by_cases hy : y = x
    · subst hy; simp
    · rw [Function.update_of_ne hy]
      simpa [hy] using L.active_iff y
  · rw [hperm.nodup_iff, List.nodup_cons]
    exact ⟨hnot, L.nodup.erase x⟩
  · simp [fftimerqueueAddnode, Timerqueue.set, ffrbtInsert, hi1]

/-- **`fftimerqueue_addnode` restores the order** if the other nodes are in order. -/
theorem addnode_inv (L : Linked F q) (hs : ((q.nodes F).erase x).Pairwise (Before q))
    (hw : Windowed F (fftimerqueueAddnode F q x)) : Inv F (fftimerqueueAddnode F q x) := by
  obtain ⟨L1, hn1, _, hi1, hm1⟩ := remove_spec L x
  obtain ⟨L2, hperm, hi2, hm2⟩ := addnode_spec L x
  have hkey1 := key_update_active hm1
  have hkey2 := key_update_active hm2
  obtain ⟨o, ho⟩ := hw
  have hord : ((ffrbtInsert F (fftimerqueueRemove F q x).1 x).nodes F).Pairwise
      (Before (ffrbtInsert F (fftimerqueueRemove F q x).1 x)) := by
    refine @insert_order _ _ _ F _ _ ?_ ?_ o ?_
    · rw [hn1]
      exact hs.imp fun h => (before_congr (hkey1 _) (hkey1 _) hi1).mpr h
    · rw [hn1]; exact L.nodup.not_mem_erase
    · intro y hy
      rw [hn1] at hy
      have := ho y (hperm.mem_iff.mpr hy)
      rw [hkey2] at this
      rw [hkey1, Near]
      omega
  have hkey : ∀ y, ((fftimerqueueAddnode F q x).mem y).key =
      ((ffrbtInsert F (fftimerqueueRemove F q x).1 x).mem y).key := by
    intro y
    rw [hkey2, ← hkey1]
    rfl
  have hord2 : ((ffrbtInsert F (fftimerqueueRemove F q x).1 x).nodes F).Pairwise
      (Before (fftimerqueueAddnode F q x)) :=
    hord.imp fun h => (before_congr (hkey _) (hkey _) rfl).mpr h
  exact ⟨L2, hord2⟩

theorem remove_inv (I : Inv F q) (x : ι) : Inv F (fftimerqueueRemove F q x).1 := by
  obtain ⟨L1, hn1, _, hi1, hm1⟩ := remove_spec I.toLinked x
  have hkey1 := key_update_active hm1
  refine ⟨L1, ?_⟩
  rw [hn1]
  exact (I.order.sublist List.erase_sublist).imp fun h =>
    (before_congr (hkey1 _) (hkey1 _) hi1).mpr h

/-- Everything but `active` of a node may be written. -/
theorem Linked.set (L : Linked F q) {n : Node} (hn : n.active = (q.mem x).active) :
    Linked F (q.set x n) := by
  refine ⟨?_, L.nodup⟩
  intro y
  rw [set_nodes, ← L.active_iff y]
  by_cases hy : y = x
  · subst hy; rw [set_mem_self, hn]
  · rw [set_mem_of_ne _ _ hy]

/-- Writing a node leaves the order of the others alone. -/
theorem order_set {l : List ι} (h : l.Pairwise (Before q)) (hx : x ∉ l) (n : Node) :
    l.Pairwise (Before (q.set x n)) := by
  apply h.imp_of_mem
  intro a b ha hb hab
  have ha' : a ≠ x := fun e => hx (e ▸ ha)
  have hb' : b ≠ x := fun e => hx (e ▸ hb)
  have hi : (q.set x n).inserts = q.inserts := rfl
  refine (before_congr ?_ ?_ hi).mpr hab
  · rw [set_mem_of_ne _ _ ha']
  · rw [set_mem_of_ne _ _ hb']

/-- `fftimerqueue_add` writes the key first; the order is broken at most at `x`. -/
theorem add_inv (I : Inv F q) {now interval : BitVec 32} {func param : Nat}
    (hw : Windowed F (fftimerqueueAdd F q x now interval func param)) :
    Inv F (fftimerqueueAdd F q x now interval func param) := by
  refine addnode_inv (I.toLinked.set rfl) ?_ hw
  exact order_set (I.order.sublist List.erase_sublist) I.nodup.not_mem_erase _

/-- The key a periodic timer is re-added with. -/
def rearmKey (n : Node) (now : BitVec 32) : BitVec 32 := ffmax (n.key + n.intervalMsec) (now + 1)

/-- The queue when the handler of `x` is called. -/
def expired (F : Ffrbt ι T) (q : Timerqueue ι T) (x : ι) (now : BitVec 32) : Timerqueue ι T :=
  let q' := (fftimerqueueRemove F q x).1
  if (q.mem x).intervalMsec.toInt > 0 then
    fftimerqueueAddnode F (q'.set x { q'.mem x with key := rearmKey (q.mem x) now }) x
  else q'

/-- One iteration of the loop of `fftimerqueue_process` is a removal, and an addition if the
    timer is periodic. -/
theorem processNext_eq (L : Linked F q) (now : BitVec 32) :
    processNext F q now =
      match (q.nodes F).head? with
      | none => none
      | some x =>
        if ((q.mem x).key - now).toInt > 0 then none
        else some (expired F q x now, x, (q.mem x).func, (q.mem x).param) := by
  unfold processNext
  rw [leftmost_eq_head?]
  change (match (q.nodes F).head? with | none => _ | some x => _) = _
  cases hx : (q.nodes F).head? with
  | none => rfl
  | some x =>
    simp only
    split
    · rfl
    · have hact : (q.mem x).active = true := (L.active_iff x).mpr (List.mem_of_head? hx)
      have hrm : (fftimerqueueRemove F q x).1 =
          (ffrbtRm F q x).set x { q.mem x with active := false } := by
        rw [fftimerqueueRemove, if_pos hact]
      unfold expired
      rw [hrm]
      simp only [set_mem_self]
      split
      · simp only [fftimerqueueAddnode, fftimerqueueRemove, set_mem_self, Bool.false_eq_true, if_false]
        simp [ffrbtInsert, Timerqueue.set, rearmKey]
      · simp [set_mem_self]

/-- An iteration of the loop keeps `Linked` and links no other node. -/
theorem expired_linked (L : Linked F q) (y : ι) (now : BitVec 32) :
    Linked F (expired F q y now) ∧ ∀ z, z ≠ y →
      (z ∈ (expired F q y now).nodes F ↔ z ∈ q.nodes F) ∧ (expired F q y now).mem z = q.mem z := by
  obtain ⟨L1, hn1, _, _, hm1⟩ := remove_spec L y
  have h1 : ∀ z, z ≠ y → (z ∈ (fftimerqueueRemove F q y).1.nodes F ↔ z ∈ q.nodes F) ∧
      (fftimerqueueRemove F q y).1.mem z = q.mem z := by
    intro z hz
    rw [hn1, L.nodup.mem_erase_iff, hm1, Function.update_of_ne hz]
    simp [hz]
  unfold expired
  simp only
  generalize (fftimerqueueRemove F q y).1 = q1 at L1 h1 ⊢
  by_cases hper : (q.mem y).intervalMsec.toInt > 0
  · rw [if_pos hper]
    have L2 : Linked F (q1.set y { q1.mem y with key := rearmKey (q.mem y) now }) := L1.set rfl
    obtain ⟨L3, hn3, _, hm3⟩ := addnode_spec L2 y
    refine ⟨L3, fun z hz => ?_⟩
    rw [hn3.mem_iff, List.mem_cons, L2.nodup.mem_erase_iff, set_nodes, hm3, Function.update_of_ne hz,
      set_mem_of_ne _ _ hz, (h1 z hz).1, (h1 z hz).2]
    simp [hz]
  · rw [if_neg hper]
    exact ⟨L1, h1⟩

theorem expired_inv (I : Inv F q) {now : BitVec 32} (hw : Windowed F (expired F q x now)) :
    Inv F (expired F q x now) := by
  have I1 := remove_inv I x
  have hn1 := (remove_spec I.toLinked x).2.1
  unfold expired at hw ⊢
  simp only at hw ⊢
  generalize (fftimerqueueRemove F q x).1 = q1 at I1 hn1 hw ⊢
  have hnot : x ∉ q1.nodes F := by
    rw [hn1]; exact I.nodup.not_mem_erase
  by_cases hper : (q.mem x).intervalMsec.toInt > 0
  · rw [if_pos hper] at hw ⊢
    refine addnode_inv (I1.toLinked.set rfl) ?_ hw
    rw [set_nodes, List.erase_of_not_mem hnot]
    exact order_set I1.order hnot _
  · rw [if_neg hper]
    exact I1

/-! ## Runs -/

/-- The operation puts `x` into the queue. -/
def Op.Adds {ι τ : Type} (x : ι) : Op ι τ → Prop
  | .add y _ _ _ _ => y = x
  | .addnode y => y = x
  | _ => False

/-- What a step of the control does to the queue: a client operation, nothing, or an iteration of
    the loop that calls a handler. -/
theorem queueStep_q {ι τ Q : Type} {I : QueueOps ι τ Q} {s s' : St Q τ} {op : Op ι τ} {o : Out ι}
    (h : QueueStep I s op = some (s', o)) :
    ((∀ x func param, o ≠ .called x func param) ∧
      (s'.q = s.q ∨
      (∃ x now interval func param, op = .add x now interval func param ∧
        s'.q = I.add s.q x now interval func param) ∨
      (∃ x, op = .addnode x ∧ s'.q = I.addnode s.q x) ∨
      (∃ x, op = .remove x ∧ s'.q = (I.remove s.q x).1))) ∨
    (∃ now n frames x func param, op = .next ∧ s.frames = (now, n) :: frames ∧
      s'.frames = s.frames ∧ o = .called x func param ∧ I.next s.q now = some (s'.q, x, func, param)) := by
  cases op with
  | add x now interval func param =>
    simp only [QueueStep] at h
    split at h
    · cases h
    · cases h
      exact Or.inl ⟨by simp, Or.inr (Or.inl ⟨x, now, interval, func, param, rfl, rfl⟩)⟩
  | addnode x =>
    simp only [QueueStep] at h
    split at h
    · cases h
    · cases h
      exact Or.inl ⟨by simp, Or.inr (Or.inr (Or.inl ⟨x, rfl, rfl⟩))⟩
  | remove x =>
    simp only [QueueStep] at h
    split at h
    · cases h
    · cases h
      exact Or.inl ⟨by simp, Or.inr (Or.inr (Or.inr ⟨x, rfl, rfl⟩))⟩
  | process now =>
    simp only [QueueStep] at h
    split at h
    · cases h
    · cases h
      exact Or.inl ⟨by simp, Or.inl rfl⟩
  | next =>
    simp only [QueueStep] at h
    split at h
    · rename_i now n frames hat hfr
      split at h
      · cases h
        exact Or.inl ⟨by simp, Or.inl rfl⟩
      · rename_i q x func param hq
        cases h
        exact Or.inr ⟨now, n, frames, x, func, param, rfl, hfr, rfl, rfl, hq⟩
    · cases h
  | ret =>
    simp only [QueueStep] at h
    split at h
    · cases h
      exact Or.inl ⟨by simp, Or.inl rfl⟩
    · cases h

/-- An iteration of the loop that calls a handler. -/
theorem processNext_some {q q' : Timerqueue ι T} (L : Linked F q) {now : BitVec 32} {x : ι}
    {func param : Nat} (h : processNext F q now = some (q', x, func, param)) :
    (q.nodes F).head? = some x ∧ ((q.mem x).key - now).toInt ≤ 0 ∧ q' = expired F q x now := by
  rw [processNext_eq L] at h
  split at h
  · cases h
  · rename_i y hy
    split at h
    · cases h
    · rename_i hd
      simp only [Option.some.injEq, Prod.mk.injEq] at h
      obtain ⟨rfl, rfl, _, _⟩ := h
      exact ⟨hy, by omega, rfl⟩

/-- What a step does to a node that it neither adds nor calls, and to `Linked`. -/
theorem step_linked {s s' : St (Timerqueue ι T) (BitVec 32)} {op : Op ι (BitVec 32)} {o : Out ι}
    (L : Linked F s.q) (h : QueueStep (codeOps F) s op = some (s', o)) :
    Linked F s'.q ∧ ∀ x, ¬ op.Adds x → (∀ func param, o ≠ .called x func param) →
      (x ∈ s'.q.nodes F → x ∈ s.q.nodes F) ∧ (s'.q.mem x).key = (s.q.mem x).key := by
  rcases queueStep_q h with
    ⟨_, hq | ⟨y, now, interval, func, param, rfl, hq⟩ | ⟨y, rfl, hq⟩ | ⟨y, _, hq⟩⟩ |
    ⟨now, n, frames, y, func, param, _, _, _, ho, hq⟩
  · rw [hq]
    exact ⟨L, fun x _ _ => ⟨id, rfl⟩⟩
  · rw [hq]
    have L1 : Linked F (s.q.set y { s.q.mem y with
        intervalMsec := interval, key := now + ffintAbs interval, func := func, param := param }) :=
      L.set rfl
    obtain ⟨L2, hn, _, hm⟩ := addnode_spec L1 y
    refine ⟨L2, fun x hx _ => ?_⟩
    have hne : x ≠ y := fun e => hx e.symm
    change (x ∈ (fftimerqueueAddnode F _ y).nodes F → _) ∧ ((fftimerqueueAddnode F _ y).mem x).key = _
    rw [hn.mem_iff, List.mem_cons, hm, Function.update_of_ne hne, set_mem_of_ne _ _ hne]
    exact ⟨fun h => List.mem_of_mem_erase (h.resolve_left hne), rfl⟩
  · rw [hq]
    obtain ⟨L2, hn, _, hm⟩ := addnode_spec L y
    refine ⟨L2, fun x hx _ => ?_⟩
    have hne : x ≠ y := fun e => hx e.symm
    change (x ∈ (fftimerqueueAddnode F _ y).nodes F → _) ∧ ((fftimerqueueAddnode F _ y).mem x).key = _
    rw [hn.mem_iff, List.mem_cons, hm, Function.update_of_ne hne]
    exact ⟨fun h => List.mem_of_mem_erase (h.resolve_left hne), rfl⟩
  · rw [hq]
    obtain ⟨L2, hn, _, _, hm⟩ := remove_spec L y
    refine ⟨L2, fun x _ _ => ?_⟩
    change (x ∈ (fftimerqueueRemove F s.q y).1.nodes F → _) ∧
      ((fftimerqueueRemove F s.q y).1.mem x).key = _
    rw [hn, key_update_active hm]
    exact ⟨List.mem_of_mem_erase, rfl⟩
  · obtain ⟨_, _, he⟩ := processNext_some L hq
    obtain ⟨L2, hz⟩ := expired_linked L y now
    rw [he]
    refine ⟨L2, fun x _ hx => ?_⟩
    have hne : x ≠ y := by
      rintro rfl
      exact hx func param ho
    rw [(hz x hne).1, (hz x hne).2]
    exact ⟨id, rfl⟩

theorem start_inv (F : Ffrbt ι T) (t : T) : Inv F (startSt F t).q := by
  have hnodes : (startSt F t).q.nodes F = [] := by
    simp [startSt, fftimerqueueInit, Timerqueue.nodes, F.shape_init, inorder]
  refine ⟨⟨?_, ?_⟩, ?_⟩
  · intro x
    rw [hnodes]
    simp [startSt, fftimerqueueInit, Node.zero]
  · rw [hnodes]; exact List.nodup_nil
  · rw [hnodes]; exact List.Pairwise.nil

/-- `Linked` needs no window. -/
theorem run_linked {t : T} {ops : List (Op ι (BitVec 32))} {s : St (Timerqueue ι T) (BitVec 32)}
    {os : List (Out ι)} (h : exec (QueueStep (codeOps F)) (startSt F t) ops = some (s, os)) :
    Linked F s.q :=
  exec_keeps (I := fun s => Linked F s.q) (fun _ _ _ _ hI hs => (step_linked hI hs).1)
    (start_inv F t).toLinked h

/-- **Every step keeps the invariant**, as long as the keys stay within a window. -/
theorem step_inv {s s' : St (Timerqueue ι T) (BitVec 32)} {op : Op ι (BitVec 32)} {o : Out ι}
    (I : Inv F s.q) (h : QueueStep (codeOps F) s op = some (s', o)) (hw : Windowed F s'.q) :
    Inv F s'.q := by
  rcases queueStep_q h with ⟨_, hq | ⟨x, now, interval, func, param, _, hq⟩ | ⟨x, _, hq⟩ | ⟨x, _, hq⟩⟩ |
    ⟨now, n, frames, x, func, param, _, _, _, _, hq⟩
  · rw [hq]; exact I
  · rw [hq] at hw ⊢
    exact add_inv I hw
  · rw [hq] at hw ⊢
    exact addnode_inv I.toLinked (I.order.sublist List.erase_sublist) hw
  · rw [hq]
    exact remove_inv I x
  · obtain ⟨_, _, he⟩ := processNext_some I.toLinked hq
    rw [he] at hw ⊢
    exact expired_inv I hw

/-- **The representation invariant of the timer queue.**  After any run in which the keys of the
    queued nodes stay within a window, `active` says which nodes are in the tree, each of them
    once; the tree is in order; and `fftimerqueue_remove` returns 1 exactly for these nodes. -/
theorem timerqueue_invariant (F : Ffrbt ι T) (t : T) (ops : List (Op ι (BitVec 32)))
    (s : St (Timerqueue ι T) (BitVec 32)) (os : List (Out ι))
    (hrun : exec (QueueStep (codeOps F)) (startSt F t) ops = some (s, os))
    (hw : Always (QueueStep (codeOps F)) (fun s => Windowed F s.q) (startSt F t) ops) :
    (∀ x, ((s.q.mem x).active = true ↔ x ∈ s.q.nodes F) ∧
      (x ∈ s.q.nodes F → (s.q.nodes F).count x = 1)) ∧
    (s.q.nodes F).Pairwise (fun x y => 0 ≤ ((s.q.mem y).key - (s.q.mem x).key).toInt ∧
      ((s.q.mem x).key = (s.q.mem y).key → s.q.inserts.idxOf y < s.q.inserts.idxOf x)) ∧
    ∀ x, (fftimerqueueRemove F s.q x).2 = true ↔ x ∈ s.q.nodes F := by
  have I : Inv F s.q := exec_invariant
    (P := fun s => Windowed F s.q) (I := fun s => Inv F s.q)
    (fun _ _ _ _ hI hstep hP => step_inv hI hstep hP) ops _ s os (start_inv F t) hw hrun
  refine ⟨fun x => ⟨I.active_iff x, fun hx => ?_⟩, I.order, fun x => ?_⟩
  · exact List.count_eq_one_of_mem I.nodup hx
  · exact (remove_spec I.toLinked x).2.2.1

/-- A periodic timer, and a one-shot timer that the handler of the periodic one adds again. -/
theorem timerqueue_invariant_readd :
    ∃ s os, exec (QueueStep (codeOps (plainRbt (Fin 2)))) (startSt (plainRbt (Fin 2)) .nil)
        [.add 0 1 2 7 0, .add 1 1 (-3) 8 0, .process 3, .next, .add 1 3 (-3) 8 0, .ret, .next] =
          some (s, os) ∧
      os = [.silent, .silent, .silent, .called 0 7 0, .silent, .silent, .finished 1] ∧
      s.q.nodes (plainRbt (Fin 2)) = [0, 1] ∧
      (∀ x, (s.q.mem x).active = true ↔ x ∈ s.q.nodes (plainRbt (Fin 2))) := by
  have h : (exec (QueueStep (codeOps (plainRbt (Fin 2)))) (startSt (plainRbt (Fin 2)) .nil)
      [.add 0 1 2 7 0, .add 1 1 (-3) 8 0, .process 3, .next, .add 1 3 (-3) 8 0, .ret, .next]).map
        (fun r => (r.2, r.1.q.nodes (plainRbt (Fin 2)))) =
      some ([.silent, .silent, .silent, .called 0 7 0, .silent, .silent, .finished 1], [0, 1]) := by
    decide +kernel
  obtain ⟨⟨s, os⟩, hrun, heq⟩ := Option.map_eq_some_iff.mp h
  simp only [Prod.mk.injEq] at heq
  refine ⟨s, os, hrun, heq.1, heq.2, fun x => ?_⟩
  refine ((timerqueue_invariant (plainRbt (Fin 2)) .nil _ s os hrun ?_).1 x).1
  refine Always.mono (P := fun s => ∀ x ∈ s.q.nodes (plainRbt (Fin 2)), ((s.q.mem x).key - 0).toNat < 2 ^ 31)
    (fun s h => ⟨0, h⟩) ?_
  decide +kernel

end FFSys.Timer
