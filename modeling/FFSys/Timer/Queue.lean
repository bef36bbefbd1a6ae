import Mathlib.Logic.Function.Basic
import FFSys.Lib.Run
import FFSys.Lib.SearchTree

/-!
# The timer queue

Model of `ffsys/timerqueue.h`.  Times are `ffuint` milliseconds, hence `BitVec 32`, and all
comparisons are on the signed difference.

* `Ffrbt` — what the queue relies on in ffbase's red-black tree: fixing up after an insertion keeps
  the in-order sequence, and removal takes one node out of it.  `plainRbt` meets this without
  any balancing.
* `fftmrqNodeInsert`, `fftimerqueueRemove`, `fftimerqueueAddnode`, `fftimerqueueAdd` — the functions
  of the header; `processNext` — one iteration of the loop of `fftimerqueue_process`, up to the
  call of the handler.
* `QueueStep` — the control: a handler is code that runs between two iterations, and it may do
  everything its caller may do, a further `fftimerqueue_process` included.
-/

set_option autoImplicit false

namespace FFSys.Timer

open FFSys.Lib

/-- `fftimerqueue_node`, with the key of its `rbtnode`; the links of `rbtnode` are the tree. -/
structure Node where
  key : BitVec 32
  intervalMsec : BitVec 32
  active : Bool
  func : Nat
  param : Nat
  deriving DecidableEq

/-- A zero-initialised node. -/
def Node.zero : Node := ⟨0, 0, false, 0, 0⟩

/-- ffbase's red-black tree over the nodes `ι`, as far as the timer queue relies on it.  `T` is the
    tree with its colours, `insert` is `ffrbt_insert` with the `insert` function of the tree. -/
structure Ffrbt (ι T : Type) [DecidableEq ι] where
  init : T
  shape : T → BinaryTree ι
  insert : (BinaryTree ι → BinaryTree ι) → T → ι → T
  rm : T → ι → T
  shape_init : shape init = .nil
  inorder_insert : ∀ ins t x, inorder (shape (insert ins t x)) = inorder (ins (shape t))
  inorder_rm : ∀ t x, x ∈ inorder (shape t) → inorder (shape (rm t x)) = (inorder (shape t)).erase x

/-- Trees that are never balanced. -/
def plainRbt (ι : Type) [DecidableEq ι] : Ffrbt ι (BinaryTree ι) :=
  ⟨.nil, id, fun ins t _ => ins t, fun t x => unlink x t, rfl, fun _ _ _ => rfl,
    fun t x _ => inorder_unlink x t⟩

/-- The nodes in memory and the tree.  `inserts` is a record: the nodes in the order in which
    `ffrbt_insert` was called for them, the last one first. -/
structure Timerqueue (ι T : Type) where
  mem : ι → Node
  tree : T
  inserts : List ι

section Functions

variable {ι T : Type} [DecidableEq ι] (F : Ffrbt ι T)

/-- The nodes in tree order. -/
def Timerqueue.nodes (q : Timerqueue ι T) : List ι := inorder (F.shape q.tree)

def Timerqueue.set (q : Timerqueue ι T) (x : ι) (n : Node) : Timerqueue ι T :=
  { q with mem := Function.update q.mem x n }

/-- `_fftmrq_node_insert`. -/
def fftmrqNodeInsert (mem : ι → Node) (x : ι) (root : BinaryTree ι) : BinaryTree ι :=
  descend (fun parent => decide (((mem x).key - (mem parent).key).toInt < 0)) x root

/-- `ffrbt_insert(&tq->tree, &node->rbtnode, NULL)`. -/
def ffrbtInsert (q : Timerqueue ι T) (x : ι) : Timerqueue ι T :=
  { q with tree := F.insert (fftmrqNodeInsert q.mem x) q.tree x, inserts := x :: q.inserts }

/-- `ffrbt_rm(&tq->tree, &node->rbtnode)`. -/
def ffrbtRm (q : Timerqueue ι T) (x : ι) : Timerqueue ι T := { q with tree := F.rm q.tree x }

/-- `fftimerqueue_init`. -/
def fftimerqueueInit (q : Timerqueue ι T) : Timerqueue ι T := { q with tree := F.init }

/-- `fftimerqueue_remove`. -/
def fftimerqueueRemove (q : Timerqueue ι T) (x : ι) : Timerqueue ι T × Bool :=
  if (q.mem x).active then
    ((ffrbtRm F q x).set x { q.mem x with active := false }, true)
  else (q, false)

/-- `fftimerqueue_addnode`. -/
def fftimerqueueAddnode (q : Timerqueue ι T) (x : ι) : Timerqueue ι T :=
  let q := ffrbtInsert F (fftimerqueueRemove F q x).1 x
  q.set x { q.mem x with active := true }

/-- `ffint_abs`. -/
def ffintAbs (n : BitVec 32) : BitVec 32 := if n.toInt < 0 then -n else n

/-- `ffmax` of two `ffuint` values. -/
def ffmax (a b : BitVec 32) : BitVec 32 := if a.toNat < b.toNat then b else a

/-- `fftimerqueue_add`. -/
def fftimerqueueAdd (q : Timerqueue ι T) (x : ι) (nowMsec intervalMsec : BitVec 32)
    (func param : Nat) : Timerqueue ι T :=
  let n : Node := { q.mem x with
    intervalMsec := intervalMsec, key := nowMsec + ffintAbs intervalMsec, func := func, param := param }
  fftimerqueueAddnode F (q.set x n) x

/-- The body of the loop of `fftimerqueue_process` up to the call of the handler; `none` is
    `break`. -/
def processNext (q : Timerqueue ι T) (nowMsec : BitVec 32) : Option (Timerqueue ι T × ι × Nat × Nat) :=
  match leftmost (F.shape q.tree) with
  | none => none
  | some x =>
    let key := (q.mem x).key
    if (key - nowMsec).toInt > 0 then none
    else
      let q := (ffrbtRm F q x).set x { q.mem x with active := false }
      let q :=
        if (q.mem x).intervalMsec.toInt > 0 then
          let q := q.set x { q.mem x with key := ffmax (key + (q.mem x).intervalMsec) (nowMsec + 1) }
          let q := ffrbtInsert F q x
          q.set x { q.mem x with active := true }
        else q
      some (q, x, (q.mem x).func, (q.mem x).param)

end Functions

/-! ## Control -/

/-- What client code, a handler included, and the loop do.  `next` is one iteration of the
    loop of the innermost `fftimerqueue_process`, `ret` the return of a handler to it. -/
inductive Op (ι τ : Type) where
  | add (x : ι) (now : τ) (interval : BitVec 32) (func param : Nat)
  | addnode (x : ι)
  | remove (x : ι)
  | process (now : τ)
  | next
  | ret

/-- What is seen of an operation. -/
inductive Out (ι : Type) where
  | silent
  | removed (r : Bool)
  | called (x : ι) (func param : Nat)
  | finished (n : BitVec 32)
  deriving DecidableEq

/-- A timer queue as its clients see it, with times `τ`. -/
structure QueueOps (ι τ Q : Type) where
  add : Q → ι → τ → BitVec 32 → Nat → Nat → Q
  addnode : Q → ι → Q
  remove : Q → ι → Q × Bool
  next : Q → τ → Option (Q × ι × Nat × Nat)

/-- The queue and the `fftimerqueue_process` calls in progress, the innermost first, each with
    its `now_msec` and `n`.  `atHead` says that the innermost one is about to iterate; otherwise
    client code is running. -/
structure St (Q τ : Type) where
  q : Q
  frames : List (τ × BitVec 32)
  atHead : Bool

variable {ι τ Q : Type}

def QueueStep (I : QueueOps ι τ Q) (s : St Q τ) : Op ι τ → Option (St Q τ × Out ι)
  | .add x now interval func param =>
    if s.atHead then none else some ({ s with q := I.add s.q x now interval func param }, .silent)
  | .addnode x => if s.atHead then none else some ({ s with q := I.addnode s.q x }, .silent)
  | .remove x =>
    if s.atHead then none
    else some ({ s with q := (I.remove s.q x).1 }, .removed (I.remove s.q x).2)
  | .process now =>
    if s.atHead then none
    else some ({ s with frames := (now, 0) :: s.frames, atHead := true }, .silent)
  | .next =>
    match s.atHead, s.frames with
    | true, (now, n) :: frames =>
      match I.next s.q now with
      | none => some ({ s with frames := frames, atHead := false }, .finished n)
      | some (q, x, func, param) => some ({ s with q := q, atHead := false }, .called x func param)
    | _, _ => none
  | .ret =>
    match s.atHead, s.frames with
    | false, (now, n) :: frames =>
      some ({ s with frames := (now, n + 1) :: frames, atHead := true }, .silent)
    | _, _ => none

/-- The timer queue of the code. -/
def codeOps {T : Type} [DecidableEq ι] (F : Ffrbt ι T) : QueueOps ι (BitVec 32) (Timerqueue ι T) :=
  ⟨fftimerqueueAdd F, fftimerqueueAddnode F, fftimerqueueRemove F, processNext F⟩

/-- All nodes zero, any tree initialised. -/
def startSt {T : Type} [DecidableEq ι] (F : Ffrbt ι T) (t : T) : St (Timerqueue ι T) (BitVec 32) :=
  ⟨fftimerqueueInit F ⟨fun _ => Node.zero, t, []⟩, [], false⟩

end FFSys.Timer
