import Mathlib.Logic.Function.Basic
import FFSys.Lib.Run

/-!
# The kernel call queue

Model of `ffsys/kcall.h`.  An `ffkcall` object carries the arguments of a call and then its result
in the same union; it goes through the submission ring to a worker (`ffkcallq_process_sq`) and
through the completion ring to the reader (`ffkcallq_process_cq`).

* `Call` — the seven asynchronous functions with their arguments; `Call.store` writes the arguments
  to the object, `Ffkcall.load` is the `switch` of `_ffkcall_exec`.
* `Sys` — the objects, the two rings, and where every thread is.
* `kstep` — the atomic steps: a client's call up to `_ffkcall_add`, the `ffrq_add` in it, and
  `ffkcall_cancel`; the statements of the loop of a worker; the statements of the loop of the
  reader, with the wait for the `kqpost` event in front of it.
* `KStep` — the same as rules, one for each way a step can go; `kstep_rule` is what all invariants
  are derived from.

`ffrq_add` and `ffrq_fetch` are atomic operations on bounded FIFO queues.  The results of the kernel
functions are chosen by the environment.  The union has the layout of 64-bit UNIX: a 32-bit word
(`error`, `flags`, `fd`), a 64-bit word (`result`, `name`, `finfo`, `buf`), `size` and `offset`.
-/

set_option autoImplicit false

namespace FFSys.Kcall

open FFSys.Lib

def FFKCALL_EINPROGRESS : BitVec 32 := 115
def FFKCALL_EBUSY : BitVec 32 := 16
def FFKCALL_EAGAIN : BitVec 32 := 11

/-! ## Calls and objects -/

/-- A call of an asynchronous function. -/
inductive Call where
  | fileOpen (name : BitVec 64) (flags : BitVec 32)
  | fileInfo (fd : BitVec 32) (finfo : BitVec 64)
  | fileRead (fd : BitVec 32) (buf size : BitVec 64)
  | fileReadat (fd : BitVec 32) (buf size offset : BitVec 64)
  | fileWrite (fd : BitVec 32) (buf size : BitVec 64)
  | fileWriteat (fd : BitVec 32) (buf size offset : BitVec 64)
  | netResolve (name : BitVec 64) (flags : BitVec 32)
  deriving DecidableEq

/-- `enum FFKCALL_OP`. -/
def Call.op : Call → BitVec 16
  | .fileOpen .. => 1
  | .fileInfo .. => 2
  | .fileRead .. => 3
  | .fileReadat .. => 4
  | .fileWrite .. => 5
  | .fileWriteat .. => 6
  | .netResolve .. => 7

/-- What the function returns if there is no result: `FFFILE_NULL`, -1 or `NULL`. -/
def Call.pending : Call → BitVec 64
  | .netResolve .. => 0
  | _ => -1

/-- The return type of the function: `int` for open and info. -/
def Call.cast (c : Call) (v : BitVec 64) : BitVec 64 :=
  match c with
  | .fileOpen .. | .fileInfo .. => (v.setWidth 32).signExtend 64
  | _ => v

/-- `struct ffkcall`; `q` says that `kc->q` is not `NULL`. -/
structure Ffkcall where
  q : Bool
  op : BitVec 16
  state : BitVec 16
  word : BitVec 32
  ptr : BitVec 64
  size : BitVec 64
  offset : BitVec 64
  deriving DecidableEq

/-- The assignments before `_ffkcall_add`. -/
def Call.store (c : Call) (kc : Ffkcall) : Ffkcall :=
  match c with
  | .fileOpen name flags => { kc with ptr := name, word := flags }
  | .fileInfo fd finfo => { kc with word := fd, ptr := finfo }
  | .fileRead fd buf size => { kc with word := fd, ptr := buf, size := size }
  | .fileReadat fd buf size offset => { kc with word := fd, ptr := buf, size := size, offset := offset }
  | .fileWrite fd buf size => { kc with word := fd, ptr := buf, size := size }
  | .fileWriteat fd buf size offset => { kc with word := fd, ptr := buf, size := size, offset := offset }
  | .netResolve name flags => { kc with ptr := name, word := flags }

/-- The call that `_ffkcall_exec` makes; `none` is its `default`. -/
def Ffkcall.load (kc : Ffkcall) : Option Call :=
  if kc.op = 1 then some (.fileOpen kc.ptr kc.word)
  else if kc.op = 2 then some (.fileInfo kc.word kc.ptr)
  else if kc.op = 3 then some (.fileRead kc.word kc.ptr kc.size)
  else if kc.op = 4 then some (.fileReadat kc.word kc.ptr kc.size kc.offset)
  else if kc.op = 5 then some (.fileWrite kc.word kc.ptr kc.size)
  else if kc.op = 6 then some (.fileWriteat kc.word kc.ptr kc.size kc.offset)
  else if kc.op = 7 then some (.netResolve kc.ptr kc.word)
  else none

/-- An object as its owner initialises it. -/
def Ffkcall.init (q : Bool) : Ffkcall := ⟨q, 0, 0, 0, 0, 0, 0⟩

theorem Call.op_ne_zero (c : Call) : c.op ≠ 0 := by
  cases c <;> simp [Call.op]

/-- What was stored is what is called. -/
theorem load_store (c : Call) (kc : Ffkcall) : ({ c.store kc with op := c.op } : Ffkcall).load = some c := by
  cases c <;> rfl

theorem store_state (c : Call) (kc : Ffkcall) : (c.store kc).state = kc.state := by
  cases c <;> rfl

theorem store_q (c : Call) (kc : Ffkcall) : (c.store kc).q = kc.q := by
  cases c <;> rfl

theorem op_of_load {kc : Ffkcall} {c : Call} (h : kc.load = some c) : kc.op = c.op := by
  unfold Ffkcall.load at h
  repeat' split at h
  all_goals first | (cases h; assumption) | cases h

theorem setWidth_signExtend (v : BitVec 32) : (v.signExtend 64).setWidth 32 = v := by
  refine BitVec.eq_of_getLsbD_eq fun i hi => ?_
  have hi' : i < 64 := by omega
  simp only [BitVec.getLsbD_setWidth, BitVec.getLsbD_signExtend, hi, hi', decide_true, Bool.true_and,
    if_true]

/-- The return type is that of the function, whatever the arguments. -/
theorem cast_cast {c c' : Call} (h : c'.op = c.op) (v : BitVec 64) : c'.cast (c.cast v) = c.cast v := by
  have hc : c'.cast = c.cast := by
    cases c <;> cases c' <;> first | rfl | simp [Call.op] at h
  rw [hc]
  cases c <;> simp [Call.cast, setWidth_signExtend]

/-! ## The system -/

/-- The queue: capacities of the rings, whether `sem` and `kqpost` are there, and whether the wait
    for the `kqpost` event takes it (BSD, Windows) or leaves it to `ffkq_post_consume` (Linux). -/
structure Queue where
  sqCap : Nat
  cqCap : Nat
  sem : Bool
  kqpost : Bool
  waitTakes : Bool

/-- Where a worker is in the loop of `ffkcallq_process_sq`. -/
inductive Worker (ι : Type) where
  | idle
  | fetched (x : ι)
  | executed (x : ι)
  | marked (x : ι)
  | added (used : Nat)
  deriving DecidableEq

/-- Where the reader is: `woken` is behind the wait for the `kqpost` event and before the end of
    `ffkq_post_consume`, the others are in the loop of `ffkcallq_process_cq`. -/
inductive Reader (ι : Type) where
  | idle
  | woken
  | draining
  | holding (x : ι)
  | cleared (x : ι)
  deriving DecidableEq

/-- `caller x` is the call a client of `x` has got into `_ffkcall_add` with, before `ffrq_add`.
    `posted` counts the `kqpost` events that are pending, `semPosts` the posts of `sem`. -/
structure Sys (ι ω : Type) where
  obj : ι → Ffkcall
  caller : ι → Option Call
  sq : List ι
  cq : List ι
  worker : ω → Worker ι
  reader : Reader ι
  posted : Nat
  semPosts : Nat

/-- The atomic steps. -/
inductive Act (ι ω : Type) where
  | call (x : ι) (c : Call)
  | direct (x : ι) (c : Call) (r : BitVec 64) (e : BitVec 32)
  | add (x : ι)
  | cancel (x : ι)
  | fetchSq (w : ω)
  | exec (w : ω) (r : BitVec 64) (e : BitVec 32)
  | mark (w : ω)
  | complete (w : ω)
  | post (w : ω)
  | poll
  | wait (k : Nat)
  | consume
  | fetchCq
  | clear
  | notify

/-- What is seen of a step. -/
inductive Ev (ι : Type) where
  | silent
  | direct (x : ι) (c : Call) (v : BitVec 64) (e : BitVec 32)
  | busy (x : ι) (c : Call)
  | completed (x : ι) (c : Call) (v : BitVec 64) (e : BitVec 32)
  | submitted (x : ι) (c : Call)
  | refused (x : ι) (c : Call)
  | executed (x : ι) (c : Call) (r : BitVec 64) (e : BitVec 32)
  | handler (x : ι)
  | cqFull (x : ι)
  deriving DecidableEq

/-- The value an asynchronous function returns to its caller and the error code it leaves. -/
def Ev.returned {ι : Type} : Ev ι → Option (BitVec 64 × BitVec 32)
  | .direct _ _ v e => some (v, e)
  | .busy _ c => some (c.pending, FFKCALL_EBUSY)
  | .completed _ _ v e => some (v, e)
  | .submitted _ c => some (c.pending, FFKCALL_EINPROGRESS)
  | .refused _ c => some (c.pending, FFKCALL_EAGAIN)
  | _ => none

section Steps

variable {ι ω : Type} [DecidableEq ι] [DecidableEq ω]

def Sys.set (s : Sys ι ω) (x : ι) (kc : Ffkcall) : Sys ι ω :=
  { s with obj := Function.update s.obj x kc }

def Sys.work (s : Sys ι ω) (w : ω) (p : Worker ι) : Sys ι ω :=
  { s with worker := Function.update s.worker w p }

omit [DecidableEq ω] in
@[simp] theorem set_obj_self (s : Sys ι ω) (x : ι) (kc : Ffkcall) : (s.set x kc).obj x = kc := by
  simp [Sys.set]

omit [DecidableEq ω] in
theorem set_obj_of_ne (s : Sys ι ω) (kc : Ffkcall) {x y : ι} (h : y ≠ x) :
    (s.set x kc).obj y = s.obj y := by
  simp [Sys.set, h]

omit [DecidableEq ι] in
@[simp] theorem work_worker_self (s : Sys ι ω) (w : ω) (p : Worker ι) : (s.work w p).worker w = p := by
  simp [Sys.work]

omit [DecidableEq ι] in
theorem work_worker_of_ne (s : Sys ι ω) (p : Worker ι) {w w' : ω} (h : w' ≠ w) :
    (s.work w p).worker w' = s.worker w' := by
  simp [Sys.work, h]

/-- An asynchronous function up to `_ffkcall_add`, and the assignment to `op` in it. -/
def callStep (s : Sys ι ω) (x : ι) (c : Call) : Option (Sys ι ω × Ev ι) :=
  let kc := s.obj x
  if kc.q = false ∨ s.caller x ≠ none then none
  else if kc.state ≠ 0 then some (s, .busy x c)
  else if kc.op ≠ 0 then some (s.set x { kc with op := 0 }, .completed x c (c.cast kc.ptr) kc.word)
  else some ({ s.set x { c.store kc with op := c.op } with
    caller := Function.update s.caller x (some c) }, .silent)

/-- The `ffrq_add` of `_ffkcall_add` and what follows it. -/
def addStep (Q : Queue) (s : Sys ι ω) (x : ι) : Option (Sys ι ω × Ev ι) :=
  match s.caller x with
  | none => none
  | some c =>
    let s := { s with caller := Function.update s.caller x none }
    if s.sq.length < Q.sqCap then
      some ({ s with sq := s.sq ++ [x], semPosts := s.semPosts + if Q.sem then 1 else 0 }, .submitted x c)
    else some (s.set x { s.obj x with op := 0 }, .refused x c)

/-- `_ffkcall_exec`, and `kc->state = 0` if it fails. -/
def execStep (s : Sys ι ω) (w : ω) (r : BitVec 64) (e : BitVec 32) : Option (Sys ι ω × Ev ι) :=
  match s.worker w with
  | .fetched x =>
    match (s.obj x).load with
    | none => some ((s.set x { s.obj x with state := 0 }).work w .idle, .silent)
    | some c =>
      some ((s.set x { s.obj x with ptr := c.cast r, word := e }).work w (.executed x), .executed x c r e)
  | _ => none

/-- The `ffrq_add` to the completion ring. -/
def completeStep (Q : Queue) (s : Sys ι ω) (w : ω) : Option (Sys ι ω × Ev ι) :=
  match s.worker w with
  | .marked x =>
    if s.cq.length < Q.cqCap then
      some ({ s with cq := s.cq ++ [x] }.work w (.added s.cq.length), .silent)
    else some (s.work w .idle, .cqFull x)
  | _ => none

/-- One step of the system; `none` if the thread is not there. -/
def kstep (Q : Queue) (s : Sys ι ω) : Act ι ω → Option (Sys ι ω × Ev ι)
  | .call x c => callStep s x c
  | .direct x c r e => if (s.obj x).q then none else some (s, .direct x c (c.cast r) e)
  | .add x => addStep Q s x
  | .cancel x => some (s.set x { s.obj x with op := 0 }, .silent)
  | .fetchSq w =>
    match s.worker w, s.sq with
    | .idle, x :: sq => some ({ s with sq := sq }.work w (.fetched x), .silent)
    | .idle, [] => some (s, .silent)
    | _, _ => none
  | .exec w r e => execStep s w r e
  | .mark w =>
    match s.worker w with
    | .executed x => some ((s.set x { s.obj x with state := 2 }).work w (.marked x), .silent)
    | _ => none
  | .complete w => completeStep Q s w
  | .post w =>
    match s.worker w with
    | .added used =>
      some ({ s with posted := s.posted + if used = 0 ∧ Q.kqpost = true then 1 else 0 }.work w .idle, .silent)
    | _ => none
  | .poll =>
    match s.reader with
    | .idle => some ({ s with reader := .draining }, .silent)
    | _ => none
  | .wait k =>
    match s.reader with
    | .idle =>
      if 0 < k ∧ k ≤ s.posted then
        some ({ s with reader := .woken, posted := if Q.waitTakes then s.posted - k else s.posted }, .silent)
      else none
    | _ => none
  | .consume =>
    match s.reader with
    | .woken =>
      if Q.waitTakes = false ∧ 0 < s.posted then some ({ s with posted := 0 }, .silent)
      else some ({ s with reader := .draining }, .silent)
    | _ => none
  | .fetchCq =>
    match s.reader, s.cq with
    | .draining, x :: cq => some ({ s with cq := cq, reader := .holding x }, .silent)
    | .draining, [] => some ({ s with reader := .idle }, .silent)
    | _, _ => none
  | .clear =>
    match s.reader with
    | .holding x => some ({ s.set x { s.obj x with state := 0 } with reader := .cleared x }, .silent)
    | _ => none
  | .notify =>
    match s.reader with
    | .cleared x =>
      some ({ s with reader := .draining }, if (s.obj x).op ≠ 0 then .handler x else .silent)
    | _ => none

section Call

variable {Q : Queue} {s : Sys ι ω} {x : ι} (hq : (s.obj x).q = true) (hc : s.caller x = none)

include hq hc

theorem call_busy (hst : (s.obj x).state ≠ 0) (c : Call) :
    kstep Q s (.call x c) = some (s, .busy x c) := by
  simp only [kstep, callStep]
  rw [if_neg (by simp [hq, hc]), if_pos hst]

theorem call_completed (hst : (s.obj x).state = 0) (hop : (s.obj x).op ≠ 0) (c : Call) :
    kstep Q s (.call x c) = some (s.set x { s.obj x with op := 0 },
      .completed x c (c.cast (s.obj x).ptr) (s.obj x).word) := by
  simp only [kstep, callStep]
  rw [if_neg (by simp [hq, hc]), if_neg (not_not.mpr hst), if_pos hop]

theorem call_prepared (hst : (s.obj x).state = 0) (hop : (s.obj x).op = 0) (c : Call) :
    kstep Q s (.call x c) = some ({ s.set x { c.store (s.obj x) with op := c.op } with
      caller := Function.update s.caller x (some c) }, .silent) := by
  simp only [kstep, callStep]
  rw [if_neg (by simp [hq, hc]), if_neg (not_not.mpr hst), if_neg (not_not.mpr hop)]

end Call

/-- The steps as rules. -/
inductive KStep (Q : Queue) (s : Sys ι ω) : Act ι ω → Sys ι ω → Ev ι → Prop where
  | busy (x : ι) (c : Call) (hq : (s.obj x).q = true) (hc : s.caller x = none)
      (hst : (s.obj x).state ≠ 0) : KStep Q s (.call x c) s (.busy x c)
  | completed (x : ι) (c : Call) (hq : (s.obj x).q = true) (hc : s.caller x = none)
      (hst : (s.obj x).state = 0) (hop : (s.obj x).op ≠ 0) :
      KStep Q s (.call x c) (s.set x { s.obj x with op := 0 })
        (.completed x c (c.cast (s.obj x).ptr) (s.obj x).word)
  | prepared (x : ι) (c : Call) (hq : (s.obj x).q = true) (hc : s.caller x = none)
      (hst : (s.obj x).state = 0) (hop : (s.obj x).op = 0) :
      KStep Q s (.call x c) { s.set x { c.store (s.obj x) with op := c.op } with
        caller := Function.update s.caller x (some c) } .silent
  | direct (x : ι) (c : Call) (r : BitVec 64) (e : BitVec 32) (hq : (s.obj x).q = false) :
      KStep Q s (.direct x c r e) s (.direct x c (c.cast r) e)
  | submitted (x : ι) (c : Call) (hc : s.caller x = some c) (hcap : s.sq.length < Q.sqCap) :
      KStep Q s (.add x) { s with
        caller := Function.update s.caller x none, sq := s.sq ++ [x],
        semPosts := s.semPosts + if Q.sem then 1 else 0 } (.submitted x c)
  | refused (x : ι) (c : Call) (hc : s.caller x = some c) (hcap : Q.sqCap ≤ s.sq.length) :
      KStep Q s (.add x) { s.set x { s.obj x with op := 0 } with
        caller := Function.update s.caller x none } (.refused x c)
  | cancel (x : ι) : KStep Q s (.cancel x) (s.set x { s.obj x with op := 0 }) .silent
  | fetchSq (w : ω) (x : ι) (sq : List ι) (hw : s.worker w = .idle) (hsq : s.sq = x :: sq) :
      KStep Q s (.fetchSq w) ({ s with sq := sq }.work w (.fetched x)) .silent
  | sqEmpty (w : ω) (hw : s.worker w = .idle) (hsq : s.sq = []) : KStep Q s (.fetchSq w) s .silent
  | dropped (w : ω) (r : BitVec 64) (e : BitVec 32) (x : ι) (hw : s.worker w = .fetched x)
      (hl : (s.obj x).load = none) :
      KStep Q s (.exec w r e) ((s.set x { s.obj x with state := 0 }).work w .idle) .silent
  | executed (w : ω) (r : BitVec 64) (e : BitVec 32) (x : ι) (c : Call)
      (hw : s.worker w = .fetched x) (hl : (s.obj x).load = some c) :
      KStep Q s (.exec w r e)
        ((s.set x { s.obj x with ptr := c.cast r, word := e }).work w (.executed x)) (.executed x c r e)
  | mark (w : ω) (x : ι) (hw : s.worker w = .executed x) :
      KStep Q s (.mark w) ((s.set x { s.obj x with state := 2 }).work w (.marked x)) .silent
  | added (w : ω) (x : ι) (hw : s.worker w = .marked x) (hcap : s.cq.length < Q.cqCap) :
      KStep Q s (.complete w) ({ s with cq := s.cq ++ [x] }.work w (.added s.cq.length)) .silent
  | cqFull (w : ω) (x : ι) (hw : s.worker w = .marked x) (hcap : Q.cqCap ≤ s.cq.length) :
      KStep Q s (.complete w) (s.work w .idle) (.cqFull x)
  | post (w : ω) (used : Nat) (hw : s.worker w = .added used) :
      KStep Q s (.post w)
        ({ s with posted := s.posted + if used = 0 ∧ Q.kqpost = true then 1 else 0 }.work w .idle) .silent
  | poll (hr : s.reader = .idle) : KStep Q s .poll { s with reader := .draining } .silent
  | wait (k : Nat) (hr : s.reader = .idle) (hk : 0 < k ∧ k ≤ s.posted) :
      KStep Q s (.wait k) { s with
        reader := .woken, posted := if Q.waitTakes then s.posted - k else s.posted } .silent
  | consume (hr : s.reader = .woken) (hp : 0 < s.posted) :
      KStep Q s .consume { s with posted := 0 } .silent
  | consumed (hr : s.reader = .woken) : KStep Q s .consume { s with reader := .draining } .silent
  | fetchCq (x : ι) (cq : List ι) (hr : s.reader = .draining) (hcq : s.cq = x :: cq) :
      KStep Q s .fetchCq { s with cq := cq, reader := .holding x } .silent
  | cqEmpty (hr : s.reader = .draining) (hcq : s.cq = []) :
      KStep Q s .fetchCq { s with reader := .idle } .silent
  | clear (x : ι) (hr : s.reader = .holding x) :
      KStep Q s .clear { s.set x { s.obj x with state := 0 } with reader := .cleared x } .silent
  | notified (x : ι) (hr : s.reader = .cleared x) (hop : (s.obj x).op ≠ 0) :
      KStep Q s .notify { s with reader := .draining } (.handler x)
  | cancelled (x : ι) (hr : s.reader = .cleared x) (hop : (s.obj x).op = 0) :
      KStep Q s .notify { s with reader := .draining } .silent

theorem callStep_rule {Q : Queue} {s s' : Sys ι ω} {x : ι} {c : Call} {ev : Ev ι}
    (h : callStep s x c = some (s', ev)) : KStep Q s (.call x c) s' ev := by
  unfold callStep at h
  simp only at h
  split at h
  · cases h
  · rename_i h0
    simp only [not_or, Bool.not_eq_false, not_not] at h0
    split at h
    · rename_i hst
      cases h
      exact .busy x c h0.1 h0.2 hst
    · rename_i hst
      split at h
      · rename_i hop
        cases h
        exact .completed x c h0.1 h0.2 (not_not.mp hst) hop
      · rename_i hop
        cases h
        exact .prepared x c h0.1 h0.2 (not_not.mp hst) (not_not.mp hop)

theorem addStep_rule {Q : Queue} {s s' : Sys ι ω} {x : ι} {ev : Ev ι}
    (h : addStep Q s x = some (s', ev)) : KStep Q s (.add x) s' ev := by
  unfold addStep at h
  split at h
  · cases h
  · rename_i c hc
    simp only at h
    split at h
    · rename_i hcap
      cases h
      exact .submitted x c hc hcap
    · rename_i hcap
      cases h
      exact .refused x c hc (Nat.not_lt.mp hcap)

theorem execStep_rule {Q : Queue} {s s' : Sys ι ω} {w : ω} {r : BitVec 64} {e : BitVec 32} {ev : Ev ι}
    (h : execStep s w r e = some (s', ev)) : KStep Q s (.exec w r e) s' ev := by
  unfold execStep at h
  split at h
  · rename_i x hw
    split at h
    · rename_i hl
      cases h
      exact .dropped w r e x hw hl
    · rename_i c hl
      cases h
      exact .executed w r e x c hw hl
  · cases h

theorem completeStep_rule {Q : Queue} {s s' : Sys ι ω} {w : ω} {ev : Ev ι}
    (h : completeStep Q s w = some (s', ev)) : KStep Q s (.complete w) s' ev := by
  unfold completeStep at h
  split at h
  · rename_i x hw
    split at h
    · rename_i hcap
      cases h
      exact .added w x hw hcap
    · rename_i hcap
      cases h
      exact .cqFull w x hw (Nat.not_lt.mp hcap)
  · cases h

/-- **Every step is one of the rules.** -/
theorem kstep_rule {Q : Queue} {s s' : Sys ι ω} {a : Act ι ω} {ev : Ev ι}
    (h : kstep Q s a = some (s', ev)) : KStep Q s a s' ev := by
  cases a with
  | call x c => exact callStep_rule h
  | add x => exact addStep_rule h
  | exec w r e => exact execStep_rule h
  | complete w => exact completeStep_rule h
  | direct x c r e =>
    simp only [kstep] at h
    split at h
    · cases h
    · rename_i hq
      cases h
      exact .direct x c r e (by simpa using hq)
  | cancel x =>
    simp only [kstep] at h
    cases h
    exact .cancel x
  | fetchSq w =>
    simp only [kstep] at h
    split at h
    · rename_i hw hsq
      cases h
      exact .fetchSq w _ _ hw hsq
    · rename_i hw hsq
      cases h
      exact .sqEmpty w hw hsq
    · cases h
  | mark w =>
    simp only [kstep] at h
    split at h
    · rename_i hw
      cases h
      exact .mark w _ hw
    · cases h
  | post w =>
    simp only [kstep] at h
    split at h
    · rename_i hw
      cases h
      exact .post w _ hw
    · cases h
  | poll =>
    simp only [kstep] at h
    split at h
    · rename_i hr
      cases h
      exact .poll hr
    · cases h
  | wait k =>
    simp only [kstep] at h
    split at h
    · rename_i hr
      split at h
      · rename_i hk
        cases h
        exact .wait k hr hk
      · cases h
    · cases h
  | consume =>
    simp only [kstep] at h
    split at h
    · rename_i hr
      split at h
      · rename_i hp
        cases h
        exact .consume hr hp.2
      · cases h
        exact .consumed hr
    · cases h
  | fetchCq =>
    simp only [kstep] at h
    split at h
    · rename_i hr hcq
      cases h
      exact .fetchCq _ _ hr hcq
    · rename_i hr hcq
      cases h
      exact .cqEmpty hr hcq
    · cases h
  | clear =>
    simp only [kstep] at h
    split at h
    · rename_i hr
      cases h
      exact .clear _ hr
    · cases h
  | notify =>
    simp only [kstep] at h
    split at h
    · rename_i x hr
      by_cases hop : (s.obj x).op = 0
      · rw [if_neg (not_not.mpr hop)] at h
        cases h
        exact .cancelled x hr hop
      · rw [if_pos hop] at h
        cases h
        exact .notified x hr hop
    · cases h

/-- No call has been made; `q x` says whether the object `x` is attached to the queue. -/
def startSys (q : ι → Bool) : Sys ι ω :=
  ⟨fun x => Ffkcall.init (q x), fun _ => none, [], [], fun _ => .idle, .idle, 0, 0⟩

end Steps

/-! ## Who makes a step -/

section Threads

variable {ι ω : Type}

/-- The step is one of a client. -/
def Act.byClient : Act ι ω → Prop
  | .call _ _ => True
  | .direct .. => True
  | .add _ => True
  | .cancel _ => True
  | _ => False

/-- The step is one of the worker `w`. -/
def Act.byWorker (w : ω) : Act ι ω → Prop
  | .fetchSq w' => w' = w
  | .exec w' _ _ => w' = w
  | .mark w' => w' = w
  | .complete w' => w' = w
  | .post w' => w' = w
  | _ => False

/-- The step is one of the reader. -/
def Act.byReader : Act ι ω → Prop
  | .poll => True
  | .wait _ => True
  | .consume => True
  | .fetchCq => True
  | .clear => True
  | .notify => True
  | _ => False

theorem Act.by_someone (a : Act ι ω) : a.byClient ∨ (∃ w, a.byWorker w) ∨ a.byReader := by
  cases a with
  | call x c | direct x c r e | add x | cancel x => exact Or.inl trivial
  | fetchSq w | exec w r e | mark w | complete w | post w => exact Or.inr (Or.inl ⟨w, rfl⟩)
  | poll | wait k | consume | fetchCq | clear | notify => exact Or.inr (Or.inr trivial)

end Threads

end FFSys.Kcall
