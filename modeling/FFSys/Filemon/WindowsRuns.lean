import FFSys.Filemon.Windows
import FFSys.Lib.Run

/-!
# Watching a directory on Windows

`_fffilemon_watch_read_async()` starts a request and, when it is called again, fetches its result.
The system records the changes from the first request on, and drops what it has when its own
buffer overflows: then the next request completes with no data.  The function returns the capacity
of the buffer, not the number of bytes in it.

* `Sys`, `step` — the function, the decoder that its caller runs over the buffer, and the system.
* `Reports` — what each report has to be: the last batch that is not empty.
* `fffilemon_watch_reports` — the reports of every run; without overflows every change is reported
  once and in order.
-/

set_option autoImplicit false

namespace FFSys.Filemon.Win

open FFSys.Lib

/-! ## The system -/

/-- The request of the watch. -/
inductive Req where
  | idle
  | pending
  | done
  | failed
  deriving DecidableEq

/-- `active` is the field of the task; `vars` has the buffer of the name. -/
structure Sys where
  active : Bool
  req : Req
  buf : List Byte
  vars : Vars
  recording : Bool
  queue : List Record
  lost : Bool

def Sys.init (buf : List Byte) : Sys := ⟨false, .idle, buf, ⟨[], [], 0⟩, false, [], false⟩

/-- A change in the directory; the buffer of the system overflows; the request completes with the
    first `n` changes, or with no data after an overflow; it fails; the caller calls, and `ok` is
    the answer of `ReadDirectoryChangesW`. -/
inductive Act where
  | change (r : Record)
  | overflow
  | complete (n : Nat)
  | fail
  | call (ok : Bool)

inductive Ev where
  | quiet
  | recorded (r : Record)
  | completed (b : List Record)
  | inProgress
  | error
  | report (l : List Seen) (ret : Int)
  | fault

section Step

variable (E : Env) (ws : List Watch)

/-- The caller runs the decoder over `cap` bytes of the buffer. -/
def readBuf (s : Sys) : Sys × Ev :=
  let s' := { s with active := false, req := .idle }
  match readAll E ws (s.buf.length + 1) 0 { s.vars with input := s.buf } with
  | none => (s', .fault)
  | some (l, r, v) => ({ s' with vars := v }, .report l r)

/-- `_fffilemon_watch_read_async()`, and the decoder if it returns data. -/
def watchRead (s : Sys) (ok : Bool) : Sys × Ev :=
  if s.active then
    match s.req with
    | .done => readBuf E ws s
    | .failed => ({ s with active := false, req := .idle }, .error)
    | _ => (s, .inProgress)
  else if ok then ({ s with active := true, req := .pending, recording := true }, .inProgress)
  else (s, .error)

def step (s : Sys) : Act → Option (Sys × Ev)
  | .change r =>
    if s.recording ∧ s.lost = false then some ({ s with queue := s.queue ++ [r] }, .recorded r)
    else some (s, .quiet)
  | .overflow =>
    if s.recording then some ({ s with queue := [], lost := true }, .quiet) else none
  | .complete n =>
    let b := s.queue.take n
    if s.req = .pending then
      if s.lost then some ({ s with req := .done, lost := false }, .completed [])
      else if b ≠ [] ∧ (batchBytes b).length ≤ s.buf.length then
        some ({ s with
          req := .done
          buf := batchBytes b ++ s.buf.drop (batchBytes b).length
          queue := s.queue.drop n }, .completed b)
      else none
    else none
  | .fail => if s.req = .pending then some ({ s with req := .failed }, .quiet) else none
  | .call ok => some (watchRead E ws s ok)

end Step

/-! ## The reports -/

/-- The last batch that is not empty. -/
def nextBatch (last b : List Record) : List Record := if b = [] then last else b

/-- The report of a batch in a buffer of `cap` bytes. -/
def IsReport (ws : List Watch) (cap : Nat) (b : List Record) (l : List Seen) (r : Int) : Prop :=
  l = seenAll ws (heard b (cap - (batchBytes b).length)) ∧
    r = endOf (cap - (batchBytes b).length)

/-- Each report is the last batch that is not empty; before there is one the buffer is not set. -/
def Reports (ws : List Watch) (cap : Nat) : List Record → List Ev → Prop
  | _, [] => True
  | last, .completed b :: os => Reports ws cap (nextBatch last b) os
  | last, .report l r :: os => (last ≠ [] → IsReport ws cap last l r) ∧ Reports ws cap last os
  | last, .fault :: os => last = [] ∧ Reports ws cap last os
  | last, _ :: os => Reports ws cap last os

/-- The changes that the system has recorded. -/
def recorded (os : List Ev) : List Record :=
  os.filterMap fun ev => match ev with
    | .recorded r => some r
    | _ => none

/-- What the caller has got. -/
def reported (os : List Ev) : List Seen :=
  os.flatMap fun ev => match ev with
    | .report l _ => l
    | _ => []

variable {E : Env} {ws : List Watch} {s s' t : Sys} {a : Act} {ev : Ev} {os : List Ev}
  {last b : List Record} {cap : Nat}

/-! ## One step -/

/-- What a step can do. -/
inductive WStep (E : Env) (ws : List Watch) (s : Sys) : Act → Sys → Ev → Prop where
  | record (r : Record) (hl : s.lost = false) :
      WStep E ws s (.change r) { s with queue := s.queue ++ [r] } (.recorded r)
  | ignore (r : Record) : WStep E ws s (.change r) s .quiet
  | overflow : WStep E ws s .overflow { s with queue := [], lost := true } .quiet
  | empty (n : Nat) (hr : s.req = .pending) (hl : s.lost = true) :
      WStep E ws s (.complete n) { s with req := .done, lost := false } (.completed [])
  | complete (n : Nat) (hr : s.req = .pending) (hl : s.lost = false) (hne : s.queue.take n ≠ [])
      (hle : (batchBytes (s.queue.take n)).length ≤ s.buf.length) :
      WStep E ws s (.complete n) { s with
        req := .done
        buf := batchBytes (s.queue.take n) ++ s.buf.drop (batchBytes (s.queue.take n)).length
        queue := s.queue.drop n } (.completed (s.queue.take n))
  | fail (hr : s.req = .pending) : WStep E ws s .fail { s with req := .failed } .quiet
  | read (ok : Bool) (ha : s.active = true) (hr : s.req = .done) :
      WStep E ws s (.call ok) (readBuf E ws s).1 (readBuf E ws s).2
  | error (ok : Bool) (hr : s.req = .failed) :
      WStep E ws s (.call ok) { s with active := false, req := .idle } .error
  | wait (ok : Bool) : WStep E ws s (.call ok) s .inProgress
  | start (ha : s.active = false) :
      WStep E ws s (.call true) { s with active := true, req := .pending, recording := true }
        .inProgress
  | refused : WStep E ws s (.call false) s .error

theorem step_cases (h : step E ws s a = some (s', ev)) : WStep E ws s a s' ev := by
  cases a with
  | change r =>
    rw [step] at h
    split at h
    · rename_i hc
      cases h
      exact .record r hc.2
    · cases h
      exact .ignore r
  | overflow =>
    rw [step] at h
    split at h
    · cases h
      exact .overflow
    · cases h
  | complete n =>
    simp only [step] at h
    split at h
    · rename_i hr
      split at h
      · rename_i hl
        cases h
        exact .empty n hr hl
      · rename_i hl
        split at h
        · rename_i hb
          cases h
          exact .complete n hr (by simpa using hl) hb.1 hb.2
        · cases h
    · cases h
  | fail =>
    rw [step] at h
    split at h
    · rename_i hr
      cases h
      exact .fail hr
    · cases h
  | call ok =>
    rw [step, Option.some.injEq, watchRead] at h
    split at h
    · rename_i ha
      split at h
      · rename_i hr
        have hs : s' = (readBuf E ws s).1 ∧ ev = (readBuf E ws s).2 := by rw [h]; exact ⟨rfl, rfl⟩
        rw [hs.1, hs.2]
        exact .read ok ha hr
      · rename_i hr
        cases h
        exact .error ok hr
      · cases h
        exact .wait ok
    · rename_i ha
      split at h
      · rename_i hok
        cases h
        rw [hok]
        exact .start (by simpa using ha)
      · rename_i hok
        cases h
        rw [Bool.eq_false_iff.mpr hok]
        exact .refused

/-- The last batch is at the start of the buffer, and the task is active while there is a
    request. -/
structure Watched (cap : Nat) (last : List Record) (s : Sys) : Prop where
  cap : s.buf.length = cap
  buf : last ≠ [] → ∃ tail, s.buf = batchBytes last ++ tail
  active : s.active = true ↔ s.req ≠ .idle

/-- The last batch after an event. -/
def Ev.batch (last : List Record) : Ev → List Record
  | .completed b => nextBatch last b
  | _ => last

theorem batchBytes_count : ∀ (es : List Record), es.length ≤ (batchBytes es).length
  | [] => Nat.le_refl _
  | [r] => by
    have h := batchBytes_length r []
    simp only [List.length_singleton]
    omega
  | r :: r' :: rs => by
    have h := batchBytes_count (r' :: rs)
    have hr := r.bytes_length r.size
    rw [batchBytes_cons, List.length_append, List.length_append]
    simp only [List.length_cons] at h ⊢
    omega

/-- The report of the last batch. -/
theorem readBuf_report (ws : List Watch) (hE : E.Exact) (W : Watched cap last s) (hne : last ≠ []) :
    ∃ l r v, readBuf E ws s = ({ s with active := false, req := .idle, vars := v }, .report l r) ∧
      IsReport ws cap last l r := by
  obtain ⟨tail, htail⟩ := W.buf hne
  have hlen : (batchBytes last).length + tail.length = cap := by
    rw [← W.cap, htail, List.length_append]
  have hcount := batchBytes_count last
  obtain ⟨v, hv⟩ := readAll_batch hE ws tail last hne (s.buf.length + 1) 0 s.vars.name s.vars.cap
    (by rw [W.cap]; omega)
  rw [← htail] at hv
  have hroom : tail.length = cap - (batchBytes last).length := by omega
  refine ⟨seenAll ws (heard last tail.length), endOf tail.length, v, ?_, ?_⟩
  · simp only [readBuf, hv]
  · rw [IsReport, hroom]
    exact ⟨rfl, rfl⟩

theorem readBuf_frame (E : Env) (ws : List Watch) (s : Sys) :
    (readBuf E ws s).1.buf = s.buf ∧ (readBuf E ws s).1.active = false ∧
      (readBuf E ws s).1.req = .idle ∧ (readBuf E ws s).1.queue = s.queue ∧
      (readBuf E ws s).1.lost = s.lost := by
  simp only [readBuf]
  split <;> exact ⟨rfl, rfl, rfl, rfl, rfl⟩

theorem readBuf_ev (E : Env) (ws : List Watch) (s : Sys) :
    (readBuf E ws s).2 = .fault ∨ ∃ l r, (readBuf E ws s).2 = .report l r := by
  simp only [readBuf]
  split
  · exact Or.inl rfl
  · exact Or.inr ⟨_, _, rfl⟩

theorem Watched.step (W : Watched cap last s) (hs : WStep E ws s a s' ev) :
    Watched cap (ev.batch last) s' := by
  cases hs with
  | record r hl | ignore r | overflow | wait ok | refused => exact ⟨W.cap, W.buf, W.active⟩
  | fail hr =>
    refine ⟨W.cap, W.buf, ?_⟩
    rw [W.active, hr]
    simp
  | empty n hr hl =>
    refine ⟨W.cap, W.buf, ?_⟩
    rw [W.active, hr]
    simp
  | complete n hr hl hne hle =>
    refine ⟨?_, ?_, ?_⟩
    · rw [List.length_append, List.length_drop, ← W.cap]
      omega
    · intro _
      rw [Ev.batch, nextBatch, if_neg hne]
      exact ⟨_, rfl⟩
    · rw [W.active, hr]
      simp
  | error ok hr => exact ⟨W.cap, W.buf, by simp⟩
  | start ha => exact ⟨W.cap, W.buf, by simp⟩
  | read ok ha hr =>
    obtain ⟨hbuf, hactive, hreq, _⟩ := readBuf_frame E ws s
    have hlast : (readBuf E ws s).2.batch last = last := by
      rcases readBuf_ev E ws s with h | ⟨l, r, h⟩ <;> rw [h] <;> rfl
    rw [hlast]
    refine ⟨by rw [hbuf]; exact W.cap, by rw [hbuf]; exact W.buf, ?_⟩
    rw [hactive, hreq]
    simp

/-- An event in the reports. -/
theorem reports_cons (hE : E.Exact) (W : Watched cap last s) (hs : WStep E ws s a s' ev)
    (h : Reports ws cap (ev.batch last) os) : Reports ws cap last (ev :: os) := by
  cases hs with
  | record r hl | ignore r | overflow | empty n hr hl | complete n hr hl hne hle | fail hr
  | error ok hr | wait ok | start ha | refused => exact h
  | read ok ha hr =>
    rcases Classical.em (last = []) with hl | hl
    · rcases readBuf_ev E ws s with hev | ⟨l, r, hev⟩
      · rw [hev] at h ⊢
        exact ⟨hl, h⟩
      · rw [hev] at h ⊢
        exact ⟨fun hne => absurd hl hne, h⟩
    · obtain ⟨l, r, v, hread, hrep⟩ := readBuf_report ws hE W hl
      rw [hread] at h ⊢
      exact ⟨fun _ => hrep, h⟩

/-! ## Every change once -/

/-- What the caller will get of the changes recorded so far. -/
def owed (ws : List Watch) (last : List Record) (s : Sys) : List Seen :=
  seenAll ws ((if s.req = .done then last else []) ++ s.queue)

theorem seenAll_append (ws : List Watch) (es es' : List Record) :
    seenAll ws (es ++ es') = seenAll ws es ++ seenAll ws es' := List.filterMap_append

/-- A change is owed until it is reported. -/
theorem owed_step (hE : E.Exact) (W : Watched cap last s) (hlost : s.lost = false)
    (hlast : s.req = .done → last ≠ []) (hs : WStep E ws s a s' ev) (ha : a ≠ .overflow)
    (hroom : (batchBytes last).length + 4 ≤ cap) :
    owed ws last s ++ seenAll ws (recorded [ev]) = reported [ev] ++ owed ws (ev.batch last) s' ∧
      s'.lost = false ∧ (s'.req = .done → ev.batch last ≠ []) := by
  cases hs with
  | record r hl =>
    refine ⟨?_, hlost, hlast⟩
    simp only [owed, ← seenAll_append, List.append_assoc]
    rfl
  | ignore r | wait ok | refused => exact ⟨List.append_nil _, hlost, hlast⟩
  | overflow => exact absurd rfl ha
  | empty n hr hl =>
    rw [hlost] at hl
    cases hl
  | complete n hr hl hne hle =>
    refine ⟨?_, hlost, fun _ => ?_⟩
    · have hrec : seenAll ws (recorded [Ev.completed (s.queue.take n)]) = [] := rfl
      have hrep : reported [Ev.completed (s.queue.take n)] = [] := rfl
      rw [hrec, hrep, List.append_nil, List.nil_append]
      simp only [owed, hr, Ev.batch, nextBatch, if_neg hne, reduceCtorEq, if_false, if_true,
        List.nil_append, List.take_append_drop]
    · rw [Ev.batch, nextBatch, if_neg hne]
      exact hne
  | fail hr =>
    refine ⟨?_, hlost, fun h => by cases h⟩
    simp only [owed, hr, reduceCtorEq, if_false]
    exact List.append_nil _
  | error ok hr =>
    refine ⟨?_, hlost, fun h => by cases h⟩
    simp only [owed, hr, reduceCtorEq, if_false]
    exact List.append_nil _
  | start hact =>
    have hreq : s.req = .idle := by
      by_contra hne
      rw [W.active.mpr hne] at hact
      cases hact
    refine ⟨?_, hlost, fun h => by cases h⟩
    simp only [owed, hreq, reduceCtorEq, if_false]
    exact List.append_nil _
  | read ok hact hr =>
    obtain ⟨l, r, v, hread, hl, _⟩ := readBuf_report ws hE W (hlast hr)
    have hall : heard last (cap - (batchBytes last).length) = last := if_neg (by omega)
    rw [hall] at hl
    rw [hread]
    refine ⟨?_, hlost, fun h => by cases h⟩
    have hrep : reported [Ev.report l r] = l := List.append_nil _
    have hrec : seenAll ws (recorded [Ev.report l r]) = [] := rfl
    rw [hrep, hrec, List.append_nil, hl]
    simp only [owed, hr, if_true, reduceCtorEq, if_false, seenAll_append, Ev.batch]
    rfl

theorem recorded_cons (ev : Ev) (os : List Ev) : recorded (ev :: os) = recorded [ev] ++ recorded os := by
  simp only [recorded, List.filterMap_cons]
  cases ev <;> rfl

theorem reported_cons (ev : Ev) (os : List Ev) :
    reported (ev :: os) = reported [ev] ++ reported os := by
  simp only [reported, List.flatMap_cons, List.flatMap_nil, List.append_nil]

/-- Induction on the run. -/
theorem reports_run (hE : E.Exact) : ∀ {as : List Act} {s t : Sys} {os : List Ev}
    {last : List Record}, Watched cap last s → exec (step E ws) s as = some (t, os) →
    Reports ws cap last os
  | [], s, t, os, last, W, h => by
    simp only [exec, Option.some.injEq, Prod.mk.injEq] at h
    exact h.2 ▸ trivial
  | a :: as, s, t, os, last, W, h => by
    obtain ⟨s', ev, os', hs, hrun, rfl⟩ := exec_cons h
    have hstep := step_cases hs
    exact reports_cons hE W hstep (reports_run hE (W.step hstep) hrun)

theorem owed_run (hE : E.Exact) : ∀ {as : List Act} {s t : Sys} {os : List Ev}
    {last : List Record}, Watched cap last s → s.lost = false → (s.req = .done → last ≠ []) →
    (batchBytes last).length + 4 ≤ cap → exec (step E ws) s as = some (t, os) →
    (∀ a ∈ as, a ≠ .overflow) → (∀ b, .completed b ∈ os → (batchBytes b).length + 4 ≤ cap) →
    ∃ last', (t.req = .done → last' ≠ []) ∧
      owed ws last s ++ seenAll ws (recorded os) = reported os ++ owed ws last' t
  | [], s, t, os, last, _, _, hlast, _, h, _, _ => by
    simp only [exec, Option.some.injEq, Prod.mk.injEq] at h
    obtain ⟨rfl, rfl⟩ := h
    exact ⟨last, hlast, List.append_nil _⟩
  | a :: as, s, t, os, last, W, hlost, hlast, hroom, h, ha, hfit => by
    obtain ⟨s', ev, os', hs, hrun, rfl⟩ := exec_cons h
    have hstep := step_cases hs
    obtain ⟨heq, hlost', hlast'⟩ :=
      owed_step hE W hlost hlast hstep (ha a List.mem_cons_self) hroom
    have hroom' : (batchBytes (ev.batch last)).length + 4 ≤ cap := by
      cases ev with
      | completed b =>
        rw [Ev.batch, nextBatch]
        split
        · exact hroom
        · exact hfit b List.mem_cons_self
      | quiet | recorded r | inProgress | error | report l r | fault => exact hroom
    obtain ⟨last', hdone, hrest⟩ := owed_run hE (W.step hstep) hlost' hlast' hroom' hrun
      (fun b hb => ha b (List.mem_cons_of_mem _ hb)) (fun b hb => hfit b (List.mem_cons_of_mem _ hb))
    refine ⟨last', hdone, ?_⟩
    rw [recorded_cons, seenAll_append, ← List.append_assoc, heq, List.append_assoc, hrest,
      reported_cons ev os', List.append_assoc]

/-- **What a watched directory reports.**  In every run each report is the last batch that is not
    empty, so the result of an overflow reports the batch before it again, and the decoder never
    fails on it.  Without overflows, and with 4 bytes left behind each batch, the changes recorded
    are those reported, in order and each once, then those of a batch that is not fetched, then
    those that the system still has. -/
theorem fffilemon_watch_reports (E : Env) (hE : E.Exact) (ws : List Watch) (buf : List Byte)
    (as : List Act) (t : Sys) (os : List Ev)
    (h : exec (step E ws) (Sys.init buf) as = some (t, os)) :
    Reports ws buf.length [] os ∧
      ((∀ a ∈ as, a ≠ .overflow) → 4 ≤ buf.length →
        (∀ b, .completed b ∈ os → (batchBytes b).length + 4 ≤ buf.length) →
        ∃ unread, (unread ≠ [] ↔ t.req = .done) ∧
          seenAll ws (recorded os) = reported os ++ seenAll ws (unread ++ t.queue)) := by
  have W : Watched buf.length [] (Sys.init buf) := ⟨rfl, fun h => absurd rfl h, by simp [Sys.init]⟩
  refine ⟨reports_run hE W h, ?_⟩
  intro ha hcap hfit
  obtain ⟨last, hdone, heq⟩ := owed_run hE W rfl (fun h => by cases h) (by simpa [batchBytes] using hcap)
    h ha hfit
  refine ⟨if t.req = .done then last else [], ?_, heq⟩
  split
  · rename_i hreq
    exact ⟨fun _ => hreq, hdone⟩
  · rename_i hreq
    exact ⟨fun hne => absurd rfl hne, fun h => absurd h hreq⟩

/-- A conversion of texts, with memory for them. -/
def textEnv : Env := ⟨fun w => (utf16Decode w).map utf8, fun cap n => some (max cap n)⟩

theorem textEnv_exact : textEnv.Exact where
  wtou cs := by
    simp only [textEnv, utf16Decode_utf16, Option.map_some]
  grow cap n := ⟨max cap n, rfl, Nat.le_max_right _ _⟩

/-- `FILE_ACTION_ADDED` of the file "a". -/
def addedA : Record where
  action := 1
  name := ['a']
  pad := 0
  action_pos := by decide
  name_ne := by simp
  name_lt := by decide
  pad_lt := by decide

/-- A file is added; after the overflow it is reported a second time. -/
theorem fffilemon_watch_reports_again :
    ∃ t os, exec (step textEnv [⟨true, []⟩]) (Sys.init (List.replicate 20 0))
        [.call true, .change addedA, .complete 1, .call true, .call true, .overflow, .complete 0,
          .call true] = some (t, os) ∧
      reported os = [⟨0, 1, [97]⟩, ⟨0, 1, [97]⟩] ∧
      Reports [⟨true, []⟩] (List.replicate 20 (0 : Byte)).length [] os :=
  ⟨_, _, rfl, by decide, (fffilemon_watch_reports textEnv textEnv_exact [⟨true, []⟩]
    (List.replicate 20 0)
    [.call true, .change addedA, .complete 1, .call true, .call true, .overflow, .complete 0,
      .call true] _ _ rfl).1⟩

end FFSys.Filemon.Win
