import FFSys.Lib.Run

/-!
# Posted events

Producers put an item into a list that they share with a reader and then call `ffkq_post`.  The
reader waits in `ffkq_wait`, and after an event it calls `ffkq_post_consume` and takes items until
there are none.

* `Os`, `Kernel` — the eventfd of Linux in an edge-triggered epoll, `EVFILT_USER` of BSD, the completion
  port of Windows; `Kernel.post`, `Kernel.take`, `Kernel.read`.
* `step` — producers and reader; the reader consumes the event before it takes the items, or after.
* `Inv`, `Sys.work` — an item is not left behind, and the work of the reader.
* `ffkq_post_wakeup` — no item is left behind, but on Linux if the reader consumes the event last.
-/

set_option autoImplicit false

namespace FFSys.Kqueue

open FFSys.Lib

inductive Os where
  | linux
  | bsd
  | windows
  deriving DecidableEq

/-- The queue and its post event. -/
structure Kernel where
  /-- the counter of the eventfd; 1 if the filter is triggered; the packets of the port -/
  count : Nat
  /-- in the ready list of epoll -/
  ready : Bool

/-- `ffkq_post` -/
def Kernel.post (k : Kernel) : Os → Kernel
  | .linux => ⟨k.count + 1, true⟩
  | .bsd => ⟨1, k.ready⟩
  | .windows => ⟨k.count + 1, k.ready⟩

/-- How many events `ffkq_wait` has to give. -/
def Kernel.events (k : Kernel) : Os → Nat
  | .linux => if k.ready ∧ k.count ≠ 0 then 1 else 0
  | .bsd | .windows => k.count

/-- `ffkq_wait` that gives an event. -/
def Kernel.take (k : Kernel) : Os → Kernel
  | .linux => ⟨k.count, false⟩
  -- `EV_CLEAR`
  | .bsd => ⟨0, k.ready⟩
  | .windows => ⟨k.count - 1, k.ready⟩

/-- `ffkq_wait` that gives none: epoll forgets a descriptor that cannot be read. -/
def Kernel.miss (k : Kernel) : Os → Kernel
  | .linux => ⟨k.count, false⟩
  | .bsd | .windows => k

/-- One turn of `ffkq_post_consume`; `none` if it returns. -/
def Kernel.read (k : Kernel) : Os → Option Kernel
  | .linux => if k.count = 0 then none else some ⟨0, k.ready⟩
  | .bsd | .windows => none

inductive Reader where
  | idle
  /-- after an event, and then after the first of the two things to do -/
  | first
  | second
  deriving DecidableEq

structure Sys where
  items : Nat
  /-- producers between their item and their post -/
  posting : Nat
  kernel : Kernel
  reader : Reader

def Sys.init : Sys := ⟨0, 0, ⟨0, false⟩, .idle⟩

inductive Act where
  | add
  | post
  | wait
  | timeout
  | work
  deriving DecidableEq

/-- A turn of `ffkq_post_consume`, and `next` when it returns. -/
def Sys.consume (os : Os) (s : Sys) (next : Reader) : Sys :=
  match s.kernel.read os with
  | some k => { s with kernel := k }
  | none => { s with reader := next }

/-- One item, and `next` when there are none. -/
def Sys.takeItem (s : Sys) (next : Reader) : Sys :=
  if s.items = 0 then { s with reader := next } else { s with items := s.items - 1 }

/-- `early`: the reader consumes the event before it takes the items. -/
def step (os : Os) (early : Bool) (s : Sys) : Act → Option (Sys × Unit)
  | .add => some ({ s with items := s.items + 1, posting := s.posting + 1 }, ())
  | .post =>
    if s.posting = 0 then none
    else some ({ s with posting := s.posting - 1, kernel := s.kernel.post os }, ())
  | .wait =>
    if s.reader = .idle ∧ s.kernel.events os ≠ 0 then
      some ({ s with kernel := s.kernel.take os, reader := .first }, ())
    else none
  | .timeout =>
    if s.reader = .idle ∧ s.kernel.events os = 0 then some ({ s with kernel := s.kernel.miss os }, ())
    else none
  | .work =>
    match s.reader with
    | .idle => none
    | .first => some (if early then s.consume os .second else s.takeItem .second, ())
    | .second => some (if early then s.takeItem .idle else s.consume os .idle, ())

/-! ## What a step does -/

/-- The steps of the system. -/
inductive Rule (os : Os) (early : Bool) (s : Sys) : Act → Sys → Prop where
  | add : Rule os early s .add { s with items := s.items + 1, posting := s.posting + 1 }
  | post (hp : s.posting ≠ 0) :
    Rule os early s .post { s with posting := s.posting - 1, kernel := s.kernel.post os }
  | wait (hr : s.reader = .idle) (he : s.kernel.events os ≠ 0) :
    Rule os early s .wait { s with kernel := s.kernel.take os, reader := .first }
  | timeout (hr : s.reader = .idle) (he : s.kernel.events os = 0) :
    Rule os early s .timeout { s with kernel := s.kernel.miss os }
  /-- the first read of the eventfd -/
  | read (ho : os = .linux) (hr : s.reader = if early then .first else .second)
    (hc : s.kernel.count ≠ 0) : Rule os early s .work { s with kernel := ⟨0, s.kernel.ready⟩ }
  | consumed (hr : s.reader = if early then .first else .second)
    (hc : os = .linux → s.kernel.count = 0) :
    Rule os early s .work { s with reader := if early then .second else .idle }
  | item (hr : s.reader = if early then .second else .first) (hi : s.items ≠ 0) :
    Rule os early s .work { s with items := s.items - 1 }
  | taken (hr : s.reader = if early then .second else .first) (hi : s.items = 0) :
    Rule os early s .work { s with reader := if early then .idle else .second }

theorem consume_rule {os : Os} {early : Bool} {s : Sys}
    (hr : s.reader = if early then .first else .second) :
    Rule os early s .work (s.consume os (if early then .second else .idle)) := by
  unfold Sys.consume
  cases os with
  | linux =>
    by_cases hc : s.kernel.count = 0
    · rw [show s.kernel.read .linux = none from if_pos hc]
      exact .consumed hr fun _ => hc
    · rw [show s.kernel.read .linux = some ⟨0, s.kernel.ready⟩ from if_neg hc]
      exact .read rfl hr hc
  | bsd => exact .consumed hr fun h => (by cases h)
  | windows => exact .consumed hr fun h => (by cases h)

theorem takeItem_rule {os : Os} {early : Bool} {s : Sys}
    (hr : s.reader = if early then .second else .first) :
    Rule os early s .work (s.takeItem (if early then .idle else .second)) := by
  unfold Sys.takeItem
  by_cases hi : s.items = 0
  · rw [if_pos hi]
    exact .taken hr hi
  · rw [if_neg hi]
    exact .item hr hi

theorem step_rule {os : Os} {early : Bool} {s s' : Sys} {a : Act} {o : Unit}
    (h : step os early s a = some (s', o)) : Rule os early s a s' := by
  cases a with
  | add =>
    cases h
    exact .add
  | post =>
    simp only [step] at h
    split at h
    · cases h
    · rename_i hp
      cases h
      exact .post hp
  | wait =>
    simp only [step] at h
    split at h
    · rename_i hw
      cases h
      exact .wait hw.1 hw.2
    · cases h
  | timeout =>
    simp only [step] at h
    split at h
    · rename_i hw
      cases h
      exact .timeout hw.1 hw.2
    · cases h
  | work =>
    cases hr : s.reader with
    | idle => simp [step, hr] at h
    | first =>
      simp only [step, hr] at h
      cases h
      cases early with
      | true => exact @consume_rule os true s hr
      | false => exact @takeItem_rule os false s hr
    | second =>
      simp only [step, hr] at h
      cases h
      cases early with
      | true => exact @takeItem_rule os true s hr
      | false => exact @consume_rule os false s hr

/-! ## No item is left behind -/

/-- An item is about to be taken: the reader has not looked yet. -/
def Sys.Looking (early : Bool) (s : Sys) : Prop :=
  if early then s.reader ≠ .idle else s.reader = .first

structure Inv (os : Os) (early : Bool) (s : Sys) : Prop where
  coming : s.items ≠ 0 → s.kernel.events os ≠ 0 ∨ s.Looking early ∨ s.posting ≠ 0
  /-- an eventfd that has not been read since the last event is still to be read -/
  edge : os = .linux → s.kernel.count ≠ 0 → s.kernel.ready = true ∨ s.reader = .first
  flag : os = .bsd → s.kernel.count ≤ 1

theorem post_events (k : Kernel) (os : Os) : (k.post os).events os ≠ 0 := by
  cases os <;> simp [Kernel.post, Kernel.events]

theorem miss_events {k : Kernel} {os : Os} (h : k.events os = 0) : (k.miss os).events os = 0 := by
  cases os with
  | linux => simp [Kernel.miss, Kernel.events]
  | bsd => exact h
  | windows => exact h

theorem Inv.init (os : Os) (early : Bool) : Inv os early Sys.init :=
  ⟨fun h => absurd rfl h, fun _ h => absurd rfl h, fun _ => Nat.zero_le 1⟩

theorem inv_step {os : Os} {early : Bool} (hok : os = .linux → early = true) {s s' : Sys} {a : Act}
    (h : Inv os early s) (hr : Rule os early s a s') : Inv os early s' := by
  cases hr with
  | add =>
    exact ⟨fun _ => Or.inr (Or.inr (Nat.succ_ne_zero _)), h.edge, h.flag⟩
  | post hp =>
    refine ⟨fun _ => Or.inl (post_events _ os), ?_, ?_⟩
    · rintro rfl _
      exact Or.inl rfl
    · rintro rfl
      exact Nat.le_refl 1
  | wait hr he =>
    refine ⟨fun _ => Or.inr (Or.inl ?_), fun _ _ => Or.inr rfl, ?_⟩
    · unfold Sys.Looking
      cases early <;> simp
    · rintro rfl
      exact Nat.zero_le 1
  | timeout hr he =>
    refine ⟨fun hi => ?_, ?_, ?_⟩
    · rcases h.coming hi with hev | hl | hp
      · exact absurd he hev
      · exact Or.inr (Or.inl hl)
      · exact Or.inr (Or.inr hp)
    · rintro rfl hc
      -- an eventfd with a counter is ready here, so there was an event
      rcases h.edge rfl hc with hready | hfirst
      · simp only [Kernel.events] at he
        rw [if_pos ⟨hready, hc⟩] at he
        cases he
      · rw [hr] at hfirst
        cases hfirst
    · rintro rfl
      exact h.flag rfl
  | read ho hr hc =>
    subst ho
    obtain rfl := hok rfl
    refine ⟨fun _ => Or.inr (Or.inl ?_), fun _ hc' => absurd rfl hc', fun ho => (by cases ho)⟩
    show s.reader ≠ .idle
    rw [hr]
    simp
  | consumed hr hc =>
    cases early with
    | true =>
      refine ⟨fun _ => Or.inr (Or.inl (by simp [Sys.Looking])), ?_, h.flag⟩
      intro ho hc'
      exact absurd (hc ho) hc'
    | false =>
      refine ⟨fun hi => ?_, fun ho => absurd (hok ho) (by simp), h.flag⟩
      rcases h.coming hi with hev | hl | hp
      · exact Or.inl hev
      · exact absurd ((show s.reader = .second from hr).symm.trans hl) (by simp)
      · exact Or.inr (Or.inr hp)
  | item hr hi =>
    refine ⟨fun _ => Or.inr (Or.inl ?_), h.edge, h.flag⟩
    cases early with
    | true =>
      show s.reader ≠ .idle
      rw [hr]
      simp
    | false => exact hr
  | taken hr hi =>
    refine ⟨fun hi' => absurd hi hi', ?_, h.flag⟩
    intro ho hc
    obtain rfl := hok ho
    rcases h.edge ho hc with hready | hfirst
    · exact Or.inl hready
    · rw [hr] at hfirst
      cases hfirst

/-! ## The work of the reader -/

def Reader.work : Reader → Nat
  | .idle => 0
  | .first => 3
  | .second => 1

/-- What the reader has to do for the events. -/
def Kernel.work (k : Kernel) (os : Os) : Nat :=
  5 * k.events os + if os = .linux ∧ k.count ≠ 0 then 1 else 0

theorem post_work (k : Kernel) (os : Os) : (k.post os).work os ≤ k.work os + 6 := by
  cases os with
  | linux =>
    have h1 : (k.post .linux).work .linux = 6 := by simp [Kernel.work, Kernel.events, Kernel.post]
    omega
  | bsd =>
    have h1 : (k.post .bsd).work .bsd = 5 := by simp [Kernel.work, Kernel.events, Kernel.post]
    omega
  | windows =>
    simp only [Kernel.work, Kernel.events, Kernel.post]
    simp
    omega

theorem take_work {k : Kernel} {os : Os} (h : k.events os ≠ 0) :
    (k.take os).work os + 5 ≤ k.work os := by
  cases os with
  | linux =>
    have hk : k.ready = true ∧ k.count ≠ 0 := by
      by_contra hn
      exact h (if_neg hn)
    simp [Kernel.work, Kernel.events, Kernel.take, hk.1, hk.2]
  | bsd =>
    have hk : k.count ≠ 0 := h
    simp only [Kernel.work, Kernel.events, Kernel.take]
    simp
    omega
  | windows =>
    have hk : k.count ≠ 0 := h
    simp only [Kernel.work, Kernel.events, Kernel.take]
    simp
    omega

theorem miss_work (k : Kernel) (os : Os) : (k.miss os).work os ≤ k.work os := by
  cases os with
  | linux => simp [Kernel.work, Kernel.events, Kernel.miss]
  | bsd => exact Nat.le_refl _
  | windows => exact Nat.le_refl _

theorem read_work {k : Kernel} (h : k.count ≠ 0) :
    (Kernel.mk 0 k.ready).work .linux + 1 ≤ k.work .linux := by
  simp [Kernel.work, Kernel.events, h]

/-- What the reader has to do for all that has been put. -/
def Sys.work (os : Os) (s : Sys) : Nat :=
  s.items + 6 * s.posting + s.kernel.work os + s.reader.work

/-- The steps of the reader. -/
def Act.own : Act → Bool
  | .wait | .work => true
  | _ => false

theorem work_step {os : Os} {early : Bool} {s s' : Sys} {a : Act} (ha : a ≠ .add)
    (hr : Rule os early s a s') : s'.work os + (if a.own then 1 else 0) ≤ s.work os := by
  cases hr with
  | add => exact absurd rfl ha
  | post hp =>
    have := post_work s.kernel os
    show s.items + 6 * (s.posting - 1) + (s.kernel.post os).work os + s.reader.work + 0 ≤ s.work os
    unfold Sys.work
    omega
  | wait hr he =>
    have := take_work he
    show s.items + 6 * s.posting + (s.kernel.take os).work os + 3 + 1 ≤ s.work os
    unfold Sys.work
    omega
  | timeout hr he =>
    have := miss_work s.kernel os
    show s.items + 6 * s.posting + (s.kernel.miss os).work os + s.reader.work + 0 ≤ s.work os
    unfold Sys.work
    omega
  | read ho hr hc =>
    subst ho
    have := read_work hc
    show s.items + 6 * s.posting + (Kernel.mk 0 s.kernel.ready).work .linux + s.reader.work + 1 ≤
      s.work .linux
    unfold Sys.work
    omega
  | consumed hr hc =>
    unfold Sys.work
    rw [hr]
    cases early <;> simp [Reader.work, Act.own]
  | item hr hi =>
    show s.items - 1 + 6 * s.posting + s.kernel.work os + s.reader.work + 1 ≤ s.work os
    unfold Sys.work
    omega
  | taken hr hi =>
    unfold Sys.work
    rw [hr]
    cases early <;> simp [Reader.work, Act.own]

/-- As long as an item is in the list and nobody is about to post, the reader can go on. -/
theorem own_enabled {os : Os} {early : Bool} {s : Sys} (h : Inv os early s) (hi : s.items ≠ 0)
    (hp : s.posting = 0) : ∃ a s', a.own = true ∧ step os early s a = some (s', ()) := by
  by_cases hr : s.reader = .idle
  · rcases h.coming hi with he | hl | hp'
    · exact ⟨.wait, _, rfl, if_pos ⟨hr, he⟩⟩
    · unfold Sys.Looking at hl
      rw [hr] at hl
      cases early <;> simp at hl
    · exact absurd hp hp'
  · cases hs : s.reader with
    | idle => exact absurd hs hr
    | first =>
      refine ⟨.work, if early then s.consume os .second else s.takeItem .second, rfl, ?_⟩
      simp [step, hs]
    | second =>
      refine ⟨.work, if early then s.takeItem .idle else s.consume os .idle, rfl, ?_⟩
      simp [step, hs]

/-! ## Events and posts -/

/-- A post makes at most one event, on Windows exactly one; a wait takes one. -/
theorem events_step {os : Os} {early : Bool} {s s' : Sys} {a : Act} (h : Rule os early s a s') :
    s'.kernel.events os + (if a = .wait then 1 else 0) ≤
      s.kernel.events os + (if a = .post then 1 else 0) ∧
    (os = .windows → s'.kernel.events os + (if a = .wait then 1 else 0) =
      s.kernel.events os + (if a = .post then 1 else 0)) := by
  cases h with
  | add => exact ⟨Nat.le_refl _, fun _ => rfl⟩
  | post hp =>
    cases os with
    | linux =>
      have h1 : (s.kernel.post .linux).events .linux = 1 := by simp [Kernel.events, Kernel.post]
      refine ⟨?_, fun ho => (by cases ho)⟩
      show (s.kernel.post .linux).events .linux + 0 ≤ s.kernel.events .linux + 1
      omega
    | bsd =>
      refine ⟨?_, fun ho => (by cases ho)⟩
      show 1 + 0 ≤ s.kernel.count + 1
      omega
    | windows => exact ⟨Nat.le_refl _, fun _ => rfl⟩
  | wait hr he =>
    cases os with
    | linux =>
      refine ⟨?_, fun ho => (by cases ho)⟩
      have h0 : (s.kernel.take .linux).events .linux = 0 := by simp [Kernel.events, Kernel.take]
      show (s.kernel.take .linux).events .linux + 1 ≤ s.kernel.events .linux + 0
      omega
    | bsd =>
      refine ⟨?_, fun ho => (by cases ho)⟩
      show 0 + 1 ≤ s.kernel.count + 0
      exact Nat.pos_of_ne_zero he
    | windows =>
      have hc : s.kernel.count - 1 + 1 = s.kernel.count + 0 := Nat.succ_pred_eq_of_ne_zero he
      exact ⟨Nat.le_of_eq hc, fun _ => hc⟩
  | timeout hr he =>
    have h0 : (s.kernel.miss os).events os = s.kernel.events os := (miss_events he).trans he.symm
    exact ⟨Nat.le_of_eq (congrArg (· + 0) h0), fun _ => congrArg (· + 0) h0⟩
  | read ho hr hc =>
    subst ho
    refine ⟨?_, fun ho => (by cases ho)⟩
    have h0 : (Kernel.mk 0 s.kernel.ready).events .linux = 0 := by simp [Kernel.events]
    show (Kernel.mk 0 s.kernel.ready).events .linux + 0 ≤ s.kernel.events .linux + 0
    omega
  | consumed hr hc => exact ⟨Nat.le_refl _, fun _ => rfl⟩
  | item hr hi => exact ⟨Nat.le_refl _, fun _ => rfl⟩
  | taken hr hi => exact ⟨Nat.le_refl _, fun _ => rfl⟩

theorem events_run {os : Os} {early : Bool} : ∀ (as : List Act) {s t : Sys} {outs : List Unit},
    exec (step os early) s as = some (t, outs) →
      as.countP (· = .wait) + t.kernel.events os ≤ s.kernel.events os + as.countP (· = .post) ∧
      (os = .windows →
        as.countP (· = .wait) + t.kernel.events os = s.kernel.events os + as.countP (· = .post))
  | [], s, t, outs, h => by
    obtain ⟨rfl, _⟩ := Prod.mk.inj (Option.some.inj h)
    simp
  | a :: as, s, t, outs, h => by
    obtain ⟨u, o, outs', hs, hrest, _⟩ := exec_cons h
    obtain ⟨h1, h2⟩ := events_step (step_rule hs)
    obtain ⟨h3, h4⟩ := events_run as hrest
    rw [List.countP_cons, List.countP_cons]
    simp only [decide_eq_true_eq]
    refine ⟨by omega, fun ho => ?_⟩
    have := h2 ho
    have := h4 ho
    omega

/-- On UNIX there is never more than one. -/
theorem events_le {os : Os} {early : Bool} {s : Sys} (h : Inv os early s) (ho : os ≠ .windows) :
    s.kernel.events os ≤ 1 := by
  cases os with
  | linux =>
    simp only [Kernel.events]
    split <;> omega
  | bsd => exact h.flag rfl
  | windows => exact absurd rfl ho

/-- An item is put while the reader of an eventfd is between the items and the event. -/
def lateRun : List Act :=
  [.add, .post, .wait, .work, .work, .add, .post, .work, .work]

/-- **No item is left behind.**  In every interleaving of producers and a reader: as long as an item
    is in the list and no producer is between its item and its post, the reader has a step to make,
    and without new items it makes no more steps than there are items, posts to come and events for.
    There are no more events than posts; on Windows as many, on UNIX never two at a time.  On Windows
    and BSD it does not matter whether the reader consumes the event before it takes the items; on
    Linux it must, since otherwise an item that is put in between may stay in the list with no event
    to come. -/
theorem ffkq_post_wakeup (os : Os) (early : Bool) (hok : os = .linux → early = true) (as : List Act)
    (s : Sys) (outs : List Unit) (h : exec (step os early) Sys.init as = some (s, outs)) :
    (s.items ≠ 0 → s.posting = 0 → ∃ a s', a.own = true ∧ step os early s a = some (s', ())) ∧
    (∀ bs t outs', exec (step os early) s bs = some (t, outs') → (∀ b ∈ bs, b ≠ .add) →
      bs.countP Act.own ≤ s.items + 6 * s.posting + 5 * s.kernel.events os + 4) ∧
    as.countP (· = .wait) + s.kernel.events os ≤ as.countP (· = .post) ∧
    (os = .windows → as.countP (· = .wait) + s.kernel.events os = as.countP (· = .post)) ∧
    (os ≠ .windows → s.kernel.events os ≤ 1) ∧
    ∃ t outs', exec (step .linux false) Sys.init lateRun = some (t, outs') ∧ t.items = 1 ∧
      t.posting = 0 ∧ ∀ a, a.own = true → step .linux false t a = none := by
  have hI : Inv os early s :=
    exec_keeps (fun _ _ _ _ hi hst => inv_step hok hi (step_rule hst)) (Inv.init os early) h
  obtain ⟨hle, heq⟩ := events_run as h
  have hinit : Sys.init.kernel.events os = 0 := by
    cases os <;> rfl
  rw [hinit, Nat.zero_add] at hle heq
  refine ⟨own_enabled hI, ?_, hle, heq, events_le hI, ⟨_, _, rfl, rfl, rfl, ?_⟩⟩
  · intro bs t outs' hbs hno
    have hcount := @exec_countP _ _ _ (step os early) (· ≠ .add) (fun _ => True) (Sys.work os) Act.own
      (fun _ _ _ _ _ ha hst => ⟨trivial, work_step ha (step_rule hst)⟩) bs s t outs' trivial hno hbs
    have hk : s.kernel.work os ≤ 5 * s.kernel.events os + 1 := by
      unfold Kernel.work
      split <;> omega
    have hr : s.reader.work ≤ 3 := by
      cases s.reader <;> simp [Reader.work]
    have := hcount.2
    unfold Sys.work at this
    omega
  · intro a ha
    cases a with
    | wait => rfl
    | work => rfl
    | add => cases ha
    | post => cases ha
    | timeout => cases ha

/-- Two items, and the reader takes both after one event. -/
def mergedRun : List Act := [.add, .post, .add, .post, .wait]

theorem ffkq_post_wakeup_merged :
    ∃ s outs, exec (step .linux true) Sys.init mergedRun = some (s, outs) ∧
      ∃ a s', a.own = true ∧ step .linux true s a = some (s', ()) :=
  ⟨_, _, rfl, (ffkq_post_wakeup .linux true (fun _ => rfl) mergedRun _ _ rfl).1 (by decide) rfl⟩

end FFSys.Kqueue
