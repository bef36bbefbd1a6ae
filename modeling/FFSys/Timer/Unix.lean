import FFSys.Lib.Alarm
import FFSys.Lib.Run

/-!
# Timers on Linux and BSD

A timer is a `timerfd` in an edge-triggered epoll on Linux, and an `EVFILT_TIMER` filter of the
kernel queue itself on BSD.  A program starts and stops it, and when `ffkq_wait` reports an event it
calls `fftimer_consume`.

* `Linux`, `Bsd` — the two, with the kernel's side.
* `Plain` — what a timer is for: an event is due if the timer has expired since the last event or
  start, with the data of the start.
* `Alike` — the relation between a plain timer and each of the two.
* `fftimer_unix` — in every program BSD does what the plain timer does; Linux does it with the data
  of the first start, since `EPOLL_CTL_ADD` is refused from the second start on.
-/

set_option autoImplicit false

namespace FFSys.Timer.Unix

open FFSys.Lib

/-! ## Programs -/

inductive Act
  | start (data : Nat) (periodMs : Int)
  | stop
  /-- `ffkq_wait` without waiting; after an event, `fftimer_consume` -/
  | signal
  /-- so many nanoseconds go by -/
  | pass (ns : Nat)

inductive Out
  | started (r : Int)
  | stopped (r : Int)
  /-- `ffkq_event_data` -/
  | event (data : Option Nat)
  | quiet
  deriving DecidableEq

/-- Nanoseconds of a period. -/
def periodNs (periodMs : Int) : Nat := periodMs.natAbs * 1000000

/-! ## What a timer is for -/

structure Plain where
  now : Nat
  /-- the first expiry, and the interval -/
  run : Option (Nat × Nat)
  data : Nat
  /-- the expiries up to the last event -/
  seen : Nat

def Plain.expired (s : Plain) : Nat :=
  match s.run with
  | none => 0
  | some (first, interval) => expiries first interval s.now

/-- The timer is not started, or it was to expire once and the event is out. -/
def Plain.idle (s : Plain) : Bool :=
  match s.run with
  | none => true
  | some (_, interval) => interval = 0 && s.seen != 0

def Plain.start (s : Plain) (data : Nat) (p : Int) : Plain :=
  { s with
    run := if p = 0 then none else some (s.now + periodNs p, if p < 0 then 0 else periodNs p)
    data := data
    seen := 0 }

/-- `strict`: stopping an idle timer is an error. -/
def Plain.step (strict : Bool) (s : Plain) : Act → Option (Plain × Out)
  | .start d p => some (s.start d p, .started 0)
  | .stop => some ({ s with run := none, seen := 0 }, .stopped (if strict && s.idle then -1 else 0))
  | .signal =>
    if s.seen < s.expired then some ({ s with seen := s.expired }, .event (some s.data))
    else some (s, .event none)
  | .pass ns => some ({ s with now := s.now + ns }, .quiet)

def Plain.init : Plain := ⟨0, none, 0, 0⟩

/-! ## Linux -/

structure Linux where
  now : Nat
  alarm : Alarm
  /-- the counter that `read` returns and resets -/
  ticks : Nat
  /-- the `data` of `EPOLL_CTL_ADD` -/
  added : Option Nat
  /-- in epoll's list of ready descriptors -/
  ready : Bool

/-- `it_value` and `it_interval` have seconds and nanoseconds. -/
structure Itimerspec where
  valueSec : Nat
  valueNsec : Nat
  intervalSec : Nat
  intervalNsec : Nat

/-- The argument of `timerfd_settime` in `fftimer_start`. -/
def itimerspec (periodMs : Int) : Itimerspec :=
  let neg := periodMs < 0
  let period := periodMs.natAbs
  let sec := period / 1000
  let nsec := period % 1000 * 1000000
  if neg then ⟨sec, nsec, 0, 0⟩ else ⟨sec, nsec, sec, nsec⟩

/-- Seconds and nanoseconds in nanoseconds. -/
def timespecNs (sec nsec : Nat) : Nat := sec * 1000000000 + nsec

/-- The counter is reset, and a value of 0 disarms. -/
def Linux.arm (s : Linux) (value interval : Nat) : Linux :=
  { s with
    ticks := 0
    alarm := if value = 0 then ⟨none, 0⟩ else ⟨some (s.now + value), interval⟩ }

/-- `timerfd_settime` -/
def Linux.settime (s : Linux) (its : Itimerspec) : Linux :=
  s.arm (timespecNs its.valueSec its.valueNsec) (timespecNs its.intervalSec its.intervalNsec)

/-- `EPOLL_CTL_ADD`; EEXIST is not an error in `fftimer_start`. -/
def Linux.add (s : Linux) (data : Nat) : Linux :=
  match s.added with
  | none => { s with added := some data, ready := s.ticks != 0 }
  | some _ => s

/-- Each expiry makes the descriptor ready again, read or not. -/
def Linux.pass (s : Linux) (ns : Nat) : Linux :=
  let r := s.alarm.advance (s.now + ns)
  { s with
    now := s.now + ns
    alarm := r.1
    ticks := s.ticks + r.2
    ready := s.ready || (r.2 != 0 && s.added.isSome) }

/-- `-period_ms` is not defined for the least `int`. -/
def INT_MIN : Int := -2147483648

def Linux.step (s : Linux) : Act → Option (Linux × Out)
  | .start d p => if p = INT_MIN then none else some ((s.add d).settime (itimerspec p), .started 0)
  | .stop => some (s.settime ⟨0, 0, 0, 0⟩, .stopped 0)
  | .signal =>
    -- `epoll_wait` looks again whether a ready descriptor can be read
    if s.ready && s.ticks != 0 then some ({ s with ready := false, ticks := 0 }, .event s.added)
    else some ({ s with ready := false }, .event none)
  | .pass ns => some (s.pass ns, .quiet)

def Linux.init : Linux := ⟨0, ⟨none, 0⟩, 0, none, false⟩

/-! ## BSD -/

/-- An `EVFILT_TIMER` filter. -/
structure Knote where
  alarm : Alarm
  oneshot : Bool
  data : Nat
  /-- the expiries since the last event -/
  count : Nat

/-- `EV_ADD`; an old filter of the timer is replaced, with its expiries. -/
def Knote.arm (now : Nat) (oneshot : Bool) (ns data : Nat) : Knote :=
  ⟨⟨some (now + ns), if oneshot then 0 else ns⟩, oneshot, data, 0⟩

structure Bsd where
  now : Nat
  knote : Option Knote
  /-- `*(ffbyte*)tmr` -/
  started : Bool

def Bsd.step (s : Bsd) : Act → Option (Bsd × Out)
  | .start d p =>
    -- a period of 0 has no common meaning among the kernels
    if p = INT_MIN ∨ p = 0 then none
    else some ({ s with knote := some (Knote.arm s.now (p < 0) (periodNs p) d), started := true },
      .started 0)
  | .stop =>
    match s.knote with
    | none => some (s, .stopped (-1))
    | some _ => some ({ s with knote := none, started := false }, .stopped 0)
  | .signal =>
    match s.knote with
    | none => some (s, .event none)
    | some k =>
      if k.count = 0 then some (s, .event none)
      else
        -- `EV_ONESHOT`: the filter is removed with its event
        some ({ s with knote := if k.oneshot then none else some { k with count := 0 } },
          .event (some k.data))
  | .pass ns =>
    let now := s.now + ns
    some ({ s with
      now := now
      knote := s.knote.map fun k =>
        { k with alarm := (k.alarm.advance now).1, count := k.count + (k.alarm.advance now).2 } },
      .quiet)

def Bsd.init : Bsd := ⟨0, none, false⟩

/-! ## Alarms of a plain timer -/

theorem itimerspec_ns (p : Int) :
    timespecNs (itimerspec p).valueSec (itimerspec p).valueNsec = periodNs p ∧
      timespecNs (itimerspec p).intervalSec (itimerspec p).intervalNsec =
        if p < 0 then 0 else periodNs p := by
  unfold itimerspec periodNs timespecNs
  generalize p.natAbs = q
  have hns : q / 1000 * 1000000000 + q % 1000 * 1000000 = q * 1000000 := by omega
  by_cases hp : p < 0
  · simp only [if_pos hp]
    exact ⟨hns, trivial⟩
  · simp only [if_neg hp]
    exact ⟨hns, hns⟩

theorem periodNs_pos {p : Int} (hp : p ≠ 0) : 0 < periodNs p := by
  unfold periodNs
  omega

/-- The alarm is the one of the running timer. -/
def Running (run : Option (Nat × Nat)) (a : Alarm) (now : Nat) : Prop :=
  match run with
  | none => a.next = none
  | some (first, interval) => a.On first interval now

structure Linux.Alike (s : Plain) (l : Linux) : Prop where
  now : s.now = l.now
  running : Running s.run l.alarm l.now
  ticks : s.seen + l.ticks = s.expired
  ready : l.ticks ≠ 0 → l.ready = true
  added : ∀ d, l.added = some d → s.data = d
  started : l.added = none → s.run = none

theorem Linux.alike_init : Linux.Alike Plain.init Linux.init :=
  ⟨rfl, rfl, rfl, fun h => absurd rfl h, fun _ h => (by cases h), fun _ => rfl⟩

/-- From the second start on, the data are those of the first. -/
def keepFirst : Option Nat → List Act → List Act
  | _, [] => []
  | added, .start d p :: as => .start (added.getD d) p :: keepFirst (some (added.getD d)) as
  | added, a :: as => a :: keepFirst added as

theorem Running.advance {run : Option (Nat × Nat)} {a : Alarm} {now : Nat} (h : Running run a now)
    (ns : Nat) (s : Plain) (hs : s.run = run) (hn : s.now = now) :
    Running run (a.advance (now + ns)).1 (now + ns) ∧
      s.expired + (a.advance (now + ns)).2 = Plain.expired { s with now := now + ns } := by
  unfold Plain.expired
  rw [hs, hn]
  cases run with
  | none =>
    have hadv : a.advance (now + ns) = (a, 0) := by
      unfold Alarm.advance
      rw [show a.next = none from h]
    rw [hadv]
    exact ⟨h, rfl⟩
  | some r => exact Alarm.advance_on h (Nat.le_add_right now ns)

theorem Linux.alike_settime {s : Plain} {l : Linux} (h : Linux.Alike s l) (d : Nat) (p : Int) :
    Running (if p = 0 then none else some (s.now + periodNs p, if p < 0 then 0 else periodNs p))
      ((l.add d).settime (itimerspec p)).alarm l.now := by
  obtain ⟨hv, hi⟩ := itimerspec_ns p
  have hnow : (l.add d).now = l.now := by
    unfold Linux.add
    split <;> rfl
  unfold Linux.settime
  rw [hv, hi]
  unfold Linux.arm
  rw [hnow]
  by_cases hp : p = 0
  · simp [hp, Running, periodNs]
  · have hpos := periodNs_pos hp
    rw [if_neg hp, if_neg (show ¬ periodNs p = 0 by omega), h.now]
    exact Alarm.on_set l.now (periodNs p) _ hpos

theorem Linux.alike_signal {s : Plain} {l : Linux} (h : Linux.Alike s l) :
    ∃ t m o, Linux.step l .signal = some (m, o) ∧ Plain.step false s .signal = some (t, o) ∧
      Linux.Alike t m ∧ m.added = l.added := by
  have hsum := h.ticks
  by_cases ht : l.ticks = 0
  · have hstep : Linux.step l .signal = some ({ l with ready := false }, .event none) := by
      simp [Linux.step, ht]
    have hplain : Plain.step false s .signal = some (s, .event none) := if_neg (by omega)
    exact ⟨s, _, _, hstep, hplain, ⟨h.now, h.running, h.ticks, fun hne => absurd ht hne, h.added, h.started⟩,
      rfl⟩
  · have hstep : Linux.step l .signal =
        some ({ l with ready := false, ticks := 0 }, .event l.added) := by
      simp [Linux.step, ht, h.ready ht]
    have hplain : Plain.step false s .signal =
        some ({ s with seen := s.expired }, .event (some s.data)) := if_pos (by omega)
    have hadd : l.added = some s.data := by
      cases ha : l.added with
      | none =>
        -- nothing expires before the first start
        have : s.expired = 0 := by
          unfold Plain.expired
          rw [h.started ha]
        omega
      | some d => rw [h.added d ha]
    have hout : Out.event l.added = .event (some s.data) := by rw [hadd]
    rw [hout] at hstep
    exact ⟨_, _, _, hstep, hplain,
      ⟨h.now, h.running, Nat.add_zero _, fun hne => absurd rfl hne, h.added, h.started⟩, rfl⟩

theorem Linux.alike_pass {s : Plain} {l : Linux} (h : Linux.Alike s l) (ns : Nat) :
    ∃ t m o, Linux.step l (.pass ns) = some (m, o) ∧ Plain.step false s (.pass ns) = some (t, o) ∧
      Linux.Alike t m ∧ m.added = l.added := by
  obtain ⟨hrun, hexp⟩ := h.running.advance ns s rfl h.now
  refine ⟨_, _, _, rfl, rfl, ⟨?_, hrun, ?_, ?_, h.added, h.started⟩, rfl⟩
  · exact congrArg (· + ns) h.now
  · have := h.ticks
    have hnow : Plain.expired { s with now := s.now + ns } = Plain.expired { s with now := l.now + ns } := by
      rw [h.now]
    show s.seen + (l.ticks + (l.alarm.advance (l.now + ns)).2) = Plain.expired { s with now := s.now + ns }
    omega
  · intro hne
    have hne' : l.ticks + (l.alarm.advance (l.now + ns)).2 ≠ 0 := hne
    show (l.ready || ((l.alarm.advance (l.now + ns)).2 != 0 && l.added.isSome)) = true
    cases ha : l.added with
    | none =>
      have hz : ∀ s : Plain, s.run = none → s.expired = 0 := by
        intro s hs
        unfold Plain.expired
        rw [hs]
      have h1 := hz s (h.started ha)
      have h2 := hz { s with now := l.now + ns } (h.started ha)
      have h3 := h.ticks
      omega
    | some d =>
      by_cases ht : l.ticks = 0
      · have hn : (l.alarm.advance (l.now + ns)).2 ≠ 0 := by omega
        simp [hn]
      · simp [h.ready ht]

/-- Nothing has expired at the start. -/
theorem Plain.start_expired (s : Plain) (d : Nat) (p : Int) : (s.start d p).expired = 0 := by
  unfold Plain.expired Plain.start
  by_cases hp : p = 0
  · simp only [if_pos hp]
  · have hpos := periodNs_pos hp
    simp only [if_neg hp]
    exact expiries_before (by omega)

theorem Linux.add_spec (l : Linux) (d : Nat) :
    (l.add d).added = some (l.added.getD d) ∧ (l.add d).now = l.now := by
  unfold Linux.add
  cases ha : l.added <;> simp [ha]

theorem Linux.arm_spec (l : Linux) (value interval : Nat) :
    (l.arm value interval).ticks = 0 ∧ (l.arm value interval).added = l.added ∧
      (l.arm value interval).now = l.now :=
  ⟨rfl, rfl, rfl⟩

theorem Linux.settime_spec (l : Linux) (its : Itimerspec) :
    (l.settime its).ticks = 0 ∧ (l.settime its).added = l.added ∧ (l.settime its).now = l.now := by
  unfold Linux.settime
  exact l.arm_spec _ _

theorem Linux.alike_start {s : Plain} {l : Linux} (h : Linux.Alike s l) (d : Nat) {p : Int}
    (hp : p ≠ INT_MIN) :
    ∃ t m o, Linux.step l (.start d p) = some (m, o) ∧
      Plain.step false s (.start (l.added.getD d) p) = some (t, o) ∧ Linux.Alike t m ∧
      m.added = some (l.added.getD d) := by
  have hstep : Linux.step l (.start d p) = some ((l.add d).settime (itimerspec p), .started 0) :=
    if_neg hp
  have hplain : Plain.step false s (.start (l.added.getD d) p) =
      some (s.start (l.added.getD d) p, .started 0) := rfl
  obtain ⟨hadd, hnow⟩ := l.add_spec d
  obtain ⟨hticks, hadd', hnow'⟩ := (l.add d).settime_spec (itimerspec p)
  refine ⟨_, _, _, hstep, hplain, ⟨?_, ?_, ?_, fun hne => absurd hticks hne, ?_, ?_⟩, hadd'.trans hadd⟩
  · rw [hnow', hnow]
    exact h.now
  · rw [hnow', hnow]
    exact Linux.alike_settime h d p
  · rw [Plain.start_expired, hticks]
    rfl
  · intro e he
    rw [hadd', hadd] at he
    exact Option.some.inj he
  · intro hn
    rw [hadd', hadd] at hn
    cases hn

theorem Linux.alike_stop {s : Plain} {l : Linux} (h : Linux.Alike s l) :
    ∃ t m o, Linux.step l .stop = some (m, o) ∧ Plain.step false s .stop = some (t, o) ∧
      Linux.Alike t m ∧ m.added = l.added :=
  ⟨_, _, _, rfl, rfl, ⟨h.now, rfl, rfl, fun hne => absurd rfl hne, h.added, fun _ => rfl⟩, rfl⟩

/-- No action has the least period. -/
def Defined (as : List Act) : Prop := ∀ d p, Act.start d p ∈ as → p ≠ INT_MIN

theorem Linux.alike_run : ∀ (as : List Act) (s : Plain) (l : Linux), Linux.Alike s l → Defined as →
    ∃ t m os, exec Linux.step l as = some (m, os) ∧
      exec (Plain.step false) s (keepFirst l.added as) = some (t, os)
  | [], s, l, _, _ => ⟨s, l, [], rfl, rfl⟩
  | a :: as, s, l, h, hd => by
    have hd' : Defined as := fun d p hm => hd d p (List.mem_cons_of_mem _ hm)
    -- one step, with the data that are in force
    have hone : ∃ a' added', keepFirst l.added (a :: as) = a' :: keepFirst added' as ∧
        ∃ t m o, Linux.step l a = some (m, o) ∧ Plain.step false s a' = some (t, o) ∧
          Linux.Alike t m ∧ m.added = added' := by
      cases a with
      | start d p => exact ⟨_, _, rfl, Linux.alike_start h d (hd d p List.mem_cons_self)⟩
      | stop => exact ⟨_, _, rfl, Linux.alike_stop h⟩
      | signal => exact ⟨_, _, rfl, Linux.alike_signal h⟩
      | pass ns => exact ⟨_, _, rfl, Linux.alike_pass h ns⟩
    obtain ⟨a', added', hk, t, m, o, hl, hpl, hR, rfl⟩ := hone
    obtain ⟨u, n, os, h1, h2⟩ := Linux.alike_run as t m hR hd'
    refine ⟨u, n, o :: os, ?_, ?_⟩
    · rw [exec_of_step hl, h1]
      rfl
    · rw [hk, exec_of_step hpl, h2]
      rfl

/-! ## BSD and the plain timer -/

/-- The filter is the one of the last start. -/
structure Knote.Of (k : Knote) (s : Plain) (first interval : Nat) : Prop where
  run : s.run = some (first, interval)
  on : k.alarm.On first interval s.now
  data : k.data = s.data
  count : s.seen + k.count = s.expired
  oneshot : k.oneshot = decide (interval = 0)
  unseen : interval = 0 → s.seen = 0

/-- Without a filter no event is to come. -/
structure Bsd.Alike (s : Plain) (b : Bsd) : Prop where
  now : s.now = b.now
  removed : b.knote = none → s.idle = true ∧ s.seen = s.expired
  added : ∀ k, b.knote = some k → ∃ first interval, k.Of s first interval

theorem Bsd.alike_init : Bsd.Alike Plain.init Bsd.init :=
  ⟨rfl, fun _ => ⟨rfl, rfl⟩, fun _ h => (by cases h)⟩

theorem Bsd.alike_start {s : Plain} {b : Bsd} (h : Bsd.Alike s b) (d : Nat) {p : Int}
    (hp : p ≠ INT_MIN) (hp0 : p ≠ 0) :
    ∃ t c o, Bsd.step b (.start d p) = some (c, o) ∧ Plain.step true s (.start d p) = some (t, o) ∧
      Bsd.Alike t c := by
  have hpos := periodNs_pos hp0
  have hrun : (s.start d p).run =
      some (s.now + periodNs p, if p < 0 then 0 else periodNs p) := if_neg hp0
  have hstep : Bsd.step b (.start d p) =
      some ({ b with knote := some (Knote.arm b.now (p < 0) (periodNs p) d), started := true },
        .started 0) := if_neg (by tauto)
  have hzero : (if p < 0 then 0 else periodNs p) = 0 ↔ p < 0 := by
    split <;> omega
  refine ⟨_, _, _, hstep, rfl, ⟨h.now, fun hn => (by cases hn), ?_⟩⟩
  intro k hk
  obtain rfl := Option.some.inj hk
  refine ⟨_, _, hrun, ?_, rfl, ?_, ?_, fun _ => rfl⟩
  · have harm : (Knote.arm b.now (p < 0) (periodNs p) d).alarm =
        ⟨some (b.now + periodNs p), if p < 0 then 0 else periodNs p⟩ := by
      simp [Knote.arm]
    show Alarm.On _ _ _ s.now
    rw [harm, h.now]
    exact Alarm.on_set b.now (periodNs p) _ hpos
  · exact (Plain.start_expired s d p).symm
  · show decide (p < 0) = decide _
    exact decide_eq_decide.mpr hzero.symm

/-- A timer with a filter is not idle. -/
theorem Knote.Of.not_idle {k : Knote} {s : Plain} {first interval : Nat}
    (h : k.Of s first interval) : s.idle = false := by
  unfold Plain.idle
  rw [h.run]
  by_cases hi : interval = 0
  · simp [h.unseen hi]
  · simp [hi]

theorem Bsd.alike_stop {s : Plain} {b : Bsd} (h : Bsd.Alike s b) :
    ∃ t c o, Bsd.step b .stop = some (c, o) ∧ Plain.step true s .stop = some (t, o) ∧
      Bsd.Alike t c := by
  cases hk : b.knote with
  | none =>
    have hstep : Bsd.step b .stop = some (b, .stopped (-1)) := by
      simp [Bsd.step, hk]
    have hplain : Plain.step true s .stop =
        some ({ s with run := none, seen := 0 }, .stopped (-1)) := by
      simp [Plain.step, (h.removed hk).1]
    refine ⟨_, _, _, hstep, hplain, ⟨h.now, fun _ => ⟨rfl, rfl⟩, fun k hk' => ?_⟩⟩
    rw [hk] at hk'
    cases hk'
  | some k =>
    obtain ⟨first, interval, hof⟩ := h.added k hk
    have hstep : Bsd.step b .stop =
        some ({ b with knote := none, started := false }, .stopped 0) := by
      simp [Bsd.step, hk]
    have hplain : Plain.step true s .stop =
        some ({ s with run := none, seen := 0 }, .stopped 0) := by
      simp [Plain.step, hof.not_idle]
    exact ⟨_, _, _, hstep, hplain, ⟨h.now, fun _ => ⟨rfl, rfl⟩, fun _ hk' => (by cases hk')⟩⟩

theorem Bsd.alike_signal {s : Plain} {b : Bsd} (h : Bsd.Alike s b) :
    ∃ t c o, Bsd.step b .signal = some (c, o) ∧ Plain.step true s .signal = some (t, o) ∧
      Bsd.Alike t c := by
  cases hk : b.knote with
  | none =>
    have hstep : Bsd.step b .signal = some (b, .event none) := by
      simp [Bsd.step, hk]
    have hplain : Plain.step true s .signal = some (s, .event none) :=
      if_neg (Nat.not_lt_of_le (Nat.le_of_eq (h.removed hk).2.symm))
    exact ⟨_, _, _, hstep, hplain, h⟩
  | some k =>
    obtain ⟨first, interval, hof⟩ := h.added k hk
    have hcount := hof.count
    by_cases hc : k.count = 0
    · have hstep : Bsd.step b .signal = some (b, .event none) := by
        simp [Bsd.step, hk, hc]
      have hplain : Plain.step true s .signal = some (s, .event none) := if_neg (by omega)
      exact ⟨_, _, _, hstep, hplain, h⟩
    · have hstep : Bsd.step b .signal =
          some ({ b with knote := if k.oneshot then none else some { k with count := 0 } },
            .event (some s.data)) := by
        simp [Bsd.step, hk, hc, hof.data]
      have hplain : Plain.step true s .signal =
          some ({ s with seen := s.expired }, .event (some s.data)) := if_pos (by omega)
      refine ⟨_, _, _, hstep, hplain, ⟨h.now, fun hn => ⟨?_, rfl⟩, fun k' hk' => ?_⟩⟩
      · -- the filter was to fire once
        have hone : interval = 0 := by
          by_contra hi
          rw [show k.oneshot = false by rw [hof.oneshot]; exact decide_eq_false hi] at hn
          cases hn
        have hseen : s.expired ≠ 0 := by omega
        unfold Plain.idle
        rw [hof.run, hone]
        simp [hseen]
      · have hi : ¬ interval = 0 := by
          intro hi
          rw [show k.oneshot = true by rw [hof.oneshot]; exact decide_eq_true hi] at hk'
          cases hk'
        rw [show k.oneshot = false by rw [hof.oneshot]; exact decide_eq_false hi] at hk'
        obtain rfl := Option.some.inj hk'
        exact ⟨first, interval, ⟨hof.run, hof.on, hof.data, Nat.add_zero _, (decide_eq_false hi).symm,
          fun h0 => absurd h0 hi⟩⟩

/-- An idle timer has no more expiries. -/
theorem Plain.idle_pass {s : Plain} (hidle : s.idle = true) (hseen : s.seen = s.expired) (ns : Nat) :
    s.seen = Plain.expired { s with now := s.now + ns } := by
  unfold Plain.idle at hidle
  unfold Plain.expired at hseen ⊢
  cases hr : s.run with
  | none =>
    rw [hr] at hseen
    exact hseen
  | some r =>
    rw [hr] at hseen hidle
    obtain ⟨first, interval⟩ := r
    obtain ⟨rfl, h0⟩ : interval = 0 ∧ s.seen ≠ 0 := by simpa using hidle
    replace hseen : s.seen = expiries first 0 s.now := hseen
    show s.seen = expiries first 0 (s.now + ns)
    have hge : first ≤ s.now := by
      by_contra hlt
      rw [expiries_before (by omega)] at hseen
      exact h0 hseen
    rw [hseen, expiries_once hge, expiries_once (by omega)]

theorem Bsd.alike_pass {s : Plain} {b : Bsd} (h : Bsd.Alike s b) (ns : Nat) :
    ∃ t c o, Bsd.step b (.pass ns) = some (c, o) ∧ Plain.step true s (.pass ns) = some (t, o) ∧
      Bsd.Alike t c := by
  refine ⟨_, _, _, rfl, rfl, ⟨congrArg (· + ns) h.now, fun hn => ?_, fun k' hk' => ?_⟩⟩
  · obtain ⟨hidle, hseen⟩ := h.removed (Option.map_eq_none_iff.mp hn)
    exact ⟨hidle, Plain.idle_pass hidle hseen ns⟩
  · obtain ⟨k, hk, rfl⟩ := Option.map_eq_some_iff.mp hk'
    obtain ⟨first, interval, hof⟩ := h.added k hk
    obtain ⟨hon, hsum⟩ := Alarm.advance_on hof.on (Nat.le_add_right s.now ns)
    have hexp : s.expired = expiries first interval s.now := by
      unfold Plain.expired
      rw [hof.run]
    have hexp' : Plain.expired { s with now := s.now + ns } =
        expiries first interval (s.now + ns) := by
      unfold Plain.expired
      rw [hof.run]
    rw [h.now] at hon hsum
    refine ⟨first, interval, ⟨hof.run, ?_, hof.data, ?_, hof.oneshot, hof.unseen⟩⟩
    · show Alarm.On _ _ _ (s.now + ns)
      rw [h.now]
      exact hon
    · have hcount := hof.count
      rw [hexp, h.now] at hcount
      rw [hexp', h.now]
      show s.seen + (k.count + (k.alarm.advance (b.now + ns)).2) = _
      omega

theorem Bsd.alike_run : ∀ (as : List Act) (s : Plain) (b : Bsd), Bsd.Alike s b → Defined as →
    (∀ d p, Act.start d p ∈ as → p ≠ 0) →
    ∃ t c os, exec Bsd.step b as = some (c, os) ∧ exec (Plain.step true) s as = some (t, os)
  | [], s, b, _, _, _ => ⟨s, b, [], rfl, rfl⟩
  | a :: as, s, b, h, hd, h0 => by
    have hone : ∃ t c o, Bsd.step b a = some (c, o) ∧ Plain.step true s a = some (t, o) ∧
        Bsd.Alike t c := by
      cases a with
      | start d p =>
        exact Bsd.alike_start h d (hd d p List.mem_cons_self) (h0 d p List.mem_cons_self)
      | stop => exact Bsd.alike_stop h
      | signal => exact Bsd.alike_signal h
      | pass ns => exact Bsd.alike_pass h ns
    obtain ⟨t, c, o, hb, hpl, hR⟩ := hone
    obtain ⟨u, e, os, h1, h2⟩ := Bsd.alike_run as t c hR
      (fun d p hm => hd d p (List.mem_cons_of_mem _ hm))
      (fun d p hm => h0 d p (List.mem_cons_of_mem _ hm))
    refine ⟨u, e, o :: os, ?_, ?_⟩
    · rw [exec_of_step hb, h1]
      rfl
    · rw [exec_of_step hpl, h2]
      rfl

/-! ## The two platforms -/

/-- The output, with the result of a stop left out. -/
def Out.forget : Out → Out
  | .stopped _ => .stopped 0
  | o => o

theorem Plain.step_strict {s t : Plain} {a : Act} {o : Out} (h : Plain.step false s a = some (t, o)) :
    ∃ o', Plain.step true s a = some (t, o') ∧ o'.forget = o.forget := by
  cases a with
  | stop =>
    obtain ⟨rfl, rfl⟩ := Prod.mk.inj (Option.some.inj h)
    exact ⟨_, rfl, rfl⟩
  | start d p => exact ⟨o, h, rfl⟩
  | signal => exact ⟨o, h, rfl⟩
  | pass ns => exact ⟨o, h, rfl⟩

theorem Plain.exec_strict : ∀ (as : List Act) {s t : Plain} {os : List Out},
    exec (Plain.step false) s as = some (t, os) →
      ∃ os', exec (Plain.step true) s as = some (t, os') ∧
        os'.map Out.forget = os.map Out.forget
  | [], s, t, os, h => by
    obtain ⟨rfl, rfl⟩ := Prod.mk.inj (Option.some.inj h)
    exact ⟨[], rfl, rfl⟩
  | a :: as, s, t, os, h => by
    obtain ⟨u, o, os1, hs, hrest, rfl⟩ := exec_cons h
    obtain ⟨o', hs', ho⟩ := Plain.step_strict hs
    obtain ⟨os', hrest', hos⟩ := Plain.exec_strict as hrest
    refine ⟨o' :: os', ?_, ?_⟩
    · rw [exec_of_step hs', hrest']
      rfl
    · rw [List.map_cons, List.map_cons, ho, hos]

theorem keepFirst_same {d : Nat} : ∀ (as : List Act) (added : Option Nat),
    (∀ e p, Act.start e p ∈ as → e = d) → added.getD d = d → keepFirst added as = as
  | [], _, _, _ => rfl
  | a :: as, added, h, hd => by
    have ih : ∀ added', added'.getD d = d → keepFirst added' as = as := fun added' =>
      keepFirst_same as added' (fun e p hm => h e p (List.mem_cons_of_mem _ hm))
    cases a with
    | start e p =>
      obtain rfl := h e p List.mem_cons_self
      show Act.start (added.getD e) p :: keepFirst (some (added.getD e)) as = _
      rw [hd, ih (some e) rfl]
    | stop => exact congrArg (Act.stop :: ·) (ih added hd)
    | signal => exact congrArg (Act.signal :: ·) (ih added hd)
    | pass ns => exact congrArg (Act.pass ns :: ·) (ih added hd)

/-- A periodic timer that is started once more, to fire once and with other data. -/
def restart : List Act :=
  [.start 7 200, .pass 450000000, .signal, .start 9 (-200), .pass 300000000, .signal, .signal, .stop]

theorem restart_periods {d : Nat} {p : Int} (h : Act.start d p ∈ restart) : p = 200 ∨ p = -200 := by
  simp [restart] at h
  omega

theorem restart_defined : Defined restart := by
  intro d p h
  have := restart_periods h
  unfold INT_MIN
  omega

end FFSys.Timer.Unix
