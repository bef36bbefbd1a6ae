import FFSys.Timer.Thread

/-!
# Runs of the timer thread

* `work`, `Act.own` — what a call still needs, and the steps that do it; `own_steps` bounds their
  number, `own_enabled` says that one of them is possible.
* `fftimer_cmd_returns` — no call waits for ever: within a bound that only expiries of the timer
  can raise, the call returns.
* `Posts` — what may be posted: the arguments of the start that armed the timer or of a start under
  way, and nothing after a stop.  `fftimer_posts` — the posts of all runs.
-/

set_option autoImplicit false

namespace FFSys.Timer.Thread

open FFSys.Lib

variable {s s' : Sys} {a : Act} {ev : Ev}

/-! ## Progress -/

/-- The steps of the two threads on behalf of a call, and of a post under way. -/
def Act.own : Act → Bool
  | .main _ _ | .thread _ | .wake => true
  | _ => false

/-- Steps that the main thread still makes, with those it asks of the timer thread. -/
def Main.work : Main → Nat
  | .idle | .done => 0
  | .closeTimer => 10
  | .prep _ todo => todo.length + 8
  | .await _ | .join => 2
  | .read _ | .free => 1

/-- Steps of the timer thread for the command. -/
def Thr.work : Thr → Nat
  | .fetch => 4
  | .exec _ => 3
  | .store _ => 2
  | .notify => 1
  | _ => 0

/-- Steps of the timer function. -/
def Thr.posting : Thr → Nat
  | .onfire => 3
  | .reread _ => 2
  | .post _ _ => 1
  | _ => 0

def Sys.work (s : Sys) : Nat := s.main.work + s.thread.work + if s.evt then 5 else 0

/-- What is left of a call shrinks by a step for it, and a post costs three steps. -/
theorem TStep.work (hs : TStep s a s' ev) (hf : ev ≠ .fault) (ha : ∀ c, a ≠ .call c) :
    s'.work + s'.thread.posting + (if a.own then 1 else 0) ≤
        s.work + s.thread.posting + (if a = .apc then 3 else 0) ∧ s'.work ≤ s.work := by
  cases hs with
  | call c hm hc => exact absurd rfl (ha c)
  | callClose hm => exact absurd rfl (ha .close)
  | fault err s' hm ht => exact absurd rfl hf
  | closeTimer ok keep hm =>
    simp only [Sys.work, hm, Main.work, Act.own, Call.stores, List.length_singleton]
    refine ⟨?_, ?_⟩
    · simp only [if_true, reduceCtorEq, if_false]
      omega
    · simp
  | put ok keep c w todo hm =>
    simp only [Sys.work, hm, Main.work, Act.own, List.length_cons]
    refine ⟨?_, ?_⟩
    · simp only [if_true, reduceCtorEq, if_false]
      omega
    · simp
  | sendExit ok keep hm =>
    simp only [Sys.work, hm, Main.work, Act.own, List.length_nil]
    refine ⟨?_, ?_⟩ <;> cases s.evt <;> cases ok <;> simp <;> omega
  | send keep c hm hc =>
    simp only [Sys.work, hm, Main.work, Act.own, List.length_nil]
    refine ⟨?_, ?_⟩ <;> cases s.evt <;> simp <;> omega
  | sendFails keep c hm hc | result ok keep c hm _ | returned ok keep c hm | join ok keep hm _
  | free ok keep hm =>
    simp only [Sys.work, hm, Main.work, Act.own, if_true, reduceCtorEq, if_false]
    refine ⟨?_, ?_⟩ <;> omega
  | exec err cmd hm ht =>
    simp only [Sys.work, execute_main, execute_evt, execute_thread, ht, Thr.work, Thr.posting,
      Act.own]
    refine ⟨?_, ?_⟩
    · simp only [if_true, reduceCtorEq, if_false]
      omega
    · simp
  | exit err hm ht hc | fetch err hm ht hc | store err r hm ht | notify err hm ht | onfire err hm ht
  | reread err p hm ht | post err p kq hm ht =>
    simp only [Sys.work, ht, Thr.work, Thr.posting, Act.own, if_true, reduceCtorEq, if_false]
    refine ⟨?_, ?_⟩ <;> omega
  | wake ht he =>
    simp only [Sys.work, ht, he, Thr.work, Thr.posting, Act.own]
    refine ⟨?_, ?_⟩ <;> simp
  | apc ht hap =>
    simp only [Sys.work, ht, Thr.work, Thr.posting, Act.own]
    refine ⟨?_, ?_⟩ <;> simp
  | expire p hap =>
    refine ⟨?_, ?_⟩ <;> simp [Sys.work, Act.own]

/-- The steps of a run without a new call. -/
theorem own_steps : ∀ {as : List Act} {s t : Sys} {os : List Ev},
    exec Thread.step s as = some (t, os) → .fault ∉ os → (∀ c, .call c ∉ as) →
      t.work + t.thread.posting + as.countP Act.own ≤
        s.work + s.thread.posting + 3 * as.count .apc
  | [], s, t, os, h, _, _ => by
    simp only [exec, Option.some.injEq, Prod.mk.injEq] at h
    obtain ⟨rfl, rfl⟩ := h
    simp
  | a :: as, s, t, os, h, hf, hc => by
    obtain ⟨s', ev, os', hs, hrun, rfl⟩ := exec_cons h
    have hstep := (TStep.work (step_cases hs) (fun he => hf (he ▸ List.mem_cons_self))
      (fun c he => hc c (he ▸ List.mem_cons_self))).1
    have ih := own_steps hrun (fun hm => hf (List.mem_cons_of_mem _ hm))
      (fun c hm => hc c (List.mem_cons_of_mem _ hm))
    rw [List.countP_cons, List.count_cons]
    by_cases hap : a = .apc
    · subst hap
      simp only [beq_self_eq_true, if_true] at hstep ⊢
      omega
    · simp only [hap, if_false] at hstep
      simp only [beq_iff_eq, hap, if_false]
      omega

theorem posting_le (t : Thr) : t.posting ≤ 3 := by
  cases t <;> simp [Thr.posting]

theorem Conf.not_fault {ph : Phase} (C : Conf s ph) (hs : TStep s a s' ev) : ev ≠ .fault := by
  obtain ⟨ph', hph, _⟩ := C.step hs
  rintro rfl
  cases ph <;> cases hph

theorem Thr.Free.work {t : Thr} (h : t.Free) : t.work = 0 := by
  cases t <;> first | rfl | exact h.elim

theorem Calm.work (K : Calm s) : s.work = s.main.work := by
  simp [Sys.work, K.evt, K.thread.work]

/-- A call needs twelve steps at most. -/
theorem Conf.work_le {ph : Phase} (C : Conf s ph) (hw : s.work ≤ 12) (hs : TStep s a s' ev) :
    s'.work ≤ 12 := by
  by_cases ha : ∃ c, a = .call c
  · obtain ⟨c, rfl⟩ := ha
    cases hs with
    | call c hm hc =>
      simp only [Conf, hm] at C
      have K : Calm { s with main := .prep c c.stores } := ⟨C.2.evt, C.2.evt_result, C.2.thread⟩
      rw [K.work]
      cases c <;> simp [Main.work, Call.stores]
    | callClose hm =>
      simp only [Conf, hm] at C
      have K : Calm { s with main := .closeTimer } := ⟨C.2.evt, C.2.evt_result, C.2.thread⟩
      rw [K.work]
      simp [Main.work]
  · exact Nat.le_trans (TStep.work hs (C.not_fault hs) (fun c he => ha ⟨c, he⟩)).2 hw

/-- `fftimer_close` has told the thread to exit. -/
def Told (s : Sys) : Prop :=
  s.main = .join → s.evt = true ∨ s.thread = .fetch ∨ s.thread = .exited

theorem Told.step {ph : Phase} (T : Told s) (C : Conf s ph) (hs : TStep s a s' ev)
    (hok : ∀ keep, a ≠ .main false keep) : Told s' := by
  intro hj
  -- while the main thread joins, the timer thread can only sleep, post, wake up and exit
  have hfree {t : Thr} (ht : s.thread = t) (hnf : t ≠ .fetch) (hnx : t ≠ .exited)
      (hm : s.main = .join) : s.evt = true :=
    (T hm).resolve_right fun h => h.elim (fun h => hnf (ht ▸ h)) (fun h => hnx (ht ▸ h))
  cases hs with
  | sendExit ok keep hm =>
    cases ok with
    | false => exact absurd rfl (hok keep)
    | true =>
      left
      simp
  | call c _ _ | callClose _ | closeTimer ok keep _ | put ok keep c w todo _ | send keep c _ _
  | sendFails keep c _ _ | result ok keep c _ _ | returned ok keep c _ | join ok keep _ _
  | free ok keep _ => cases hj
  | exit err hm ht hc => exact Or.inr (Or.inr rfl)
  | fetch err hm ht hc =>
    have hj' : s.main = .join := hj
    simp only [Conf, hj'] at C
    exact absurd C.2.1 hc
  | exec err cmd hm ht =>
    rw [execute_evt]
    exact Or.inl (hfree ht (by simp) (by simp) (by simpa using hj))
  | store err r hm ht | notify err hm ht | onfire err hm ht | reread err p hm ht
  | post err p kq hm ht => exact Or.inl (hfree ht (by simp) (by simp) hj)
  | fault err s' hm ht => exact absurd rfl (C.not_fault (.fault err s' hm ht))
  | wake ht he => exact Or.inr (Or.inl rfl)
  | apc ht hap => exact Or.inl (hfree ht (by simp) (by simp) hj)
  | expire p hap => exact T hj

/-- A thread that sleeps can be woken, one that posts can go on. -/
theorem Thr.Free.enabled (hf : s.thread.Free) (he : s.evt = true) (hd : s.main ≠ .done) :
    ∃ a, Act.own a = true ∧ (Thread.step s a).isSome = true := by
  have hthread (h : (threadStep s 0).isSome = true) :
      ∃ a, Act.own a = true ∧ (Thread.step s a).isSome = true := by
    refine ⟨.thread 0, rfl, ?_⟩
    simp only [Thread.step]
    exact h
  cases ht : s.thread with
  | wait => exact ⟨.wake, rfl, by simp [Thread.step, ht, he]⟩
  | onfire | reread p | post p kq => exact hthread (by simp [threadStep, ht])
  | fetch | exec cmd | store r | notify | exited =>
    rw [ht] at hf
    exact hf.elim

theorem busy_enabled (hd : s.main ≠ .done) (hf : ¬ s.thread.Free) (hx : s.thread ≠ .exited) :
    ∃ a, Act.own a = true ∧ (Thread.step s a).isSome = true := by
  refine ⟨.thread 0, rfl, ?_⟩
  simp only [Thread.step]
  cases ht : s.thread with
  | fetch | exec cmd | store r | notify => simp [threadStep, ht]
  | wait | onfire | reread p | post p kq =>
    rw [ht] at hf
    exact absurd trivial hf
  | exited => exact absurd ht hx

theorem own_enabled {ph : Phase} (C : Conf s ph) (T : Told s) (hi : s.main ≠ .idle)
    (hd : s.main ≠ .done) : ∃ a, Act.own a = true ∧ (Thread.step s a).isSome = true := by
  have hmain (h : (mainStep s true true).isSome = true) :
      ∃ a, Act.own a = true ∧ (Thread.step s a).isSome = true := ⟨.main true true, rfl, h⟩
  cases hm : s.main with
  | idle => exact absurd hm hi
  | done => exact absurd hm hd
  | closeTimer | read c | free => exact hmain (by simp [mainStep, hm])
  | prep c todo =>
    refine hmain ?_
    cases todo with
    | nil => cases c <;> simp [mainStep, hm]
    | cons w todo => simp [mainStep, hm]
  | await c =>
    simp only [Conf, hm] at C
    obtain ⟨_, hA⟩ := C
    cases hA with
    | sent he hr ht hl => exact ht.enabled he hd
    | fetched he hr ht hl =>
      rcases ht with ht | ht
      · exact busy_enabled hd (by rw [ht]; exact id) (by rw [ht]; simp)
      · exact busy_enabled hd (by rw [ht]; exact id) (by rw [ht]; simp)
    | executed r he hr ht =>
      rcases ht with ht | ⟨ht, _⟩
      · exact busy_enabled hd (by rw [ht]; exact id) (by rw [ht]; simp)
      · exact busy_enabled hd (by rw [ht]; exact id) (by rw [ht]; simp)
    | answered he hr ht => exact hmain (by simp [mainStep, hm, hr])
  | join =>
    simp only [Conf, hm] at C
    rcases C.2.2 with hf | ⟨_, ht | ht⟩
    · refine hf.enabled ((T hm).resolve_right ?_) hd
      rintro (h | h) <;> rw [h] at hf <;> exact hf
    · exact busy_enabled hd (by rw [ht]; exact id) (by rw [ht]; simp)
    · exact hmain (by simp [mainStep, hm, ht])

theorem conf_work_run {as : List Act} {t : Sys} {os : List Ev}
    (h : exec Thread.step Sys.init as = some (t, os)) : ∃ ph, Conf t ph ∧ t.work ≤ 12 :=
  exec_keeps (I := fun s => ∃ ph, Conf s ph ∧ s.work ≤ 12)
    (fun _ _ _ _ hI hs => by
      obtain ⟨ph, C, hw⟩ := hI
      obtain ⟨ph', _, C'⟩ := C.step (step_cases hs)
      exact ⟨ph', C', C.work_le hw (step_cases hs)⟩)
    ⟨.idle, conf_init, by decide⟩ h

theorem told_run {as : List Act} {t : Sys} {os : List Ev}
    (h : exec Thread.step Sys.init as = some (t, os)) (hok : ∀ keep, .main false keep ∉ as) :
    Told t := by
  have hrun := exec_output (A := fun a => ∀ keep, a ≠ .main false keep) (B := fun _ => True)
    (Q := fun _ => True) (I := fun s => Told s ∧ ∃ ph, Conf s ph)
    (fun s a s' ev hI ha _ hs => by
      obtain ⟨T, ph, C⟩ := hI
      obtain ⟨ph', _, C'⟩ := C.step (step_cases hs)
      exact ⟨⟨T.step C (step_cases hs) ha, ph', C'⟩, trivial⟩)
    as Sys.init t os ⟨(fun hm => by cases hm), Phase.idle, conf_init⟩
    (fun a ha keep he => hok keep (he ▸ ha)) (by simp) h
  exact hrun.1.1

/-- **Every call returns.**  If `SetEvent` has not failed so far, then in every reachable state in
    which the main thread is inside of a call one of the two threads can go on; and in every run
    from there without a new call the two threads make at most 15 steps, and 3 more for each time
    the expired timer interrupts the sleep of the timer thread. -/
theorem fftimer_cmd_returns (as : List Act) (s : Sys) (os : List Ev)
    (h : exec Thread.step Sys.init as = some (s, os)) (hok : ∀ keep, .main false keep ∉ as)
    (hi : s.main ≠ .idle) (hd : s.main ≠ .done) :
    (∃ a, Act.own a = true ∧ (Thread.step s a).isSome = true) ∧
      ∀ bs t os', exec Thread.step s bs = some (t, os') → (∀ c, .call c ∉ bs) →
        bs.countP Act.own ≤ 15 + 3 * bs.count .apc := by
  obtain ⟨ph, C, hw⟩ := conf_work_run h
  refine ⟨own_enabled C (told_run h hok) hi hd, ?_⟩
  intro bs t os' hrun hc
  obtain ⟨ph', hph, _⟩ := conf_run C hrun
  have hsteps := own_steps hrun (Phase.run_no_fault hph) hc
  have hpost := posting_le s.thread
  omega

theorem fftimer_cmd_returns_stop : ∃ s os, exec Thread.step Sys.init
      [.call .stop, .main true true, .main true true, .wake] = some (s, os) ∧
    (∃ a, Act.own a = true ∧ (Thread.step s a).isSome = true) ∧
      ∀ bs t os', exec Thread.step s bs = some (t, os') → (∀ c, .call c ∉ bs) →
        bs.countP Act.own ≤ 15 + 3 * bs.count .apc :=
  ⟨_, _, rfl, fftimer_cmd_returns [.call .stop, .main true true, .main true true, .wake] _ _ rfl
    (by simp) (by simp) (by simp)⟩

/-! ## Posts -/

/-- The queue and the data of the start that armed the timer and of the later calls, the last one
    first. -/
def Ev.cands (cs : List (Nat × Nat)) : Ev → List (Nat × Nat)
  | .called (.start kq data _) => (kq, data) :: cs
  | .executed .start _ _ => cs.take 1
  | .executed .stop _ 0 => []
  | _ => cs

/-- Every post takes the queue, both times, and the data from the candidates. -/
def Posts : List (Nat × Nat) → List Ev → Prop
  | _, [] => True
  | cs, ev :: os =>
    (∀ p kq data, ev = .posted p kq data →
      p ∈ cs.map Prod.fst ∧ kq ∈ cs.map Prod.fst ∧ data ∈ cs.map Prod.snd) ∧
      Posts (ev.cands cs) os

/-- The timer function may run. -/
def Hot (s : Sys) : Prop := s.armed ≠ none ∨ s.apc = true ∨ s.thread.posting ≠ 0

structure PostInv (s : Sys) (cs : List (Nat × Nat)) : Prop where
  hot : Hot s → s.tmr.kq ∈ cs.map Prod.fst ∧ s.tmr.data ∈ cs.map Prod.snd
  prep : ∀ {c todo}, s.main = .prep c todo →
    (∀ v, .kq v ∈ todo → v ∈ cs.map Prod.fst) ∧ ∀ v, .data v ∈ todo → v ∈ cs.map Prod.snd
  start : ∀ {kq data p}, (∃ todo, s.main = .prep (.start kq data p) todo) ∨
    s.main = .await (.start kq data p) → cs.head? = some (kq, data)
  reread : ∀ {p}, s.thread = .reread p → p ∈ cs.map Prod.fst
  post : ∀ {p kq}, s.thread = .post p kq → p ∈ cs.map Prod.fst ∧ kq ∈ cs.map Prod.fst

theorem postInv_init : PostInv Sys.init [] where
  hot h := by
    rcases h with h | h | h
    · exact absurd rfl h
    · cases h
    · exact absurd rfl h
  prep h := by cases h
  start h := by
    rcases h with ⟨_, h⟩ | h <;> cases h
  reread h := by cases h
  post h := by cases h

/-- More candidates. -/
theorem PostInv.mono_hot {cs : List (Nat × Nat)} (I : PostInv s cs) (c : Nat × Nat) (h : Hot s) :
    s.tmr.kq ∈ (c :: cs).map Prod.fst ∧ s.tmr.data ∈ (c :: cs).map Prod.snd :=
  ⟨List.mem_cons_of_mem _ (I.hot h).1, List.mem_cons_of_mem _ (I.hot h).2⟩

/-- Steps that keep the candidates. -/
theorem PostInv.frame {cs : List (Nat × Nat)} (I : PostInv s cs) (htmr : s'.tmr = s.tmr)
    (hhot : Hot s' → Hot s)
    (hprep : ∀ c todo, s'.main = .prep c todo → s.main = .prep c todo ∨
      (∀ v, .kq v ∉ todo) ∧ ∀ v, .data v ∉ todo)
    (hstart : ∀ kq data p, (∃ todo, s'.main = .prep (.start kq data p) todo) ∨
      s'.main = .await (.start kq data p) → (∃ todo, s.main = .prep (.start kq data p) todo) ∨
        s.main = .await (.start kq data p))
    (hreread : ∀ p, s'.thread = .reread p → p ∈ cs.map Prod.fst)
    (hpost : ∀ p kq, s'.thread = .post p kq → p ∈ cs.map Prod.fst ∧ kq ∈ cs.map Prod.fst) :
    PostInv s' cs where
  hot h := by
    rw [htmr]
    exact I.hot (hhot h)
  prep h := by
    rcases hprep _ _ h with h | ⟨h₁, h₂⟩
    · exact I.prep h
    · exact ⟨fun v hv => absurd hv (h₁ v), fun v hv => absurd hv (h₂ v)⟩
  start h := I.start (hstart _ _ _ h)
  reread h := hreread _ h
  post h := hpost _ _ h

/-- `fftimer_start` adds its arguments to the candidates. -/
theorem PostInv.called {cs : List (Nat × Nat)} (I : PostInv s cs) (c : Call) :
    PostInv { s with main := .prep c c.stores } (Ev.cands cs (.called c)) := by
  cases c with
  | start kq data p =>
    refine ⟨I.mono_hot (kq, data), ?_, ?_, fun h => List.mem_cons_of_mem _ (I.reread h), fun h =>
      ⟨List.mem_cons_of_mem _ (I.post h).1, List.mem_cons_of_mem _ (I.post h).2⟩⟩
    · intro c todo h
      cases h
      refine ⟨?_, ?_⟩
      · intro v hv
        simp only [Call.stores, List.mem_cons, Store.kq.injEq, reduceCtorEq, List.not_mem_nil,
          or_false] at hv
        exact hv ▸ List.mem_cons_self
      · intro v hv
        simp only [Call.stores, List.mem_cons, Store.data.injEq, reduceCtorEq, List.not_mem_nil,
          or_false, false_or] at hv
        exact hv ▸ List.mem_cons_self
    · intro kq' data' p' h
      rcases h with ⟨_, h⟩ | h
      · cases h
        rfl
      · cases h
  | stop | close =>
    refine I.frame rfl id ?_ ?_ (fun _ => I.reread) (fun _ _ => I.post)
    · intro c todo h
      cases h
      right
      simp [Call.stores]
    · intro kq data p h
      rcases h with ⟨_, h⟩ | h <;> cases h

theorem PostInv.put {cs : List (Nat × Nat)} (I : PostInv s cs) {c : Call} {w : Store}
    {todo : List Store} (hm : s.main = .prep c (w :: todo)) :
    PostInv { s with tmr := s.tmr.put w, main := .prep c todo } cs := by
  obtain ⟨hkq, hdata⟩ := I.prep hm
  refine ⟨?_, ?_, ?_, I.reread, I.post⟩
  · intro h
    obtain ⟨h₁, h₂⟩ := I.hot h
    cases w with
    | kq v => exact ⟨hkq v List.mem_cons_self, h₂⟩
    | data v => exact ⟨h₁, hdata v List.mem_cons_self⟩
    | period_ms v | ctl v => exact ⟨h₁, h₂⟩
  · intro c' todo' h
    cases h
    exact ⟨fun v hv => hkq v (List.mem_cons_of_mem _ hv),
      fun v hv => hdata v (List.mem_cons_of_mem _ hv)⟩
  · intro kq data p h
    rcases h with ⟨_, h⟩ | h
    · cases h
      exact I.start (Or.inl ⟨_, hm⟩)
    · cases h

/-- The command is executed: a start leaves its own arguments, a stop leaves nothing to post. -/
theorem PostInv.execute {cs : List (Nat × Nat)} (I : PostInv s cs) {c : Call} {err : Nat}
    (hm : s.main = .await c) (hc : c ≠ .close) (hl : Loaded s.tmr c) :
    PostInv (execute s c.cmd err) (Ev.cands cs (.executed c.cmd s.tmr.period_ms err)) := by
  have hprep {c' todo} (h : (Thread.execute s c.cmd err).main = .prep c' todo) : False := by
    rw [execute_main, hm] at h
    cases h
  have hreads : (∀ {p}, (Thread.execute s c.cmd err).thread ≠ .reread p) ∧
      ∀ {p kq}, (Thread.execute s c.cmd err).thread ≠ .post p kq := by
    simp
  cases c with
  | close => exact absurd rfl hc
  | start kq data p =>
    have hhead : cs.head? = some (kq, data) := I.start (Or.inr hm)
    have hcs : cs.take 1 = [(kq, data)] := by
      cases cs with
      | nil => cases hhead
      | cons x xs =>
        cases hhead
        rfl
    refine ⟨fun _ => ?_, fun h => (hprep h).elim, fun h => ?_, fun h => absurd h hreads.1,
      fun h => absurd h hreads.2⟩
    · rw [execute_tmr]
      simp only [Ev.cands, Call.cmd, hcs]
      exact ⟨by simp [hl.2.1], by simp [hl.2.2.1]⟩
    · rcases h with ⟨_, h⟩ | h
      · exact (hprep h).elim
      · rw [execute_main, hm] at h
        cases h
        simp only [Ev.cands, Call.cmd, hcs]
        rfl
  | stop =>
    have hstart {kq data p} (h : (∃ todo, (Thread.execute s Call.stop.cmd err).main =
        .prep (.start kq data p) todo) ∨
        (Thread.execute s Call.stop.cmd err).main = .await (.start kq data p)) : False := by
      rcases h with ⟨_, h⟩ | h
      · exact hprep h
      · rw [execute_main, hm] at h
        cases h
    refine ⟨fun h => ?_, fun h => (hprep h).elim, fun h => (hstart h).elim,
      fun h => absurd h hreads.1, fun h => absurd h hreads.2⟩
    by_cases herr : err = 0
    · subst herr
      -- the timer is not active and its function will not be called
      rcases h with h | h | h
      · exact absurd rfl h
      · cases h
      · exact absurd rfl h
    · have hsame : Ev.cands cs (.executed Call.stop.cmd s.tmr.period_ms err) = cs := by
        simp [Ev.cands, Call.cmd, herr]
      rw [hsame, execute_tmr]
      refine I.hot ?_
      simp only [Thread.execute, if_neg herr] at h
      rcases h with h | h | h
      · exact Or.inl h
      · exact Or.inr (Or.inl h)
      · exact absurd rfl h

theorem PostInv.step {cs : List (Nat × Nat)} {ph : Phase} (I : PostInv s cs) (C : Conf s ph)
    (hs : TStep s a s' ev) :
    PostInv s' (ev.cands cs) ∧ ∀ p kq data, ev = .posted p kq data →
      p ∈ cs.map Prod.fst ∧ kq ∈ cs.map Prod.fst ∧ data ∈ cs.map Prod.snd := by
  have hquiet {ev : Ev} (h : ∀ p kq data, ev ≠ .posted p kq data) : ∀ p kq data,
      ev = .posted p kq data →
        p ∈ cs.map Prod.fst ∧ kq ∈ cs.map Prod.fst ∧ data ∈ cs.map Prod.snd :=
    fun p kq data he => absurd he (h p kq data)
  have hidle {m : Main} (h : ∀ kq data p, (∀ todo, m ≠ .prep (.start kq data p) todo) ∧
      m ≠ .await (.start kq data p)) : ∀ kq data p, (∃ todo, m = .prep (.start kq data p) todo) ∨
        m = .await (.start kq data p) → (∃ todo, s.main = .prep (.start kq data p) todo) ∨
          s.main = .await (.start kq data p) := by
    intro kq data p hor
    rcases hor with ⟨todo, he⟩ | he
    · exact absurd he ((h kq data p).1 todo)
    · exact absurd he (h kq data p).2
  cases hs with
  | call c hm hc => exact ⟨I.called c, hquiet (by simp)⟩
  | callClose hm =>
    exact ⟨I.frame rfl id (by simp) (hidle (by simp)) (fun _ => I.reread) (fun _ _ => I.post),
      hquiet (by simp)⟩
  | closeTimer ok keep hm =>
    refine ⟨I.frame rfl ?_ ?_ (hidle (by simp)) (fun _ => I.reread) (fun _ _ => I.post),
      hquiet (by simp)⟩
    · rintro (h | h | h)
      · exact absurd rfl h
      · exact Or.inr (Or.inl (Bool.and_eq_true_iff.mp h).1)
      · exact Or.inr (Or.inr h)
    · intro c todo h
      cases h
      right
      simp [Call.stores]
  | put ok keep c w todo hm => exact ⟨I.put hm, hquiet (by simp)⟩
  | send keep c hm hc =>
    refine ⟨I.frame rfl id (by simp) ?_ (fun _ => I.reread) (fun _ _ => I.post), hquiet (by simp)⟩
    intro kq data p h
    rcases h with ⟨_, h⟩ | h
    · cases h
    · cases h
      exact Or.inl ⟨[], hm⟩
  | sendExit ok keep hm | sendFails keep c hm hc | result ok keep c hm he | returned ok keep c hm
  | join ok keep hm ht | free ok keep hm =>
    exact ⟨I.frame rfl id (by simp) (hidle (by simp)) (fun _ => I.reread) (fun _ _ => I.post),
      hquiet (by simp)⟩
  | exec err cmd hm ht =>
    refine ⟨?_, hquiet (by simp)⟩
    rcases C.busy (by rw [ht]; exact id) (by rw [ht]; simp) with ⟨c, hm', hc, hA⟩ | ⟨_, h, _⟩
    · cases hA with
      | sent _ _ h _ | answered _ _ h =>
        rw [ht] at h
        exact h.elim
      | fetched he hr h hl =>
        rw [ht] at h
        rcases h with h | h
        · cases h
        · cases h
          exact I.execute hm' hc hl
      | executed r _ _ h =>
        rw [ht] at h
        rcases h with h | ⟨h, _⟩ <;> cases h
    · rw [ht] at h
      cases h
  | exit err hm ht hc | fetch err hm ht hc | store err r hm ht | notify err hm ht =>
    refine ⟨?_, hquiet (by simp)⟩
    refine ⟨fun h => I.hot ?_, I.prep, I.start, by simp, by simp⟩
    rcases h with h | h | h
    · exact Or.inl h
    · exact Or.inr (Or.inl h)
    · exact absurd rfl h
  | onfire err hm ht =>
    have hhot : Hot s := Or.inr (Or.inr (by rw [ht]; simp [Thr.posting]))
    refine ⟨⟨fun _ => I.hot hhot, I.prep, I.start, ?_, by simp⟩, hquiet (by simp)⟩
    intro p h
    cases h
    exact (I.hot hhot).1
  | reread err q hm ht =>
    have hhot : Hot s := Or.inr (Or.inr (by rw [ht]; simp [Thr.posting]))
    refine ⟨⟨fun _ => I.hot hhot, I.prep, I.start, by simp, ?_⟩, hquiet (by simp)⟩
    intro p kq h
    cases h
    exact ⟨I.reread ht, (I.hot hhot).1⟩
  | post err q kq hm ht =>
    have hhot : Hot s := Or.inr (Or.inr (by rw [ht]; simp [Thr.posting]))
    refine ⟨⟨fun _ => I.hot hhot, I.prep, I.start, by simp, by simp⟩, ?_⟩
    intro p kq' data h
    cases h
    exact ⟨(I.post ht).1, (I.post ht).2, (I.hot hhot).2⟩
  | fault err s' hm ht => exact absurd rfl (C.not_fault (.fault err s' hm ht))
  | wake ht he =>
    refine ⟨⟨fun h => I.hot ?_, I.prep, I.start, by simp, by simp⟩, hquiet (by simp)⟩
    rcases h with h | h | h
    · exact Or.inl h
    · exact Or.inr (Or.inl h)
    · exact absurd rfl h
  | apc ht hap =>
    exact ⟨⟨fun _ => I.hot (Or.inr (Or.inl hap)), I.prep, I.start, by simp, by simp⟩,
      hquiet (by simp)⟩
  | expire p hap =>
    have hhot : Hot s := Or.inl (by rw [hap]; simp)
    exact ⟨⟨fun _ => I.hot hhot, I.prep, I.start, I.reread, I.post⟩, hquiet (by simp)⟩

theorem posts_run : ∀ {as : List Act} {s t : Sys} {os : List Ev} {ph : Phase}
    {cs : List (Nat × Nat)}, Conf s ph → PostInv s cs → exec Thread.step s as = some (t, os) →
      Posts cs os
  | [], s, t, os, ph, cs, _, _, h => by
    simp only [exec, Option.some.injEq, Prod.mk.injEq] at h
    exact h.2 ▸ trivial
  | a :: as, s, t, os, ph, cs, C, I, h => by
    obtain ⟨s', ev, os', hs, hrun, rfl⟩ := exec_cons h
    obtain ⟨ph', _, C'⟩ := C.step (step_cases hs)
    obtain ⟨I', hev⟩ := I.step C (step_cases hs)
    exact ⟨hev, posts_run C' I' hrun⟩

/-- **Nothing is posted after a stop, and nothing old after a start.**  In every interleaving
    each post goes to the queue and carries the data of a start that the candidates allow: after
    the execution of a start only those of this start; while a later start is being called those
    of either, possibly the queue of one with the data of the other; after an executed stop,
    until the next call of `fftimer_start`, there is no post at all. -/
theorem fftimer_posts (as : List Act) (t : Sys) (os : List Ev)
    (h : exec Thread.step Sys.init as = some (t, os)) : Posts [] os :=
  posts_run conf_init postInv_init h

/-- A start on a running timer: the old expiry is posted to the new queue, with the old data. -/
theorem fftimer_posts_mixed : ∃ t os, exec Thread.step Sys.init
      ([.call (.start 1 77 20), .main true true, .main true true, .main true true, .main true true,
        .main true true, .wake, .thread 0, .thread 0, .thread 0, .thread 0, .main true true,
        .main true true, .expire, .call (.start 2 88 20), .main true true, .apc, .thread 0,
        .thread 0, .thread 0]) = some (t, os) ∧
    Ev.posted 2 2 77 ∈ os ∧ Posts [] os :=
  ⟨_, _, rfl, by decide, fftimer_posts _ _ _ (rfl : exec Thread.step Sys.init
    [.call (.start 1 77 20), .main true true, .main true true, .main true true, .main true true,
      .main true true, .wake, .thread 0, .thread 0, .thread 0, .thread 0, .main true true,
      .main true true, .expire, .call (.start 2 88 20), .main true true, .apc, .thread 0,
      .thread 0, .thread 0] = some _)⟩

end FFSys.Timer.Thread
