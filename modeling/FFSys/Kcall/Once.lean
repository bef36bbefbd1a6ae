import FFSys.Kcall.Place

/-!
# Every call is executed and delivered exactly once

The life of a call as its client sees it: submitted, executed once with the submitted arguments,
notified once, and completed by the next call of the same function, which returns the result of
the execution.  `Phase.next` is this life as an automaton over the events of an object; any event
that does not belong there leads to `Phase.wrong`.

A client is disciplined (`allowed`) if it makes no call on an object between the submission and
the handler, completes with the function it submitted, and never cancels.

* `Good` — the invariant: the place of an object, its fields and the phase of its call agree.
* `client_good`, `worker_good`, `reader_good`, `gstep_good` — every step of disciplined clients and
  of the threads keeps it, so that no run gets to `Phase.wrong`.
* `idle_submits`, `notified_completes` — what a client finds.
-/

set_option autoImplicit false

namespace FFSys.Kcall

open FFSys.Lib

/-! ## The specification -/

/-- Where the call of an object is in its life. -/
inductive Phase where
  | idle
  | submitted (c : Call)
  | executed (c : Call) (r : BitVec 64) (e : BitVec 32)
  | notified (c : Call) (r : BitVec 64) (e : BitVec 32)
  | wrong
  deriving DecidableEq

variable {ι ω : Type}

/-- The object an event of the queue is about. -/
def Ev.about : Ev ι → Option ι
  | .silent => none
  | .direct .. => none
  | .busy x _ => some x
  | .completed x _ _ _ => some x
  | .submitted x _ => some x
  | .refused x _ => some x
  | .executed x _ _ _ => some x
  | .handler x => some x
  | .cqFull x => some x

/-- The phase after an event of the object. -/
def Phase.next : Phase → Ev ι → Phase
  | .idle, .submitted _ c => .submitted c
  | .idle, .refused _ _ => .idle
  | .submitted c, .executed _ c' r e => if c' = c then .executed c r e else .wrong
  | .executed c r e, .handler _ => .notified c r e
  | .notified c r e, .completed _ c' v e' =>
    if c'.op = c.op ∧ v = c.cast r ∧ e' = e then .idle else .wrong
  | _, _ => .wrong

variable [DecidableEq ι] [DecidableEq ω]

def observe (ph : ι → Phase) (ev : Ev ι) : ι → Phase :=
  match ev.about with
  | none => ph
  | some x => Function.update ph x ((ph x).next ev)

/-- What a disciplined client does, and everything the threads do. -/
def allowed (ph : ι → Phase) : Act ι ω → Bool
  | .call x c =>
    match ph x with
    | .idle => true
    | .notified c₀ _ _ => c.op == c₀.op
    | _ => false
  | .cancel _ => false
  | _ => true

/-- A step of the system with disciplined clients, and the phases it leads to. -/
def gstep (Q : Queue) (g : Sys ι ω × (ι → Phase)) (a : Act ι ω) :
    Option ((Sys ι ω × (ι → Phase)) × Ev ι) :=
  if allowed g.2 a then (kstep Q g.1 a).map fun r => ((r.1, observe g.2 r.2), r.2) else none

/-! ## The invariant -/

/-- The object has the result of the call. -/
def HasResult (kc : Ffkcall) (c : Call) (r : BitVec 64) (e : BitVec 32) : Prop :=
  kc.op = c.op ∧ kc.ptr = c.cast r ∧ kc.word = e

/-- The fields of an object with no client in `_ffkcall_add`. -/
def ObjAt : Option (Loc ω) → Phase → Ffkcall → Prop
  | none, .idle, kc => kc.op = 0 ∧ kc.state = 0
  | none, .notified c r e, kc => HasResult kc c r e ∧ kc.state = 0
  | some .sq, .submitted c, kc => kc.load = some c ∧ kc.state = 0
  | some (.worker _ .fetched), .submitted c, kc => kc.load = some c ∧ kc.state = 0
  | some (.worker _ .executed), .executed c r e, kc => HasResult kc c r e ∧ kc.state = 0
  | some (.worker _ .marked), .executed c r e, kc => HasResult kc c r e ∧ kc.state = 2
  | some .cq, .executed c r e, kc => HasResult kc c r e ∧ kc.state = 2
  | some (.reader false), .executed c r e, kc => HasResult kc c r e ∧ kc.state = 2
  | some (.reader true), .executed c r e, kc => HasResult kc c r e ∧ kc.state = 0
  | _, _, _ => False

/-- Place, phase and fields of an object agree. -/
def Agree (caller : Option Call) (l : Option (Loc ω)) (p : Phase) (kc : Ffkcall) : Prop :=
  match caller with
  | some c => l = none ∧ p = .idle ∧ kc.load = some c ∧ kc.state = 0
  | none => ObjAt l p kc

structure Good (s : Sys ι ω) (ph : ι → Phase) (loc : ι → Option (Loc ω)) : Prop where
  placed : Placed s loc
  agree : ∀ x, Agree (s.caller x) (loc x) (ph x) (s.obj x)

section Agree

omit [DecidableEq ι] [DecidableEq ω]

variable {caller : Option Call} {l : Option (Loc ω)} {p : Phase} {kc : Ffkcall} {w : ω}

theorem Agree.idle (h : Agree (none : Option Call) l .idle kc) : l = none ∧ kc.op = 0 ∧ kc.state = 0 := by
  cases l with
  | none => exact ⟨rfl, h⟩
  | some l => rcases l with _ | ⟨_, _ | _ | _⟩ | _ | ⟨_ | _⟩ <;> exact h.elim

theorem Agree.notified {c : Call} {r : BitVec 64} {e : BitVec 32} (h : Agree none l (.notified c r e) kc) :
    l = none ∧ HasResult kc c r e ∧ kc.state = 0 := by
  cases l with
  | none => exact ⟨rfl, h⟩
  | some l => rcases l with _ | ⟨_, _ | _ | _⟩ | _ | ⟨_ | _⟩ <;> exact h.elim

/-- An object that is somewhere has no client in `_ffkcall_add`. -/
theorem Agree.caller_eq {k : Loc ω} (h : Agree caller (some k) p kc) : caller = none := by
  cases caller with
  | none => rfl
  | some c => exact absurd h.1 (by simp)

theorem Agree.waiting {k : Loc ω} (hk : k = .sq ∨ k = .worker w .fetched)
    (h : Agree caller (some k) p kc) : ∃ c, p = .submitted c ∧ kc.load = some c ∧ kc.state = 0 := by
  have hc := h.caller_eq
  subst hc
  rcases hk with rfl | rfl <;> cases p <;> first | exact h.elim | exact ⟨_, rfl, h⟩

theorem Agree.done {k : Loc ω} (hk : k ≠ .sq ∧ ∀ w, k ≠ .worker w .fetched)
    (h : Agree caller (some k) p kc) :
    ∃ c r e, p = .executed c r e ∧ HasResult kc c r e ∧ kc.state = stateAt k := by
  have hc := h.caller_eq
  subst hc
  rcases k with _ | ⟨w, _ | _ | _⟩ | _ | ⟨_ | _⟩
  · exact absurd rfl hk.1
  · exact absurd rfl (hk.2 w)
  all_goals cases p <;> first | exact h.elim | exact ⟨_, _, _, rfl, h⟩

theorem agree_done {k : Loc ω} (hk : k ≠ .sq ∧ ∀ w, k ≠ .worker w .fetched) {c : Call} {r : BitVec 64}
    {e : BitVec 32} (h : HasResult kc c r e) (hst : kc.state = stateAt k) :
    Agree none (some k) (.executed c r e) kc := by
  rcases k with _ | ⟨w, _ | _ | _⟩ | _ | ⟨_ | _⟩
  · exact absurd rfl hk.1
  · exact absurd rfl (hk.2 w)
  all_goals exact ⟨h, hst⟩

end Agree

variable {Q : Queue} {s s' : Sys ι ω} {ph ph' : ι → Phase} {loc loc' : ι → Option (Loc ω)} {x : ι}

omit [DecidableEq ι] [DecidableEq ω] in
/-- A step that concerns the object `x` only. -/
theorem Good.step_at (G : Good s ph loc) (P : Placed s' loc') (hloc : ∀ y, y ≠ x → loc' y = loc y)
    (hobj : ∀ y, y ≠ x → s'.obj y = s.obj y) (hcaller : ∀ y, y ≠ x → s'.caller y = s.caller y)
    (hph : ∀ y, y ≠ x → ph' y = ph y) (hx : Agree (s'.caller x) (loc' x) (ph' x) (s'.obj x)) :
    Good s' ph' loc' := by
  refine ⟨P, fun y => ?_⟩
  by_cases hy : y = x
  · subst hy; exact hx
  · rw [hcaller y hy, hloc y hy, hph y hy, hobj y hy]
    exact G.agree y

omit [DecidableEq ω] in
/-- A step that moves the object `x`. -/
theorem Good.move (G : Good s ph loc) {l : Option (Loc ω)} (P : Placed s' (Function.update loc x l))
    (hobj : ∀ y, y ≠ x → s'.obj y = s.obj y) (hcaller : ∀ y, y ≠ x → s'.caller y = s.caller y)
    (hph : ∀ y, y ≠ x → ph' y = ph y) (hx : Agree (s'.caller x) l (ph' x) (s'.obj x)) :
    Good s' ph' (Function.update loc x l) := by
  refine G.step_at P (fun y hy => Function.update_of_ne hy ..) hobj hcaller hph ?_
  rw [Function.update_self]
  exact hx

omit [DecidableEq ι] [DecidableEq ω] in
theorem Good.agree_at (G : Good s ph loc) {k : Loc ω} (h : loc x = some k) :
    Agree (s.caller x) (some k) (ph x) (s.obj x) := by
  rw [← h]
  exact G.agree x

omit [DecidableEq ω] in
/-- An object with a result goes on to another place for such objects. -/
theorem Good.move_done (G : Good s ph loc) {k k' : Loc ω} (hloc : loc x = some k)
    (hk : k ≠ .sq ∧ ∀ w, k ≠ .worker w .fetched) (hk' : k' ≠ .sq ∧ ∀ w, k' ≠ .worker w .fetched)
    (P : Placed s' (Function.update loc x (some k'))) (hcaller : s'.caller = s.caller)
    (hobj : ∀ y, y ≠ x → s'.obj y = s.obj y)
    (hres : ∀ c r e, HasResult (s.obj x) c r e → HasResult (s'.obj x) c r e)
    (hst : (s.obj x).state = stateAt k → (s'.obj x).state = stateAt k') :
    Good s' ph (Function.update loc x (some k')) := by
  have hx := G.agree_at hloc
  obtain ⟨c, r, e, hp, hr, hs⟩ := hx.done hk
  refine G.move P hobj (fun y _ => congrFun hcaller y) (fun _ _ => rfl) ?_
  rw [congrFun hcaller x, hx.caller_eq, hp]
  exact agree_done hk' (hres c r e hr) (hst hs)

omit [DecidableEq ω] in
/-- A step that moves an object with a result, and sets its state for the new place. -/
theorem Good.move_state (G : Good s ph loc) {k k' : Loc ω} (hloc : loc x = some k)
    (hk : k ≠ .sq ∧ ∀ w, k ≠ .worker w .fetched) (hk' : k' ≠ .sq ∧ ∀ w, k' ≠ .worker w .fetched)
    (P : Placed s' (Function.update loc x (some k'))) (hcaller : s'.caller = s.caller)
    (hobj : s'.obj = (s.set x { s.obj x with state := stateAt k' }).obj) :
    Good s' ph (Function.update loc x (some k')) := by
  refine G.move_done hloc hk hk' P hcaller (fun y hy => ?_) ?_ ?_
  · rw [hobj, set_obj_of_ne s _ hy]
  · intro c r e hres
    rw [hobj, set_obj_self]
    exact hres
  · intro _
    rw [hobj, set_obj_self]

omit [DecidableEq ι] [DecidableEq ω] in
/-- A step that concerns no object. -/
theorem Good.same (G : Good s ph loc) (P : Placed s' loc) (hobj : s'.obj = s.obj)
    (hcaller : s'.caller = s.caller) : Good s' ph loc :=
  ⟨P, fun y => by rw [hobj, hcaller]; exact G.agree y⟩

theorem observe_self {ev : Ev ι} (h : ev.about = some x) : observe ph ev x = (ph x).next ev := by
  simp [observe, h]

theorem observe_of_ne {ev : Ev ι} (h : ev.about = some x) {y : ι} (hy : y ≠ x) :
    observe ph ev y = ph y := by
  simp [observe, h, hy]

omit [DecidableEq ι] [DecidableEq ω] in
/-- What a disciplined client finds when it makes a call. -/
theorem Good.free (G : Good s ph loc) {c : Call} (hal : allowed (ω := ω) ph (.call x c) = true)
    (hc : s.caller x = none) :
    loc x = none ∧ (s.obj x).state = 0 ∧
      ((ph x = .idle ∧ (s.obj x).op = 0) ∨
        ∃ c₀ r e, ph x = .notified c₀ r e ∧ c.op = c₀.op ∧ HasResult (s.obj x) c₀ r e) := by
  have hx := G.agree x
  rw [hc] at hx
  simp only [allowed] at hal
  cases hp : ph x with
  | idle =>
    rw [hp] at hx
    obtain ⟨hl, hop, hst⟩ := hx.idle
    exact ⟨hl, hst, Or.inl ⟨rfl, hop⟩⟩
  | notified c₀ r e =>
    rw [hp] at hx hal
    obtain ⟨hl, hres, hst⟩ := hx.notified
    exact ⟨hl, hst, Or.inr ⟨c₀, r, e, rfl, by simpa using hal, hres⟩⟩
  | submitted c => rw [hp] at hal; cases hal
  | executed c r e => rw [hp] at hal; cases hal
  | wrong => rw [hp] at hal; cases hal

/-- The steps of the clients. -/
theorem client_good (G : Good s ph loc) {a : Act ι ω} {ev : Ev ι} (hal : allowed ph a = true)
    (ha : a.byClient) (hs : KStep Q s a s' ev) : ∃ loc', Good s' (observe ph ev) loc' := by
  cases hs with
  | direct x c r e => exact ⟨loc, G⟩
  | cancel x => cases hal
  | busy x c hq hc hst => exact absurd (G.free hal hc).2.1 hst
  | completed x c hq hc hst hop =>
    obtain ⟨hl, _, ⟨_, hop0⟩ | ⟨c₀, r, e, hp, hcop, hres⟩⟩ := G.free hal hc
    · exact absurd hop0 hop
    · refine ⟨loc, G.step_at (x := x) (G.placed.same rfl rfl (fun _ => rfl) rfl) (fun _ _ => rfl)
        (fun y hy => set_obj_of_ne s _ hy) (fun _ _ => rfl) (fun y hy => observe_of_ne rfl hy) ?_⟩
      have hnext : (ph x).next (.completed x c (c.cast (s.obj x).ptr) (s.obj x).word) = .idle := by
        rw [hp, hres.2.1, cast_cast hcop, hres.2.2]
        simp [Phase.next, hcop]
      rw [observe_self rfl, hnext, set_obj_self, hl]
      change Agree (s.caller x) none .idle _
      rw [hc]
      exact ⟨rfl, hst⟩
  | prepared x c hq hc hst hop =>
    obtain ⟨hl, _, ⟨hp, _⟩ | ⟨c₀, r, e, _, _, hres⟩⟩ := G.free hal hc
    · refine ⟨loc, G.step_at (x := x) (G.placed.same rfl rfl (fun _ => rfl) rfl) (fun _ _ => rfl)
        (fun y hy => set_obj_of_ne s _ hy) (fun y hy => ?_) (fun _ _ => rfl) ?_⟩
      · simp [hy]
      · change Agree (Function.update s.caller x (some c) x) (loc x) (ph x) ((s.set x _).obj x)
        rw [Function.update_self, hl, hp, set_obj_self]
        exact ⟨rfl, rfl, load_store c _, (store_state c _).trans hst⟩
    · exact absurd (hres.1.symm.trans hop) c₀.op_ne_zero
  | submitted x c hc hcap =>
    have hx := G.agree x
    rw [hc] at hx
    obtain ⟨hl, hp, hload, hst⟩ := hx
    refine ⟨_, G.move (G.placed.submitted hl rfl rfl rfl rfl) (fun _ _ => rfl) (fun y hy => ?_)
      (fun y hy => observe_of_ne rfl hy) ?_⟩
    · simp [hy]
    · change Agree (Function.update s.caller x none x) _ _ (s.obj x)
      rw [observe_self rfl, hp, Function.update_self]
      exact ⟨hload, hst⟩
  | refused x c hc hcap =>
    have hx := G.agree x
    rw [hc] at hx
    obtain ⟨hl, hp, hload, hst⟩ := hx
    refine ⟨loc, G.step_at (x := x) (G.placed.same rfl rfl (fun _ => rfl) rfl) (fun _ _ => rfl)
      (fun y hy => set_obj_of_ne s _ hy) (fun y hy => ?_) (fun y hy => observe_of_ne rfl hy) ?_⟩
    · simp [hy]
    · change Agree (Function.update s.caller x none x) (loc x) (observe ph _ x) ((s.set x _).obj x)
      rw [observe_self rfl, hp, hl, Function.update_self, set_obj_self]
      exact ⟨rfl, hst⟩
  | _ => exact ha.elim

/-- The steps of a worker. -/
theorem worker_good [Fintype ι] (hcap : Fintype.card ι ≤ Q.cqCap) (G : Good s ph loc) {a : Act ι ω}
    {ev : Ev ι} {w : ω} (ha : a.byWorker w) (hs : KStep Q s a s' ev) :
    ∃ loc', Good s' (observe ph ev) loc' := by
  have P := G.placed
  cases hs with
  | sqEmpty w => exact ⟨loc, G⟩
  | fetchSq w x sq hw hsq =>
    obtain ⟨hl, P'⟩ := P.fetchSq hw hsq
    have hx := G.agree_at hl
    obtain ⟨c, hp, hload, hst⟩ := hx.waiting (w := w) (Or.inl rfl)
    refine ⟨_, G.move P' (fun _ _ => rfl) (fun _ _ => rfl) (fun _ _ => rfl) ?_⟩
    change Agree (s.caller x) _ (ph x) (s.obj x)
    rw [hx.caller_eq, hp]
    exact ⟨hload, hst⟩
  | dropped w r e x hw hl =>
    have hloc : loc x = some (.worker w .fetched) := P.held_at (by rw [hw]; rfl)
    have hx := G.agree_at hloc
    obtain ⟨c, _, hload, _⟩ := hx.waiting (Or.inr rfl)
    rw [hl] at hload
    cases hload
  | executed w r e x c hw hl =>
    have hheld : (s.worker w).held = some (x, .fetched) := by rw [hw]; rfl
    obtain ⟨hloc, P'⟩ := P.stage (p := .executed x) { s.obj x with ptr := c.cast r, word := e } hheld rfl
    have hx := G.agree_at hloc
    obtain ⟨c', hp, hload, hst⟩ := hx.waiting (Or.inr rfl)
    have hop : (s.obj x).op = c.op := op_of_load hl
    rw [hl, Option.some.injEq] at hload
    subst hload
    refine ⟨_, G.move P' (fun y hy => set_obj_of_ne s _ hy) (fun _ _ => rfl)
      (fun y hy => observe_of_ne rfl hy) ?_⟩
    have hnext : (ph x).next (.executed x c r e) = .executed c r e := by
      rw [hp]; simp [Phase.next]
    change Agree (s.caller x) _ _ ((s.set x _).obj x)
    rw [hx.caller_eq, observe_self rfl, hnext, set_obj_self]
    exact ⟨⟨hop, rfl, rfl⟩, hst⟩
  | mark w x hw =>
    have hheld : (s.worker w).held = some (x, .executed) := by rw [hw]; rfl
    obtain ⟨hloc, P'⟩ := P.stage (p := .marked x) { s.obj x with state := 2 } hheld rfl
    exact ⟨_, G.move_state hloc (by simp) (by simp) P' rfl rfl⟩
  | added w x hw =>
    obtain ⟨hloc, P'⟩ := P.added hw
    refine ⟨_, G.move_done hloc (by simp) (by simp) P' rfl (fun _ _ => rfl) ?_ ?_⟩
    · exact fun c r e hres => hres
    · exact fun hst => hst
  | cqFull w x hw hfull =>
    have hloc : loc x = some (.worker w .marked) := P.held_at (by rw [hw]; rfl)
    have := P.cq_not_full hcap (x := x) (by simp [hloc])
    omega
  | post w used hw => exact ⟨loc, G.same (P.post hw) rfl rfl⟩
  | _ => exact ha.elim

/-- The steps of the reader. -/
theorem reader_good (G : Good s ph loc) {a : Act ι ω} {ev : Ev ι} (ha : a.byReader)
    (hs : KStep Q s a s' ev) : ∃ loc', Good s' (observe ph ev) loc' := by
  have P := G.placed
  cases hs with
  | poll hr | wait k hr | consumed hr | cqEmpty hr =>
    exact ⟨loc, G.same (P.same rfl rfl (fun _ => rfl) (by simp [hr, Reader.held])) rfl rfl⟩
  | consume hr => exact ⟨loc, G.same (P.same rfl rfl (fun _ => rfl) rfl) rfl rfl⟩
  | fetchCq x cq hr hcq =>
    obtain ⟨hloc, P'⟩ := P.fetchCq hr hcq
    refine ⟨_, G.move_done hloc (by simp) (by simp) P' rfl (fun _ _ => rfl) ?_ ?_⟩
    · exact fun c r e hres => hres
    · exact fun hst => hst
  | clear x hr =>
    obtain ⟨hloc, P'⟩ := P.clear { s.obj x with state := 0 } hr
    exact ⟨_, G.move_state hloc (by simp) (by simp) P' rfl rfl⟩
  | notified x hr hop =>
    obtain ⟨hloc, P'⟩ := P.notify hr
    have hx := G.agree_at hloc
    obtain ⟨c, r, e, hp, hres, hst⟩ := hx.done (by simp)
    refine ⟨_, G.move P' (fun _ _ => rfl) (fun _ _ => rfl) (fun y hy => observe_of_ne rfl hy) ?_⟩
    change Agree (s.caller x) _ _ (s.obj x)
    rw [hx.caller_eq, observe_self rfl, hp]
    exact ⟨hres, hst⟩
  | cancelled x hr hop =>
    obtain ⟨hloc, _⟩ := P.notify hr
    have hx := G.agree_at hloc
    obtain ⟨c, r, e, _, hres, _⟩ := hx.done (by simp)
    exact absurd (hres.1.symm.trans hop) c.op_ne_zero
  | _ => exact ha.elim

theorem gstep_cases {g g' : Sys ι ω × (ι → Phase)} {a : Act ι ω} {ev : Ev ι}
    (h : gstep Q g a = some (g', ev)) :
    allowed g.2 a = true ∧ kstep Q g.1 a = some (g'.1, ev) ∧ g'.2 = observe g.2 ev := by
  unfold gstep at h
  split at h
  · rename_i hal
    obtain ⟨⟨s', ev'⟩, hs, heq⟩ := Option.map_eq_some_iff.mp h
    cases heq
    exact ⟨hal, hs, rfl⟩
  · cases h

/-- **Every step of disciplined clients and of the threads keeps the invariant.** -/
theorem gstep_good [Fintype ι] (hcap : Fintype.card ι ≤ Q.cqCap) {g g' : Sys ι ω × (ι → Phase)}
    {a : Act ι ω} {ev : Ev ι} (hG : ∃ loc, Good g.1 g.2 loc) (h : gstep Q g a = some (g', ev)) :
    ∃ loc, Good g'.1 g'.2 loc := by
  obtain ⟨loc, G⟩ := hG
  obtain ⟨hal, hs, hph⟩ := gstep_cases h
  have hrule := kstep_rule hs
  rw [hph]
  rcases a.by_someone with ha | ⟨w, ha⟩ | ha
  · exact client_good G hal ha hrule
  · exact worker_good hcap G ha hrule
  · exact reader_good G ha hrule

omit [DecidableEq ι] [DecidableEq ω] in
theorem start_good (q : ι → Bool) : Good (startSys q : Sys ι ω) (fun _ => .idle) fun _ => none := by
  exact ⟨start_placed q, fun _ => ⟨rfl, rfl⟩⟩

omit [DecidableEq ι] [DecidableEq ω] in
theorem Good.not_wrong (G : Good s ph loc) (x : ι) : ph x ≠ .wrong := by
  intro hp
  have hx := G.agree x
  rw [hp] at hx
  cases hc : s.caller x with
  | some c =>
    rw [hc] at hx
    cases hx.2.1
  | none =>
    rw [hc] at hx
    cases hl : loc x with
    | none => rw [hl] at hx; exact hx
    | some l =>
      rw [hl] at hx
      rcases l with _ | ⟨_, _ | _ | _⟩ | _ | ⟨_ | _⟩ <;> exact hx

theorem gstep_not_full [Fintype ι] (hcap : Fintype.card ι ≤ Q.cqCap) {g g' : Sys ι ω × (ι → Phase)}
    {a : Act ι ω} {ev : Ev ι} (hG : ∃ loc, Good g.1 g.2 loc) (h : gstep Q g a = some (g', ev)) (x : ι) :
    ev ≠ .cqFull x := by
  rintro rfl
  obtain ⟨loc, G⟩ := gstep_good hcap hG h
  apply G.not_wrong x
  rw [(gstep_cases h).2.2, observe_self rfl]
  cases g.2 x <;> rfl

theorem phases_eq {g g' : Sys ι ω × (ι → Phase)} {as : List (Act ι ω)} {os : List (Ev ι)}
    (h : exec (gstep Q) g as = some (g', os)) : g'.2 = os.foldl observe g.2 := by
  induction as generalizing g os with
  | nil =>
    simp only [exec, Option.some.injEq, Prod.mk.injEq] at h
    rw [← h.1, ← h.2]
    rfl
  | cons a as ih =>
    obtain ⟨g₁, ev, os', hs, ht, rfl⟩ := exec_cons h
    rw [ih ht, (gstep_cases hs).2.2]
    rfl

/-! ## What a client finds -/

/-- A client of an object with no call in progress submits. -/
theorem idle_submits (hp : ph x = .idle) (hc : s.caller x = none) (G : Good s ph loc)
    (hq : (s.obj x).q = true) (c : Call) :
    ∃ s', kstep Q s (.call x c) = some (s', .silent) ∧
      (s.sq.length < Q.sqCap → ∃ s'', kstep Q s' (.add x) = some (s'', .submitted x c)) := by
  have hx := G.agree x
  rw [hc, hp] at hx
  obtain ⟨_, hop, hst⟩ := hx.idle
  refine ⟨_, call_prepared hq hc hst hop c, fun hroom => ?_⟩
  have hroom' : (s.set x { c.store (s.obj x) with op := c.op }).sq.length < Q.sqCap := hroom
  simp only [kstep, addStep, Function.update_self, hroom', if_true]
  exact ⟨_, rfl⟩

/-- A client of an object whose call was notified gets the result. -/
theorem notified_completes (G : Good s ph loc) {c₀ c : Call} {r : BitVec 64} {e : BitVec 32}
    (hp : ph x = .notified c₀ r e) (hop : c.op = c₀.op) {ev : Ev ι}
    (hs : kstep Q s (.call x c) = some (s', ev)) :
    ev = .completed x c (c₀.cast r) e ∧ (s'.obj x).op = 0 ∧ (s'.obj x).state = 0 := by
  have hal : allowed (ω := ω) ph (.call x c) = true := by simp [allowed, hp, hop]
  have free := fun hc => G.free hal hc
  rw [hp] at free
  cases kstep_rule hs with
  | busy _ _ hq hc hst => exact absurd (free hc).2.1 hst
  | prepared _ _ hq hc hst h0 =>
    obtain ⟨_, _, ⟨h, _⟩ | ⟨c₁, r₁, e₁, h, _, hres⟩⟩ := free hc
    · cases h
    · exact absurd (hres.1.symm.trans h0) c₁.op_ne_zero
  | completed _ _ hq hc hst h0 =>
    obtain ⟨_, _, ⟨h, _⟩ | ⟨c₁, r₁, e₁, h, hop₁, hres⟩⟩ := free hc
    · cases h
    · cases h
      rw [hres.2.1, hres.2.2, cast_cast hop, set_obj_self]
      exact ⟨rfl, rfl, hst⟩

end FFSys.Kcall
