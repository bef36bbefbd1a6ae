import FFSys.Kcall.Place

/-!
# The field `state`

The comment of the field says "0, 1: in SQ, 2: in CQ", and `_ffkcall_busy` relies on it.  No
statement assigns 1.

* `StateField` — what the comment says, together with at most one occurrence in the rings;
  `ExecutedOnce` — no submission is executed twice, or with other arguments.
* `kcall_state_iff` — they hold as long as nothing is submitted, and no longer; what remains of
  `StateField` if all clients are `Patient` is `RingState`.
* `kcall_busy_iff` — an object with a pending operation is busy from the assignment of 2 to the
  assignment of 0, and not before.
-/

set_option autoImplicit false

namespace FFSys.Kcall

open FFSys.Lib

variable {ι ω : Type}

/-- A thread has the object. -/
def InHands (s : Sys ι ω) (x : ι) : Prop :=
  (∃ w st, At s (.worker w st) x) ∨ ∃ b, At s (.reader b) x

/-- An operation of the object has been submitted and not yet been delivered. -/
def Pending (s : Sys ι ω) (x : ι) : Prop := ∃ k, At s k x

variable [DecidableEq ι]

/-- The comment of `state`, for the objects that no thread has. -/
def StateField (s : Sys ι ω) : Prop :=
  ∀ x, (s.sq ++ s.cq).count x ≤ 1 ∧
    (¬ InHands s x → ((s.obj x).state = 1 ↔ x ∈ s.sq) ∧ ((s.obj x).state = 2 ↔ x ∈ s.cq) ∧
      (x ∉ s.sq → x ∉ s.cq → (s.obj x).state = 0))

/-- The same without the value 1. -/
def RingState (s : Sys ι ω) : Prop :=
  ∀ x, (s.sq ++ s.cq).count x ≤ 1 ∧
    (¬ InHands s x → ((s.obj x).state = 2 ↔ x ∈ s.cq) ∧ (x ∉ s.cq → (s.obj x).state = 0))

/-- The step does not submit: a client that gets to `ffrq_add` finds the ring full. -/
def NotSubmitting (Q : Queue) (s : Sys ι ω) (a : Act ι ω) : Prop :=
  ∀ x c, a = .add x → s.caller x = some c → Q.sqCap ≤ s.sq.length

/-- If the step is a call of an object with a pending operation, then it is refused. -/
def Patient (s : Sys ι ω) (a : Act ι ω) : Prop :=
  ∀ x c, a = .call x c → Pending s x → (s.obj x).state ≠ 0

/-- The calls that were submitted and not executed, after an event. -/
def dueNext (due : ι → Option Call) : Ev ι → ι → Option Call
  | .submitted x c => Function.update due x (some c)
  | .executed x _ _ _ => Function.update due x none
  | _ => due

/-- Every execution is the first one of the last submission of the object, with its arguments. -/
def ExecutedOnce : (ι → Option Call) → List (Ev ι) → Prop
  | _, [] => True
  | due, ev :: evs =>
    (∀ x c r e, ev = .executed x c r e → due x = some c) ∧ ExecutedOnce (dueNext due ev) evs

/-! ## Before the first submission -/

/-- Nothing has been submitted. -/
structure Untouched (s : Sys ι ω) : Prop where
  sq : s.sq = []
  cq : s.cq = []
  worker : ∀ w, s.worker w = .idle
  reader : s.reader.held = none
  state : ∀ x, (s.obj x).state = 0

section Untouched

variable {Q : Queue} {s s' : Sys ι ω} {a : Act ι ω} {ev : Ev ι}

omit [DecidableEq ι] in
theorem Untouched.not_inHands (U : Untouched s) (x : ι) : ¬ InHands s x := by
  rintro (⟨w, st, h⟩ | ⟨b, h⟩)
  · rw [At, U.worker] at h; cases h
  · rw [At, U.reader] at h; cases h

theorem Untouched.stateField (U : Untouched s) : StateField s := by
  intro x
  refine ⟨by simp [U.sq, U.cq], fun _ => ?_⟩
  simp [U.sq, U.cq, U.state]

/-- A step that changes fields other than `state`. -/
theorem Untouched.set (U : Untouched s) {x : ι} {kc : Ffkcall} (h : kc.state = (s.obj x).state) :
    Untouched (s.set x kc) := by
  refine ⟨U.sq, U.cq, U.worker, U.reader, fun y => ?_⟩
  by_cases hy : y = x
  · subst hy; rw [set_obj_self, h, U.state]
  · rw [set_obj_of_ne s kc hy, U.state]

variable [DecidableEq ω]

theorem Untouched.step (U : Untouched s) (hs : KStep Q s a s' ev) (ha : NotSubmitting Q s a) :
    Untouched s' := by
  cases hs with
  | busy x c | direct x c r e | sqEmpty w => exact U
  | completed x c | cancel x => exact U.set rfl
  | prepared x c =>
    have U' : Untouched (s.set x { c.store (s.obj x) with op := c.op }) := U.set (store_state c _)
    exact ⟨U'.sq, U'.cq, U'.worker, U'.reader, U'.state⟩
  | refused x c =>
    have U' : Untouched (s.set x { s.obj x with op := 0 }) := U.set rfl
    exact ⟨U'.sq, U'.cq, U'.worker, U'.reader, U'.state⟩
  | submitted x c hc hcap =>
    have := ha x c rfl hc
    omega
  | fetchSq w x sq hw hsq => rw [U.sq] at hsq; cases hsq
  | dropped w r e x hw | executed w r e x c hw | mark w x hw | added w x hw | cqFull w x hw
  | post w used hw =>
    rw [U.worker] at hw
    cases hw
  | poll | wait k | consumed | cqEmpty => exact ⟨U.sq, U.cq, U.worker, rfl, U.state⟩
  | consume => exact ⟨U.sq, U.cq, U.worker, U.reader, U.state⟩
  | fetchCq x cq hr hcq => rw [U.cq] at hcq; cases hcq
  | clear x hr | notified x hr | cancelled x hr =>
    have := U.reader
    rw [hr] at this
    cases this

theorem Untouched.not_executed (U : Untouched s) (hs : KStep Q s a s' ev) (x : ι) (c : Call)
    (r : BitVec 64) (e : BitVec 32) : ev ≠ .executed x c r e := by
  intro hev
  cases hs with
  | executed w r e x c hw =>
    rw [U.worker] at hw
    cases hw
  | _ => cases hev

omit [DecidableEq ω] in
/-- The first submission breaks what the comment says. -/
theorem Untouched.submitted_breaks (U : Untouched s) {x : ι} (hsq : s'.sq = s.sq ++ [x])
    (hw : s'.worker = s.worker) (hr : s'.reader = s.reader) (hobj : s'.obj = s.obj) :
    ¬ StateField s' := by
  intro h
  have hands : ¬ InHands s' x := by
    have := U.not_inHands x
    simpa only [InHands, At, hw, hr] using this
  have hstate := ((h x).2 hands).1.mpr (by simp [hsq])
  rw [hobj, U.state] at hstate
  cases hstate

end Untouched

/-! ## After it -/

def stateOf : Option (Loc ω) → BitVec 16
  | none => 0
  | some k => stateAt k

/-- The arguments of a call that waits for its execution are those that were submitted, or the call
    is cancelled. -/
def Ready : Option Call → Option (Loc ω) → Option Call → Ffkcall → Prop
  | some c, none, _, kc => kc.op = 0 ∨ kc.load = some c
  | some _, some _, _, _ => False
  | none, some .sq, due, kc => kc.op = 0 ∨ ∃ c, due = some c ∧ kc.load = some c
  | none, some (.worker _ .fetched), due, kc => kc.op = 0 ∨ ∃ c, due = some c ∧ kc.load = some c
  | none, _, _, _ => True

/-- Client, place and fields of an object agree. -/
def Fits (caller : Option Call) (l : Option (Loc ω)) (due : Option Call) (kc : Ffkcall) : Prop :=
  kc.state = stateOf l ∧ Ready caller l due kc

structure Kept (s : Sys ι ω) (loc : ι → Option (Loc ω)) (due : ι → Option Call) : Prop where
  placed : Placed s loc
  fits : ∀ x, Fits (s.caller x) (loc x) (due x) (s.obj x)

section Fits

omit [DecidableEq ι]

variable {caller due : Option Call} {l : Option (Loc ω)} {kc : Ffkcall}

theorem Fits.caller_eq {k : Loc ω} (h : Fits caller (some k) due kc) : caller = none := by
  cases caller with
  | none => rfl
  | some c => exact h.2.elim

theorem Fits.loc_eq {c : Call} (h : Fits (some c) l due kc) : l = none := by
  cases l with
  | none => rfl
  | some k => exact h.2.elim

theorem Fits.cancel (h : Fits caller l due kc) : Fits caller l due { kc with op := 0 } := by
  refine ⟨h.1, ?_⟩
  cases caller with
  | some c =>
    rw [h.loc_eq]
    exact Or.inl rfl
  | none =>
    rcases l with _ | _ | ⟨_, _ | _ | _⟩ | _ | ⟨_ | _⟩ <;> first | exact Or.inl rfl | trivial

theorem Fits.executed {w : ω} (h : Fits caller (some (.worker w .fetched)) due kc) {c : Call}
    (hl : kc.load = some c) : due = some c := by
  have hc := h.caller_eq
  subst hc
  rcases h.2 with h0 | ⟨c', hdue, hload⟩
  · exact absurd ((op_of_load hl).symm.trans h0) c.op_ne_zero
  · rw [hl] at hload
    cases hload
    exact hdue

end Fits

section Kept

variable {Q : Queue} {s s' : Sys ι ω} {loc : ι → Option (Loc ω)} {due due' : ι → Option Call} {x : ι}

/-- A step that moves one object. -/
theorem Kept.move (K : Kept s loc due) {l : Option (Loc ω)} (P : Placed s' (Function.update loc x l))
    (hobj : ∀ y, y ≠ x → s'.obj y = s.obj y) (hcaller : ∀ y, y ≠ x → s'.caller y = s.caller y)
    (hdue : ∀ y, y ≠ x → due' y = due y) (hx : Fits (s'.caller x) l (due' x) (s'.obj x)) :
    Kept s' (Function.update loc x l) due' := by
  refine ⟨P, fun y => ?_⟩
  by_cases hy : y = x
  · subst hy; rw [Function.update_self]; exact hx
  · rw [Function.update_of_ne hy, hobj y hy, hcaller y hy, hdue y hy]
    exact K.fits y

omit [DecidableEq ι] in
/-- A step that moves nothing. -/
theorem Kept.same (K : Kept s loc due) (P : Placed s' loc) (hobj : ∀ y, y ≠ x → s'.obj y = s.obj y)
    (hcaller : ∀ y, y ≠ x → s'.caller y = s.caller y)
    (hx : Fits (s'.caller x) (loc x) (due x) (s'.obj x)) : Kept s' loc due := by
  refine ⟨P, fun y => ?_⟩
  by_cases hy : y = x
  · subst hy; exact hx
  · rw [hobj y hy, hcaller y hy]
    exact K.fits y

omit [DecidableEq ι] in
theorem Kept.fits_at (K : Kept s loc due) {k : Loc ω} (h : loc x = some k) :
    Fits (s.caller x) (some k) (due x) (s.obj x) := by
  rw [← h]
  exact K.fits x

/-- A step that moves an object and writes its fields, to a place where nothing is asked of it. -/
theorem Kept.move_write (K : Kept s loc due) {k : Loc ω} {l : Option (Loc ω)} {kc : Ffkcall}
    (hl : loc x = some k) (P : Placed s' (Function.update loc x l)) (hobj : s'.obj = (s.set x kc).obj)
    (hcaller : s'.caller = s.caller) (hdue : ∀ y, y ≠ x → due' y = due y)
    (hstate : kc.state = stateOf l) (hready : Ready none l (due' x) kc) :
    Kept s' (Function.update loc x l) due' := by
  refine K.move P (fun y hy => ?_) (fun y _ => congrFun hcaller y) hdue ?_
  · rw [hobj, set_obj_of_ne s _ hy]
  · rw [hobj, hcaller, (K.fits_at hl).caller_eq, set_obj_self]
    exact ⟨hstate, hready⟩

/-- A step that moves an object and leaves it alone, to a place where nothing is asked of it. -/
theorem Kept.move_alone (K : Kept s loc due) {k : Loc ω} {l : Option (Loc ω)} (hl : loc x = some k)
    (P : Placed s' (Function.update loc x l)) (hobj : s'.obj = s.obj) (hcaller : s'.caller = s.caller)
    (hstate : stateOf (some k) = stateOf l) (hready : Ready none l (due x) (s.obj x)) :
    Kept s' (Function.update loc x l) due := by
  have hx := K.fits_at hl
  refine K.move P (fun y _ => congrFun hobj y) (fun y _ => congrFun hcaller y) (fun _ _ => rfl) ?_
  rw [hobj, hcaller, hx.caller_eq]
  exact ⟨hx.1.trans hstate, hready⟩

omit [DecidableEq ι] in
theorem Kept.free (K : Kept s loc due) (h : ¬ Pending s x) : loc x = none := by
  cases hl : loc x with
  | none => rfl
  | some k => exact absurd ⟨k, (K.placed.at_iff k x).mpr hl⟩ h

variable [DecidableEq ω]

/-- The steps of the clients. -/
theorem Kept.client (K : Kept s loc due) {a : Act ι ω} {ev : Ev ι} (hs : KStep Q s a s' ev)
    (hclient : a.byClient) (ha : Patient s a) : ∃ loc', Kept s' loc' (dueNext due ev) := by
  have P := K.placed
  cases hs with
  | busy x c | direct x c r e => exact ⟨loc, K⟩
  | completed x c hq hc hst =>
    have hl := K.free fun h => ha x c rfl h hst
    refine ⟨loc, K.same (x := x) (P.same rfl rfl (fun _ => rfl) rfl) (fun y hy => set_obj_of_ne s _ hy)
      (fun _ _ => rfl) ?_⟩
    change Fits (s.caller x) (loc x) (due x) ((s.set x _).obj x)
    rw [hc, hl, set_obj_self]
    exact ⟨hst, trivial⟩
  | cancel x =>
    refine ⟨loc, K.same (x := x) (P.same rfl rfl (fun _ => rfl) rfl) (fun y hy => set_obj_of_ne s _ hy)
      (fun _ _ => rfl) ?_⟩
    change Fits (s.caller x) (loc x) (due x) ((s.set x _).obj x)
    rw [set_obj_self]
    exact (K.fits x).cancel
  | prepared x c hq hc hst =>
    have hl := K.free fun h => ha x c rfl h hst
    refine ⟨loc, K.same (x := x) (P.same rfl rfl (fun _ => rfl) rfl) (fun y hy => set_obj_of_ne s _ hy)
      (fun y hy => Function.update_of_ne hy ..) ?_⟩
    change Fits (Function.update s.caller x (some c) x) (loc x) (due x) ((s.set x _).obj x)
    rw [Function.update_self, hl, set_obj_self]
    exact ⟨(store_state c _).trans hst, Or.inr (load_store c _)⟩
  | refused x c hc =>
    have hx := K.fits x
    rw [hc] at hx
    refine ⟨loc, K.same (x := x) (P.same rfl rfl (fun _ => rfl) rfl) (fun y hy => set_obj_of_ne s _ hy)
      (fun y hy => Function.update_of_ne hy ..) ?_⟩
    change Fits (Function.update s.caller x none x) (loc x) (due x) ((s.set x _).obj x)
    rw [Function.update_self, set_obj_self]
    refine ⟨hx.1, ?_⟩
    rw [hx.loc_eq]
    trivial
  | submitted x c hc =>
    have hx := K.fits x
    rw [hc] at hx
    have hl := hx.loc_eq
    rw [hl] at hx
    refine ⟨_, K.move (P.submitted hl rfl rfl rfl rfl) (fun _ _ => rfl)
      (fun y hy => Function.update_of_ne hy ..) (fun y hy => Function.update_of_ne hy ..) ?_⟩
    change Fits (Function.update s.caller x none x) _ (Function.update due x (some c) x) (s.obj x)
    rw [Function.update_self, Function.update_self]
    exact ⟨hx.1, hx.2.imp_right fun h => ⟨c, rfl, h⟩⟩
  | _ => exact hclient.elim

/-- The steps of a worker. -/
theorem Kept.worker [Fintype ι] (hcap : Fintype.card ι ≤ Q.cqCap) (K : Kept s loc due) {a : Act ι ω}
    {ev : Ev ι} (hs : KStep Q s a s' ev) {w : ω} (hworker : a.byWorker w) :
    ∃ loc', Kept s' loc' (dueNext due ev) := by
  have P := K.placed
  cases hs with
  | sqEmpty w => exact ⟨loc, K⟩
  | fetchSq w x sq hw hsq =>
    obtain ⟨hl, P'⟩ := P.fetchSq hw hsq
    have hx := K.fits_at hl
    have hc := hx.caller_eq
    rw [hc] at hx
    refine ⟨_, K.move P' (fun _ _ => rfl) (fun _ _ => rfl) (fun _ _ => rfl) ?_⟩
    change Fits (s.caller x) _ (due x) (s.obj x)
    rw [hc]
    exact hx
  | dropped w r e x hw =>
    have hheld : (s.worker w).held = some (x, .fetched) := by rw [hw]; rfl
    exact ⟨_, K.move_write (P.held_at hheld) (P.letGo _ hheld) rfl rfl (fun _ _ => rfl) rfl trivial⟩
  | executed w r e x c hw =>
    have hheld : (s.worker w).held = some (x, .fetched) := by rw [hw]; rfl
    obtain ⟨hl, P'⟩ := P.stage (p := .executed x) { s.obj x with ptr := c.cast r, word := e } hheld rfl
    exact ⟨_, K.move_write hl P' rfl rfl (fun y hy => Function.update_of_ne hy ..)
      (K.fits_at hl).1 trivial⟩
  | mark w x hw =>
    have hheld : (s.worker w).held = some (x, .executed) := by rw [hw]; rfl
    obtain ⟨hl, P'⟩ := P.stage (p := .marked x) { s.obj x with state := 2 } hheld rfl
    exact ⟨_, K.move_write hl P' rfl rfl (fun _ _ => rfl) rfl trivial⟩
  | added w x hw =>
    obtain ⟨hl, P'⟩ := P.added hw
    exact ⟨_, K.move_alone hl P' rfl rfl rfl trivial⟩
  | cqFull w x hw hfull =>
    have hl : loc x = some (.worker w .marked) := P.held_at (by rw [hw]; rfl)
    have := P.cq_not_full hcap (x := x) (by simp [hl])
    omega
  | post w used hw => exact ⟨loc, P.post hw, K.fits⟩
  | _ => exact hworker.elim

/-- The steps of the reader. -/
theorem Kept.reader (K : Kept s loc due) {a : Act ι ω} {ev : Ev ι}
    (hs : KStep Q s a s' ev) (hreader : a.byReader) : ∃ loc', Kept s' loc' (dueNext due ev) := by
  have P := K.placed
  cases hs with
  | poll hr | wait k hr | consumed hr | cqEmpty hr =>
    exact ⟨loc, P.same rfl rfl (fun _ => rfl) (by simp [hr, Reader.held]), K.fits⟩
  | consume hr => exact ⟨loc, P.same rfl rfl (fun _ => rfl) rfl, K.fits⟩
  | fetchCq x cq hr hcq =>
    obtain ⟨hl, P'⟩ := P.fetchCq hr hcq
    exact ⟨_, K.move_alone hl P' rfl rfl rfl trivial⟩
  | clear x hr =>
    obtain ⟨hl, P'⟩ := P.clear { s.obj x with state := 0 } hr
    exact ⟨_, K.move_write hl P' rfl rfl (fun _ _ => rfl) rfl trivial⟩
  | notified x hr | cancelled x hr =>
    obtain ⟨hl, P'⟩ := P.notify hr
    exact ⟨_, K.move_alone hl P' rfl rfl rfl trivial⟩
  | _ => exact hreader.elim

theorem Kept.step [Fintype ι] (hcap : Fintype.card ι ≤ Q.cqCap) (K : Kept s loc due) {a : Act ι ω}
    {ev : Ev ι} (hs : KStep Q s a s' ev) (ha : Patient s a) :
    ∃ loc', Kept s' loc' (dueNext due ev) := by
  rcases a.by_someone with h | ⟨w, h⟩ | h
  · exact K.client hs h ha
  · exact K.worker hcap hs h
  · exact K.reader hs h

theorem Kept.executed (K : Kept s loc due) {a : Act ι ω} {ev : Ev ι} (hs : KStep Q s a s' ev)
    {c : Call} {r : BitVec 64} {e : BitVec 32} (hev : ev = .executed x c r e) : due x = some c := by
  cases hs with
  | executed w r e x c hw hl =>
    cases hev
    have hheld : (s.worker w).held = some (x, .fetched) := by rw [hw]; rfl
    exact (K.fits_at (K.placed.held_at hheld)).executed hl
  | _ => cases hev

omit [DecidableEq ι] [DecidableEq ω] in
theorem Kept.nodup (K : Kept s loc due) : (s.sq ++ s.cq).Nodup := by
  refine List.nodup_append.mpr ⟨K.placed.sq_nodup, K.placed.cq_nodup, ?_⟩
  rintro x hx y hy rfl
  have h1 := (K.placed.at_iff .sq x).mp hx
  have h2 := (K.placed.at_iff .cq x).mp hy
  rw [h1] at h2
  cases h2

omit [DecidableEq ω] in
theorem Kept.ringState (K : Kept s loc due) : RingState s := by
  intro x
  refine ⟨List.nodup_iff_count_le_one.mp K.nodup x, fun hands => ?_⟩
  have hcq : x ∈ s.cq ↔ loc x = some .cq := K.placed.at_iff .cq x
  rw [hcq, (K.fits x).1]
  cases hl : loc x with
  | none => simp [stateOf]
  | some k =>
    have hk := (K.placed.at_iff k x).mpr hl
    cases k with
    | sq => simp [stateOf, stateAt]
    | cq => simp [stateOf, stateAt]
    | worker w st => exact absurd (Or.inl ⟨w, st, hk⟩) hands
    | reader b => exact absurd (Or.inr ⟨b, hk⟩) hands

omit [DecidableEq ι] [DecidableEq ω] in
/-- The places of an object with a state. -/
theorem Kept.state_ne_zero (K : Kept s loc due) (x : ι) :
    (s.obj x).state ≠ 0 ↔ x ∈ s.cq ∨ (∃ w, s.worker w = .marked x) ∨ s.reader = .holding x := by
  have hmarked : ∀ w, s.worker w = .marked x ↔ loc x = some (.worker w .marked) := by
    intro w
    rw [← K.placed.at_iff, At]
    cases s.worker w <;> simp [Worker.held]
  have hholding : s.reader = .holding x ↔ loc x = some (.reader false) := by
    rw [← K.placed.at_iff, At]
    cases s.reader <;> simp [Reader.held]
  have hcq : x ∈ s.cq ↔ loc x = some .cq := K.placed.at_iff .cq x
  rw [(K.fits x).1, hcq, hholding]
  simp only [hmarked]
  rcases loc x with _ | _ | ⟨w, _ | _ | _⟩ | _ | ⟨_ | _⟩ <;> simp [stateOf, stateAt]

end Kept

/-! ## Runs -/

section Runs

variable [DecidableEq ω] {Q : Queue}

omit [DecidableEq ι] [DecidableEq ω] in
theorem start_kept (q : ι → Bool) : Kept (startSys q : Sys ι ω) (fun _ => none) fun _ => none :=
  ⟨start_placed q, fun _ => ⟨rfl, trivial⟩⟩

omit [DecidableEq ι] [DecidableEq ω] in
theorem start_untouched (q : ι → Bool) : Untouched (startSys q : Sys ι ω) :=
  ⟨rfl, rfl, fun _ => rfl, rfl, fun _ => rfl⟩

theorem untouched_iff : ∀ (as : List (Act ι ω)) (s : Sys ι ω), Untouched s →
    (Always (kstep Q) StateField s as ↔ EachStep (kstep Q) (NotSubmitting Q) s as)
  | [], s, U => ⟨fun _ => trivial, fun _ => U.stateField⟩
  | a :: as, s, U => by
    constructor
    · intro h
      have ha : NotSubmitting Q s a := by
        rintro x c rfl hc
        by_contra hcap
        have hs : kstep Q s (.add x) = some ({ s with
            caller := Function.update s.caller x none, sq := s.sq ++ [x],
            semPosts := s.semPosts + if Q.sem then 1 else 0 }, .submitted x c) := by
          simp only [kstep, addStep, hc, Nat.not_le.mp hcap, if_true]
        exact absurd (h.tail hs).head (U.submitted_breaks (x := x) rfl rfl rfl rfl)
      refine ⟨ha, ?_⟩
      cases hs : kstep Q s a with
      | none => trivial
      | some r => exact (untouched_iff as r.1 (U.step (kstep_rule hs) ha)).mp (h.tail hs)
    · intro h
      refine ⟨U.stateField, ?_⟩
      cases hs : kstep Q s a with
      | none => trivial
      | some r => exact (untouched_iff as r.1 (U.step (kstep_rule hs) h.1)).mpr (h.tail hs)

theorem always_kept [Fintype ι] (hcap : Fintype.card ι ≤ Q.cqCap) (q : ι → Bool) (as : List (Act ι ω))
    (h : EachStep (kstep Q) Patient (startSys q) as) :
    Always (kstep Q) (fun s => ∃ loc due, Kept s loc due) (startSys q) as := by
  refine always_of_eachStep ?_ as _ ⟨_, _, start_kept q⟩ h
  rintro s a s' ev ⟨loc, due, K⟩ ha hs
  obtain ⟨loc', K'⟩ := K.step hcap (kstep_rule hs) ha
  exact ⟨loc', _, K'⟩

/-- An invariant that knows the calls that are due. -/
theorem executedOnce_of_step {C : Sys ι ω → Act ι ω → Prop} {I : Sys ι ω → (ι → Option Call) → Prop}
    (hstep : ∀ s a s' ev due, I s due → C s a → KStep Q s a s' ev →
      (∀ x c r e, ev = .executed x c r e → due x = some c) ∧ I s' (dueNext due ev)) :
    ∀ (as : List (Act ι ω)) (s t : Sys ι ω) (os : List (Ev ι)) (due : ι → Option Call), I s due →
      EachStep (kstep Q) C s as → exec (kstep Q) s as = some (t, os) → ExecutedOnce due os
  | [], s, t, os, due, _, _, h => by
    simp only [exec, Option.some.injEq, Prod.mk.injEq] at h
    rw [← h.2]
    trivial
  | a :: as, s, t, os, due, hI, hC, h => by
    obtain ⟨s', ev, os', hs, ht, rfl⟩ := exec_cons h
    obtain ⟨hev, hI'⟩ := hstep s a s' ev due hI hC.1 (kstep_rule hs)
    exact ⟨hev, executedOnce_of_step hstep as s' t os' _ hI' (hC.tail hs) ht⟩

/-- **The comment of `state` and the code.**  In all states of a run the field is what its comment
    says and no object is in the rings twice, and no submission is executed twice or with other
    arguments, if and only if the run never submits.  If no call of an object with a pending
    operation is let through, and the completion ring has room for all objects, then no object is in
    the rings twice, no submission is executed twice or with other arguments, and the field is 2 in
    the completion ring and 0 elsewhere, the submission ring included. -/
theorem kcall_state_iff [Fintype ι] (Q : Queue) (q : ι → Bool) (as : List (Act ι ω)) :
    (Always (kstep Q) StateField (startSys q) as ∧
        (∀ s os, exec (kstep Q) (startSys q) as = some (s, os) → ExecutedOnce (fun _ => none) os) ↔
      EachStep (kstep Q) (NotSubmitting Q) (startSys q) as) ∧
    (Fintype.card ι ≤ Q.cqCap → EachStep (kstep Q) Patient (startSys q) as →
      Always (kstep Q) RingState (startSys q) as ∧
        ∀ s os, exec (kstep Q) (startSys q) as = some (s, os) → ExecutedOnce (fun _ => none) os) := by
  have hiff := untouched_iff (Q := Q) as _ (start_untouched q)
  refine ⟨⟨fun h => hiff.mp h.1, fun h => ⟨hiff.mpr h, fun s os hrun => ?_⟩⟩,
    fun hcap h => ⟨?_, fun s os hrun => ?_⟩⟩
  · refine executedOnce_of_step (I := fun s _ => Untouched s) ?_ as _ s os _ (start_untouched q) h hrun
    intro s a s' ev due U ha hs
    exact ⟨fun x c r e hev => absurd hev (U.not_executed hs x c r e), U.step hs ha⟩
  · apply (always_kept hcap q as h).mono
    rintro s ⟨loc, due, K⟩
    exact K.ringState
  · refine executedOnce_of_step (I := fun s due => ∃ loc, Kept s loc due) ?_ as _ s os _
      ⟨_, start_kept q⟩ h hrun
    rintro s a s' ev due ⟨loc, K⟩ ha hs
    exact ⟨fun x c r e hev => K.executed hs hev, K.step hcap hs ha⟩

/-- A read is submitted, cancelled, and submitted again before a worker has come to it. -/
def resubmission : List (Act Unit Unit) :=
  [.call () (.fileRead 3 64 10), .add (), .cancel (), .call () (.fileRead 3 128 10), .add ()]

/-- The worker takes both. -/
def bothTaken : List (Act Unit Unit) :=
  [.fetchSq (), .exec () 5 0, .mark (), .complete (), .post (), .fetchSq (), .exec () 0 0]

/-- The object is twice in the submission ring, with state 0.  The second submission is executed by
    both, the second time with the result of the first as its buffer and its error code as the
    descriptor. -/
theorem kcall_state_resubmitted :
    (∃ s os, exec (kstep ⟨2, 2, true, true, false⟩) (startSys fun _ => true) resubmission = some (s, os) ∧
      s.sq = [(), ()] ∧ (s.obj ()).state = 0 ∧ ¬ StateField s) ∧
    ∃ s os, exec (kstep ⟨2, 2, true, true, false⟩) (startSys fun _ => true) (resubmission ++ bothTaken) =
        some (s, os) ∧
      os = [.silent, .submitted () (.fileRead 3 64 10), .silent, .silent,
        .submitted () (.fileRead 3 128 10), .silent, .executed () (.fileRead 3 128 10) 5 0, .silent,
        .silent, .silent, .silent, .executed () (.fileRead 0 5 10) 0 0] ∧
      ¬ ExecutedOnce (fun _ => none) os := by
  constructor
  · have h : (exec (kstep ⟨2, 2, true, true, false⟩) (startSys fun _ => true) resubmission).map
        (fun r => (r.1.sq, (r.1.obj ()).state)) = some ([(), ()], 0) := by decide +kernel
    obtain ⟨⟨s, os⟩, hrun, heq⟩ := Option.map_eq_some_iff.mp h
    simp only [Prod.mk.injEq] at heq
    refine ⟨s, os, hrun, heq.1, heq.2, fun hfield => ?_⟩
    have := (hfield ()).1
    simp [heq.1] at this
  · have h : (exec (kstep ⟨2, 2, true, true, false⟩) (startSys fun _ => true)
        (resubmission ++ bothTaken)).map Prod.snd = some [.silent, .submitted () (.fileRead 3 64 10),
          .silent, .silent, .submitted () (.fileRead 3 128 10), .silent,
          .executed () (.fileRead 3 128 10) 5 0, .silent, .silent, .silent, .silent,
          .executed () (.fileRead 0 5 10) 0 0] := by decide +kernel
    obtain ⟨⟨s, os⟩, hrun, heq⟩ := Option.map_eq_some_iff.mp h
    refine ⟨s, os, hrun, heq, fun honce => ?_⟩
    simp only at heq
    subst heq
    simp [ExecutedOnce, dueNext] at honce

/-! ## The busy law -/

/-- Every call of the object fails with `FFKCALL_EBUSY` and has no effect: what follows is what
    follows without it. -/
def BusyLaw (Q : Queue) (s : Sys ι ω) (x : ι) : Prop :=
  ∀ c as, exec (kstep Q) s (.call x c :: as) =
    (exec (kstep Q) s as).map fun r => (r.1, .busy x c :: r.2)

theorem busyLaw_iff {s : Sys ι ω} {x : ι} (hq : (s.obj x).q = true) (hc : s.caller x = none) :
    BusyLaw Q s x ↔ (s.obj x).state ≠ 0 := by
  constructor
  · intro h hst
    have hcall := h (.fileRead 0 0 0) []
    by_cases hop : (s.obj x).op = 0
    · rw [exec_of_step (call_prepared hq hc hst hop _)] at hcall
      simp [exec] at hcall
    · rw [exec_of_step (call_completed hq hc hst hop _)] at hcall
      simp [exec] at hcall
  · exact fun hst c as => exec_of_step (call_busy hq hc hst c) as

omit [DecidableEq ι] in
/-- A worker with nothing to do but with `x`, which was pending. -/
theorem pending_work {s : Sys ι ω} {w : ω} {p : Worker ι} {y : ι} (h : Pending (s.work w p) y) :
    Pending s y ∨ ∃ st, p.held = some (y, st) := by
  obtain ⟨k, hk⟩ := h
  cases k with
  | sq => exact Or.inl ⟨.sq, hk⟩
  | cq => exact Or.inl ⟨.cq, hk⟩
  | reader b => exact Or.inl ⟨.reader b, hk⟩
  | worker w' st =>
    by_cases hw : w' = w
    · subst hw
      rw [At, work_worker_self] at hk
      exact Or.inr ⟨st, hk⟩
    · rw [At, work_worker_of_ne s p hw] at hk
      exact Or.inl ⟨.worker w' st, hk⟩

omit [DecidableEq ι] [DecidableEq ω] in
/-- After a step that only changes the reader, an operation was pending before or is the reader's. -/
theorem pending_read {s s' : Sys ι ω} {y : ι} (h : Pending s' y) (hsq : s'.sq = s.sq)
    (hcq : s'.cq = s.cq) (hw : s'.worker = s.worker) :
    Pending s y ∨ ∃ b, s'.reader.held = some (y, b) := by
  obtain ⟨k, hk⟩ := h
  cases k with
  | sq => exact Or.inl ⟨.sq, by rw [At, ← hsq]; exact hk⟩
  | worker w st => exact Or.inl ⟨.worker w st, by rw [At, ← hw]; exact hk⟩
  | cq => exact Or.inl ⟨.cq, by rw [At, ← hcq]; exact hk⟩
  | reader b => exact Or.inr ⟨b, hk⟩

/-- A pending operation was pending or on its way before the step. -/
theorem pending_back {s s' : Sys ι ω} {a : Act ι ω} {ev : Ev ι} (hs : KStep Q s a s' ev) {y : ι}
    (h : Pending s' y) : Pending s y ∨ s.caller y ≠ none := by
  cases hs with
  | busy x c | direct x c r e | sqEmpty w => exact Or.inl h
  | completed x c | prepared x c | refused x c | cancel x | consume =>
    obtain ⟨k, hk⟩ := h
    exact Or.inl ⟨k, by cases k <;> exact hk⟩
  | submitted x c hc =>
    obtain ⟨k, hk⟩ := h
    cases k with
    | sq =>
      rcases List.mem_append.mp hk with h | h
      · exact Or.inl ⟨.sq, h⟩
      · rw [List.mem_singleton.mp h, hc]
        exact Or.inr (by simp)
    | worker w st => exact Or.inl ⟨.worker w st, hk⟩
    | cq => exact Or.inl ⟨.cq, hk⟩
    | reader b => exact Or.inl ⟨.reader b, hk⟩
  | fetchSq w x sq hw hsq =>
    rcases pending_work h with ⟨k, hk⟩ | ⟨st, hst⟩
    · refine Or.inl ⟨k, ?_⟩
      cases k with
      | sq => rw [At, hsq]; exact List.mem_cons_of_mem x hk
      | worker _ _ | cq | reader _ => exact hk
    · cases hst
      exact Or.inl ⟨.sq, by rw [At, hsq]; exact List.mem_cons_self⟩
  | executed w r e x c hw | mark w x hw =>
    rcases pending_work h with ⟨k, hk⟩ | ⟨st, hst⟩
    · exact Or.inl ⟨k, by cases k <;> exact hk⟩
    · cases hst
      exact Or.inl ⟨.worker w _, by rw [At, hw]; rfl⟩
  | dropped w r e x hw | cqFull w x hw | post w used hw =>
    rcases pending_work h with ⟨k, hk⟩ | ⟨st, hst⟩
    · exact Or.inl ⟨k, by cases k <;> exact hk⟩
    · cases hst
  | added w x hw =>
    rcases pending_work h with ⟨k, hk⟩ | ⟨st, hst⟩
    · cases k with
      | cq =>
        rcases List.mem_append.mp hk with h | h
        · exact Or.inl ⟨.cq, h⟩
        · rw [List.mem_singleton.mp h]
          exact Or.inl ⟨.worker w .marked, by rw [At, hw]; rfl⟩
      | sq => exact Or.inl ⟨.sq, hk⟩
      | worker w st => exact Or.inl ⟨.worker w st, hk⟩
      | reader b => exact Or.inl ⟨.reader b, hk⟩
    · cases hst
  | poll | wait k | consumed | cqEmpty | notified x | cancelled x =>
    rcases pending_read (s := s) h rfl rfl rfl with h | ⟨b, hb⟩
    · exact Or.inl h
    · cases hb
  | fetchCq x cq hr hcq =>
    rcases pending_read (s := { s with cq }) h rfl rfl rfl with ⟨k, hk⟩ | ⟨b, hb⟩
    · refine Or.inl ⟨k, ?_⟩
      cases k with
      | cq => rw [At, hcq]; exact List.mem_cons_of_mem x hk
      | sq | worker _ _ | reader _ => exact hk
    · cases hb
      exact Or.inl ⟨.cq, by rw [At, hcq]; exact List.mem_cons_self⟩
  | clear x hr =>
    rcases pending_read (s := s) h rfl rfl rfl with h | ⟨b, hb⟩
    · exact Or.inl h
    · cases hb
      exact Or.inl ⟨.reader false, by rw [At, hr]; rfl⟩

/-- No step attaches an object to a queue or detaches it. -/
theorem q_eq {s s' : Sys ι ω} {a : Act ι ω} {ev : Ev ι} (hs : KStep Q s a s' ev) (y : ι) :
    (s'.obj y).q = (s.obj y).q := by
  have hset : ∀ x kc, kc.q = (s.obj x).q → ((s.set x kc).obj y).q = (s.obj y).q := by
    intro x kc h
    by_cases hy : y = x
    · subst hy; rw [set_obj_self, h]
    · rw [set_obj_of_ne s kc hy]
  cases hs with
  | completed x c | cancel x | refused x c | dropped w r e x | executed w r e x c | mark w x | clear x =>
    exact hset x _ rfl
  | prepared x c => exact hset x _ (store_q c _)
  | _ => rfl

/-- Only objects that are attached to the queue are submitted. -/
def Attached (s : Sys ι ω) : Prop :=
  ∀ x, Pending s x ∨ s.caller x ≠ none → (s.obj x).q = true

theorem attached_step {s s' : Sys ι ω} {a : Act ι ω} {ev : Ev ι} (hs : KStep Q s a s' ev)
    (h : Attached s) : Attached s' := by
  intro y hy
  rw [q_eq hs y]
  by_cases hold : Pending s y ∨ s.caller y ≠ none
  · exact h y hold
  · -- the step is the call itself
    rw [not_or, not_not] at hold
    have hcaller : s'.caller y ≠ none :=
      hy.resolve_left fun hp => (pending_back hs hp).elim hold.1 fun hc => hc hold.2
    cases hs with
    | prepared x c hq =>
      by_cases hyx : y = x
      · subst hyx; exact hq
      · exact absurd (by simp [hyx, hold.2]) hcaller
    | submitted x c | refused x c =>
      by_cases hyx : y = x
      · exact absurd (by simp [hyx]) hcaller
      · exact absurd (by simp [hyx, hold.2]) hcaller
    | _ => exact absurd hold.2 hcaller

omit [DecidableEq ι] [DecidableEq ω] in
theorem start_attached (q : ι → Bool) : Attached (startSys q : Sys ι ω) := by
  rintro x (⟨k, hk⟩ | hc)
  · rw [(start_placed q).at_iff] at hk
    cases hk
  · exact absurd rfl hc

/-- **The busy law and the code.**  In every state of every run, if an operation of an object is
    pending, then the calls of the object are refused without effect if and only if its state is not
    0.  If no earlier call of an object with a pending operation was let through, and the completion
    ring has room for all objects, then this is from the assignment of 2 by the worker to the
    assignment of 0 by the reader. -/
theorem kcall_busy_iff [Fintype ι] (Q : Queue) (q : ι → Bool) (as : List (Act ι ω)) (s : Sys ι ω)
    (os : List (Ev ι)) (hrun : exec (kstep Q) (startSys q) as = some (s, os)) (x : ι)
    (hpending : Pending s x) (hc : s.caller x = none) :
    (BusyLaw Q s x ↔ (s.obj x).state ≠ 0) ∧
    (Fintype.card ι ≤ Q.cqCap → EachStep (kstep Q) Patient (startSys q) as →
      (BusyLaw Q s x ↔ x ∈ s.cq ∨ (∃ w, s.worker w = .marked x) ∨ s.reader = .holding x)) := by
  have hatt : Attached s :=
    exec_keeps (fun _ _ _ _ h hs => attached_step (kstep_rule hs) h) (start_attached q) hrun
  have hq := hatt x (Or.inl hpending)
  refine ⟨busyLaw_iff hq hc, fun hcap hpatient => ?_⟩
  obtain ⟨loc, due, K⟩ := (always_kept hcap q as hpatient).last hrun
  rw [busyLaw_iff hq hc, K.state_ne_zero x]

/-- A read whose result is in the completion ring. -/
theorem kcall_busy_completed : ∃ s os,
    exec (kstep ⟨1, 1, true, true, false⟩) (startSys fun _ => true : Sys Unit Unit)
      [.call () (.fileRead 3 64 10), .add (), .fetchSq (), .exec () 5 0, .mark (), .complete ()] = some (s, os) ∧
    s.cq = [()] ∧ BusyLaw ⟨1, 1, true, true, false⟩ s () := by
  have h : (exec (kstep ⟨1, 1, true, true, false⟩) (startSys fun _ => true : Sys Unit Unit)
      [.call () (.fileRead 3 64 10), .add (), .fetchSq (), .exec () 5 0, .mark (), .complete ()]).map
        (fun r => (r.1.cq, r.1.caller (), (r.1.obj ()).state)) = some ([()], none, 2) := by decide +kernel
  obtain ⟨⟨s, os⟩, hrun, heq⟩ := Option.map_eq_some_iff.mp h
  simp only [Prod.mk.injEq] at heq
  obtain ⟨hcq, hc, hst⟩ := heq
  refine ⟨s, os, hrun, hcq, ?_⟩
  have hpending : Pending s () := ⟨.cq, by rw [At, hcq]; exact List.mem_cons_self⟩
  exact (kcall_busy_iff _ _ _ s os hrun () hpending hc).1.mpr (by rw [hst]; decide)

/-- A read that is called again while it is in the submission ring.  The call returns the address of
    the buffer as the result and the descriptor as the error code, and the read is never executed. -/
theorem kcall_busy_premature :
    (∃ s os, exec (kstep ⟨1, 1, true, true, false⟩) (startSys fun _ => true : Sys Unit Unit)
        [.call () (.fileRead 3 64 10), .add ()] = some (s, os) ∧
      Pending s () ∧ s.caller () = none ∧ ¬ BusyLaw ⟨1, 1, true, true, false⟩ s ()) ∧
    (exec (kstep ⟨1, 1, true, true, false⟩) (startSys fun _ => true : Sys Unit Unit)
        [.call () (.fileRead 3 64 10), .add (), .call () (.fileRead 3 64 10), .fetchSq (), .exec () 5 0,
          .fetchSq ()]).map Prod.snd =
      some [.silent, .submitted () (.fileRead 3 64 10), .completed () (.fileRead 3 64 10) 64 3, .silent,
        .silent, .silent] := by
  refine ⟨?_, by decide +kernel⟩
  have h : (exec (kstep ⟨1, 1, true, true, false⟩) (startSys fun _ => true : Sys Unit Unit)
      [.call () (.fileRead 3 64 10), .add ()]).map
        (fun r => (r.1.sq, r.1.caller (), (r.1.obj ()).q, (r.1.obj ()).state)) =
          some ([()], none, true, 0) := by decide +kernel
  obtain ⟨⟨s, os⟩, hrun, heq⟩ := Option.map_eq_some_iff.mp h
  simp only [Prod.mk.injEq] at heq
  obtain ⟨hsq, hc, hq, hst⟩ := heq
  refine ⟨s, os, hrun, ⟨.sq, by rw [At, hsq]; exact List.mem_cons_self⟩, hc, fun hlaw => ?_⟩
  exact (busyLaw_iff hq hc).mp hlaw hst

end Runs

end FFSys.Kcall
