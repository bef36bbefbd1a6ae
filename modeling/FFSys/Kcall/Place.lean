import Mathlib.Data.Fintype.Card
import FFSys.Kcall.Queue

/-!
# Where an object is

An object that has been submitted is in one place at a time: in one of the rings or in the hands of
a thread.  `Placed s loc` says that `loc` is this place for every object.

* `Placed.move` — a step moves one object.
* `Placed.submitted`, `Placed.fetchSq`, … — the moves, one for each kind of step.
-/

set_option autoImplicit false

namespace FFSys.Kcall

open FFSys.Lib

/-- What a worker still has to do with the object it has fetched. -/
inductive Stage where
  | fetched
  | executed
  | marked
  deriving DecidableEq

/-- Where an object can be. -/
inductive Loc (ω : Type) where
  | sq
  | worker (w : ω) (st : Stage)
  | cq
  | reader (cleared : Bool)
  deriving DecidableEq

variable {ι ω : Type}

/-- The object a worker has, and its stage. -/
def Worker.held : Worker ι → Option (ι × Stage)
  | .fetched x => some (x, .fetched)
  | .executed x => some (x, .executed)
  | .marked x => some (x, .marked)
  | _ => none

/-- The object the reader has, and whether its state is cleared. -/
def Reader.held : Reader ι → Option (ι × Bool)
  | .holding x => some (x, false)
  | .cleared x => some (x, true)
  | _ => none

/-- The object is at the place. -/
def At (s : Sys ι ω) : Loc ω → ι → Prop
  | .sq, x => x ∈ s.sq
  | .worker w st, x => (s.worker w).held = some (x, st)
  | .cq, x => x ∈ s.cq
  | .reader b, x => s.reader.held = some (x, b)

/-- What `state` is at a place. -/
def stateAt : Loc ω → BitVec 16
  | .sq => 0
  | .worker _ .fetched => 0
  | .worker _ .executed => 0
  | .worker _ .marked => 2
  | .cq => 2
  | .reader false => 2
  | .reader true => 0

/-- Every object is at most at one place, and there once. -/
structure Placed (s : Sys ι ω) (loc : ι → Option (Loc ω)) : Prop where
  at_iff : ∀ k x, At s k x ↔ loc x = some k
  sq_nodup : s.sq.Nodup
  cq_nodup : s.cq.Nodup

theorem start_placed (q : ι → Bool) : Placed (startSys q : Sys ι ω) fun _ => none := by
  refine ⟨fun k x => ?_, List.nodup_nil, List.nodup_nil⟩
  cases k <;> simp [At, startSys, Worker.held, Reader.held]

variable [DecidableEq ι] {s s' : Sys ι ω} {loc : ι → Option (Loc ω)} {x : ι}

/-- The step leaves all places but those of `x` alone, and puts `x` at `l`. -/
def Moves (s s' : Sys ι ω) (x : ι) (l : Option (Loc ω)) : Prop :=
  ∀ k y, At s' k y ↔ if y = x then l = some k else At s k y

theorem Placed.move (P : Placed s loc) {l : Option (Loc ω)} (h : Moves s s' x l)
    (hsq : s'.sq.Nodup) (hcq : s'.cq.Nodup) : Placed s' (Function.update loc x l) := by
  refine ⟨fun k y => ?_, hsq, hcq⟩
  rw [h k y]
  by_cases hy : y = x
  · subst hy; simp
  · rw [if_neg hy, Function.update_of_ne hy, P.at_iff]

/-- A place that `x` neither leaves nor gets to. -/
theorem Placed.unmoved (P : Placed s loc) {l : Option (Loc ω)} {k : Loc ω} {y : ι}
    (h : At s' k y ↔ At s k y) (h1 : loc x ≠ some k) (h2 : l ≠ some k) :
    At s' k y ↔ if y = x then l = some k else At s k y := by
  rw [h]
  by_cases hy : y = x
  · subst hy
    rw [if_pos rfl, P.at_iff]
    simp [h1, h2]
  · rw [if_neg hy]

omit [DecidableEq ι] in
/-- A step that moves nothing. -/
theorem Placed.same (P : Placed s loc) (hsq : s'.sq = s.sq) (hcq : s'.cq = s.cq)
    (hw : ∀ w, (s'.worker w).held = (s.worker w).held) (hr : s'.reader.held = s.reader.held) :
    Placed s' loc := by
  refine ⟨fun k y => ?_, by rw [hsq]; exact P.sq_nodup, by rw [hcq]; exact P.cq_nodup⟩
  rw [← P.at_iff]
  cases k with
  | sq => rw [At, At, hsq]
  | worker w st => rw [At, At, hw]
  | cq => rw [At, At, hcq]
  | reader b => rw [At, At, hr]

omit [DecidableEq ι] in
theorem Placed.held_at (P : Placed s loc) {w : ω} {st : Stage}
    (h : (s.worker w).held = some (x, st)) : loc x = some (.worker w st) :=
  (P.at_iff (.worker w st) x).mp h

omit [DecidableEq ι] in
theorem Placed.reader_at (P : Placed s loc) {b : Bool} (h : s.reader.held = some (x, b)) :
    loc x = some (.reader b) :=
  (P.at_iff (.reader b) x).mp h

omit [DecidableEq ι] in
/-- With room for all objects, the completion ring has room for one that is not in it. -/
theorem Placed.cq_not_full [Fintype ι] {Q : Queue} (P : Placed s loc) (hcap : Fintype.card ι ≤ Q.cqCap)
    (hx : loc x ≠ some .cq) : s.cq.length < Q.cqCap := by
  have hnot : x ∉ s.cq := fun h => hx ((P.at_iff .cq x).mp h)
  have hnd : (x :: s.cq).Nodup := List.nodup_cons.mpr ⟨hnot, P.cq_nodup⟩
  have := hnd.length_le_card
  rw [List.length_cons] at this
  omega

variable [DecidableEq ω]

/-- A step of the worker `w`, which has nothing but `x` before it and after it. -/
theorem Placed.work_moves (P : Placed s loc) {w : ω} {p : Worker ι} {l : Option (Loc ω)}
    (hold : ∀ y st, (s.worker w).held = some (y, st) → y = x)
    (hnew : ∀ y st, p.held = some (y, st) ↔ y = x ∧ l = some (.worker w st))
    (hloc : ∀ w' st, loc x = some (.worker w' st) → w' = w)
    (hl : ∀ w' st, l = some (.worker w' st) → w' = w) (w' : ω) (st : Stage) (y : ι) :
    At (s.work w p) (.worker w' st) y ↔
      if y = x then l = some (.worker w' st) else At s (.worker w' st) y := by
  by_cases hw : w' = w
  · subst hw
    have hself : (s.work w' p).worker w' = p := by simp [Sys.work]
    rw [At, hself, hnew]
    by_cases hy : y = x
    · simp [hy]
    · rw [if_neg hy, At]
      simp only [hy, false_and, false_iff]
      exact fun h => hy (hold y st h)
  · have hother : (s.work w p).worker w' = s.worker w' := by simp [Sys.work, hw]
    refine P.unmoved ?_ (fun h => hw (hloc w' st h)) (fun h => hw (hl w' st h))
    rw [At, At, hother]

/-! ## The moves -/

section Moves

variable {w : ω}

omit [DecidableEq ω] in
theorem Placed.submitted (P : Placed s loc) (hx : loc x = none) (hsq : s'.sq = s.sq ++ [x])
    (hcq : s'.cq = s.cq) (hw : s'.worker = s.worker) (hr : s'.reader = s.reader) :
    Placed s' (Function.update loc x (some .sq)) := by
  have hnot : x ∉ s.sq := by
    have := P.at_iff .sq x
    rw [At] at this
    simp [this, hx]
  refine P.move (fun k y => ?_) ?_ (by rw [hcq]; exact P.cq_nodup)
  · cases k with
    | sq =>
      rw [At, At, hsq, List.mem_append, List.mem_singleton]
      by_cases hy : y = x
      · simp [hy]
      · simp [hy]
    | worker w st => exact P.unmoved (by rw [At, At, hw]) (by simp [hx]) (by simp)
    | cq => exact P.unmoved (by rw [At, At, hcq]) (by simp [hx]) (by simp)
    | reader b => exact P.unmoved (by rw [At, At, hr]) (by simp [hx]) (by simp)
  · rw [hsq, List.nodup_append]
    refine ⟨P.sq_nodup, by simp, ?_⟩
    rintro a ha b hb rfl
    exact hnot (by rwa [List.mem_singleton.mp hb] at ha)

theorem Placed.fetchSq (P : Placed s loc) {sq : List ι} (hw : s.worker w = .idle) (hsq : s.sq = x :: sq) :
    loc x = some .sq ∧
      Placed ({ s with sq := sq }.work w (.fetched x)) (Function.update loc x (some (.worker w .fetched))) := by
  have hx : loc x = some .sq := (P.at_iff .sq x).mp (by rw [At, hsq]; exact List.mem_cons_self)
  have hnd := P.sq_nodup
  rw [hsq, List.nodup_cons] at hnd
  refine ⟨hx, P.move (fun k y => ?_) hnd.2 P.cq_nodup⟩
  cases k with
  | sq =>
    rw [At, At, hsq]
    by_cases hy : y = x
    · subst hy; simp [Sys.work, hnd.1]
    · simp [Sys.work, hy]
  | worker w' st =>
    refine P.work_moves (by simp [hw, Worker.held]) ?_ (by simp [hx]) (by simp) w' st y
    intro y st
    simp [Worker.held, eq_comm]
  | cq => exact P.unmoved Iff.rfl (by simp [hx]) (by simp)
  | reader b => exact P.unmoved Iff.rfl (by simp [hx]) (by simp)

/-- A worker takes the object that it has to another stage, or lets it go. -/
theorem Placed.held_moves (P : Placed s loc) (kc : Ffkcall) {st : Stage} {t : Option Stage} {p : Worker ι}
    (hw : (s.worker w).held = some (x, st)) (hp : p.held = t.map (Prod.mk x)) :
    Placed ((s.set x kc).work w p) (Function.update loc x (t.map (.worker w))) := by
  have hx := P.held_at hw
  refine P.move (fun k y => ?_) P.sq_nodup P.cq_nodup
  cases k with
  | sq => exact P.unmoved Iff.rfl (by simp [hx]) (by simp)
  | worker w' st'' =>
    refine P.work_moves (by simp [hw]) ?_ (by simp [hx]) (by simp) w' st'' y
    intro y st
    cases t <;> simp [hp, eq_comm]
  | cq => exact P.unmoved Iff.rfl (by simp [hx]) (by simp)
  | reader b => exact P.unmoved Iff.rfl (by simp [hx]) (by simp)

/-- A worker goes on with the object it has. -/
theorem Placed.stage (P : Placed s loc) (kc : Ffkcall) {st st' : Stage} {p : Worker ι}
    (hw : (s.worker w).held = some (x, st)) (hp : p.held = some (x, st')) :
    loc x = some (.worker w st) ∧
      Placed ((s.set x kc).work w p) (Function.update loc x (some (.worker w st'))) :=
  ⟨P.held_at hw, P.held_moves (t := some st') kc hw hp⟩

/-- A worker lets the object go that it has. -/
theorem Placed.letGo (P : Placed s loc) (kc : Ffkcall) {st : Stage}
    (hw : (s.worker w).held = some (x, st)) :
    Placed ((s.set x kc).work w .idle) (Function.update loc x none) :=
  P.held_moves (t := none) kc hw rfl

theorem Placed.added (P : Placed s loc) (hw : s.worker w = .marked x) :
    loc x = some (.worker w .marked) ∧
      Placed ({ s with cq := s.cq ++ [x] }.work w (.added s.cq.length))
        (Function.update loc x (some .cq)) := by
  have hx : loc x = some (.worker w .marked) := P.held_at (by rw [hw]; rfl)
  have hnot : x ∉ s.cq := by
    have := P.at_iff .cq x
    rw [At] at this
    simp [this, hx]
  refine ⟨hx, P.move (fun k y => ?_) P.sq_nodup ?_⟩
  · cases k with
    | sq => exact P.unmoved Iff.rfl (by simp [hx]) (by simp)
    | worker w' st'' =>
      refine P.work_moves (by simp [hw, Worker.held]) ?_ (by simp [hx]) (by simp) w' st'' y
      intro y st
      simp [Worker.held]
    | cq =>
      rw [At, At]
      by_cases hy : y = x
      · simp [Sys.work, hy]
      · simp [Sys.work, hy]
    | reader b => exact P.unmoved Iff.rfl (by simp [hx]) (by simp)
  · change (s.cq ++ [x]).Nodup
    rw [List.nodup_append]
    refine ⟨P.cq_nodup, by simp, ?_⟩
    rintro a ha b hb rfl
    exact hnot (by rwa [List.mem_singleton.mp hb] at ha)

omit [DecidableEq ι] in
theorem Placed.post (P : Placed s loc) {used posted : Nat} (hw : s.worker w = .added used) :
    Placed ({ s with posted := posted }.work w .idle) loc := by
  refine P.same rfl rfl (fun w' => ?_) rfl
  by_cases h : w' = w
  · subst h
    rw [work_worker_self, hw]
    rfl
  · rw [work_worker_of_ne _ _ h]

omit [DecidableEq ω] in
theorem Placed.fetchCq (P : Placed s loc) {cq : List ι} (hr : s.reader = .draining) (hcq : s.cq = x :: cq) :
    loc x = some .cq ∧
      Placed { s with cq := cq, reader := .holding x } (Function.update loc x (some (.reader false))) := by
  have hx : loc x = some .cq := (P.at_iff .cq x).mp (by rw [At, hcq]; exact List.mem_cons_self)
  have hnd := P.cq_nodup
  rw [hcq, List.nodup_cons] at hnd
  refine ⟨hx, P.move (fun k y => ?_) P.sq_nodup hnd.2⟩
  cases k with
  | sq => exact P.unmoved Iff.rfl (by simp [hx]) (by simp)
  | worker w' st => exact P.unmoved Iff.rfl (by simp [hx]) (by simp)
  | cq =>
    rw [At, At, hcq]
    by_cases hy : y = x
    · subst hy; simp [hnd.1]
    · simp [hy]
  | reader b =>
    rw [At, At, hr]
    by_cases hy : y = x
    · simp [hy, Reader.held]
    · simp [hy, Reader.held, Ne.symm hy]

omit [DecidableEq ω] in
/-- The reader goes on with the object that it has, or lets it go. -/
theorem Placed.reader_moves (P : Placed s loc) (obj : ι → Ffkcall) {b : Bool} {t : Option Bool}
    {r : Reader ι} (hr : s.reader.held = some (x, b)) (hto : r.held = t.map (Prod.mk x)) :
    Placed { s with obj, reader := r } (Function.update loc x (t.map .reader)) := by
  have hx := P.reader_at hr
  refine P.move (fun k y => ?_) P.sq_nodup P.cq_nodup
  cases k with
  | sq => exact P.unmoved Iff.rfl (by simp [hx]) (by simp)
  | worker w' st => exact P.unmoved Iff.rfl (by simp [hx]) (by simp)
  | cq => exact P.unmoved Iff.rfl (by simp [hx]) (by simp)
  | reader b =>
    rw [At, At, hr, hto]
    by_cases hy : y = x
    · cases t <;> simp [hy]
    · cases t <;> simp [hy, Ne.symm hy]

omit [DecidableEq ω] in
theorem Placed.clear (P : Placed s loc) (kc : Ffkcall) (hr : s.reader = .holding x) :
    loc x = some (.reader false) ∧
      Placed { s.set x kc with reader := .cleared x } (Function.update loc x (some (.reader true))) := by
  have hheld : s.reader.held = some (x, false) := by rw [hr]; rfl
  exact ⟨P.reader_at hheld, P.reader_moves (t := some true) (s.set x kc).obj hheld rfl⟩

omit [DecidableEq ω] in
theorem Placed.notify (P : Placed s loc) (hr : s.reader = .cleared x) :
    loc x = some (.reader true) ∧
      Placed { s with reader := .draining } (Function.update loc x none) := by
  have hheld : s.reader.held = some (x, true) := by rw [hr]; rfl
  exact ⟨P.reader_at hheld, P.reader_moves (t := none) s.obj hheld rfl⟩

end Moves

end FFSys.Kcall
