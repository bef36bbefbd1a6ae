import FFSys.Lib.Run
import Mathlib.Logic.Function.Basic

/-!
# Starting processes from several threads (Windows)

`_ffps_exec_cmdln` makes the requested handles inheritable, calls `CreateProcessW` and makes them
not inheritable again.  The flag belongs to the handle, so calls on other threads see it.

* `Redirect`, `execOps` — the requested handles, and the system calls of one call.
* `Sys`, `step` — threads that make such calls, with a system call as a step.
* `Apart` — no handle is given to two calls at a time.
* `ffps_exec_inherit` — which handles a process inherits, in every interleaving.
-/

set_option autoImplicit false

namespace FFSys.Process.Inherit

open FFSys.Lib

/-! ## The system -/

/-- The handles of `ffps_execinfo`; `none` is INVALID_HANDLE_VALUE. -/
structure Redirect where
  hIn : Option Nat
  hOut : Option Nat
  hErr : Option Nat

def Redirect.given (i : Redirect) : List Nat := [i.hIn, i.hOut, i.hErr].filterMap id

inductive Op
  /-- `SetHandleInformation(h, HANDLE_FLAG_INHERIT, flag)` -/
  | set (h : Nat) (flag : Bool)
  /-- `CreateProcessW` -/
  | create (i : Redirect)

/-- The system calls of `_ffps_exec_cmdln`. -/
def execOps (i : Redirect) : List Op :=
  i.given.map (.set · true) ++ .create i :: i.given.map (.set · false)

structure Sys where
  /-- HANDLE_FLAG_INHERIT -/
  inherit : Nat → Bool
  /-- what is left of the call of each thread -/
  todo : Nat → List Op

inductive Act
  /-- thread `t` calls `ffps_exec_info` -/
  | call (t : Nat) (i : Redirect)
  /-- thread `t` makes its next system call; `ok`: the process is created -/
  | run (t : Nat) (ok : Bool)

/-- `inherits`: the handles of a new process. -/
inductive Ev
  | quiet
  | created (t : Nat) (i : Redirect) (inherits : Nat → Bool)

/-- `inherit_handles` is set if any handle is given. -/
def inherits (s : Sys) (i : Redirect) (h : Nat) : Bool := !i.given.isEmpty && s.inherit h

def step (s : Sys) : Act → Option (Sys × Ev)
  | .call t i =>
    match s.todo t with
    | [] => some ({ s with todo := Function.update s.todo t (execOps i) }, .quiet)
    | _ :: _ => none
  | .run t ok =>
    match s.todo t with
    | [] => none
    | .set h b :: rest =>
      some (⟨Function.update s.inherit h b, Function.update s.todo t rest⟩, .quiet)
    | .create i :: rest =>
      some ({ s with todo := Function.update s.todo t rest },
        if ok then .created t i (inherits s i) else .quiet)

def init (inherit : Nat → Bool) : Sys := ⟨inherit, fun _ => []⟩

/-- A call is given no handle that a call in progress on another thread has been given. -/
def Apart (s : Sys) : Act → Prop
  | .call _ i => ∀ h ∈ i.given, ∀ t b, Op.set h b ∉ s.todo t
  | .run _ _ => True

inductive SStep (s : Sys) : Act → Sys → Ev → Prop
  | call (t : Nat) (i : Redirect) (ht : s.todo t = []) :
      SStep s (.call t i) { s with todo := Function.update s.todo t (execOps i) } .quiet
  | set (t h : Nat) (b ok : Bool) (rest : List Op) (ht : s.todo t = .set h b :: rest) :
      SStep s (.run t ok) ⟨Function.update s.inherit h b, Function.update s.todo t rest⟩ .quiet
  | create (t : Nat) (i : Redirect) (ok : Bool) (rest : List Op) (ht : s.todo t = .create i :: rest) :
      SStep s (.run t ok) { s with todo := Function.update s.todo t rest }
        (if ok then .created t i (inherits s i) else .quiet)

variable {s s' : Sys} {a : Act} {ev : Ev}

theorem step_cases (h : step s a = some (s', ev)) : SStep s a s' ev := by
  cases a with
  | call t i =>
    simp only [step] at h
    split at h
    · rename_i ht
      cases h
      exact .call t i ht
    · cases h
  | run t ok =>
    simp only [step] at h
    split at h
    · cases h
    · rename_i g b rest ht
      cases h
      exact .set t g b ok rest ht
    · rename_i i rest ht
      cases h
      exact .create t i ok rest ht

/-! ## A call in progress -/

/-- What is left of a call: before and after `CreateProcessW`. -/
inductive Shape (i : Redirect) : List Op → Prop
  | before (gs : List Nat) (hgs : gs <:+ i.given) :
      Shape i (gs.map (.set · true) ++ .create i :: i.given.map (.set · false))
  | after (gs : List Nat) (hgs : gs <:+ i.given) : Shape i (gs.map (.set · false))

theorem shape_execOps (i : Redirect) : Shape i (execOps i) := .before _ (List.suffix_refl _)

theorem shape_tail {i : Redirect} {o : Op} {rest : List Op} (h : Shape i (o :: rest)) : Shape i rest := by
  generalize hl : o :: rest = l at h
  cases h with
  | before gs hgs =>
    cases gs with
    | nil =>
      cases hl
      exact .after _ (List.suffix_refl _)
    | cons g gs =>
      cases hl
      exact .before gs (List.IsSuffix.trans (List.suffix_cons g gs) hgs)
  | after gs hgs =>
    cases gs with
    | nil => cases hl
    | cons g gs =>
      cases hl
      exact .after gs (List.IsSuffix.trans (List.suffix_cons g gs) hgs)

/-- After a handle is made inheritable, it is still to be made not inheritable. -/
theorem shape_set {i : Redirect} {h : Nat} {rest : List Op} (hs : Shape i (.set h true :: rest)) :
    Op.set h false ∈ rest := by
  generalize hl : Op.set h true :: rest = l at hs
  cases hs with
  | before gs hgs =>
    cases gs with
    | nil => cases hl
    | cons g gs =>
      cases hl
      have hg : h ∈ i.given := hgs.subset List.mem_cons_self
      exact List.mem_append_right _ (List.mem_cons_of_mem _ (List.mem_map.mpr ⟨h, hg, rfl⟩))
  | after gs hgs =>
    cases gs with
    | nil => cases hl
    | cons g gs => cases hl

/-- As long as the process is not created, no handle is made not inheritable. -/
theorem shape_create {i j : Redirect} {l : List Op} (hs : Shape i l) (hj : Op.create j ∈ l) :
    j = i ∧ (∀ h ∈ i.given, Op.set h false ∈ l) ∧ ∀ h rest, l ≠ .set h false :: rest := by
  cases hs with
  | before gs hgs =>
    refine ⟨?_, ?_, ?_⟩
    · rcases List.mem_append.mp hj with hm | hm
      · obtain ⟨g, _, hg⟩ := List.mem_map.mp hm
        cases hg
      · rcases List.mem_cons.mp hm with hm | hm
        · exact Op.create.inj hm
        · obtain ⟨g, _, hg⟩ := List.mem_map.mp hm
          cases hg
    · intro h hh
      exact List.mem_append_right _ (List.mem_cons_of_mem _ (List.mem_map.mpr ⟨h, hh, rfl⟩))
    · intro h rest hl
      cases gs with
      | nil => cases hl
      | cons g gs => cases hl
  | after gs hgs =>
    obtain ⟨g, _, hg⟩ := List.mem_map.mp hj
    cases hg

theorem shape_given {i : Redirect} {l : List Op} (hs : Shape i l) {h : Nat} {b : Bool}
    (hm : Op.set h b ∈ l) : h ∈ i.given := by
  cases hs with
  | before gs hgs =>
    rcases List.mem_append.mp hm with hm | hm
    · obtain ⟨g, hg, he⟩ := List.mem_map.mp hm
      cases he
      exact hgs.subset hg
    · rcases List.mem_cons.mp hm with hm | hm
      · cases hm
      · obtain ⟨g, hg, he⟩ := List.mem_map.mp hm
        cases he
        exact hg
  | after gs hgs =>
    obtain ⟨g, hg, he⟩ := List.mem_map.mp hm
    cases he
    exact hgs.subset hg

/-! ## Every interleaving -/

/-- A call that is to make `h` not inheritable is in progress. -/
def Clearing (s : Sys) (h : Nat) : Prop := ∃ t, Op.set h false ∈ s.todo t

structure Inv (inherit0 : Nat → Bool) (s : Sys) : Prop where
  shape : ∀ t, ∃ i, Shape i (s.todo t)
  flag : ∀ h, s.inherit h = true → inherit0 h = true ∨ Clearing s h

theorem inv_init (inherit0 : Nat → Bool) : Inv inherit0 (init inherit0) :=
  ⟨fun _ => ⟨⟨none, none, none⟩, .after [] (List.suffix_refl _)⟩, fun _ h => Or.inl h⟩

/-- A pending clear of another thread, or behind the step of this one, stays pending. -/
theorem clearing_rest {h : Nat} {t : Nat} {o : Op} {rest : List Op} {f : Nat → Bool}
    (hc : Clearing s h) (ht : s.todo t = o :: rest) (ho : o ≠ .set h false) :
    Clearing ⟨f, Function.update s.todo t rest⟩ h := by
  obtain ⟨t', ht'⟩ := hc
  by_cases htt : t' = t
  · subst htt
    rw [ht] at ht'
    rcases List.mem_cons.mp ht' with he | hm
    · exact absurd he.symm ho
    · exact ⟨t', by simpa only [Function.update_self] using hm⟩
  · exact ⟨t', by simpa only [Function.update_of_ne htt] using ht'⟩

theorem clearing_call {h : Nat} {t : Nat} {i : Redirect} {f : Nat → Bool} (ht : s.todo t = [])
    (hc : Clearing s h) : Clearing ⟨f, Function.update s.todo t (execOps i)⟩ h := by
  obtain ⟨t', ht'⟩ := hc
  have htt : t' ≠ t := by
    rintro rfl
    rw [ht] at ht'
    cases ht'
  exact ⟨t', by simpa only [Function.update_of_ne htt] using ht'⟩

theorem inv_shape {t : Nat} {o : Op} {rest : List Op} (hi : ∀ t, ∃ i, Shape i (s.todo t))
    (ht : s.todo t = o :: rest) (t' : Nat) : ∃ i, Shape i (Function.update s.todo t rest t') := by
  by_cases htt : t' = t
  · subst htt
    obtain ⟨i, hs⟩ := hi t'
    rw [ht] at hs
    exact ⟨i, by rw [Function.update_self]; exact shape_tail hs⟩
  · rw [Function.update_of_ne htt]
    exact hi t'

theorem inv_step {inherit0 : Nat → Bool} (hi : Inv inherit0 s) (h : SStep s a s' ev) :
    Inv inherit0 s' := by
  cases h with
  | call t i ht =>
    refine ⟨?_, ?_⟩
    · intro t'
      by_cases htt : t' = t
      · subst htt
        exact ⟨i, by simp only [Function.update_self]; exact shape_execOps i⟩
      · simp only [Function.update_of_ne htt]
        exact hi.shape t'
    · intro h hf
      rcases hi.flag h hf with h0 | hc
      · exact Or.inl h0
      · exact Or.inr (clearing_call ht hc)
  | set t h b ok rest ht =>
    refine ⟨inv_shape hi.shape ht, ?_⟩
    intro g hf
    by_cases hgh : g = h
    · subst hgh
      simp only [Function.update_self] at hf
      subst hf
      obtain ⟨i, hs⟩ := hi.shape t
      rw [ht] at hs
      exact Or.inr ⟨t, by simp only [Function.update_self]; exact shape_set hs⟩
    · simp only [Function.update_of_ne hgh] at hf
      rcases hi.flag g hf with h0 | hc
      · exact Or.inl h0
      · refine Or.inr (clearing_rest hc ht ?_)
        intro he
        exact hgh (Op.set.inj he).1.symm
  | create t i ok rest ht =>
    refine ⟨inv_shape hi.shape ht, ?_⟩
    intro h hf
    rcases hi.flag h hf with h0 | hc
    · exact Or.inl h0
    · refine Or.inr (clearing_rest hc ht ?_)
      intro he
      cases he

/-- A handle that has been given to a call is not inheritable, or a call is to make it so. -/
def Settled (s : Sys) (h : Nat) : Prop := s.inherit h = false ∨ Clearing s h

theorem settled_step {h : Nat} (hsh : ∀ t, ∃ i, Shape i (s.todo t)) (hi : Settled s h)
    (hst : SStep s a s' ev) : Settled s' h := by
  cases hst with
  | call t i ht =>
    rcases hi with hf | hc
    · exact Or.inl hf
    · exact Or.inr (clearing_call ht hc)
  | set t g b ok rest ht =>
    by_cases hgh : h = g
    · subst hgh
      cases b
      · exact Or.inl (Function.update_self ..)
      · obtain ⟨i, hs⟩ := hsh t
        rw [ht] at hs
        exact Or.inr ⟨t, by simp only [Function.update_self]; exact shape_set hs⟩
    · rcases hi with hf | hc
      · exact Or.inl (by simpa only [Function.update_of_ne hgh] using hf)
      · refine Or.inr (clearing_rest hc ht ?_)
        intro he
        exact hgh (Op.set.inj he).1.symm
  | create t i ok rest ht =>
    rcases hi with hf | hc
    · exact Or.inl hf
    · refine Or.inr (clearing_rest hc ht ?_)
      intro he
      cases he

theorem settled_call {h t : Nat} {i : Redirect} (hh : h ∈ i.given) (hst : SStep s (.call t i) s' ev) :
    Settled s' h := by
  cases hst with
  | call _ _ ht =>
    refine Or.inr ⟨t, ?_⟩
    simp only [Function.update_self]
    exact List.mem_append_right _ (List.mem_cons_of_mem _ (List.mem_map.mpr ⟨h, hh, rfl⟩))

theorem settled_run {inherit0 : Nat → Bool} {h : Nat} :
    ∀ {as : List Act} {s t : Sys} {evs : List Ev}, Inv inherit0 s → exec step s as = some (t, evs) →
      (Settled s h ∨ ∃ u i, Act.call u i ∈ as ∧ h ∈ i.given) → Settled t h
  | [], s, t, evs, _, he, hs => by
    simp only [exec, Option.some.injEq, Prod.mk.injEq] at he
    obtain ⟨rfl, _⟩ := he
    rcases hs with hs | ⟨u, i, hm, _⟩
    · exact hs
    · cases hm
  | a :: as, s, t, evs, hI, he, hs => by
    obtain ⟨s', ev, evs', h1, h2, _⟩ := exec_cons he
    have hst := step_cases h1
    refine settled_run (inv_step hI hst) h2 ?_
    rcases hs with hs | ⟨u, i, hm, hh⟩
    · exact Or.inl (settled_step hI.shape hs hst)
    · rcases List.mem_cons.mp hm with rfl | hm
      · exact Or.inl (settled_call hh hst)
      · exact Or.inr ⟨u, i, hm, hh⟩

/-! ## Handles that are not given to a call -/

/-- The handles that a call of `as` is given. -/
def Used (as : List Act) (h : Nat) : Prop := ∃ t i, Act.call t i ∈ as ∧ h ∈ i.given

structure Unused (U : Nat → Prop) (inherit0 : Nat → Bool) (s : Sys) : Prop where
  todo : ∀ t h b, Op.set h b ∈ s.todo t → U h
  flag : ∀ h, ¬ U h → s.inherit h = inherit0 h

theorem unused_rest {U : Nat → Prop} {t : Nat} {o : Op} {rest : List Op}
    (hi : ∀ t h b, Op.set h b ∈ s.todo t → U h) (ht : s.todo t = o :: rest) (t' h : Nat) (b : Bool)
    (hm : Op.set h b ∈ Function.update s.todo t rest t') : U h := by
  by_cases htt : t' = t
  · subst htt
    rw [Function.update_self] at hm
    exact hi t' h b (ht ▸ List.mem_cons_of_mem _ hm)
  · rw [Function.update_of_ne htt] at hm
    exact hi t' h b hm

theorem unused_step {U : Nat → Prop} {inherit0 : Nat → Bool} (hi : Unused U inherit0 s)
    (ha : ∀ t i, a = .call t i → ∀ h ∈ i.given, U h) (hst : SStep s a s' ev) :
    Unused U inherit0 s' := by
  cases hst with
  | call t i ht =>
    refine ⟨?_, hi.flag⟩
    intro t' h b hm
    by_cases htt : t' = t
    · subst htt
      simp only [Function.update_self] at hm
      exact ha t' i rfl h (shape_given (shape_execOps i) hm)
    · simp only [Function.update_of_ne htt] at hm
      exact hi.todo t' h b hm
  | set t h b ok rest ht =>
    refine ⟨unused_rest hi.todo ht, ?_⟩
    intro g hg
    have hgh : g ≠ h := by
      rintro rfl
      exact hg (hi.todo t g b (ht ▸ List.mem_cons_self))
    simp only [Function.update_of_ne hgh]
    exact hi.flag g hg
  | create t i ok rest ht => exact ⟨unused_rest hi.todo ht, hi.flag⟩

theorem unused_run {inherit0 : Nat → Bool} {as : List Act} {evs : List Ev}
    (h : exec step (init inherit0) as = some (s, evs)) : Unused (Used as) inherit0 s := by
  have := exec_output (A := fun a => ∀ t i, a = .call t i → ∀ h ∈ i.given, Used as h)
    (B := fun _ => True) (Q := fun _ => True) (I := Unused (Used as) inherit0)
    (fun _ _ _ _ hi ha _ hst => ⟨unused_step hi ha (step_cases hst), trivial⟩)
    as (init inherit0) s evs ⟨fun t g b hm => (by cases hm), fun _ _ => rfl⟩
    (fun a ha t i he h hh => ⟨t, i, he ▸ ha, hh⟩) (fun _ _ => trivial) h
  exact this.1

/-! ## Calls with handles of their own -/

structure OwnInv (s : Sys) : Prop where
  apart : ∀ t t' h b b', t ≠ t' → Op.set h b ∈ s.todo t → Op.set h b' ∉ s.todo t'
  ready : ∀ t i, Op.create i ∈ s.todo t → ∀ h ∈ i.given, Op.set h true ∈ s.todo t ∨ s.inherit h = true

theorem ownInv_init (inherit0 : Nat → Bool) : OwnInv (init inherit0) :=
  ⟨fun _ _ _ _ _ _ hm => (by cases hm), fun _ _ hm => (by cases hm)⟩

/-- What is left of a call after a step is part of what was left before. -/
theorem mem_rest {t t' : Nat} {o x : Op} {rest : List Op} (ht : s.todo t = o :: rest)
    (hm : x ∈ Function.update s.todo t rest t') : x ∈ s.todo t' := by
  by_cases htt : t' = t
  · subst htt
    rw [Function.update_self] at hm
    exact ht ▸ List.mem_cons_of_mem _ hm
  · rwa [Function.update_of_ne htt] at hm

theorem ownInv_call {t : Nat} {i : Redirect} (hi : OwnInv s) (ha : Apart s (.call t i)) :
    OwnInv { s with todo := Function.update s.todo t (execOps i) } := by
  refine ⟨?_, ?_⟩
  · intro u u' h b b' huu hm hm'
    by_cases hut : u = t
    · subst hut
      simp only [Function.update_self] at hm
      simp only [Function.update_of_ne (Ne.symm huu)] at hm'
      exact ha h (shape_given (shape_execOps i) hm) u' b' hm'
    · simp only [Function.update_of_ne hut] at hm
      by_cases hut' : u' = t
      · subst hut'
        simp only [Function.update_self] at hm'
        exact ha h (shape_given (shape_execOps i) hm') u b hm
      · simp only [Function.update_of_ne hut'] at hm'
        exact hi.apart u u' h b b' huu hm hm'
  · intro u j hm h hh
    by_cases hut : u = t
    · subst hut
      simp only [Function.update_self] at hm ⊢
      obtain ⟨rfl, _⟩ := shape_create (shape_execOps i) hm
      exact Or.inl (List.mem_append_left _ (List.mem_map.mpr ⟨h, hh, rfl⟩))
    · simp only [Function.update_of_ne hut] at hm ⊢
      exact hi.ready u j hm h hh

theorem ownInv_set {t h : Nat} {b : Bool} {rest : List Op} (hsh : ∀ t, ∃ i, Shape i (s.todo t))
    (hi : OwnInv s) (ht : s.todo t = .set h b :: rest) :
    OwnInv ⟨Function.update s.inherit h b, Function.update s.todo t rest⟩ := by
  refine ⟨fun u u' g c c' huu hm hm' => hi.apart u u' g c c' huu (mem_rest ht hm) (mem_rest ht hm'), ?_⟩
  intro u j hm g hg
  have hm0 := mem_rest ht hm
  obtain ⟨i, hs⟩ := hsh u
  obtain ⟨rfl, hclear, hfirst⟩ := shape_create hs hm0
  by_cases hut : u = t
  · -- the thread of the step itself: it makes `h` inheritable
    subst hut
    have hb : b = true := by
      cases b
      · exact absurd ht (hfirst h rest)
      · rfl
    subst hb
    by_cases hgh : g = h
    · subst hgh
      exact Or.inr (Function.update_self ..)
    · simp only [Function.update_self, Function.update_of_ne hgh]
      rcases hi.ready u j hm0 g hg with hset | hf
      · rw [ht] at hset
        rcases List.mem_cons.mp hset with he | hset
        · exact absurd (Op.set.inj he).1 hgh
        · exact Or.inl hset
      · exact Or.inr hf
  · -- another thread: it does not use `g`
    have hgh : g ≠ h := by
      rintro rfl
      exact hi.apart u t g false b hut (hclear g hg) (ht ▸ List.mem_cons_self)
    simp only [Function.update_of_ne hut, Function.update_of_ne hgh]
    exact hi.ready u j hm0 g hg

theorem ownInv_create {t : Nat} {i : Redirect} {rest : List Op} (hi : OwnInv s)
    (ht : s.todo t = .create i :: rest) :
    OwnInv { s with todo := Function.update s.todo t rest } := by
  refine ⟨fun u u' g c c' huu hm hm' => hi.apart u u' g c c' huu (mem_rest ht hm) (mem_rest ht hm'), ?_⟩
  intro u j hm g hg
  rcases hi.ready u j (mem_rest ht hm) g hg with hset | hf
  · by_cases hut : u = t
    · subst hut
      rw [ht] at hset
      rcases List.mem_cons.mp hset with he | hset
      · cases he
      · exact Or.inl (by simpa only [Function.update_self] using hset)
    · exact Or.inl (by simpa only [Function.update_of_ne hut] using hset)
  · exact Or.inr hf

theorem ownInv_step (hsh : ∀ t, ∃ i, Shape i (s.todo t)) (hi : OwnInv s) (ha : Apart s a)
    (hst : SStep s a s' ev) : OwnInv s' := by
  cases hst with
  | call t i ht => exact ownInv_call hi ha
  | set t h b ok rest ht => exact ownInv_set hsh hi ht
  | create t i ok rest ht => exact ownInv_create hi ht

theorem ownInv_run {inherit0 : Nat → Bool} {as : List Act} {evs : List Ev}
    (h : exec step (init inherit0) as = some (s, evs)) (ha : EachStep step Apart (init inherit0) as) :
    OwnInv s := by
  have := always_of_eachStep (C := Apart) (I := fun s => Inv inherit0 s ∧ OwnInv s)
    (fun s a s' o hi hC hst => ⟨inv_step hi.1 (step_cases hst),
      ownInv_step hi.1.shape hi.2 hC (step_cases hst)⟩)
    as (init inherit0) ⟨inv_init inherit0, ownInv_init inherit0⟩ ha
  exact (this.last h).2

/-! ## What a process inherits -/

theorem created_cases {t u : Nat} {ok : Bool} {i : Redirect} {f : Nat → Bool}
    (h : SStep s (.run t ok) s' (.created u i f)) :
    u = t ∧ f = inherits s i ∧ ∃ rest, s.todo t = .create i :: rest := by
  generalize he : Ev.created u i f = ev at h
  cases h with
  | set _ _ _ _ _ _ => cases he
  | create _ j _ rest ht =>
    split at he
    · cases he
      exact ⟨rfl, rfl, rest, ht⟩
    · cases he

/-- When the process is created, all requested handles have been made inheritable. -/
theorem shape_created {i j : Redirect} {rest : List Op} (hs : Shape i (.create j :: rest)) (h : Nat) :
    Op.set h true ∉ rest := by
  generalize hl : Op.create j :: rest = l at hs
  cases hs with
  | before gs hgs =>
    cases gs with
    | nil =>
      cases hl
      intro hm
      obtain ⟨g, _, hg⟩ := List.mem_map.mp hm
      cases hg
    | cons g gs => cases hl
  | after gs hgs =>
    cases gs with
    | nil => cases hl
    | cons g gs => cases hl

theorem inherits_iff {i : Redirect} {h : Nat} :
    inherits s i h = true ↔ i.given ≠ [] ∧ s.inherit h = true := by
  unfold inherits
  cases i.given <;> simp

/-- If nobody else is inside of a call, only the call's own handles are still to be cleared. -/
theorem not_clearing_of_alone {t g : Nat} {i : Redirect} (hs : Shape i (s.todo t)) (hg : g ∉ i.given)
    (halone : ∀ u, u ≠ t → s.todo u = []) : ¬ Clearing s g := by
  rintro ⟨u, hu⟩
  by_cases hut : u = t
  · subst hut
    exact hg (shape_given hs hu)
  · rw [halone u hut] at hu
    cases hu

/-- With no other call in progress, a handle that is not the call's own has the flag of the start, and
    has lost it if it was ever given to a call. -/
theorem flag_alone {inherit0 : Nat → Bool} {as : List Act} {evs : List Ev} {t g : Nat} {i : Redirect}
    (h : exec step (init inherit0) as = some (s, evs)) (hI : Inv inherit0 s)
    (hs : Shape i (s.todo t)) (hg : g ∉ i.given) (halone : ∀ u, u ≠ t → s.todo u = []) :
    s.inherit g = true ↔ inherit0 g = true ∧ ¬ Used as g := by
  have hno : ¬ Clearing s g := not_clearing_of_alone hs hg halone
  constructor
  · intro hf
    refine ⟨(hI.flag g hf).resolve_right hno, ?_⟩
    intro hu
    rcases settled_run (inv_init inherit0) h (Or.inr hu) with hf' | hc
    · rw [hf] at hf'
      cases hf'
    · exact hno hc
  · rintro ⟨h0, hu⟩
    exact (unused_run h).flag g hu ▸ h0

/-- When the process is created, a call that shares no handle has made all of its handles inheritable. -/
theorem flag_own {inherit0 : Nat → Bool} {as : List Act} {evs : List Ev} {t g : Nat} {i : Redirect}
    {rest : List Op} (h : exec step (init inherit0) as = some (s, evs))
    (ha : EachStep step Apart (init inherit0) as) (hs : Shape i (s.todo t))
    (ht : s.todo t = .create i :: rest) (hg : g ∈ i.given) : s.inherit g = true := by
  rcases (ownInv_run h ha).ready t i (ht ▸ List.mem_cons_self) g hg with hm | hf
  · rw [ht] at hm hs
    rcases List.mem_cons.mp hm with he | hm
    · cases he
    · exact absurd hm (shape_created hs g)
  · exact hf

/-- Two threads redirect the output of their processes to the same handle. -/
def sharedRun : List Act :=
  let i : Redirect := ⟨none, some 5, none⟩
  [.call 1 i, .call 2 i, .run 1 true, .run 2 true, .run 2 true, .run 2 true, .run 1 true]

/-- **What a new process inherits, in every interleaving.** A handle is inheritable only if it was at
    the start or a call that will make it not inheritable again is in progress; when no call is in
    progress, no handle that was given to a call is.  So a new process inherits nothing but what was
    inheritable at the start and the handles of calls in progress, and nothing at all without
    redirection.  If no handle is given to two calls at a time it inherits all handles that it is
    given; if no other thread is inside of a call it inherits, besides its own, exactly the handles
    that were inheritable at the start and have never been given to a call.  Two calls that share a
    handle may leave a process without it. -/
theorem ffps_exec_inherit (inherit0 : Nat → Bool) (as : List Act) (s : Sys) (evs : List Ev)
    (h : exec step (init inherit0) as = some (s, evs)) :
    (∀ g, s.inherit g = true → inherit0 g = true ∨ Clearing s g) ∧
    ((∀ t, s.todo t = []) → ∀ g, Used as g → s.inherit g = false) ∧
    (∀ t s' i f, step s (.run t true) = some (s', .created t i f) →
      (∀ g, f g = true → i.given ≠ [] ∧ (inherit0 g = true ∨ Clearing s g)) ∧
      (EachStep step Apart (init inherit0) as → ∀ g ∈ i.given, f g = true) ∧
      ((∀ u, u ≠ t → s.todo u = []) → i.given ≠ [] →
        ∀ g, g ∉ i.given → (f g = true ↔ inherit0 g = true ∧ ¬ Used as g))) ∧
    ∃ t evs' f, exec step (init fun _ => false) sharedRun = some (t, evs') ∧
      evs'.getLast? = some (.created 1 ⟨none, some 5, none⟩ f) ∧ f 5 = false := by
  have hI : Inv inherit0 s :=
    exec_keeps (fun _ _ _ _ hi hst => inv_step hi (step_cases hst)) (inv_init inherit0) h
  refine ⟨hI.flag, ?_, ?_, ⟨_, _, _, rfl, rfl, rfl⟩⟩
  · intro hidle g hu
    rcases settled_run (inv_init inherit0) h (Or.inr hu) with hf | ⟨t, ht⟩
    · exact hf
    · rw [hidle t] at ht
      cases ht
  · intro t s' i f hst
    obtain ⟨_, rfl, rest, ht⟩ := created_cases (step_cases hst)
    obtain ⟨j, hs⟩ := hI.shape t
    have hji : j = i := (shape_create hs (ht ▸ List.mem_cons_self)).1.symm
    subst hji
    refine ⟨?_, ?_, ?_⟩
    · intro g hg
      obtain ⟨hne, hf⟩ := inherits_iff.mp hg
      exact ⟨hne, hI.flag g hf⟩
    · intro ha g hg
      exact inherits_iff.mpr ⟨List.ne_nil_of_mem hg, flag_own h ha hs ht hg⟩
    · intro halone hne g hg
      rw [inherits_iff, and_iff_right hne]
      exact flag_alone h hI hs hg halone

/-- Handles 6 and 7 are inheritable from the start, 6 has been given to an earlier call, and the call in
    progress has handle 5 for the output. -/
def secondCall : List Act :=
  [.call 2 ⟨none, some 6, none⟩, .run 2 true, .run 2 true, .run 2 true,
    .call 1 ⟨none, some 5, none⟩, .run 1 true]

theorem ffps_exec_inherit_second :
    ∃ s evs s' f, exec step (init fun h => h == 7 || h == 6) secondCall = some (s, evs) ∧
      step s (.run 1 true) = some (s', .created 1 ⟨none, some 5, none⟩ f) ∧
      (∀ g ∈ Redirect.given ⟨none, some 5, none⟩, f g = true) ∧
      ∀ g, g ∉ Redirect.given ⟨none, some 5, none⟩ →
        (f g = true ↔ (g == 7 || g == 6) = true ∧ ¬ Used secondCall g) := by
  have ha : EachStep step Apart (init fun h => h == 7 || h == 6) secondCall :=
    ⟨fun _ _ _ _ hm => (by cases hm), trivial, trivial, trivial,
      fun _ _ u _ hm => (by by_cases hu : u = 2 <;> simp [init, hu, Function.update] at hm), trivial, trivial⟩
  obtain ⟨_, hown, hrest⟩ :=
    (ffps_exec_inherit (fun h => h == 7 || h == 6) secondCall _ _ rfl).2.2.1 1 _ _ _ rfl
  refine ⟨_, _, _, _, rfl, rfl, hown ha, hrest ?_ (by decide)⟩
  intro u hu
  by_cases h2 : u = 2 <;> simp [init, h2, hu, Function.update]

end FFSys.Process.Inherit
