import FFSys.Lib.StopFold
import FFSys.Path.Norm

/-!
# The component stack

What a lexical path normaliser computes, in terms of components and not of offsets:

* `moveOf` — what a component does to the stack of components kept so far: an empty one and a
  `"."` are dropped (a `"."` is kept at the very beginning of an unrooted path), a name is pushed,
  a `".."` takes the name on top away, replaces a `"."`, and is pushed onto nothing and onto
  another `".."` (under a root, a `".."` with nothing to take away is dropped).
* `stackNorm` — the stack after all components, and `render` — the path it stands for.
* `Walk` — a run of the normaliser with the number of components seen and of names taken away;
  `walkStop` — the two reasons to give up: a `".."` with nothing to take away in strict mode,
  and a result that does not fit `cap` bytes.
* `TableExact` — at a `".."` that meets a non-empty stack, component number
  `seen - 2 * removed` of the input has the kind of the top of the stack, and as many bytes.
  `ffpath_norm` keeps no stack; it reads what to take away at that place of its input table.
-/

set_option autoImplicit false

namespace FFSys.Path

open FFSys.Lib

/-- The component `"."`. -/
def dotComp : Comp := [DOT]

/-- The component `".."`. -/
def dotdotComp : Comp := [DOT, DOT]

theorem dotdotComp_ne_nil : dotdotComp ≠ [] := by simp [dotdotComp]

/-- How a component is treated: `"."`, `".."` or anything else. -/
inductive Kind where
  | dot
  | dotdot
  | name
  deriving DecidableEq, Repr

def kindOf (c : Comp) : Kind :=
  if c = dotComp then .dot else if c = dotdotComp then .dotdot else .name

@[simp] theorem kindOf_dot : kindOf dotComp = .dot := rfl

@[simp] theorem kindOf_dotdot : kindOf dotdotComp = .dotdot := rfl

theorem kindOf_eq_dot {c : Comp} : kindOf c = .dot ↔ c = dotComp := by
  unfold kindOf
  split
  · simp_all
  · split <;> simp_all

theorem kindOf_eq_dotdot {c : Comp} : kindOf c = .dotdot ↔ c = dotdotComp := by
  unfold kindOf
  split
  · rename_i h; subst h; simp; decide
  · split <;> simp_all

/-! ## The stack machine -/

/-- What one component does to the stack (its top is the head of the list). -/
inductive Move where
  | keep
  | push
  | pop
  | replace
  deriving DecidableEq, Repr

def moveOf (rooted : Bool) (st : List Comp) (c : Comp) : Move :=
  if c = [] then .keep
  else match kindOf c with
    | .name => .push
    | .dot => if st = [] ∧ rooted = false then .push else .keep
    | .dotdot =>
      match st with
      | [] => if rooted then .keep else .push
      | t :: _ =>
        match kindOf t with
        | .dot => .replace
        | .dotdot => .push
        | .name => .pop

def Move.apply (c : Comp) : Move → List Comp → List Comp
  | .keep, st => st
  | .push, st => c :: st
  | .pop, st => st.tail
  | .replace, st => c :: st.tail

def stackStep (rooted : Bool) (st : List Comp) (c : Comp) : List Comp :=
  (moveOf rooted st c).apply c st

theorem stackStep_eq {rooted : Bool} {st : List Comp} {c : Comp} {m : Move}
    (h : moveOf rooted st c = m) : stackStep rooted st c = m.apply c st := by
  rw [stackStep, h]

/-- What a `".."` does to a non-empty stack. -/
theorem moveOf_dotdot_cons (rooted : Bool) (t : Comp) (below : List Comp) :
    moveOf rooted (t :: below) dotdotComp =
      match kindOf t with
      | .dot => .replace
      | .dotdot => .push
      | .name => .pop := by
  rfl

/-- Only a `".."` takes something away. -/
theorem eq_dotdot_of_takes {rooted : Bool} {st : List Comp} {c : Comp}
    (h : moveOf rooted st c = .pop ∨ moveOf rooted st c = .replace) : c = dotdotComp := by
  unfold moveOf at h
  by_cases hnil : c = []
  · simp [hnil] at h
  · cases hk : kindOf c with
    | name => simp [hnil, hk] at h
    | dot =>
      by_cases h0 : st = [] ∧ rooted = false
      · simp [hnil, hk, h0] at h
      · simp [hnil, hk, h0] at h
    | dotdot => exact kindOf_eq_dotdot.mp hk

/-- Every component of the stack comes from the stack before or is the new one. -/
theorem mem_stackStep {rooted : Bool} {st : List Comp} {c x : Comp}
    (h : x ∈ stackStep rooted st c) : x ∈ st ∨ x = c := by
  cases hm : moveOf rooted st c with
  | keep => rw [stackStep_eq hm] at h; exact Or.inl h
  | push => rw [stackStep_eq hm] at h; exact (List.mem_cons.mp h).symm
  | pop => rw [stackStep_eq hm] at h; exact Or.inl (List.mem_of_mem_tail h)
  | replace =>
    rw [stackStep_eq hm] at h
    rcases List.mem_cons.mp h with h | h
    · exact Or.inr h
    · exact Or.inl (List.mem_of_mem_tail h)

/-- The stack after a list of components. -/
def stackNorm (rooted : Bool) (cs : List Comp) : List Comp := cs.foldl (stackStep rooted) []

/-- The path a stack stands for: the root, then the components joined with `slash`. -/
def render (root : List Byte) (slash : Byte) (st : List Comp) : List Byte :=
  root ++ [slash].intercalate st.reverse

/-! ## A walk over the components -/

/-- A run of the stack machine: components seen, names taken away, stack. -/
structure Walk where
  seen : Nat
  removed : Nat
  st : List Comp

def Walk.init : Walk := ⟨0, 0, []⟩

def Walk.next (rooted : Bool) (w : Walk) (c : Comp) : Walk :=
  ⟨w.seen + 1, w.removed + (if moveOf rooted w.st c = .pop then 1 else 0), stackStep rooted w.st c⟩

/-- The capacity and strictness the walk is subject to. -/
structure Limits where
  strict : Bool
  cap : Nat
  root : List Byte
  slash : Byte

def Limits.rooted (l : Limits) : Bool := !l.root.isEmpty

/-- The component cannot be processed: a strict `".."` on nothing, or no room for the result. -/
def walkStop (l : Limits) (w : Walk) (c : Comp) : Bool :=
  match moveOf l.rooted w.st c with
  | .keep => l.strict && decide (c = dotdotComp) && decide (w.st = [])
  | .pop => false
  | .push =>
    (l.strict && decide (c = dotdotComp) && decide (w.st = [])) ||
      decide (l.cap < (render l.root l.slash (c :: w.st)).length)
  | .replace => decide (l.cap < (render l.root l.slash (c :: w.st.tail)).length)

section WalkStop

variable {l : Limits} {w : Walk} {c : Comp}

theorem walkStop_keep (h : moveOf l.rooted w.st c = .keep) :
    walkStop l w c = (l.strict && decide (c = dotdotComp) && decide (w.st = [])) := by
  simp only [walkStop, h]

theorem walkStop_push (h : moveOf l.rooted w.st c = .push) :
    walkStop l w c = ((l.strict && decide (c = dotdotComp) && decide (w.st = [])) ||
      decide (l.cap < (render l.root l.slash (c :: w.st)).length)) := by
  simp only [walkStop, h]

theorem walkStop_pop (h : moveOf l.rooted w.st c = .pop) : walkStop l w c = false := by
  simp only [walkStop, h]

theorem walkStop_replace (h : moveOf l.rooted w.st c = .replace) :
    walkStop l w c = decide (l.cap < (render l.root l.slash (c :: w.st.tail)).length) := by
  simp only [walkStop, h]

end WalkStop

/-- The stack the components lead to, `none` if one of them cannot be processed. -/
def boundedNorm (l : Limits) (cs : List Comp) : Option (List Comp) :=
  (foldStop (walkStop l) (Walk.next l.rooted) Walk.init cs).map (·.st)

/-! ## The input table against the stack -/

/-- Component `n` of the input (counted from 1, with the separator before it) stands for the top
    of the stack: it has the same kind and, unless both are `".."`, the same number of bytes. -/
def entryExact (cs : List Comp) : Nat → List Comp → Bool
  | n + 1, t :: below =>
    match cs[n]? with
    | some e =>
      decide (kindOf e = kindOf t) && (decide (kindOf t = .dotdot) ||
        decide (e.length + (if n = 0 then 0 else 1) = t.length + (if below = [] then 0 else 1)))
    | none => false
  | _, _ => false

/-- At a `".."` on a non-empty stack the place of the table the code looks at is exact. -/
def TableExact (cs : List Comp) (w : Walk) (c : Comp) : Prop :=
  c = dotdotComp → w.st ≠ [] → entryExact cs (w.seen - 2 * w.removed) w.st = true

instance (cs : List Comp) (w : Walk) (c : Comp) : Decidable (TableExact cs w c) :=
  inferInstanceAs (Decidable (_ → _ → _))

/-- The table is exact at every `".."` the run gets to. -/
def Aligned (l : Limits) (cs : List Comp) : Prop :=
  Along (walkStop l) (Walk.next l.rooted) (TableExact cs) Walk.init cs

instance (l : Limits) (cs : List Comp) : Decidable (Aligned l cs) := Along.decidable _ _

end FFSys.Path
