import Mathlib.Data.List.Basic
import Mathlib.Data.Tree.Basic

/-!
# Search trees under an arbitrary comparison

`descend goLeft x t` hangs `x` below the leaf that the comparison `goLeft` leads to.  Nothing is
assumed of `goLeft` for `inorder_descend_perm`; if along the in-order sequence `goLeft` is first
false and then true, `inorder_descend` says where `x` is put.  `unlink x t` takes the node `x` out
without looking at any key.
-/

set_option autoImplicit false

namespace FFSys.Lib

variable {α : Type}

/-- The in-order sequence. -/
def inorder : BinaryTree α → List α
  | .nil => []
  | .node x l r => inorder l ++ x :: inorder r

/-- The node at the end of the left spine. -/
def leftmost : BinaryTree α → Option α
  | .nil => none
  | .node x l _ =>
    match l with
    | .nil => some x
    | .node .. => leftmost l

/-- Go down to a leaf and put `x` there. -/
def descend (goLeft : α → Bool) (x : α) : BinaryTree α → BinaryTree α
  | .nil => .node x .nil .nil
  | .node p l r => if goLeft p then .node p (descend goLeft x l) r else .node p l (descend goLeft x r)

theorem leftmost_eq_head? : ∀ t : BinaryTree α, leftmost t = (inorder t).head?
  | .nil => rfl
  | .node x .nil r => rfl
  | .node x (.node y l m) r => by
    have ih := leftmost_eq_head? (.node y l m)
    have hne : inorder (.node y l m) ≠ [] := by simp [inorder]
    have hin : inorder (.node x (.node y l m) r) = inorder (.node y l m) ++ x :: inorder r := rfl
    rw [leftmost, ih, hin, List.head?_append_of_ne_nil _ hne]

theorem inorder_descend_perm (goLeft : α → Bool) (x : α) :
    ∀ t : BinaryTree α, (inorder (descend goLeft x t)).Perm (x :: inorder t)
  | .nil => List.Perm.refl _
  | .node p l r => by
    rw [descend]
    split
    · exact (inorder_descend_perm goLeft x l).append_right _
    · have h := ((inorder_descend_perm goLeft x r).cons p).append_left (inorder l)
      have hmid := @List.perm_middle α x (inorder l ++ [p]) (inorder r)
      simp only [List.append_assoc, List.singleton_append] at hmid
      exact h.trans hmid

/-- Where `descend` puts `x`: behind everything the comparison goes to the right of, in front of
    everything it goes to the left of. -/
theorem inorder_descend {goLeft : α → Bool} (x : α) :
    ∀ t : BinaryTree α, (inorder t).Pairwise (fun a b => goLeft a = true → goLeft b = true) →
      ∃ A B, inorder t = A ++ B ∧ inorder (descend goLeft x t) = A ++ x :: B ∧
        (∀ a ∈ A, goLeft a = false) ∧ ∀ b ∈ B, goLeft b = true
  | .nil, _ => ⟨[], [], rfl, rfl, by simp, by simp⟩
  | .node p l r, h => by
    rw [inorder, List.pairwise_append, List.pairwise_cons] at h
    obtain ⟨hl, ⟨hpr, hr⟩, hlr⟩ := h
    rw [descend]
    cases hp : goLeft p with
    | true =>
      obtain ⟨A, B, h1, h2, hA, hB⟩ := inorder_descend x l hl
      refine ⟨A, B ++ p :: inorder r, ?_, ?_, hA, ?_⟩
      · simp [inorder, h1]
      · simp [inorder, h2]
      · intro b hb
        rcases List.mem_append.mp hb with hb | hb
        · exact hB b hb
        · rcases List.mem_cons.mp hb with rfl | hb
          · exact hp
          · exact hpr b hb hp
    | false =>
      obtain ⟨A, B, h1, h2, hA, hB⟩ := inorder_descend x r hr
      refine ⟨inorder l ++ p :: A, B, ?_, ?_, ?_, hB⟩
      · simp [inorder, h1]
      · simp [inorder, h2]
      · intro a ha
        rcases List.mem_append.mp ha with ha | ha
        · cases hga : goLeft a with
          | false => rfl
          | true => rw [hlr a ha p List.mem_cons_self hga] at hp; cases hp
        · rcases List.mem_cons.mp ha with rfl | ha
          · exact hp
          · exact hA a ha

/-! ## Unlinking by identity -/

/-- Two trees as one, the first in front of the second. -/
def join : BinaryTree α → BinaryTree α → BinaryTree α
  | .nil, r => r
  | .node p l m, r => .node p l (join m r)

theorem inorder_join : ∀ l r : BinaryTree α, inorder (join l r) = inorder l ++ inorder r
  | .nil, r => rfl
  | .node p l m, r => by simp [join, inorder, inorder_join m r]

variable [DecidableEq α]

/-- Take the node `x` out. -/
def unlink (x : α) : BinaryTree α → BinaryTree α
  | .nil => .nil
  | .node p l r =>
    if x ∈ inorder l then .node p (unlink x l) r
    else if p = x then join l r
    else .node p l (unlink x r)

theorem inorder_unlink (x : α) : ∀ t : BinaryTree α, inorder (unlink x t) = (inorder t).erase x
  | .nil => rfl
  | .node p l r => by
    rw [unlink]
    by_cases hl : x ∈ inorder l
    · rw [if_pos hl, inorder, inorder, inorder_unlink x l, List.erase_append_left _ hl]
    · rw [if_neg hl]
      by_cases hp : p = x
      · rw [if_pos hp, inorder_join, inorder, List.erase_append_right _ hl, hp,
          List.erase_cons_head]
      · rw [if_neg hp, inorder, inorder, inorder_unlink x r, List.erase_append_right _ hl,
          List.erase_cons_tail (by simpa using hp)]

end FFSys.Lib
