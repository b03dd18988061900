import Mathlib.Tactic

/-! # Preorder traversal with a stack

A walk over a tree keeps, for each level, the subtrees that it has not entered
yet. What is left of the walk is what these levels list in preorder.
-/
namespace BookmarkFS.Library

/-- A finite tree, with any number of subtrees at each node. -/
inductive Rose (α : Type) where
  | node (label : α) (children : List (Rose α))

namespace Rose

variable {α : Type}

def label : Rose α → α
  | node a _ => a

def children : Rose α → List (Rose α)
  | node _ ts => ts

mutual

/-- The labels of a tree, each before those of its subtrees. -/
def preorder : Rose α → List α
  | node a ts => a :: preorders ts

/-- The labels of several trees, one after the other. -/
def preorders : List (Rose α) → List α
  | [] => []
  | t :: ts => t.preorder ++ preorders ts

end

theorem preorder_eq (t : Rose α) : t.preorder = t.label :: preorders t.children := by
  cases t with
  | node a ts => rw [preorder, label, children]

/-- What is left of a walk, innermost level first. -/
def left (todo : List (List (Rose α))) : List α := todo.flatMap preorders

@[simp] theorem left_nil : left ([] : List (List (Rose α))) = [] := rfl

@[simp] theorem left_cons (ts : List (Rose α)) (todo : List (List (Rose α))) :
    left (ts :: todo) = preorders ts ++ left todo := List.flatMap_cons

/-- The tree that is entered next, once the levels that are done have been left; its subtrees are
not on a level of their own yet. -/
def advance : List (List (Rose α)) → Option (Rose α × List (List (Rose α)))
  | [] => none
  | [] :: todo => advance todo
  | (t :: ts) :: todo => some (t, ts :: todo)

theorem left_of_advance_none {todo : List (List (Rose α))} (h : advance todo = none) :
    left todo = [] := by
  induction todo with
  | nil => rfl
  | cons ts todo ih =>
    cases ts with
    | nil => rw [left_cons, preorders, List.nil_append]; exact ih h
    | cons t ts => cases h

theorem left_of_advance {todo todo' : List (List (Rose α))} {t : Rose α}
    (h : advance todo = some (t, todo')) :
    left todo = t.label :: left (t.children :: todo') := by
  induction todo with
  | nil => cases h
  | cons ts todo ih =>
    cases ts with
    | nil => rw [left_cons, preorders, List.nil_append]; exact ih h
    | cons t' ts =>
      obtain ⟨rfl, rfl⟩ := Prod.mk.inj (Option.some.inj h)
      simp only [left_cons, preorders, preorder_eq t', List.cons_append, List.append_assoc]

end Rose

end BookmarkFS.Library
