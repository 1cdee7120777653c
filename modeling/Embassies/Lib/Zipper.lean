import Mathlib.Data.List.Basic
import Mathlib.Data.Tree.Basic

/-! Binary trees seen from one of their subtrees.

    A `Frame` is a node with one of its subtrees taken out; a list of frames, innermost first, is the way from a subtree
    up to the root, and `plug` puts a subtree back at the end of such a way. What is said of a left subtree has its
    mirror image for the right one, so nodes are built with `join`, which takes the side the first subtree is on. -/

namespace Embassies

open List

/-- A side of a node. -/
inductive Side where | left | right
  deriving DecidableEq, Repr

variable {α : Type} (side : Side) (near : BinaryTree α) (v : α) (far : BinaryTree α)

def Side.other : Side → Side
  | .left => .right
  | .right => .left

@[simp] lemma Side.other_other : side.other.other = side := by cases side <;> rfl

lemma Side.other_ne : side.other ≠ side := by cases side <;> simp [Side.other]

lemma Side.eq_or_eq_other (s side : Side) : s = side ∨ s = side.other := by
  cases s <;> cases side <;> simp [Side.other]

/-- The node whose subtree on that side is `near`. -/
def join (side : Side) (near : BinaryTree α) (v : α) (far : BinaryTree α) : BinaryTree α :=
  match side with
  | .left => .node v near far
  | .right => .node v far near

/-- The nodes from left to right. -/
def inorder : BinaryTree α → List α
  | .nil => []
  | .node v l r => inorder l ++ v :: inorder r

/-- Put lists together in the order of a node with the first of them on that side. -/
def joinList (side : Side) (near : List α) (v : α) (far : List α) : List α :=
  match side with
  | .left => near ++ v :: far
  | .right => far ++ v :: near

@[simp] lemma inorder_join : inorder (join side near v far) = joinList side (inorder near) v (inorder far) := by
  cases side <;> rfl

@[simp] lemma height_join : (join side near v far).height = max near.height far.height + 1 := by
  cases side
  · rfl
  · simp [join, Nat.max_comm]

lemma join_other : join side.other near v far = join side far v near := by
  cases side <;> rfl

lemma eq_nil_or_join (s : BinaryTree α) : s = .nil ∨ ∃ near v far, s = join side near v far := by
  cases s with
  | nil => exact .inl rfl
  | node v l r =>
    cases side with
    | left => exact .inr ⟨l, v, r, rfl⟩
    | right => exact .inr ⟨r, v, l, rfl⟩

lemma mem_joinList {side : Side} {near far : List α} {v x : α} :
    x ∈ joinList side near v far ↔ x ∈ near ∨ x = v ∨ x ∈ far := by
  cases side <;> simp [joinList, or_comm, or_left_comm, or_assoc]

lemma mem_inorder_join {side : Side} {near far : BinaryTree α} {v x : α} :
    x ∈ inorder (join side near v far) ↔ x ∈ inorder near ∨ x = v ∨ x ∈ inorder far := by
  rw [inorder_join, mem_joinList]

/-- INDUCTION over a tree, seen from one side. -/
@[elab_as_elim] lemma join_induction {motive : BinaryTree α → Prop} (nil : motive .nil)
    (join : ∀ near v far, motive near → motive far → motive (join side near v far)) (s : BinaryTree α) : motive s := by
  induction s with
  | nil => exact nil
  | node v l r hl hr =>
    cases side with
    | left => exact join l v r hl hr
    | right => exact join r v l hr hl

lemma joinList_map {β : Type} (f : α → β) (side : Side) (near far : List α) (v : α) :
    (joinList side near v far).map f = joinList side (near.map f) (f v) (far.map f) := by
  cases side <;> simp [joinList]

lemma joinList_perm (near far : List α) (v : α) : (joinList side near v far).Perm (v :: (near ++ far)) := by
  cases side with
  | left => exact perm_middle
  | right => exact perm_middle.trans (perm_append_comm.cons v)

lemma inorder_length : ∀ s : BinaryTree α, s.height ≤ (inorder s).length
  | .nil => Nat.zero_le _
  | .node v l r => by
      have hl := inorder_length l
      have hr := inorder_length r
      simp only [BinaryTree.height, inorder, length_append, length_cons]
      omega

/-- A node without the subtree on one side. -/
structure Frame (α : Type) where
  side : Side
  value : α
  sibling : BinaryTree α

/-- Put a subtree back at the end of a way. -/
def plug : BinaryTree α → List (Frame α) → BinaryTree α
  | s, [] => s
  | s, f :: up => plug (join f.side s f.value f.sibling) up

def nodesBefore : List (Frame α) → List α
  | [] => []
  | f :: up =>
    match f.side with
    | .left => nodesBefore up
    | .right => nodesBefore up ++ (inorder f.sibling ++ [f.value])

def nodesAfter : List (Frame α) → List α
  | [] => []
  | f :: up =>
    match f.side with
    | .left => f.value :: (inorder f.sibling ++ nodesAfter up)
    | .right => nodesAfter up

lemma inorder_plug : ∀ (path : List (Frame α)) (s : BinaryTree α),
    inorder (plug s path) = nodesBefore path ++ (inorder s ++ nodesAfter path)
  | [], s => by simp [plug, nodesBefore, nodesAfter]
  | ⟨side, v, sibling⟩ :: up, s => by
      rw [plug, inorder_plug up]
      cases side <;> simp [nodesBefore, nodesAfter, joinList]

lemma plug_append : ∀ (inner outer : List (Frame α)) (s : BinaryTree α),
    plug s (inner ++ outer) = plug (plug s inner) outer
  | [], _, _ => rfl
  | f :: up, outer, s => by
      rw [cons_append, plug, plug, plug_append up outer]

lemma join_ne_nil : join side near v far ≠ .nil := by cases side <;> simp [join]

lemma plug_eq_nil {path : List (Frame α)} : ∀ {s : BinaryTree α}, plug s path = .nil → s = .nil ∧ path = [] := by
  induction path with
  | nil => exact fun h => ⟨h, rfl⟩
  | cons f up ih => exact fun h => absurd (ih h).1 (join_ne_nil _ _ _ _)

lemma exists_plug_of_mem : ∀ {s : BinaryTree α} {v : α}, v ∈ inorder s →
    ∃ l r path, s = plug (.node v l r) path
  | .nil, v, h => absurd h not_mem_nil
  | .node w l r, v, h => by
      rcases mem_append.mp h with hl | hr
      · obtain ⟨l', r', path, rfl⟩ := exists_plug_of_mem hl
        exact ⟨l', r', path ++ [⟨.left, w, r⟩], by rw [plug_append]; rfl⟩
      rcases mem_cons.mp hr with rfl | hr
      · exact ⟨l, r, [], rfl⟩
      · obtain ⟨l', r', path, rfl⟩ := exists_plug_of_mem hr
        exact ⟨l', r', path ++ [⟨.right, w, l⟩], by rw [plug_append]; rfl⟩

lemma nodesBefore_of_left {path : List (Frame α)} (h : ∀ f ∈ path, f.side = .left) : nodesBefore path = [] := by
  induction path with
  | nil => rfl
  | cons f up ih =>
    rw [nodesBefore, h f mem_cons_self]
    exact ih fun g hg => h g (mem_cons_of_mem _ hg)

/-- The nodes in the order in which they are met going towards that side. -/
def walk (side : Side) (s : BinaryTree α) : List α :=
  match side with
  | .right => inorder s
  | .left => (inorder s).reverse

lemma walk_join : walk side (join side near v far) = walk side far ++ v :: walk side near := by
  cases side <;> simp [walk, joinList]

@[simp] lemma mem_walk {side : Side} {s : BinaryTree α} {v : α} : v ∈ walk side s ↔ v ∈ inorder s := by
  cases side <;> simp [walk]

end Embassies
