import CsappLabs.Lib.TreePath
import Mathlib.Order.Lattice

/-
  The search for a key in a search tree.

  The search goes down a path until it meets the key or falls
  off the tree.  In a tree whose keys increase in inorder, the
  values left of the path have smaller keys and those right of
  it have greater ones.

  Key definitions include:
    * `SearchTree.Increasing`, `SearchTree.Ordered`
    * `SearchTree.descend`
    * `SearchTree.Splits`

  Key theorems include:
    * `SearchTree.ordered_iff`
    * `SearchTree.rebuild_descend`
    * `SearchTree.descend_splits`
    * `SearchTree.descend_root`
-/

------------------------------------------------------------
-- Search Trees
------------------------------------------------------------

namespace SearchTree

open TreePath

variable {α K : Type} [LinearOrder K]

/- The keys increase along the list. -/
def Increasing
    (keyOf : α → K)
    (values : List α) :
    Prop :=
  values.Pairwise fun low high => keyOf low < keyOf high

/- Smaller keys are on the left and greater on the right. -/
def Ordered
    (keyOf : α → K) :
    BinaryTree α → Prop
  | .nil => True
  | .node a left right =>
      (∀ b ∈ inorder left, keyOf b < keyOf a) ∧
        (∀ b ∈ inorder right, keyOf a < keyOf b) ∧
          Ordered keyOf left ∧ Ordered keyOf right

/- A search tree is one whose keys increase in inorder. -/
theorem ordered_iff
    {keyOf : α → K}
    {t : BinaryTree α} :
    Ordered keyOf t ↔ Increasing keyOf (inorder t) := by
  induction t with
  | nil => simp [Ordered, Increasing]
  | node a left right ihLeft ihRight =>
      rw [Ordered, ihLeft, ihRight, inorder_node]
      unfold Increasing
      rw [List.pairwise_append, List.pairwise_cons]
      constructor
      · rintro ⟨hLow, hHigh, hLeft, hRight⟩
        refine ⟨hLeft, ⟨hHigh, hRight⟩, ?_⟩
        intro b hb c hc
        rcases List.mem_cons.mp hc with rfl | hc
        · exact hLow b hb
        · exact lt_trans (hLow b hb) (hHigh c hc)
      · rintro ⟨hLeft, ⟨hHigh, hRight⟩, hCross⟩
        refine ⟨fun b hb => ?_, hHigh, hLeft, hRight⟩
        exact hCross b hb a List.mem_cons_self

------------------------------------------------------------
-- The Path of a Search
------------------------------------------------------------

/- Where the search for `k` in a subtree ends. -/
def descend
    (keyOf : α → K)
    (k : K) :
    BinaryTree α → List (Frame α) →
      List (Frame α) × BinaryTree α
  | .nil, frames => (frames, .nil)
  | .node a left right, frames =>
      if k = keyOf a then
        (frames, .node a left right)
      else if k > keyOf a then
        descend keyOf k right (⟨.right, a, left⟩ :: frames)
      else
        descend keyOf k left (⟨.left, a, right⟩ :: frames)

/- The key lies between the two sides of a path. -/
structure Splits
    (keyOf : α → K)
    (k : K)
    (frames : List (Frame α)) :
    Prop where
  before : ∀ a ∈ before frames, keyOf a < k
  after : ∀ a ∈ after frames, k < keyOf a

variable {keyOf : α → K} {k : K}
variable {a : α}
variable {t left right : BinaryTree α}
variable {frames : List (Frame α)}

theorem splits_nil :
    Splits keyOf k [] where
  before := by simp [TreePath.before]
  after := by simp [TreePath.after]

theorem descend_here
    (hKey : k = keyOf a) :
    descend keyOf k (.node a left right) frames =
      (frames, .node a left right) := by
  rw [descend, if_pos hKey]

theorem descend_right
    (hLess : keyOf a < k) :
    descend keyOf k (.node a left right) frames =
      descend keyOf k right (⟨.right, a, left⟩ :: frames) := by
  rw [descend, if_neg (ne_of_gt hLess), if_pos hLess]

theorem descend_left
    (hGreater : k < keyOf a) :
    descend keyOf k (.node a left right) frames =
      descend keyOf k left (⟨.left, a, right⟩ :: frames) := by
  rw [descend, if_neg (ne_of_lt hGreater),
    if_neg (lt_asymm hGreater)]

/- The search does not change the tree. -/
theorem rebuild_descend :
    rebuild (descend keyOf k t frames).2
        (descend keyOf k t frames).1 =
      rebuild t frames := by
  induction t generalizing frames with
  | nil => rfl
  | node a left right ihLeft ihRight =>
      unfold descend
      split_ifs with hHere hRight
      · rfl
      · exact ihRight
      · exact ihLeft

/- The search ends at the key or below a leaf. -/
theorem descend_root :
    (descend keyOf k t frames).2 = .nil ∨
      ∃ a left right,
        (descend keyOf k t frames).2 =
            .node a left right ∧
          k = keyOf a := by
  induction t generalizing frames with
  | nil => exact .inl rfl
  | node a left right ihLeft ihRight =>
      unfold descend
      split_ifs with hHere hRight
      · exact .inr ⟨a, left, right, rfl, hHere⟩
      · exact ihRight
      · exact ihLeft

/- What a tree with increasing keys says of a subtree. -/
theorem Increasing.node
    (hTree :
      Increasing keyOf
        (inorder (rebuild (.node a left right) frames))) :
    (∀ b ∈ before frames ++ inorder left,
        keyOf b < keyOf a) ∧
      (∀ b ∈ inorder right ++ after frames,
        keyOf a < keyOf b) := by
  have hList :
      inorder (rebuild (.node a left right) frames) =
        (before frames ++ inorder left) ++
          a :: (inorder right ++ after frames) := by
    simp [inorder_rebuild]
  rw [hList] at hTree
  rcases List.pairwise_append.mp hTree with ⟨_, hRest, hCross⟩
  refine ⟨fun b hMember => ?_, ?_⟩
  · exact hCross b hMember a List.mem_cons_self
  · exact (List.pairwise_cons.mp hRest).1

/- A step to the right. -/
theorem Splits.goRight
    (hSplits : Splits keyOf k frames)
    (hTree :
      Increasing keyOf
        (inorder (rebuild (.node a left right) frames)))
    (hLess : keyOf a < k) :
    Splits keyOf k (⟨.right, a, left⟩ :: frames) where
  before := by
    intro b hMember
    rw [TreePath.before, List.mem_append,
      List.mem_singleton] at hMember
    rcases hMember with hLow | rfl
    · exact lt_trans (hTree.node.1 b hLow) hLess
    · exact hLess
  after := hSplits.after

/- A step to the left. -/
theorem Splits.goLeft
    (hSplits : Splits keyOf k frames)
    (hTree :
      Increasing keyOf
        (inorder (rebuild (.node a left right) frames)))
    (hGreater : k < keyOf a) :
    Splits keyOf k (⟨.left, a, right⟩ :: frames) where
  before := hSplits.before
  after := by
    intro b hMember
    rw [TreePath.after, List.cons_append, List.mem_cons]
      at hMember
    rcases hMember with rfl | hHigh
    · exact hGreater
    · exact lt_trans hGreater (hTree.node.2 b hHigh)

/- The path of a search splits the tree at the key. -/
theorem descend_splits
    (hSplits : Splits keyOf k frames)
    (hTree :
      Increasing keyOf (inorder (rebuild t frames))) :
    Splits keyOf k (descend keyOf k t frames).1 := by
  induction t generalizing frames with
  | nil => exact hSplits
  | node a left right ihLeft ihRight =>
      unfold descend
      split_ifs with hHere hRight
      · exact hSplits
      · exact ihRight (hSplits.goRight hTree hRight) hTree
      · have hLeft : k < keyOf a :=
          lt_of_le_of_ne (not_lt.mp hRight) hHere
        exact ihLeft (hSplits.goLeft hTree hLeft) hTree

end SearchTree
