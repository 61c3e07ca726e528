import Mathlib.Data.Tree.Basic
import Mathlib.Data.List.Perm.Basic

/-
  Paths in binary trees.

  A subtree and the frames above it make up a tree again.
  The values in inorder are those before the subtree, those
  in it and those after it, whatever the shape of the tree
  above.  A rotation keeps the inorder list.

  Key definitions include:
    * `TreePath.Side`, `TreePath.Frame`
    * `TreePath.build`
    * `TreePath.inorder`
    * `TreePath.rebuild`
    * `TreePath.before`, `TreePath.after`

  Key theorems include:
    * `TreePath.inorder_rotate`
    * `TreePath.inorder_rebuild`
    * `TreePath.exists_leftmost`
-/

------------------------------------------------------------
-- Sides
------------------------------------------------------------

namespace TreePath

inductive Side where
  | left
  | right
  deriving DecidableEq, Repr

def Side.other : Side → Side
  | left => right
  | right => left

@[simp] theorem Side.other_other
    (side : Side) :
    side.other.other = side := by
  cases side with
  | left => rfl
  | right => rfl

variable {α : Type}

/- A node with one subtree on `side` and one opposite. -/
def build
    (side : Side)
    (a : α)
    (inner outer : BinaryTree α) :
    BinaryTree α :=
  match side with
  | .left => .node a inner outer
  | .right => .node a outer inner

theorem build_other
    (side : Side)
    (a : α)
    (inner outer : BinaryTree α) :
    build side.other a inner outer =
      build side a outer inner := by
  cases side with
  | left => rfl
  | right => rfl

------------------------------------------------------------
-- Inorder
------------------------------------------------------------

def inorder : BinaryTree α → List α
  | .nil => []
  | .node a left right =>
      inorder left ++ a :: inorder right

@[simp] theorem inorder_nil :
    inorder (.nil : BinaryTree α) = [] := rfl

@[simp] theorem inorder_node
    (a : α)
    (left right : BinaryTree α) :
    inorder (.node a left right) =
      inorder left ++ a :: inorder right := rfl

/- A rotation keeps the inorder list. -/
theorem inorder_rotate
    (side : Side)
    (x y : α)
    (a b c : BinaryTree α) :
    inorder (build side y (build side x a b) c) =
      inorder
        (build side x a (build side y b c)) := by
  cases side with
  | left => simp [build]
  | right => simp [build]

/- A node seen by side. -/
theorem exists_build
    (side : Side)
    (a : α)
    (left right : BinaryTree α) :
    ∃ inner outer,
      BinaryTree.node a left right =
        build side a inner outer := by
  cases side with
  | left => exact ⟨left, right, rfl⟩
  | right => exact ⟨right, left, rfl⟩

theorem exists_node
    (side : Side)
    (a : α)
    (inner outer : BinaryTree α) :
    ∃ left right,
      build side a inner outer =
        BinaryTree.node a left right := by
  cases side with
  | left => exact ⟨inner, outer, rfl⟩
  | right => exact ⟨outer, inner, rfl⟩

/- The values of a node, root first. -/
theorem inorder_build_perm
    (side : Side)
    (a : α)
    (inner outer : BinaryTree α) :
    (inorder (build side a inner outer)).Perm
      (a :: (inorder inner ++ inorder outer)) := by
  cases side with
  | left => exact List.perm_middle
  | right =>
      exact List.perm_middle.trans
        (List.perm_append_comm.cons a)

------------------------------------------------------------
-- Frames
------------------------------------------------------------

/- One step of a path: the side taken and what is left. -/
structure Frame
    (α : Type) where
  side : Side
  value : α
  sibling : BinaryTree α

/- The tree one level up. -/
def Frame.plug
    (frame : Frame α)
    (t : BinaryTree α) :
    BinaryTree α :=
  build frame.side frame.value t frame.sibling

/- The whole tree; the first frame is the lowest. -/
def rebuild
    (t : BinaryTree α) :
    List (Frame α) → BinaryTree α
  | [] => t
  | frame :: rest => rebuild (frame.plug t) rest

/- The values left of the subtree, in order. -/
def before : List (Frame α) → List α
  | [] => []
  | frame :: rest =>
      match frame.side with
      | .left => before rest
      | .right =>
          before rest ++ inorder frame.sibling ++
            [frame.value]

/- The values right of the subtree, in order. -/
def after : List (Frame α) → List α
  | [] => []
  | frame :: rest =>
      match frame.side with
      | .left =>
          frame.value :: inorder frame.sibling ++ after rest
      | .right => after rest

variable {t : BinaryTree α}
variable {frame : Frame α}
variable {frames above : List (Frame α)}

@[simp] theorem rebuild_nil :
    rebuild t [] = t := rfl

@[simp] theorem rebuild_cons :
    rebuild t (frame :: frames) =
      rebuild (frame.plug t) frames := rfl

theorem rebuild_append :
    rebuild t (frames ++ above) =
      rebuild (rebuild t frames) above := by
  induction frames generalizing t with
  | nil => rfl
  | cons frame frames ih => exact ih

theorem inorder_rebuild :
    inorder (rebuild t frames) =
      before frames ++ inorder t ++ after frames := by
  induction frames generalizing t with
  | nil => simp [before, after]
  | cons frame frames ih =>
      rw [rebuild_cons, ih, Frame.plug, before, after]
      cases frame.side with
      | left => simp [build]
      | right => simp [build]

/- The tree above keeps the order of the subtree. -/
theorem inorder_rebuild_congr
    {t' : BinaryTree α}
    (hInorder : inorder t = inorder t') :
    inorder (rebuild t frames) =
      inorder (rebuild t' frames) := by
  rw [inorder_rebuild, inorder_rebuild, hInorder]

/- Every frame of a path holds a value of its own. -/
theorem length_rebuild :
    frames.length + (inorder t).length ≤
      (inorder (rebuild t frames)).length := by
  induction frames generalizing t with
  | nil => simp
  | cons frame frames ih =>
      have hPlug :
          (inorder t).length + 1 ≤
            (inorder (frame.plug t)).length := by
        have hPerm :=
          inorder_build_perm frame.side frame.value t
            frame.sibling
        rw [Frame.plug, hPerm.length_eq, List.length_cons,
          List.length_append]
        omega
      have hRest := @ih (frame.plug t)
      rw [rebuild_cons, List.length_cons]
      omega

/- Every value of a tree is the root of a subtree. -/
theorem exists_rebuild_of_mem
    {a : α}
    (hMember : a ∈ inorder t) :
    ∃ frames left right,
      t = rebuild (.node a left right) frames := by
  induction t with
  | nil => simp at hMember
  | node b left right ihLeft ihRight =>
      rw [inorder_node, List.mem_append, List.mem_cons]
        at hMember
      rcases hMember with hLeft | rfl | hRight
      · rcases ihLeft hLeft with ⟨frames, l, r, hRebuild⟩
        refine ⟨frames ++ [⟨.left, b, right⟩], l, r, ?_⟩
        rw [rebuild_append, ← hRebuild]
        rfl
      · exact ⟨[], left, right, rfl⟩
      · rcases ihRight hRight with ⟨frames, l, r, hRebuild⟩
        refine ⟨frames ++ [⟨.right, b, left⟩], l, r, ?_⟩
        rw [rebuild_append, ← hRebuild]
        rfl

/- The first value of a tree, down the left spine. -/
theorem exists_leftmost
    (hNode : t ≠ .nil) :
    ∃ a right frames,
      t = rebuild (.node a .nil right) frames ∧
        ∀ frame ∈ frames, frame.side = .left := by
  induction t with
  | nil => exact absurd rfl hNode
  | node b left right ihLeft _ =>
      by_cases hLeft : left = .nil
      · rw [hLeft]
        exact ⟨b, right, [], rfl, by simp⟩
      · rcases ihLeft hLeft with ⟨a, r, frames, hRebuild, hSides⟩
        refine ⟨a, r, frames ++ [⟨.left, b, right⟩], ?_, ?_⟩
        · rw [rebuild_append, ← hRebuild]
          rfl
        · intro frame hMember
          rw [List.mem_append, List.mem_singleton] at hMember
          rcases hMember with hOld | rfl
          · exact hSides frame hOld
          · rfl

/- Nothing is left of a subtree on the left spine. -/
theorem before_of_left
    (hSides : ∀ frame ∈ frames, frame.side = .left) :
    before frames = [] := by
  induction frames with
  | nil => rfl
  | cons frame frames ih =>
      have hSide := hSides frame List.mem_cons_self
      rw [before, hSide]
      exact ih fun other hOther =>
        hSides other (List.mem_cons_of_mem frame hOther)

end TreePath
