import CsappLabs.Lib.SearchTree
import CsappLabs.Splay.Rotate
import Mathlib.Data.Int.Order.Basic

/-
  The four search loops on held trees.

  Each loop goes down the path of the search for its key and
  only counts comparisons.  What it returns is read off the
  place where the search ends.

  Key theorems:
    * `search_rule`
    * `insertLoop_spec`
    * `findLoop_spec`
    * `nearestLoop_spec`
    * `removeLoop_spec`
-/

------------------------------------------------------------
-- Searching
------------------------------------------------------------

namespace CsappLabs

namespace Splay

open TreePath SearchTree

/- The tree with another comparison count. -/
def Tree.counted
    (tree : Tree)
    (count : Nat) :
    Tree :=
  { tree with comparisonCount := count }

theorem Focused.counted
    {tree : Tree}
    {frames : List (Frame Entry)}
    {t : BinaryTree Entry}
    (hTree : Focused tree frames t)
    (count : Nat) :
    Focused (tree.counted count) frames t where
  focus := hTree.focus
  above := hTree.above.congr rfl fun _ _ => rfl
  nodup := hTree.nodup

/- Where the search for a key in a subtree ends. -/
abbrev searchFor
    (key : Int)
    (t : BinaryTree Entry)
    (frames : List (Frame Entry)) :
    List (Frame Entry) × BinaryTree Entry :=
  descend Entry.key key t frames

section Loops

variable {tree : Tree}
variable {frames : List (Frame Entry)}
variable {t left right : BinaryTree Entry}
variable {a : Entry}
variable {key : Int}
variable {fuel : Nat}

theorem Focused.get
    (hTree : Focused tree frames (.node a left right)) :
    tree.get (some a.loc) =
      .ok ⟨rootOf left, rootOf right, parentOf frames,
        a.key, a.record⟩ :=
  get_of_nodes hTree.focus.1

/- The two steps of a search. -/
theorem Focused.goLeft
    (hTree : Focused tree frames (.node a left right)) :
    Focused tree (⟨.left, a, right⟩ :: frames) left :=
  focused_cons.mpr hTree

theorem Focused.goRight
    (hTree : Focused tree frames (.node a left right)) :
    Focused tree (⟨.right, a, left⟩ :: frames) right :=
  focused_cons.mpr hTree

/- Every entry of a held tree lies at its address. -/
theorem Focused.stored
    (hTree : Focused tree frames t)
    (hMember : a ∈ inorder (rebuild t frames)) :
    ∃ node,
      tree.get (some a.loc) = .ok node ∧
        node.key = a.key ∧ node.record = a.record := by
  rcases exists_rebuild_of_mem hMember with
    ⟨path, l, r, hRebuild⟩
  have hTop := focused_rebuild.mp hTree
  rw [hRebuild] at hTop
  exact ⟨_, (focused_rebuild.mpr hTop).get, rfl, rfl⟩

/-
  A loop with fuel for every node of its subtree, by the
  three ways a search goes on at a node.
-/
@[elab_as_elim]
theorem search_rule
    {P : Nat → Tree → List (Frame Entry) →
      BinaryTree Entry → Prop}
    (key : Int)
    (hNil :
      ∀ fuel tree frames, Focused tree frames .nil →
        P (fuel + 1) tree frames .nil)
    (hHere :
      ∀ fuel tree frames a left right,
        Focused tree frames (.node a left right) →
        key = a.key →
        P (fuel + 1) tree frames (.node a left right))
    (hRight :
      ∀ fuel tree frames a left right,
        Focused tree frames (.node a left right) →
        a.key < key →
        (∀ count,
          P fuel (tree.counted count)
            (⟨.right, a, left⟩ :: frames) right) →
        P (fuel + 1) tree frames (.node a left right))
    (hLeft :
      ∀ fuel tree frames a left right,
        Focused tree frames (.node a left right) →
        key < a.key →
        (∀ count,
          P fuel (tree.counted count)
            (⟨.left, a, right⟩ :: frames) left) →
        P (fuel + 1) tree frames (.node a left right))
    (hTree : Focused tree frames t)
    (hFuel : (inorder t).length < fuel) :
    P fuel tree frames t := by
  induction t generalizing tree frames fuel with
  | nil =>
      cases fuel with
      | zero => exact absurd hFuel (Nat.not_lt_zero _)
      | succ fuel => exact hNil fuel tree frames hTree
  | node a left right ihLeft ihRight =>
      cases fuel with
      | zero => exact absurd hFuel (Nat.not_lt_zero _)
      | succ fuel =>
          rw [inorder_node, List.length_append,
            List.length_cons] at hFuel
          rcases lt_trichotomy key a.key with
            hLow | hEq | hHigh
          · apply hLeft fuel tree frames a left right hTree
              hLow
            exact fun count =>
              ihLeft (hTree.goLeft.counted count) (by omega)
          · exact hHere fuel tree frames a left right hTree
              hEq
          · apply hRight fuel tree frames a left right hTree
              hHigh
            exact fun count =>
              ihRight (hTree.goRight.counted count)
                (by omega)

/- Whether a search ends with a comparison of equal keys. -/
def lastCompared : BinaryTree Entry → Nat
  | .nil => 0
  | .node _ _ _ => 1

@[simp] theorem comparisonCount_counted
    {count : Nat} :
    (tree.counted count).comparisonCount = count := rfl

/- The record where a search ends. -/
def recordAt : BinaryTree Entry → Ptr
  | .nil => none
  | .node a _ _ => a.record

theorem findLoop_spec
    (hTree : Focused tree frames t)
    (hFuel : (inorder t).length < fuel) :
    ∃ count,
      findLoop key fuel tree (rootOf t) =
        .ok (tree.counted count,
          recordAt (searchFor key t frames).2) := by
  refine search_rule key ?_ ?_ ?_ ?_ hTree hFuel
  · exact fun _ tree _ _ => ⟨tree.comparisonCount, rfl⟩
  · intro fuel tree frames a left right hTree hKey
    rw [searchFor, descend_here hKey]
    simp only [findLoop, rootOf, hTree.get, ok_bind, hKey,
      if_true]
    exact ⟨_, rfl⟩
  · intro fuel tree frames a left right hTree hLess ih
    rcases ih (tree.comparisonCount + 2) with ⟨count, hLoop⟩
    refine ⟨count, ?_⟩
    rw [searchFor, descend_right hLess]
    simp only [findLoop, rootOf, hTree.get, ok_bind,
      ne_of_gt hLess, hLess, gt_iff_lt, if_false, if_true]
    exact hLoop
  · intro fuel tree frames a left right hTree hGreater ih
    rcases ih (tree.comparisonCount + 2) with ⟨count, hLoop⟩
    refine ⟨count, ?_⟩
    rw [searchFor, descend_left hGreater]
    simp only [findLoop, rootOf, hTree.get, ok_bind,
      ne_of_lt hGreater, lt_asymm hGreater, gt_iff_lt,
      if_false]
    exact hLoop

theorem removeLoop_spec
    (hTree : Focused tree frames t)
    (hFuel : (inorder t).length < fuel) :
    ∃ count,
      removeLoop key fuel tree (rootOf t) =
        .ok (tree.counted count,
          rootOf (searchFor key t frames).2) ∧
        count + frames.length =
          tree.comparisonCount +
            (searchFor key t frames).1.length := by
  refine search_rule key ?_ ?_ ?_ ?_ hTree hFuel
  · exact fun _ tree _ _ => ⟨tree.comparisonCount, rfl, rfl⟩
  · intro fuel tree frames a left right hTree hKey
    rw [searchFor, descend_here hKey]
    simp only [removeLoop, rootOf, hTree.get, ok_bind, hKey,
      if_true]
    exact ⟨tree.comparisonCount, rfl, rfl⟩
  · intro fuel tree frames a left right hTree hLess ih
    rcases ih (tree.comparisonCount + 1) with
      ⟨count, hLoop, hCount⟩
    rw [List.length_cons, comparisonCount_counted, searchFor]
      at hCount
    rw [searchFor, descend_right hLess]
    refine ⟨count, ?_, by omega⟩
    simp only [removeLoop, rootOf, hTree.get, ok_bind,
      ne_of_lt hLess, hLess, gt_iff_lt, if_false, if_true]
    exact hLoop
  · intro fuel tree frames a left right hTree hGreater ih
    rcases ih (tree.comparisonCount + 1) with
      ⟨count, hLoop, hCount⟩
    rw [List.length_cons, comparisonCount_counted, searchFor]
      at hCount
    rw [searchFor, descend_left hGreater]
    refine ⟨count, ?_, by omega⟩
    simp only [removeLoop, rootOf, hTree.get, ok_bind,
      ne_of_gt hGreater, lt_asymm hGreater, gt_iff_lt,
      if_false]
    exact hLoop

/- Where tree_insert's loop ends, by the search. -/
def placeAt : List (Frame Entry) × BinaryTree Entry → Place
  | (frames, .nil) => .under (parentOf frames)
  | (_, .node _ _ _) => .present

theorem insertLoop_spec
    (hTree : Focused tree frames t)
    (hFuel : (inorder t).length < fuel) :
    ∃ count,
      insertLoop key fuel tree (rootOf t)
          (parentOf frames) =
        .ok (tree.counted count,
          placeAt (searchFor key t frames)) ∧
        count + 2 * frames.length =
          tree.comparisonCount +
            2 * (searchFor key t frames).1.length +
              lastCompared (searchFor key t frames).2 := by
  refine search_rule key ?_ ?_ ?_ ?_ hTree hFuel
  · exact fun _ tree _ _ => ⟨tree.comparisonCount, rfl, rfl⟩
  · intro fuel tree frames a left right hTree hKey
    rw [searchFor, descend_here hKey]
    simp only [insertLoop, rootOf, hTree.get, ok_bind, hKey,
      if_true]
    exact ⟨tree.comparisonCount + 1, rfl,
      Nat.add_right_comm _ _ _⟩
  · intro fuel tree frames a left right hTree hLess ih
    rcases ih (tree.comparisonCount + 2) with
      ⟨count, hLoop, hCount⟩
    rw [List.length_cons, comparisonCount_counted, searchFor]
      at hCount
    rw [searchFor, descend_right hLess]
    refine ⟨count, ?_, by omega⟩
    simp only [insertLoop, rootOf, hTree.get, ok_bind,
      ne_of_gt hLess, hLess, gt_iff_lt, if_false, if_true]
    exact hLoop
  · intro fuel tree frames a left right hTree hGreater ih
    rcases ih (tree.comparisonCount + 2) with
      ⟨count, hLoop, hCount⟩
    rw [List.length_cons, comparisonCount_counted, searchFor]
      at hCount
    rw [searchFor, descend_left hGreater]
    refine ⟨count, ?_, by omega⟩
    simp only [insertLoop, rootOf, hTree.get, ok_bind,
      ne_of_lt hGreater, lt_asymm hGreater, gt_iff_lt,
      if_false]
    exact hLoop

------------------------------------------------------------
-- The Nearest Node
------------------------------------------------------------

/- The last entry left of a path. -/
def lastBefore
    (frames : List (Frame Entry)) :
    Option Entry :=
  (before frames).getLast?

/- The record at the greatest key that is not above. -/
def nearestRecord :
    List (Frame Entry) × BinaryTree Entry → Ptr
  | (frames, .nil) => (lastBefore frames).bind Entry.record
  | (_, .node a _ _) => a.record

@[simp] theorem lastBefore_goLeft :
    lastBefore (⟨.left, a, right⟩ :: frames) =
      lastBefore frames := rfl

@[simp] theorem lastBefore_goRight :
    lastBefore (⟨.right, a, left⟩ :: frames) =
      some a := by
  simp [lastBefore, before]

theorem lastBefore_mem
    (hLast : lastBefore frames = some a) :
    a ∈ inorder (rebuild t frames) := by
  have hMember := List.mem_of_getLast? hLast
  rw [inorder_rebuild]
  simp [hMember]

theorem recordOf_spec
    (hTree : Focused tree frames t) :
    recordOf tree ((lastBefore frames).map Entry.loc) =
      .ok ((lastBefore frames).bind Entry.record) := by
  cases hLast : lastBefore frames with
  | none => rfl
  | some a =>
      rcases hTree.stored (lastBefore_mem hLast) with
        ⟨node, hGet, _, hRecord⟩
      simp only [recordOf, Option.map_some, reduceCtorEq,
        if_false, hGet, ok_bind, hRecord,
        Option.bind_some]
      rfl

/- A step to the right finds a greater key. -/
theorem nearer_spec
    (hTree : Focused tree frames (.node a left right))
    (hOrder :
      Increasing Entry.key
        (inorder (rebuild (.node a left right) frames))) :
    nearer tree ((lastBefore frames).map Entry.loc) a.loc
        a.key =
      .ok (some a.loc) := by
  cases hLast : lastBefore frames with
  | none => rfl
  | some b =>
      rcases hTree.stored (lastBefore_mem hLast) with
        ⟨node, hGet, hKey, _⟩
      have hLess : b.key < a.key :=
        hOrder.node.1 b
          (List.mem_append_left _
            (List.mem_of_getLast? hLast))
      simp only [nearer, Option.map_some, reduceCtorEq,
        if_false, hGet, ok_bind, hKey, hLess, if_true]
      rfl

theorem nearestLoop_spec
    (hTree : Focused tree frames t)
    (hOrder :
      Increasing Entry.key (inorder (rebuild t frames)))
    (hFuel : (inorder t).length < fuel) :
    ∃ count,
      nearestLoop key fuel tree (rootOf t)
          ((lastBefore frames).map Entry.loc) =
        .ok (tree.counted count,
          nearestRecord (searchFor key t frames)) ∧
        count + 2 * frames.length =
          tree.comparisonCount +
            2 * (searchFor key t frames).1.length +
              lastCompared (searchFor key t frames).2 := by
  revert hOrder
  refine search_rule key ?_ ?_ ?_ ?_ hTree hFuel
  · intro fuel tree frames hTree _
    refine ⟨tree.comparisonCount, ?_, rfl⟩
    simp only [nearestLoop, rootOf, recordOf_spec hTree,
      ok_bind]
    rfl
  · intro fuel tree frames a left right hTree hKey _
    rw [searchFor, descend_here hKey]
    simp only [nearestLoop, rootOf, hTree.get, ok_bind,
      hKey, if_true]
    exact ⟨tree.comparisonCount + 1, rfl,
      Nat.add_right_comm _ _ _⟩
  · intro fuel tree frames a left right hTree hLess ih
      hOrder
    have hNearer :=
      nearer_spec (hTree.counted (tree.comparisonCount + 2))
        hOrder
    rcases ih (tree.comparisonCount + 2) hOrder with
      ⟨count, hLoop, hCount⟩
    rw [lastBefore_goRight] at hLoop
    rw [List.length_cons, comparisonCount_counted, searchFor]
      at hCount
    rw [searchFor, descend_right hLess]
    refine ⟨count, ?_, by omega⟩
    simp only [nearestLoop, rootOf, hTree.get, ok_bind,
      ne_of_gt hLess, hLess, gt_iff_lt, if_false, if_true]
    change nearer tree.compared.compared _ _ _ = _
      at hNearer
    rw [hNearer, ok_bind]
    exact hLoop
  · intro fuel tree frames a left right hTree hGreater ih
      hOrder
    rcases ih (tree.comparisonCount + 2) hOrder with
      ⟨count, hLoop, hCount⟩
    rw [List.length_cons, comparisonCount_counted, searchFor]
      at hCount
    rw [searchFor, descend_left hGreater]
    refine ⟨count, ?_, by omega⟩
    simp only [nearestLoop, rootOf, hTree.get, ok_bind,
      ne_of_lt hGreater, lt_asymm hGreater, gt_iff_lt,
      if_false]
    exact hLoop

end Loops

end Splay

end CsappLabs
