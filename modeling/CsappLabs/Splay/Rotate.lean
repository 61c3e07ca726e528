import CsappLabs.Lib.Splaying
import CsappLabs.Splay.Cells
import Mathlib.Data.List.Induction

/-
  Rotations and splaying on held trees.

  A rotation is a rotation of the entries, in place and below
  any path.  Splaying a node takes two frames off its path
  each round and so ends with the node at the root.

  Key theorems:
    * `rotate_spec`
    * `splayStep_spec`
    * `splay_spec`
-/

------------------------------------------------------------
-- One Rotation
------------------------------------------------------------

namespace CsappLabs

namespace Splay

open TreePath Splaying

theorem ok_bind
    {α β : Type}
    (a : α)
    (f : α → Except Stop β) :
    ((Except.ok a : Except Stop α) >>= f) = f a := rfl

/- The stores of a rotation in their order. -/
theorem rotate_eq
    {side : Side}
    {tree t₁ t₂ t₃ t₄ t₅ : Tree}
    {x y : Nat}
    {nx ny n₁ n₂ : Node}
    (hx : tree.get (some x) = .ok nx)
    (hChild : nx.child side.other = some y)
    (hy : tree.get (some y) = .ok ny)
    (hInner :
      tree.modify (some x)
          (fun node =>
            node.setChild (ny.child side) side.other) =
        .ok t₁)
    (hy₁ : t₁.get (some y) = .ok n₁)
    (hAdopt :
      adopt t₁ (n₁.child side) (some x) = .ok t₂)
    (hx₂ : t₂.get (some x) = .ok n₂)
    (hParent :
      t₂.modify (some y)
          (fun node => node.setParent n₂.parent) =
        .ok t₃)
    (hSet : setInParent t₃ (some x) (some y) = .ok t₄)
    (hDown :
      t₄.modify (some y)
          (fun node => node.setChild (some x) side) =
        .ok t₅) :
    rotate side tree (some x) =
      t₅.modify (some x)
        (fun node => node.setParent (some y)) := by
  unfold rotate
  simp only [hx, hChild, hy, hInner, hy₁, hAdopt, hx₂,
    hParent, hSet, hDown, ok_bind, ne_eq, reduceCtorEq,
    not_false_eq_true, if_true]

/- What lies where in a tree about to be rotated. -/
structure Apart
    (x y : Nat)
    (a b c f : List Nat) :
    Prop where
  ne : x ≠ y
  notX : ∀ loc ∈ a ++ b ++ c ++ f, loc ≠ x
  notY : ∀ loc ∈ a ++ b ++ c ++ f, loc ≠ y
  nodup : (a ++ b ++ c ++ f).Nodup

theorem apart_of_nodup
    {side : Side}
    {x y : Entry}
    {a b c : BinaryTree Entry}
    {f : List Nat}
    (hNodup :
      (locs (build side x a (build side y b c)) ++
        f).Nodup) :
    Apart x.loc y.loc (locs a) (locs b) (locs c) f := by
  have hInner := locs_build_perm side y b c
  have hOuter :=
    locs_build_perm side x a (build side y b c)
  have hPerm :
      (locs (build side x a (build side y b c)) ++ f).Perm
        (x.loc :: y.loc ::
          (locs a ++ locs b ++ locs c ++ f)) := by
    refine (hOuter.append_right f).trans ?_
    refine List.Perm.cons x.loc ?_
    refine ((hInner.append_left (locs a)).append_right
      f).trans ?_
    simp
  rw [hPerm.nodup_iff, List.nodup_cons, List.nodup_cons]
    at hNodup
  rcases hNodup with ⟨hNotX, hNotY, hRest⟩
  rw [List.mem_cons, not_or] at hNotX
  refine ⟨hNotX.1, ?_, ?_, hRest⟩
  · rintro loc hLoc rfl
    exact hNotX.2 hLoc
  · rintro loc hLoc rfl
    exact hNotY hLoc

theorem rotate_spec
    {side : Side}
    {tree : Tree}
    {frames : List (Frame Entry)}
    {x y : Entry}
    {a b c : BinaryTree Entry}
    (hTree :
      Focused tree frames
        (build side x a (build side y b c))) :
    ∃ tree',
      rotate side tree (some x.loc) = .ok tree' ∧
        Focused tree' frames
            (build side y (build side x a b) c) ∧
          tree'.nodeCount = tree.nodeCount := by
  rcases hTree with ⟨hFocus, hAbove, hNodup⟩
  have hApart := apart_of_nodup hNodup
  rcases holds_build.mp hFocus with ⟨hx, ha, hSub⟩
  rcases holds_build.mp hSub with ⟨hy, hb, hc⟩
  rw [rootOf_build] at hx hAbove
  have hNe := hApart.ne
  have hNe' := hApart.ne.symm
  have hDisjoint := hApart.nodup
  have hNotX := hApart.notX
  have hNotY := hApart.notY
  simp only [List.nodup_append, List.mem_append]
    at hDisjoint hNotX hNotY
  -- x->right = y->left
  rcases
      modify_spec hx
        (fun node => node.setChild (rootOf b) side.other) with
    ⟨t₁, hInner, hx₁, hE₁, hRoot₁⟩
  have hb₁ := hb.edits hE₁ (by grind)
  have hy₁ := (hE₁.nodes y.loc (by grind)).trans hy
  -- y->left->parent = x
  rcases adopt_spec hb₁ (by grind) (some x.loc) with
    ⟨t₂, hAdopt, hb₂, hE₂, hRoot₂⟩
  have hx₂ := (hE₂.nodes x.loc (by grind)).trans hx₁
  have hy₂ := (hE₂.nodes y.loc (by grind)).trans hy₁
  -- y->parent = x->parent
  rcases
      modify_spec hy₂
        (fun node => node.setParent (parentOf frames)) with
    ⟨t₃, hParent, hy₃, hE₃, hRoot₃⟩
  have hx₃ := (hE₃.nodes x.loc (by grind)).trans hx₂
  have hAbove₃ :=
    hAbove.edits ((hE₁.trans hE₂).trans hE₃)
      (hRoot₃.trans (hRoot₂.trans hRoot₁)) (by grind)
  -- the link of the parent of x
  rw [cell_setChild_other] at hx₁ hx₂ hx₃
  rcases
      setInParent_spec hAbove₃ hx₃ (cell_parent _ _ _ _ _)
        (by grind) (by grind) (some y.loc) with
    ⟨t₄, hSet, hAbove₄, hE₄⟩
  have hx₄ := (hE₄.nodes x.loc (by grind)).trans hx₃
  have hy₄ := (hE₄.nodes y.loc (by grind)).trans hy₃
  rw [cell_setParent] at hy₄
  -- y->left = x
  rcases
      modify_spec hy₄
        (fun node => node.setChild (some x.loc) side) with
    ⟨t₅, hDown, hy₅, hE₅, hRoot₅⟩
  have hx₅ := (hE₅.nodes x.loc (by grind)).trans hx₄
  -- x->parent = y
  rcases
      modify_spec hx₅ (fun node => node.setParent (some y.loc)) with
    ⟨t₆, hLast, hx₆, hE₆, hRoot₆⟩
  have hy₆ := (hE₆.nodes y.loc (by grind)).trans hy₅
  rw [cell_setChild] at hy₆
  rw [cell_setParent] at hx₆
  have hRun : rotate side tree (some x.loc) = .ok t₆ := by
    rw [rotate_eq (get_of_nodes hx)
      (cell_child_other _ _ _ _ _) (get_of_nodes hy)
      (by rw [cell_child]; exact hInner)
      (get_of_nodes hy₁)
      (by rw [cell_child]; exact hAdopt)
      (get_of_nodes hx₂)
      (by rw [cell_parent]; exact hParent) hSet hDown]
    exact hLast
  have hRest :=
    (hE₃.trans hE₄).trans (hE₅.trans hE₆)
  have hAll := (hE₁.trans hE₂).trans hRest
  refine ⟨t₆, hRun, ⟨holds_build.mpr ⟨?_, ?_, ?_⟩, ?_, ?_⟩,
    hAll.count⟩
  · rw [hy₆, rootOf_build]
  · refine holds_build.mpr ⟨hx₆, ?_, ?_⟩
    · exact ha.edits hAll (by grind)
    · exact hb₂.edits hRest (by grind)
  · exact hc.edits hAll (by grind)
  · rw [rootOf_build]
    exact hAbove₄.edits (hE₅.trans hE₆)
      (hRoot₆.trans hRoot₅) (by grind)
  · have hPerm :
        (locs (build side y (build side x a b) c)).Perm
          (locs (build side x a (build side y b c))) := by
      unfold locs
      rw [inorder_rotate]
    exact (hPerm.append_right
      (frameLocs frames)).nodup_iff.mpr hNodup

------------------------------------------------------------
-- One Round of Splaying
------------------------------------------------------------

section Rounds

variable {tree : Tree}
variable {frame frame' : Frame Entry}
variable {frames : List (Frame Entry)}
variable {t : BinaryTree Entry}
variable {side : Side}
variable {a : Entry}
variable {inner outer : BinaryTree Entry}

/- The focused subtree's parent is rotated down. -/
theorem rotate_up
    (hTree :
      Focused tree (frame :: frames)
        (build frame.side a inner outer)) :
    ∃ tree',
      rotate frame.side.other tree
          (some frame.value.loc) = .ok tree' ∧
        Focused tree' frames
            (build frame.side a inner
              (build frame.side frame.value outer
                frame.sibling)) ∧
          tree'.nodeCount = tree.nodeCount := by
  rw [focused_cons, Frame.plug, ← build_other,
    ← build_other frame.side a] at hTree
  rcases rotate_spec hTree with ⟨tree', hRun, hTree', hCount⟩
  rw [build_other, build_other] at hTree'
  exact ⟨tree', hRun, hTree', hCount⟩

theorem Focused.node
    (hTree :
      Focused tree frames (build side a inner outer)) :
    tree.nodes a.loc =
      some (cell a side (rootOf inner) (rootOf outer)
        (parentOf frames)) :=
  (holds_build.mp hTree.focus).1

theorem Focused.frame_node
    (hTree : Focused tree (frame :: frames) t) :
    tree.nodes frame.value.loc =
      some (cell frame.value frame.side (rootOf t)
        (rootOf frame.sibling) (parentOf frames)) :=
  hTree.above.1

/- The two children of a frame's node differ. -/
theorem Focused.sibling_ne
    (hTree : Focused tree (frame :: frames) t)
    (hRoot : rootOf t = some a.loc) :
    rootOf frame.sibling ≠ some a.loc := by
  intro hSibling
  have hHere := rootOf_mem hRoot
  have hThere := rootOf_mem hSibling
  have hNodup := hTree.nodup
  rw [frameLocs, List.flatMap_cons, List.nodup_append]
    at hNodup
  exact hNodup.2.2 a.loc hHere a.loc (by simp [hThere]) rfl

/- Which child of the frame's node the subtree is. -/
theorem cell_left_eq
    {hole sibling parent : Ptr}
    (hNe : sibling ≠ hole) :
    (cell a side hole sibling parent).left = hole ↔
      side = .left := by
  cases side with
  | left => simp [cell]
  | right => simp [cell, hNe]

theorem cell_right_eq
    {hole sibling parent : Ptr}
    (hNe : sibling ≠ hole) :
    (cell a side hole sibling parent).right = hole ↔
      side = .right := by
  cases side with
  | left => simp [cell, hNe]
  | right => simp [cell]

/- The child of the root is rotated up. -/
theorem splayStep_single
    (hTree :
      Focused tree [frame] (build side a inner outer)) :
    splayStep tree (some a.loc) =
      rotate frame.side.other tree
        (some frame.value.loc) := by
  have hx := get_of_nodes hTree.node
  have hp := get_of_nodes hTree.frame_node
  have hNe := hTree.sibling_ne (rootOf_build _ _ _ _)
  rw [rootOf_build] at hp
  unfold splayStep
  simp only [hx, ok_bind, cell_parent, parentOf, hp,
    if_true, cell_left_eq hNe]
  cases frame.side with
  | left => rfl
  | right => rfl

/- Both rotations of a round with a grandparent. -/
theorem splayStep_double
    (hTree :
      Focused tree (frame :: frame' :: frames)
        (build side a inner outer)) :
    splayStep tree (some a.loc) =
      (if frame.side = frame'.side then do
        let tree ←
          rotate frame'.side.other tree
            (some frame'.value.loc)
        rotate frame.side.other tree
          (← tree.get (some a.loc)).parent
      else do
        let tree ←
          rotate frame.side.other tree
            (some frame.value.loc)
        rotate frame'.side.other tree
          (← tree.get (some a.loc)).parent) := by
  have hx := get_of_nodes hTree.node
  have hp := get_of_nodes hTree.frame_node
  have hUp := focused_cons.mp hTree
  have hg := get_of_nodes hUp.frame_node
  have hNe := hTree.sibling_ne (rootOf_build _ _ _ _)
  have hNe' := hUp.sibling_ne (rootOf_build _ _ _ _)
  rw [Frame.plug, rootOf_build] at hg
  rw [rootOf_build] at hp
  unfold splayStep
  simp only [hx, ok_bind, cell_parent, parentOf, hp, hg,
    reduceCtorEq, if_false, cell_left_eq hNe,
    cell_right_eq hNe, cell_left_eq hNe',
    cell_right_eq hNe']
  cases frame.side with
  | left =>
      cases frame'.side with
      | left => rfl
      | right => rfl
  | right =>
      cases frame'.side with
      | left => rfl
      | right => rfl

/- A round without a grandparent. -/
theorem splayStep_single_spec
    (hTree :
      Focused tree [frame]
        (build frame.side a inner outer)) :
    ∃ tree',
      splayStep tree (some a.loc) = .ok tree' ∧
        Focused tree' []
            (build frame.side a inner
              (build frame.side frame.value outer
                frame.sibling)) ∧
          tree'.nodeCount = tree.nodeCount := by
  rcases rotate_up hTree with ⟨tree', hRun, hTree', hCount⟩
  refine ⟨tree', ?_, hTree', hCount⟩
  rw [splayStep_single hTree, hRun]

/- A round with both frames on one side. -/
theorem splayStep_same_spec
    (hSide : frame.side = frame'.side)
    (hTree :
      Focused tree (frame :: frame' :: frames)
        (build frame.side a inner outer)) :
    ∃ tree',
      splayStep tree (some a.loc) = .ok tree' ∧
        Focused tree' frames
            (build frame.side a inner
              (build frame.side frame.value outer
                (build frame.side frame'.value frame.sibling
                  frame'.sibling))) ∧
          tree'.nodeCount = tree.nodeCount := by
  have hDouble := splayStep_double hTree
  have hUp := focused_cons.mp hTree
  rw [Frame.plug, hSide] at hUp
  rcases rotate_up hUp with ⟨t₁, hRun₁, hTree₁, hCount₁⟩
  have hLow :
      Focused t₁
        (⟨frame'.side, frame.value,
          build frame'.side frame'.value frame.sibling
            frame'.sibling⟩ :: frames)
        (build frame'.side a inner outer) :=
    focused_cons.mpr hTree₁
  have hx := get_of_nodes hLow.node
  rcases rotate_up hLow with ⟨t₂, hRun₂, hTree₂, hCount₂⟩
  rw [hSide] at hDouble ⊢
  refine ⟨t₂, ?_, hTree₂, hCount₂.trans hCount₁⟩
  rw [hDouble, if_pos rfl, hRun₁, ok_bind, hx, ok_bind,
    cell_parent]
  exact hRun₂

theorem Side.eq_other
    {side side' : Side}
    (hNe : side ≠ side') :
    side' = side.other := by
  cases side with
  | left =>
      cases side' with
      | left => exact absurd rfl hNe
      | right => rfl
  | right =>
      cases side' with
      | left => rfl
      | right => exact absurd rfl hNe

/- A round with the frames on different sides. -/
theorem splayStep_cross_spec
    (hSide : frame.side ≠ frame'.side)
    (hTree :
      Focused tree (frame :: frame' :: frames)
        (build frame.side a inner outer)) :
    ∃ tree',
      splayStep tree (some a.loc) = .ok tree' ∧
        Focused tree' frames
            (build frame'.side a
              (build frame.side frame.value outer
                frame.sibling)
              (build frame'.side frame'.value inner
                frame'.sibling)) ∧
          tree'.nodeCount = tree.nodeCount := by
  have hDouble := splayStep_double hTree
  have hOther := Side.eq_other hSide
  rcases rotate_up hTree with ⟨t₁, hRun₁, hTree₁, hCount₁⟩
  rw [← build_other, ← hOther] at hTree₁
  have hx := get_of_nodes hTree₁.node
  rcases rotate_up hTree₁ with ⟨t₂, hRun₂, hTree₂, hCount₂⟩
  refine ⟨t₂, ?_, hTree₂, hCount₂.trans hCount₁⟩
  rw [hDouble, if_neg hSide, hRun₁, ok_bind, hx, ok_bind,
    cell_parent]
  exact hRun₂

/-
  Every round takes frames off the path, and splaying goes on
  from there.
-/
theorem splayStep_spec
    {left right : BinaryTree Entry}
    (hTree :
      Focused tree (frame :: frames)
        (.node a left right)) :
    ∃ tree' frames' left' right',
      splayStep tree (some a.loc) = .ok tree' ∧
        Focused tree' frames' (.node a left' right') ∧
          (∀ t, Splayed (.node a left' right') frames' t →
            Splayed (.node a left right) (frame :: frames)
              t) ∧
            frames'.length ≤ frames.length ∧
              tree'.nodeCount = tree.nodeCount := by
  rcases exists_build frame.side a left right with
    ⟨inner, outer, hNode⟩
  rw [hNode] at hTree ⊢
  cases frames with
  | nil =>
      rcases splayStep_single_spec hTree with
        ⟨tree', hRun, hTree', hCount⟩
      rcases exists_node frame.side a inner _ with
        ⟨l, r, hNode'⟩
      rw [hNode'] at hTree'
      refine ⟨tree', [], l, r, hRun, hTree', ?_,
        Nat.le_refl _, hCount⟩
      intro t hSplayed
      rw [hSplayed.eq_of_nil rfl, ← hNode']
      exact .single
  | cons frame' frames =>
      have hShorter :
          frames.length ≤ (frame' :: frames).length := by
        simp
      by_cases hSide : frame.side = frame'.side
      · rcases splayStep_same_spec hSide hTree with
          ⟨tree', hRun, hTree', hCount⟩
        rcases exists_node frame.side a inner _ with
          ⟨l, r, hNode'⟩
        rw [hNode'] at hTree'
        refine ⟨tree', frames, l, r, hRun, hTree', ?_,
          hShorter, hCount⟩
        intro t hSplayed
        rw [← hNode'] at hSplayed
        exact .same hSide hSplayed
      · rcases splayStep_cross_spec hSide hTree with
          ⟨tree', hRun, hTree', hCount⟩
        rcases exists_node frame'.side a _ _ with
          ⟨l, r, hNode'⟩
        rw [hNode'] at hTree'
        refine ⟨tree', frames, l, r, hRun, hTree', ?_,
          hShorter, hCount⟩
        intro t hSplayed
        rw [← hNode'] at hSplayed
        exact .cross (Side.eq_other hSide) hSplayed

end Rounds

------------------------------------------------------------
-- The Loop
------------------------------------------------------------

/- The loop ends with the node at the root. -/
theorem splayLoop_spec
    {a : Entry}
    {fuel : Nat}
    {tree : Tree}
    {frames : List (Frame Entry)}
    {left right : BinaryTree Entry}
    (hTree : Focused tree frames (.node a left right))
    (hFuel : frames.length < fuel) :
    ∃ tree' left' right',
      splayLoop (some a.loc) fuel tree = .ok tree' ∧
        Focused tree' [] (.node a left' right') ∧
          Splayed (.node a left right) frames
              (.node a left' right') ∧
            tree'.nodeCount = tree.nodeCount := by
  induction fuel generalizing tree frames left right with
  | zero => exact absurd hFuel (Nat.not_lt_zero _)
  | succ fuel ih =>
      have hx :=
        get_of_nodes
          (@Focused.node tree frames .left a left right
            hTree)
      cases frames with
      | nil =>
          refine ⟨tree, left, right, ?_, hTree, .top, rfl⟩
          unfold splayLoop
          rw [hx, ok_bind, cell_parent, parentOf,
            if_pos rfl]
          rfl
      | cons frame frames =>
          rcases splayStep_spec hTree with
            ⟨t₁, frames₁, l₁, r₁, hRun₁, hTree₁, hOnward,
             hLength, hCount₁⟩
          have hShort : frames₁.length < fuel := by
            rw [List.length_cons] at hFuel
            omega
          rcases ih hTree₁ hShort with
            ⟨t₂, l₂, r₂, hRun₂, hTree₂, hSplayed, hCount₂⟩
          refine ⟨t₂, l₂, r₂, ?_, hTree₂,
            hOnward _ hSplayed, hCount₂.trans hCount₁⟩
          unfold splayLoop
          rw [hx, ok_bind, cell_parent, parentOf,
            if_neg (by simp), hRun₁, ok_bind]
          exact hRun₂

/- No path is longer than the tree has other nodes. -/
theorem splay_spec
    {a : Entry}
    {tree : Tree}
    {frames : List (Frame Entry)}
    {left right : BinaryTree Entry}
    (hTree : Focused tree frames (.node a left right))
    (hCount :
      (inorder (rebuild (.node a left right) frames)).length ≤
        tree.nodeCount + 1) :
    ∃ tree' left' right',
      splay tree (some a.loc) = .ok tree' ∧
        Focused tree' [] (.node a left' right') ∧
          Splayed (.node a left right) frames
              (.node a left' right') ∧
            tree'.nodeCount = tree.nodeCount := by
  have hLength :=
    @length_rebuild _ (.node a left right) frames
  rw [inorder_node, List.length_append, List.length_cons]
    at hLength
  exact splayLoop_spec hTree (by omega)

end Splay

end CsappLabs
