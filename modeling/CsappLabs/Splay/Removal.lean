import CsappLabs.Splay.Rotate

/-
  How tree_remove takes a node out of a held tree.

  A subtree is put where a node hangs.  With two subtrees the
  successor goes to the root: from deep in the right subtree
  it is first taken out of its own place.  In every case the
  inorder list only loses the node.

  Key theorems:
    * `replace_spec`
    * `spliceSuccessor_spec`
    * `unlink_spec`
-/

------------------------------------------------------------
-- Replacing
------------------------------------------------------------

namespace CsappLabs

namespace Splay

open TreePath Splaying

section Links

variable {tree : Tree}
variable {frames : List (Frame Entry)}
variable {u : Nat}
variable {node : Node}
variable {v : BinaryTree Entry}
variable {parent : Ptr}

/- A subtree is put where the node u hangs. -/
theorem replace_spec
    (hAbove : Above tree (some u) frames)
    (hNode : tree.nodes u = some node)
    (hParent : node.parent = parentOf frames)
    (hHolds : Holds tree.nodes parent v)
    (hApart : u ∉ frameLocs frames)
    (hNodup : (locs v ++ frameLocs frames).Nodup) :
    ∃ tree',
      replace tree (some u) (rootOf v) = .ok tree' ∧
        Focused tree' frames v ∧
          Edits tree tree' (frameLocs frames ++ locs v) := by
  rcases List.nodup_append.mp hNodup with
    ⟨hParts, hFrames, hCross⟩
  rcases
      setInParent_spec hAbove hNode hParent hApart hFrames
        (rootOf v) with
    ⟨t₁, hSet, hAbove₁, hE₁⟩
  have hu := (hE₁.nodes u hApart).trans hNode
  have hHolds₁ :=
    hHolds.edits hE₁ fun loc hLoc hFrame =>
      hCross loc hLoc loc hFrame rfl
  rcases adopt_spec hHolds₁ hParts (parentOf frames) with
    ⟨t₂, hAdopt, hHolds₂, hE₂, hRoot₂⟩
  refine ⟨t₂, ?_, ⟨hHolds₂, ?_, hNodup⟩, hE₁.trans hE₂⟩
  · unfold replace
    simp only [hSet, get_of_nodes hu, ok_bind, hParent,
      hAdopt]
  · exact hAbove₁.edits hE₂ hRoot₂ fun loc hFrame hLoc =>
      hCross loc hLoc loc hFrame rfl

/-
  The two stores that hang a subtree below y: the link down
  and the link up.
-/
theorem attach_spec
    {y : Entry}
    {side : Side}
    {inner outer : BinaryTree Entry}
    {stale old : Ptr}
    (hNode :
      tree.nodes y.loc =
        some (cell y side stale (rootOf outer) parent))
    (hOuter : Holds tree.nodes (some y.loc) outer)
    (hInner : Holds tree.nodes old inner)
    (hSome : rootOf inner ≠ none)
    (hNodup : (locs (build side y inner outer)).Nodup) :
    ∃ tree₁ node tree',
      tree.modify (some y.loc)
          (fun node =>
            node.setChild (rootOf inner) side) =
        .ok tree₁ ∧
      tree₁.get (some y.loc) = .ok node ∧
      tree₁.modify (node.child side)
          (fun node => node.setParent (some y.loc)) =
        .ok tree' ∧
      Holds tree'.nodes parent (build side y inner outer) ∧
      Edits tree tree' (locs (build side y inner outer)) ∧
      tree'.root = tree.root := by
  rw [(locs_build_perm side y inner outer).nodup_iff,
    List.nodup_cons, List.mem_append, not_or] at hNodup
  rcases hNodup with ⟨⟨hNotInner, hNotOuter⟩, hParts⟩
  rcases List.nodup_append.mp hParts with
    ⟨hInnerNodup, _, hCross⟩
  rcases
      modify_spec hNode
        (fun node => node.setChild (rootOf inner) side) with
    ⟨t₁, hDown, hy₁, hE₁, hRoot₁⟩
  rw [cell_setChild] at hy₁
  have hInner₁ :=
    hInner.edits hE₁ fun loc hLoc hEq => by
      rw [List.mem_singleton] at hEq
      exact hNotInner (hEq ▸ hLoc)
  have hOuter₁ :=
    hOuter.edits hE₁ fun loc hLoc hEq => by
      rw [List.mem_singleton] at hEq
      exact hNotOuter (hEq ▸ hLoc)
  rcases adopt_spec hInner₁ hInnerNodup (some y.loc) with
    ⟨t₂, hAdopt, hInner₂, hE₂, hRoot₂⟩
  unfold adopt at hAdopt
  rw [if_neg hSome] at hAdopt
  refine ⟨t₁, _, t₂, hDown, get_of_nodes hy₁, ?_,
    holds_build.mpr ⟨?_, hInner₂, ?_⟩, ?_,
    hRoot₂.trans hRoot₁⟩
  · rw [cell_child]
    exact hAdopt
  · exact (hE₂.nodes y.loc hNotInner).trans hy₁
  · exact hOuter₁.edits hE₂ fun loc hLoc hIn =>
      hCross loc hIn loc hLoc rfl
  · have hBoth := hE₁.trans hE₂
    refine ⟨fun loc hLoc => ?_, hBoth.count,
      hBoth.comparisons⟩
    rw [mem_locs_build, not_or, not_or] at hLoc
    apply hBoth.nodes loc
    rw [List.mem_append, List.mem_singleton, not_or]
    exact ⟨hLoc.1, hLoc.2.1⟩

end Links

------------------------------------------------------------
-- The Successor
------------------------------------------------------------

/- A subtree's root does not depend on what lies below. -/
theorem rootOf_rebuild_cons
    {frame : Frame Entry}
    {frames : List (Frame Entry)}
    (t t' : BinaryTree Entry) :
    rootOf (rebuild t (frame :: frames)) =
      rootOf (rebuild t' (frame :: frames)) := by
  induction frames generalizing frame t t' with
  | nil =>
      rw [rebuild_cons, rebuild_cons, rebuild_nil,
        rebuild_nil, Frame.plug, Frame.plug, rootOf_build,
        rootOf_build]
  | cons next frames ih => exact ih _ _

theorem rootOf_rebuild_ne
    {a : Entry}
    {left right : BinaryTree Entry}
    {frames : List (Frame Entry)} :
    rootOf (rebuild (.node a left right) frames) ≠ none := by
  induction frames generalizing a left right with
  | nil => simp [rootOf]
  | cons frame frames ih =>
      rcases
          exists_node frame.side frame.value
            (.node a left right) frame.sibling with
        ⟨l, r, hNode⟩
      rw [rebuild_cons, Frame.plug, hNode]
      exact ih

/- The loop goes down the left spine. -/
theorem minimumLoop_spec
    {a : Entry}
    {fuel : Nat}
    {tree : Tree}
    {right : BinaryTree Entry}
    {spine frames : List (Frame Entry)}
    (hTree :
      Focused tree frames
        (rebuild (.node a .nil right) spine))
    (hSides : ∀ frame ∈ spine, frame.side = .left)
    (hFuel : spine.length < fuel) :
    minimumLoop tree fuel
        (rootOf (rebuild (.node a .nil right) spine)) =
      .ok (some a.loc) := by
  induction spine using List.reverseRecOn
      generalizing frames fuel with
  | nil =>
      cases fuel with
      | zero => exact absurd hFuel (Nat.not_lt_zero _)
      | succ fuel =>
          have hGet := get_of_nodes hTree.focus.1
          simp only [rebuild_nil, rootOf, minimumLoop, hGet,
            ok_bind]
          rfl
  | append_singleton spine frame ih =>
      cases fuel with
      | zero => exact absurd hFuel (Nat.not_lt_zero _)
      | succ fuel =>
          have hSide : frame.side = .left :=
            hSides frame (by simp)
          rw [rebuild_append, rebuild_cons, rebuild_nil,
            Frame.plug, hSide] at hTree ⊢
          have hGet := get_of_nodes hTree.focus.1
          have hBelow :=
            @ih fuel (⟨.left, frame.value,
                frame.sibling⟩ :: frames)
              (focused_cons.mpr hTree)
              (fun other hOther =>
                hSides other (by simp [hOther]))
              (by simpa using hFuel)
          rw [rootOf_build, minimumLoop, hGet, ok_bind]
          change (if rootOf (rebuild _ spine) = none then _
            else minimumLoop tree fuel
              (rootOf (rebuild _ spine))) = _
          rw [if_neg rootOf_rebuild_ne]
          exact hBelow

section Splice

variable {tree : Tree}
variable {a b : Entry}
variable {left right : BinaryTree Entry}
variable {stale parent : Ptr}

/- What lies where when y takes the place of z. -/
structure Separate
    (z y : Nat)
    (left right : List Nat) :
    Prop where
  ne : z ≠ y
  notZ : z ∉ left ∧ z ∉ right
  notY : y ∉ left ∧ y ∉ right
  cross : ∀ loc ∈ left, loc ∉ right
  nodup : right.Nodup

theorem separate_of_nodup
    (hNodup :
      (a.loc :: locs (.node b left right)).Nodup) :
    Separate a.loc b.loc (locs left) (locs right) := by
  rcases List.nodup_cons.mp hNodup with ⟨hNotIn, hIn⟩
  rcases
      List.nodup_cons.mp
        ((locs_build_perm .left b left right).nodup_iff.mp hIn) with
    ⟨hNotB, hBoth⟩
  rcases List.nodup_append.mp hBoth with ⟨_, hRight, hCross⟩
  rw [mem_locs_node, not_or, not_or] at hNotIn
  rw [List.mem_append, not_or] at hNotB
  exact ⟨hNotIn.1, hNotIn.2, hNotB,
    fun loc hLeft hRight => hCross loc hLeft loc hRight rfl,
    hRight⟩

/-
  The successor, with only a right subtree, takes the place
  of the root and its left subtree.
-/
theorem successor_takes_root
    (hRoot : tree.root = some a.loc)
    (hz :
      tree.nodes a.loc =
        some (cell a .left (rootOf left) stale none))
    (hLeft : Holds tree.nodes (some a.loc) left)
    (hSome : rootOf left ≠ none)
    (hy : Holds tree.nodes parent (.node b .nil right))
    (hNodup :
      (a.loc :: locs (.node b left right)).Nodup) :
    ∃ tree',
      (do
        let tree ← replace tree (some a.loc) (some b.loc)
        let left := (← tree.get (some a.loc)).left
        let tree ← tree.modify (some b.loc)
          (fun node => node.setChild left .left)
        tree.modify (← tree.get (some b.loc)).left
          (fun node => node.setParent (some b.loc))) =
        .ok tree' ∧
      Focused tree' [] (.node b left right) ∧
      tree'.nodes a.loc = tree.nodes a.loc ∧
      tree'.nodeCount = tree.nodeCount := by
  have hIn := (List.nodup_cons.mp hNodup).2
  have hSeparate := separate_of_nodup hNodup
  have hSmall : (locs (.node b .nil right)).Nodup :=
    (locs_build_perm .left b .nil right).nodup_iff.mpr
      (List.nodup_cons.mpr
        ⟨hSeparate.notY.2, hSeparate.nodup⟩)
  -- z is replaced by y
  rcases
      @replace_spec tree [] a.loc _ _ _ hRoot hz rfl hy
        (by simp [frameLocs]) (by simpa [frameLocs]) with
    ⟨t₁, hReplace, hTree₁, hE₁⟩
  have hTouched :
      ∀ loc, loc ≠ b.loc → loc ∉ locs right →
        t₁.nodes loc = tree.nodes loc := by
    intro loc hB hRight
    apply hE₁.nodes
    simp [frameLocs, hB, hRight]
  have hz₁ :=
    (hTouched a.loc hSeparate.ne hSeparate.notZ.2).trans hz
  have hLeft₁ :=
    hLeft.congr fun loc hLoc =>
      hTouched loc (fun hEq => hSeparate.notY.1 (hEq ▸ hLoc))
        (hSeparate.cross loc hLoc)
  -- the left subtree goes below y
  rcases
      @attach_spec t₁ none b .left left right none _
        hTree₁.focus.1 hTree₁.focus.2.2 hLeft₁ hSome hIn with
    ⟨t₂, node, t₃, hDown, hGet, hUp, hHolds, hE₃, hRoot₃⟩
  refine ⟨t₃, ?_, ⟨hHolds, ?_, ?_⟩, ?_,
    hE₃.count.trans hE₁.count⟩
  · rw [rootOf] at hReplace
    simp only [hReplace, get_of_nodes hz₁, ok_bind]
    change (t₁.modify (some b.loc)
      (fun node => node.setChild (rootOf left) .left) >>=
        _) = _
    rw [hDown, ok_bind, hGet, ok_bind]
    exact hUp
  · exact hRoot₃.trans hTree₁.above
  · simpa [frameLocs] using hIn
  · rw [hz, ← hz₁]
    apply hE₃.nodes
    rw [mem_locs_build, not_or, not_or]
    exact ⟨hSeparate.ne, hSeparate.notZ⟩

/- The addresses, when the successor takes the root. -/
theorem locs_successor_perm
    {frames : List (Frame Entry)} :
    (locs (.node a left
        (rebuild (.node b .nil right) frames))).Perm
      (a.loc :: locs (.node b left (rebuild right frames))) := by
  have hRest :
      (locs (rebuild (.node b .nil right) frames)).Perm
        (b.loc :: locs (rebuild right frames)) := by
    refine locs_rebuild_perm.symm.trans ?_
    refine List.Perm.trans ?_
      (locs_rebuild_perm.cons b.loc)
    exact (locs_build_perm .left b .nil right).append_right
      (frameLocs frames)
  refine (locs_build_perm .left a left _).trans ?_
  refine List.Perm.cons a.loc ?_
  refine (hRest.append_left (locs left)).trans ?_
  refine List.Perm.trans List.perm_middle ?_
  exact (locs_build_perm .left b left _).symm

theorem nodup_successor
    {frames : List (Frame Entry)}
    (hTree :
      Focused tree []
        (.node a left
          (rebuild (.node b .nil right) frames))) :
    (a.loc ::
      locs (.node b left (rebuild right frames))).Nodup := by
  have hNodup := hTree.nodup
  rw [frameLocs, List.flatMap_nil, List.append_nil]
    at hNodup
  exact locs_successor_perm.nodup_iff.mp hNodup

/- The successor is the root's right child. -/
theorem spliceSuccessor_near
    (hTree :
      Focused tree []
        (.node a left (.node b .nil right)))
    (hSome : rootOf left ≠ none) :
    ∃ tree',
      spliceSuccessor tree (some a.loc) = .ok tree' ∧
        Focused tree' [] (.node b left right) ∧
          tree'.nodes a.loc = tree.nodes a.loc ∧
            tree'.nodeCount = tree.nodeCount := by
  rcases hTree.focus with ⟨hz, hLeft, hy⟩
  rcases
      successor_takes_root hTree.above hz hLeft hSome hy
        (@nodup_successor _ _ _ _ _ [] hTree) with
    ⟨tree', hTail, hTree', hKept, hCount⟩
  refine ⟨tree', ?_, hTree', hKept, hCount⟩
  have hMinimum :
      subtreeMinimum tree (some b.loc) = .ok (some b.loc) := by
    have hRight : Focused tree [⟨.right, a, left⟩]
        (.node b .nil right) :=
      focused_cons.mpr hTree
    exact @minimumLoop_spec b _ tree right [] _ hRight
      (by simp) (Nat.succ_pos _)
  unfold spliceSuccessor
  simp only [get_of_nodes hz, ok_bind]
  change (subtreeMinimum tree (some b.loc) >>= _) = _
  simp only [hMinimum, get_of_nodes hy.1, ok_bind,
    cell_parent, ne_eq, not_true_eq_false, if_false]
  exact hTail

/- The stores before the successor takes the root. -/
theorem spliceSuccessor_eq
    {t₁ t₂ t₃ : Tree}
    {z y : Ptr}
    {nz ny nz₁ ny₂ : Node}
    (hz : tree.get z = .ok nz)
    (hMinimum : subtreeMinimum tree nz.right = .ok y)
    (hy : tree.get y = .ok ny)
    (hParent : ny.parent ≠ z)
    (hReplace : replace tree y ny.right = .ok t₁)
    (hz₁ : t₁.get z = .ok nz₁)
    (hDown :
      t₁.modify y
          (fun node => node.setChild nz₁.right .right) =
        .ok t₂)
    (hy₂ : t₂.get y = .ok ny₂)
    (hUp :
      t₂.modify ny₂.right (fun node => node.setParent y) =
        .ok t₃) :
    spliceSuccessor tree z = (do
      let tree ← replace t₃ z y
      let left := (← tree.get z).left
      let tree ← tree.modify y
        (fun node => node.setChild left .left)
      tree.modify (← tree.get y).left
        (fun node => node.setParent y)) := by
  unfold spliceSuccessor
  simp only [hz, hMinimum, hy, ok_bind, ne_eq, hParent,
    not_false_eq_true, if_true, hReplace, hz₁, hDown, hy₂,
    hUp]

/-
  The successor leaves its place, and what is left of the
  right subtree goes below it.
-/
theorem successor_leaves_place
    {frame : Frame Entry}
    {spine : List (Frame Entry)}
    (hTree :
      Focused tree []
        (.node a left
          (rebuild (.node b .nil right) (frame :: spine)))) :
    ∃ t₁ t₂ t₃ ny₂,
      replace tree (some b.loc) (rootOf right) = .ok t₁ ∧
      t₁.get (some a.loc) =
        .ok (cell a .left (rootOf left)
          (rootOf (rebuild right (frame :: spine))) none) ∧
      t₁.modify (some b.loc)
          (fun node =>
            node.setChild
              (rootOf (rebuild right (frame :: spine)))
              .right) =
        .ok t₂ ∧
      t₂.get (some b.loc) = .ok ny₂ ∧
      t₂.modify ny₂.right
          (fun node => node.setParent (some b.loc)) =
        .ok t₃ ∧
      t₃.root = some a.loc ∧
      t₃.nodes a.loc =
        some (cell a .left (rootOf left)
          (rootOf (rebuild right (frame :: spine))) none) ∧
      Holds t₃.nodes (some a.loc) left ∧
      Holds t₃.nodes (some frame.value.loc)
        (.node b .nil (rebuild right (frame :: spine))) ∧
      t₃.nodeCount = tree.nodeCount := by
  have hDeep :
      Focused tree
        ((frame :: spine) ++ [⟨.right, a, left⟩])
        (.node b .nil right) :=
    focused_append.mpr (focused_cons.mpr hTree)
  rcases hDeep.focus with ⟨hy, _, hSub⟩
  have hSeparate :=
    separate_of_nodup (nodup_successor hTree)
  have hDeepNodup :=
    ((locs_build_perm .left b .nil right).append_right
      _).nodup_iff.mp hDeep.nodup
  rw [locs_nil, List.nil_append, List.cons_append,
    List.nodup_cons, List.mem_append, not_or]
    at hDeepNodup
  rcases hDeepNodup with ⟨⟨hNotSub, hNotAbove⟩, hSubNodup⟩
  -- y is replaced by its right subtree
  rcases
      replace_spec hDeep.above hy rfl hSub hNotAbove hSubNodup with
    ⟨t₁, hReplace, hTree₁, hE₁⟩
  have hy₁ :=
    (hE₁.nodes b.loc fun hIn =>
      (List.mem_append.mp hIn).elim hNotAbove
        hNotSub).trans hy
  have hTop₁ := focused_cons.mp (focused_append.mp hTree₁)
  rcases hTop₁.focus with ⟨hz₁, hLeft₁, hRight₁⟩
  -- the rest of the right subtree goes below y
  have hRootNe :
      rootOf (rebuild right (frame :: spine)) ≠ none := by
    rw [@rootOf_rebuild_cons frame spine right
      (.node b .nil right)]
    exact rootOf_rebuild_ne
  have hNew :
      (locs (build .right b
        (rebuild right (frame :: spine)) .nil)).Nodup := by
    rw [(locs_build_perm .right b _ .nil).nodup_iff,
      locs_nil, List.append_nil]
    exact List.nodup_cons.mpr
      ⟨hSeparate.notY.2, hSeparate.nodup⟩
  rcases
      @attach_spec t₁ _ b .right
        (rebuild right (frame :: spine)) .nil _ _ hy₁ trivial
        hRight₁ hRootNe hNew with
    ⟨t₂, ny₂, t₃, hDown, hGet, hUp, hHolds, hE₃, hRoot₃⟩
  have hApart :
      ∀ loc, loc ≠ b.loc →
        loc ∉ locs (rebuild right (frame :: spine)) →
        loc ∉ locs (build .right b
          (rebuild right (frame :: spine)) .nil) := by
    intro loc hNe hRest hIn
    rw [mem_locs_build, locs_nil] at hIn
    rcases hIn with hEq | hIn | hNil
    · exact hNe hEq
    · exact hRest hIn
    · exact List.not_mem_nil hNil
  refine ⟨t₁, t₂, t₃, ny₂, hReplace, get_of_nodes hz₁,
    hDown, hGet, hUp, hRoot₃.trans hTop₁.above, ?_, ?_,
    hHolds, hE₃.count.trans hE₁.count⟩
  · exact (hE₃.nodes a.loc
      (hApart a.loc hSeparate.ne hSeparate.notZ.2)).trans hz₁
  · apply hLeft₁.edits hE₃
    intro loc hLoc
    exact hApart loc
      (fun hEq => hSeparate.notY.1 (hEq ▸ hLoc))
      (hSeparate.cross loc hLoc)

/- The successor is deep in the right subtree. -/
theorem spliceSuccessor_deep
    {frame : Frame Entry}
    {spine : List (Frame Entry)}
    (hTree :
      Focused tree []
        (.node a left
          (rebuild (.node b .nil right) (frame :: spine))))
    (hSides :
      ∀ f ∈ frame :: spine, f.side = .left)
    (hSome : rootOf left ≠ none)
    (hFuel : spine.length < tree.nodeCount) :
    ∃ tree',
      spliceSuccessor tree (some a.loc) = .ok tree' ∧
        Focused tree' []
            (.node b left (rebuild right (frame :: spine))) ∧
          tree'.nodes a.loc = tree.nodes a.loc ∧
            tree'.nodeCount = tree.nodeCount := by
  have hz := hTree.focus.1
  have hRight :
      Focused tree [⟨.right, a, left⟩]
        (rebuild (.node b .nil right) (frame :: spine)) :=
    focused_cons.mpr hTree
  have hy := (focused_append.mpr hRight).focus.1
  have hMinimum :=
    @minimumLoop_spec b (tree.nodeCount + 1) tree right _ _
      hRight hSides (by simpa using hFuel)
  have hAll := nodup_successor hTree
  have hNe : some frame.value.loc ≠ some a.loc := by
    have hFrame :
        frame.value.loc ∈
          locs (rebuild right (frame :: spine)) :=
      locs_rebuild_perm.mem_iff.mp (by simp [frameLocs])
    intro hEq
    rw [Option.some.inj hEq] at hFrame
    exact (separate_of_nodup hAll).notZ.2 hFrame
  rcases successor_leaves_place hTree with
    ⟨t₁, t₂, t₃, ny₂, hReplace, hz₁, hDown, hGet, hUp, hRoot₃,
     hz₃, hLeft₃, hHolds₃, hCount₃⟩
  rcases
      successor_takes_root hRoot₃ hz₃ hLeft₃ hSome hHolds₃ hAll with
    ⟨tree', hTail, hTree', hKept, hCount⟩
  refine ⟨tree', ?_, hTree', ?_, hCount.trans hCount₃⟩
  · rw [spliceSuccessor_eq (get_of_nodes hz) hMinimum
      (get_of_nodes hy) hNe hReplace hz₁ hDown hGet hUp]
    exact hTail
  · rw [hKept, hz₃, hz,
      @rootOf_rebuild_cons frame spine right
        (.node b .nil right)]
    rfl

/- A root with two subtrees goes, the rest stays. -/
theorem spliceSuccessor_spec
    (hTree : Focused tree [] (.node a left right))
    (hLeft : left ≠ .nil)
    (hRight : right ≠ .nil)
    (hCount : (inorder right).length ≤ tree.nodeCount) :
    ∃ tree' t',
      spliceSuccessor tree (some a.loc) = .ok tree' ∧
        Focused tree' [] t' ∧
          Uprooted left right t' ∧
            tree'.nodes a.loc = tree.nodes a.loc ∧
              tree'.nodeCount = tree.nodeCount := by
  have hSome : rootOf left ≠ none := by
    cases left with
    | nil => exact absurd rfl hLeft
    | node c l r => simp [rootOf]
  rcases exists_leftmost hRight with ⟨b, r, frames, rfl, hSides⟩
  have hUprooted := @Uprooted.successor _ b left r frames hSides
  cases frames with
  | nil =>
      rcases spliceSuccessor_near hTree hSome with
        ⟨tree', hRun, hTree', hKept, hSame⟩
      exact ⟨tree', _, hRun, hTree', hUprooted, hKept, hSame⟩
  | cons frame spine =>
      have hLength :=
        @length_rebuild _ (.node b .nil r) (frame :: spine)
      rw [List.length_cons] at hLength
      rcases
          spliceSuccessor_deep hTree hSides hSome (by omega) with
        ⟨tree', hRun, hTree', hKept, hSame⟩
      exact ⟨tree', _, hRun, hTree', hUprooted, hKept, hSame⟩

/- A root with one subtree is replaced by it. -/
theorem replace_root
    {side : Side}
    {inner : BinaryTree Entry}
    (hTree : Focused tree [] (build side a .nil inner)) :
    ∃ tree',
      replace tree (some a.loc) (rootOf inner) = .ok tree' ∧
        Focused tree' [] inner ∧
          tree'.nodes a.loc = tree.nodes a.loc ∧
            tree'.nodeCount = tree.nodeCount := by
  rcases holds_build.mp hTree.focus with ⟨hNode, _, hInner⟩
  have hAbove := hTree.above
  rw [rootOf_build] at hAbove
  have hNodup :=
    ((locs_build_perm side a .nil inner).append_right
      _).nodup_iff.mp hTree.nodup
  rw [locs_nil, List.nil_append, List.cons_append,
    List.nodup_cons, List.mem_append, not_or] at hNodup
  rcases hNodup with ⟨⟨hNotIn, hNotAbove⟩, hParts⟩
  rcases
      replace_spec hAbove hNode (cell_parent _ _ _ _ _) hInner
        hNotAbove hParts with
    ⟨tree', hRun, hTree', hEdits⟩
  refine ⟨tree', hRun, hTree', ?_, hEdits.count⟩
  exact hEdits.nodes a.loc fun hIn =>
    (List.mem_append.mp hIn).elim hNotAbove hNotIn

theorem rootOf_eq_none
    {t : BinaryTree Entry} :
    rootOf t = none ↔ t = .nil := by
  cases t with
  | nil => simp [rootOf]
  | node b l r => simp [rootOf]

/- The node is splayed to the root and taken out there. -/
theorem unlink_spec
    {frames : List (Frame Entry)}
    (hTree : Focused tree frames (.node a left right))
    (hCount :
      (inorder (rebuild (.node a left right) frames)).length ≤
        tree.nodeCount) :
    ∃ tree' t' l r node,
      unlink tree (some a.loc) = .ok tree' ∧
        Focused tree' [] t' ∧
          Splayed (.node a left right) frames (.node a l r) ∧
            Uprooted l r t' ∧
              tree'.nodes a.loc = some node ∧
                node.record = a.record ∧
                  tree'.nodeCount = tree.nodeCount := by
  rcases splay_spec hTree (Nat.le_succ_of_le hCount) with
    ⟨t₁, l, r, hSplay, hTree₁, hSplayed, hSame₁⟩
  have hOrder := hSplayed.inorder_eq
  have hz := hTree₁.focus.1
  have hRest :
      ∃ tree' t',
        unlink tree (some a.loc) = .ok tree' ∧
          Focused tree' [] t' ∧
            Uprooted l r t' ∧
              tree'.nodes a.loc = t₁.nodes a.loc ∧
                tree'.nodeCount = t₁.nodeCount := by
    unfold unlink
    simp only [hSplay, get_of_nodes hz, ok_bind]
    change ∃ tree' t',
      (if rootOf l = none then
        replace t₁ (some a.loc) (rootOf r)
      else if rootOf r = none then
        replace t₁ (some a.loc) (rootOf l)
      else spliceSuccessor t₁ (some a.loc)) = .ok tree' ∧ _
    split_ifs with hLeft hRight
    · rw [rootOf_eq_none.mp hLeft] at hTree₁ ⊢
      rcases @replace_root t₁ a .left r hTree₁ with
        ⟨tree', hRun, hTree', hKept, hSame⟩
      exact ⟨tree', r, hRun, hTree', .right, hKept, hSame⟩
    · rw [rootOf_eq_none.mp hRight] at hTree₁ ⊢
      rcases @replace_root t₁ a .right l hTree₁ with
        ⟨tree', hRun, hTree', hKept, hSame⟩
      exact ⟨tree', l, hRun, hTree', .left, hKept, hSame⟩
    · have hLength : (inorder r).length ≤ t₁.nodeCount := by
        rw [← hOrder, inorder_node, List.length_append,
          List.length_cons] at hCount
        omega
      exact spliceSuccessor_spec hTree₁
        (mt rootOf_eq_none.mpr hLeft)
        (mt rootOf_eq_none.mpr hRight) hLength
  rcases hRest with
    ⟨tree', t', hRun, hTree', hUprooted, hKept, hSame⟩
  exact ⟨tree', t', l, r, _, hRun, hTree', hSplayed, hUprooted,
    hKept.trans hz, cell_record _ _ _ _ _,
    hSame.trans hSame₁⟩

end Splice

end Splay

end CsappLabs
