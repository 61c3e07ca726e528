import CsappLabs.Splay.Tree

/-
  Trees held by a store of nodes.

  A tree of entries says which node lies at which address and
  what its three links are.  A subtree is held below the
  frames of its path; a store to one link is a change to the
  subtree or to the lowest frame.

  Key definitions:
    * `Entry`, `cell`
    * `Holds`, `Above`, `Focused`
    * `Edits`

  Key theorems:
    * `focused_rebuild`
    * `adopt_spec`
    * `setInParent_spec`
-/

------------------------------------------------------------
-- Cells
------------------------------------------------------------

namespace CsappLabs

namespace Splay

open TreePath

/- A node without its links. -/
structure Entry where
  loc : Nat
  key : Int
  record : Ptr

/- The node of an entry, with its links by side. -/
def cell
    (a : Entry)
    (side : Side)
    (inner outer parent : Ptr) :
    Node :=
  match side with
  | .left => ⟨inner, outer, parent, a.key, a.record⟩
  | .right => ⟨outer, inner, parent, a.key, a.record⟩

section Cells

variable (a : Entry) (side : Side)
variable (inner outer parent p : Ptr)

@[simp] theorem cell_child :
    (cell a side inner outer parent).child side = inner := by
  cases side with
  | left => rfl
  | right => rfl

@[simp] theorem cell_child_other :
    (cell a side inner outer parent).child side.other =
      outer := by
  cases side with
  | left => rfl
  | right => rfl

@[simp] theorem cell_setChild :
    (cell a side inner outer parent).setChild p side =
      cell a side p outer parent := by
  cases side with
  | left => rfl
  | right => rfl

@[simp] theorem cell_setChild_other :
    (cell a side inner outer parent).setChild p
        side.other =
      cell a side inner p parent := by
  cases side with
  | left => rfl
  | right => rfl

@[simp] theorem cell_parent :
    (cell a side inner outer parent).parent = parent := by
  cases side with
  | left => rfl
  | right => rfl

@[simp] theorem cell_setParent :
    (cell a side inner outer parent).setParent p =
      cell a side inner outer p := by
  cases side with
  | left => rfl
  | right => rfl

@[simp] theorem cell_key :
    (cell a side inner outer parent).key = a.key := by
  cases side with
  | left => rfl
  | right => rfl

@[simp] theorem cell_record :
    (cell a side inner outer parent).record = a.record := by
  cases side with
  | left => rfl
  | right => rfl

end Cells

------------------------------------------------------------
-- Subtrees and Paths in a Store
------------------------------------------------------------

/- The pointer to the root of a tree. -/
def rootOf : BinaryTree Entry → Ptr
  | .nil => none
  | .node a _ _ => some a.loc

/- The addresses of a tree's nodes. -/
def locs
    (t : BinaryTree Entry) :
    List Nat :=
  (inorder t).map Entry.loc

/- The nodes of a tree whose root hangs below `parent`. -/
def Holds
    (nodes : Nat → Option Node) :
    Ptr → BinaryTree Entry → Prop
  | _, .nil => True
  | parent, .node a left right =>
      nodes a.loc =
          some (cell a .left (rootOf left) (rootOf right)
            parent) ∧
        Holds nodes (some a.loc) left ∧
          Holds nodes (some a.loc) right

/- The node that the lowest frame of a path stands for. -/
def parentOf : List (Frame Entry) → Ptr
  | [] => none
  | frame :: _ => some frame.value.loc

/- The nodes along a path, with `hole` at its lower end. -/
def Above
    (tree : Tree) :
    Ptr → List (Frame Entry) → Prop
  | hole, [] => tree.root = hole
  | hole, frame :: frames =>
      tree.nodes frame.value.loc =
          some (cell frame.value frame.side hole
            (rootOf frame.sibling) (parentOf frames)) ∧
        Holds tree.nodes (some frame.value.loc)
            frame.sibling ∧
          Above tree (some frame.value.loc) frames

def frameLocs
    (frames : List (Frame Entry)) :
    List Nat :=
  frames.flatMap fun frame =>
    frame.value.loc :: locs frame.sibling

/- A tree in the store, seen from one of its subtrees. -/
structure Focused
    (tree : Tree)
    (frames : List (Frame Entry))
    (t : BinaryTree Entry) :
    Prop where
  focus : Holds tree.nodes (parentOf frames) t
  above : Above tree (rootOf t) frames
  nodup : (locs t ++ frameLocs frames).Nodup

section Held

variable {nodes nodes' : Nat → Option Node}
variable {tree tree' : Tree}
variable {t : BinaryTree Entry}
variable {frame : Frame Entry}
variable {frames : List (Frame Entry)}
variable {parent hole : Ptr}

@[simp] theorem rootOf_build
    (side : Side)
    (a : Entry)
    (inner outer : BinaryTree Entry) :
    rootOf (build side a inner outer) = some a.loc := by
  cases side with
  | left => rfl
  | right => rfl

@[simp] theorem locs_nil :
    locs .nil = [] := rfl

theorem locs_build_perm
    (side : Side)
    (a : Entry)
    (inner outer : BinaryTree Entry) :
    (locs (build side a inner outer)).Perm
      (a.loc :: (locs inner ++ locs outer)) := by
  have hPerm :=
    (inorder_build_perm side a inner outer).map Entry.loc
  rwa [List.map_cons, List.map_append] at hPerm

@[simp] theorem mem_locs_build
    {side : Side}
    {a : Entry}
    {inner outer : BinaryTree Entry}
    {loc : Nat} :
    loc ∈ locs (build side a inner outer) ↔
      loc = a.loc ∨ loc ∈ locs inner ∨
        loc ∈ locs outer := by
  rw [(locs_build_perm side a inner outer).mem_iff,
    List.mem_cons, List.mem_append]

@[simp] theorem mem_locs_node
    {a : Entry}
    {left right : BinaryTree Entry}
    {loc : Nat} :
    loc ∈ locs (.node a left right) ↔
      loc = a.loc ∨ loc ∈ locs left ∨
        loc ∈ locs right :=
  @mem_locs_build .left a left right loc

theorem rootOf_mem
    {loc : Nat}
    (hRoot : rootOf t = some loc) :
    loc ∈ locs t := by
  cases t with
  | nil => cases hRoot
  | node a left right =>
      cases hRoot
      simp

theorem holds_build
    {side : Side}
    {a : Entry}
    {inner outer : BinaryTree Entry} :
    Holds nodes parent (build side a inner outer) ↔
      nodes a.loc =
          some (cell a side (rootOf inner) (rootOf outer)
            parent) ∧
        Holds nodes (some a.loc) inner ∧
          Holds nodes (some a.loc) outer := by
  cases side with
  | left => rfl
  | right =>
      change _ ∧ Holds nodes _ outer ∧
        Holds nodes _ inner ↔ _
      rw [And.comm (a := Holds nodes (some a.loc) outer)]
      rfl

/- A tree depends on the nodes at its own addresses. -/
theorem Holds.congr
    (hHolds : Holds nodes parent t)
    (hSame : ∀ loc ∈ locs t, nodes' loc = nodes loc) :
    Holds nodes' parent t := by
  induction t generalizing parent with
  | nil => trivial
  | node a left right ihLeft ihRight =>
      rcases hHolds with ⟨hNode, hLeft, hRight⟩
      refine ⟨?_, ihLeft hLeft ?_, ihRight hRight ?_⟩
      · rw [hSame a.loc (by simp), hNode]
      · exact fun loc hLoc => hSame loc (by simp [hLoc])
      · exact fun loc hLoc => hSame loc (by simp [hLoc])

theorem Above.congr
    (hAbove : Above tree hole frames)
    (hRoot : tree'.root = tree.root)
    (hSame :
      ∀ loc ∈ frameLocs frames,
        tree'.nodes loc = tree.nodes loc) :
    Above tree' hole frames := by
  induction frames generalizing hole with
  | nil => exact hRoot.trans hAbove
  | cons frame frames ih =>
      rcases hAbove with ⟨hNode, hSibling, hRest⟩
      refine ⟨?_, hSibling.congr ?_, ih hRest ?_⟩
      · rw [hSame frame.value.loc (by simp [frameLocs]),
          hNode]
      · exact fun loc hLoc =>
          hSame loc (by simp [frameLocs, hLoc])
      · intro loc hLoc
        apply hSame loc
        rw [frameLocs, List.flatMap_cons]
        exact List.mem_append_right _ hLoc

theorem locs_plug_perm :
    (locs t ++ frameLocs (frame :: frames)).Perm
      (locs (frame.plug t) ++ frameLocs frames) := by
  have hBuild :=
    (locs_build_perm frame.side frame.value t
      frame.sibling).append_right (frameLocs frames)
  refine List.Perm.trans ?_ hBuild.symm
  rw [frameLocs, List.flatMap_cons, List.cons_append,
    List.cons_append, List.append_assoc]
  exact List.perm_middle

/- The addresses of a tree, seen from a subtree. -/
theorem locs_rebuild_perm :
    (locs t ++ frameLocs frames).Perm
      (locs (rebuild t frames)) := by
  induction frames generalizing t with
  | nil => simp [frameLocs]
  | cons frame frames ih => exact locs_plug_perm.trans ih

/- The view from one level up. -/
theorem focused_cons :
    Focused tree (frame :: frames) t ↔
      Focused tree frames (frame.plug t) := by
  have hPerm :=
    @locs_plug_perm t frame frames
  constructor
  · rintro ⟨hFocus, ⟨hNode, hSibling, hAbove⟩, hNodup⟩
    refine ⟨holds_build.mpr ⟨hNode, hFocus, hSibling⟩, ?_,
      hPerm.nodup_iff.mp hNodup⟩
    rw [Frame.plug, rootOf_build]
    exact hAbove
  · rintro ⟨hFocus, hAbove, hNodup⟩
    rcases holds_build.mp hFocus with ⟨hNode, hHere, hSibling⟩
    rw [Frame.plug, rootOf_build] at hAbove
    exact ⟨hHere, ⟨hNode, hSibling, hAbove⟩,
      hPerm.nodup_iff.mpr hNodup⟩

/- The view from higher up. -/
theorem focused_append
    {above : List (Frame Entry)} :
    Focused tree (frames ++ above) t ↔
      Focused tree above (rebuild t frames) := by
  induction frames generalizing t with
  | nil => rfl
  | cons frame frames ih => exact focused_cons.trans ih

/- The view from the top. -/
theorem focused_rebuild :
    Focused tree frames t ↔
      Focused tree [] (rebuild t frames) := by
  have hAppend := @focused_append tree t frames []
  rwa [List.append_nil] at hAppend

end Held

------------------------------------------------------------
-- Stores
------------------------------------------------------------

/- Nodes outside `touched` and the counters are as before. -/
structure Edits
    (tree tree' : Tree)
    (touched : List Nat) :
    Prop where
  nodes :
    ∀ loc, loc ∉ touched → tree'.nodes loc = tree.nodes loc
  count : tree'.nodeCount = tree.nodeCount
  comparisons :
    tree'.comparisonCount = tree.comparisonCount

theorem Edits.refl
    (tree : Tree)
    (touched : List Nat) :
    Edits tree tree touched where
  nodes := fun _ _ => rfl
  count := rfl
  comparisons := rfl

theorem Edits.trans
    {tree tree' tree'' : Tree}
    {touched touched' : List Nat}
    (hFirst : Edits tree tree' touched)
    (hSecond : Edits tree' tree'' touched') :
    Edits tree tree'' (touched ++ touched') where
  nodes := by
    intro loc hLoc
    rw [List.mem_append, not_or] at hLoc
    exact (hSecond.nodes loc hLoc.2).trans
      (hFirst.nodes loc hLoc.1)
  count := hSecond.count.trans hFirst.count
  comparisons := hSecond.comparisons.trans hFirst.comparisons

/- The tree with the node at one address replaced. -/
def Tree.put
    (tree : Tree)
    (loc : Nat)
    (node : Node) :
    Tree :=
  { tree with
    nodes := Function.update tree.nodes loc (some node) }

section Stores

variable {tree tree' : Tree}
variable {loc other : Nat}
variable {node : Node}
variable {t : BinaryTree Entry}
variable {frames : List (Frame Entry)}
variable {parent u v : Ptr}

@[simp] theorem put_same :
    (tree.put loc node).nodes loc = some node := by
  simp [Tree.put]

theorem put_other
    (hNe : other ≠ loc) :
    (tree.put loc node).nodes other =
      tree.nodes other := by
  simp [Tree.put, hNe]

theorem put_edits
    (tree : Tree)
    (loc : Nat)
    (node : Node) :
    Edits tree (tree.put loc node) [loc] where
  nodes := by
    intro other hOther
    rw [List.mem_singleton] at hOther
    exact put_other hOther
  count := rfl
  comparisons := rfl

theorem get_of_nodes
    (hNode : tree.nodes loc = some node) :
    tree.get (some loc) = .ok node := by
  unfold Tree.get
  rw [Option.bind_some, hNode]

theorem modify_of_nodes
    (hNode : tree.nodes loc = some node)
    (change : Node → Node) :
    tree.modify (some loc) change =
      .ok (tree.put loc (change node)) := by
  simp only [Tree.modify, hNode]
  rfl

/- A store to one node. -/
theorem modify_spec
    (hNode : tree.nodes loc = some node)
    (change : Node → Node) :
    ∃ tree',
      tree.modify (some loc) change = .ok tree' ∧
        tree'.nodes loc = some (change node) ∧
          Edits tree tree' [loc] ∧
            tree'.root = tree.root :=
  ⟨_, modify_of_nodes hNode change, put_same,
    put_edits tree loc (change node), rfl⟩

theorem Holds.edits
    {touched : List Nat}
    (hHolds : Holds tree.nodes parent t)
    (hEdits : Edits tree tree' touched)
    (hApart : ∀ loc ∈ locs t, loc ∉ touched) :
    Holds tree'.nodes parent t :=
  hHolds.congr fun loc hLoc =>
    hEdits.nodes loc (hApart loc hLoc)

theorem Above.edits
    {touched : List Nat}
    (hAbove : Above tree u frames)
    (hEdits : Edits tree tree' touched)
    (hRoot : tree'.root = tree.root)
    (hApart : ∀ loc ∈ frameLocs frames, loc ∉ touched) :
    Above tree' u frames :=
  hAbove.congr hRoot fun loc hLoc =>
    hEdits.nodes loc (hApart loc hLoc)

/- A tree gets another parent. -/
theorem adopt_spec
    (hHolds : Holds tree.nodes parent t)
    (hNodup : (locs t).Nodup)
    (u : Ptr) :
    ∃ tree',
      adopt tree (rootOf t) u = .ok tree' ∧
        Holds tree'.nodes u t ∧
          Edits tree tree' (locs t) ∧
            tree'.root = tree.root := by
  cases t with
  | nil =>
      exact ⟨tree, rfl, trivial, Edits.refl tree _, rfl⟩
  | node a left right =>
      rcases hHolds with ⟨hNode, hLeft, hRight⟩
      have hParts :=
        (locs_build_perm .left a left right).nodup_iff.mp
          hNodup
      rw [List.nodup_cons, List.mem_append, not_or]
        at hParts
      rcases hParts with ⟨⟨hNotLeft, hNotRight⟩, _⟩
      have hPut :=
        put_edits tree a.loc
          (cell a .left (rootOf left) (rootOf right) u)
      refine ⟨_, modify_of_nodes hNode _,
        ⟨?_, ?_, ?_⟩, ?_, rfl⟩
      · rw [cell_setParent, put_same]
      · rw [cell_setParent]
        apply hLeft.edits hPut
        intro loc hLoc hEq
        rw [List.mem_singleton] at hEq
        exact hNotLeft (hEq ▸ hLoc)
      · rw [cell_setParent]
        apply hRight.edits hPut
        intro loc hLoc hEq
        rw [List.mem_singleton] at hEq
        exact hNotRight (hEq ▸ hLoc)
      · rw [cell_setParent]
        refine ⟨?_, rfl, rfl⟩
        intro loc hLoc
        apply hPut.nodes loc
        rw [List.mem_singleton]
        intro hEq
        exact hLoc (by simp [hEq])

/- The link at the lower end of a path is set. -/
theorem link_spec
    {frame : Frame Entry}
    (hAbove : Above tree u (frame :: frames))
    (hNodup : (frameLocs (frame :: frames)).Nodup)
    (v : Ptr) :
    ∃ tree',
      tree.modify (some frame.value.loc)
          (fun node => node.setChild v frame.side) =
        .ok tree' ∧
        Above tree' v (frame :: frames) ∧
          Edits tree tree' [frame.value.loc] ∧
            tree'.root = tree.root := by
  rcases hAbove with ⟨hCell, hSibling, hRest⟩
  rw [frameLocs, List.flatMap_cons, List.cons_append,
    List.nodup_cons, List.mem_append, not_or] at hNodup
  rcases hNodup with ⟨⟨hNotSibling, hNotRest⟩, _⟩
  have hPut :=
    put_edits tree frame.value.loc
      (cell frame.value frame.side v
        (rootOf frame.sibling) (parentOf frames))
  rw [modify_of_nodes hCell, cell_setChild]
  refine ⟨_, rfl, ⟨put_same, ?_, ?_⟩, hPut, rfl⟩
  · apply hSibling.edits hPut
    intro other hOther hEq
    rw [List.mem_singleton] at hEq
    exact hNotSibling (hEq ▸ hOther)
  · apply hRest.edits hPut rfl
    intro other hOther hEq
    rw [List.mem_singleton] at hEq
    exact hNotRest (hEq ▸ hOther)

/- The lower end of a path gets another node. -/
theorem setInParent_spec
    (hAbove : Above tree (some loc) frames)
    (hNode : tree.nodes loc = some node)
    (hParent : node.parent = parentOf frames)
    (hApart : loc ∉ frameLocs frames)
    (hNodup : (frameLocs frames).Nodup)
    (v : Ptr) :
    ∃ tree',
      setInParent tree (some loc) v = .ok tree' ∧
        Above tree' v frames ∧
          Edits tree tree' (frameLocs frames) := by
  have hGet := get_of_nodes hNode
  cases frames with
  | nil =>
      refine ⟨{ tree with root := v }, ?_, rfl,
        ⟨fun _ _ => rfl, rfl, rfl⟩⟩
      unfold setInParent
      rw [hGet]
      change (if node.parent = none then _ else _) = _
      rw [hParent, parentOf, if_pos rfl]
      rfl
  | cons frame frames =>
      have hLocSibling :
          rootOf frame.sibling ≠ some loc := by
        intro hRoot
        apply hApart
        have hMember := rootOf_mem hRoot
        simp [frameLocs, hMember]
      have hGetParent := get_of_nodes hAbove.1
      have hSet :
          setInParent tree (some loc) v =
            tree.modify (some frame.value.loc)
              (fun node => node.setChild v frame.side) := by
        unfold setInParent
        rw [hGet]
        change (if node.parent = none then _ else
          (tree.get node.parent).bind _) = _
        rw [hParent, parentOf, if_neg (by simp),
          hGetParent]
        change (if some loc = _ then _ else _) = _
        cases hSide : frame.side with
        | left =>
            change (if some loc = some loc then _ else _) = _
            rw [if_pos rfl]
        | right =>
            change (if some loc = rootOf frame.sibling then
              _ else _) = _
            rw [if_neg (Ne.symm hLocSibling)]
      rcases link_spec hAbove hNodup v with
        ⟨tree', hModify, hAbove', hEdits, _⟩
      refine ⟨tree', hSet.trans hModify, hAbove', ?_⟩
      refine ⟨?_, hEdits.count, hEdits.comparisons⟩
      intro other hOther
      apply hEdits.nodes other
      rw [List.mem_singleton]
      intro hEq
      exact hOther (by simp [frameLocs, hEq])

end Stores

end Splay

end CsappLabs
