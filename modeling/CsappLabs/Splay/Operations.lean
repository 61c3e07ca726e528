import CsappLabs.Lib.SortedMap
import CsappLabs.Splay.Removal
import CsappLabs.Splay.Search

/-
  The four operations on a tree that represents a finite map.

  Each operation returns, its result is read off the map, and
  the tree it leaves represents the map with the change that
  the operation makes.

  Key definitions:
    * `Represents`
    * `mapOf`

  Key theorems:
    * `treeFind_spec`
    * `treeFindNearest_spec`
    * `treeInsert_present`, `treeInsert_fresh`
    * `treeRemove_missing`, `treeRemove_present`
-/

------------------------------------------------------------
-- The Map of a Tree
------------------------------------------------------------

namespace CsappLabs

namespace Splay

open TreePath SearchTree SortedMap Splaying

/- The keys and records of nodes, in their order. -/
def pairs
    (entries : List Entry) :
    List (Int × Ptr) :=
  entries.map fun a => (a.key, a.record)

/- The finite map from the keys of a tree to its records. -/
def mapOf
    (t : BinaryTree Entry) :
    Finmap (fun _ : Int => Ptr) :=
  toMap (pairs (inorder t))

/-
  The store holds a search tree whose root hangs below NULL,
  and the node count is right.
-/
structure Represents
    (tree : Tree)
    (t : BinaryTree Entry) :
    Prop where
  focused : Focused tree [] t
  ordered : Ordered Entry.key t
  count : tree.nodeCount = (inorder t).length

section Map

variable {tree : Tree}
variable {t left right : BinaryTree Entry}
variable {a : Entry}
variable {frames : List (Frame Entry)}
variable {front back : List Entry}
variable {key : Int}

theorem pairs_append :
    pairs (front ++ back) = pairs front ++ pairs back :=
  List.map_append

theorem pairs_cons :
    pairs (a :: back) = (a.key, a.record) :: pairs back :=
  rfl

theorem forall_mem_pairs
    (P : Int → Prop) :
    (∀ entry ∈ pairs front, P entry.1) ↔
      ∀ b ∈ front, P b.key :=
  List.forall_mem_map

theorem sorted_pairs :
    Sorted (pairs front) ↔ Increasing Entry.key front :=
  List.pairwise_map

theorem Represents.increasing
    (hTree : Represents tree t) :
    Increasing Entry.key (inorder t) :=
  ordered_iff.mp hTree.ordered

theorem Represents.sorted
    (hTree : Represents tree t) :
    Sorted (pairs (inorder t)) :=
  sorted_pairs.mpr hTree.increasing

theorem Represents.counted
    (hTree : Represents tree t)
    (count : Nat) :
    Represents (tree.counted count) t where
  focused := hTree.focused.counted count
  ordered := hTree.ordered
  count := hTree.count

theorem Represents.fuel
    (hTree : Represents tree t) :
    (inorder t).length < tree.nodeCount + 1 := by
  rw [hTree.count]
  exact Nat.lt_succ_self _

/- A search meets the key or ends where it would be. -/
theorem Represents.search
    (hTree : Represents tree t)
    (key : Int) :
    (∃ frames,
      searchFor key t [] = (frames, .nil) ∧
        t = rebuild .nil frames ∧
          Splits Entry.key key frames) ∨
      ∃ frames a left right,
        searchFor key t [] =
            (frames, .node a left right) ∧
          t = rebuild (.node a left right) frames ∧
            key = a.key := by
  have hRebuild :
      rebuild (searchFor key t []).2
          (searchFor key t []).1 = t :=
    rebuild_descend
  have hSplits :
      Splits Entry.key key (searchFor key t []).1 :=
    descend_splits splits_nil hTree.increasing
  rcases @descend_root _ _ _ Entry.key key t [] with
    hNil | ⟨a, l, r, hNode, hKey⟩
  · refine .inl ⟨(searchFor key t []).1, ?_, ?_, hSplits⟩
    · rw [← hNil]
    · rw [← hNil]
      exact hRebuild.symm
  · refine .inr ⟨(searchFor key t []).1, a, l, r, ?_, ?_,
      hKey⟩
    · rw [← hNode]
    · rw [← hNode]
      exact hRebuild.symm

/- A key between the two sides of a path is not in it. -/
theorem lookup_between
    (hSplits : Splits Entry.key key frames) :
    (mapOf (rebuild .nil frames)).lookup key = none := by
  have hApart :
      ∀ entry ∈ pairs (before frames ++ after frames),
        entry.1 ≠ key := by
    rw [forall_mem_pairs fun k => k ≠ key]
    intro b hMember
    rcases List.mem_append.mp hMember with hLow | hHigh
    · exact ne_of_lt (hSplits.before b hLow)
    · exact ne_of_gt (hSplits.after b hHigh)
  unfold mapOf
  rw [inorder_rebuild, inorder_nil, List.append_nil]
  exact lookup_toMap_none hApart

/- The record at the key of a node. -/
theorem lookup_node
    (hTree :
      Represents tree (rebuild (.node a left right) frames)) :
    (mapOf (rebuild (.node a left right) frames)).lookup
        a.key =
      some a.record := by
  apply lookup_toMap hTree.sorted
  apply List.mem_map_of_mem (f := fun b : Entry =>
    (b.key, b.record))
  simp [inorder_rebuild]

/- Between the sides of a path the entry before is nearest. -/
theorem nearest_between
    (hTree : Represents tree (rebuild .nil frames))
    (hSplits : Splits Entry.key key frames) :
    Nearest (mapOf (rebuild .nil frames)) key
      ((lastBefore frames).map Entry.record) := by
  have hSorted := hTree.sorted
  unfold mapOf
  rw [inorder_rebuild, inorder_nil, List.append_nil,
    pairs_append] at hSorted ⊢
  have hNearest :=
    @nearest_toMap _ _ _ _ _ key hSorted
      ((forall_mem_pairs fun k => k ≤ key).mpr
        fun b hMember => le_of_lt (hSplits.before b hMember))
      ((forall_mem_pairs fun k => key < k).mpr
        hSplits.after)
  rw [pairs, List.getLast?_map, Option.map_map] at hNearest
  exact hNearest

/- At the key of a node its own record is nearest. -/
theorem nearest_node
    (hTree :
      Represents tree (rebuild (.node a left right) frames)) :
    Nearest (mapOf (rebuild (.node a left right) frames))
      a.key (some a.record) := by
  rcases hTree.increasing.node with ⟨hLow, hHigh⟩
  have hSorted := hTree.sorted
  have hList :
      inorder (rebuild (.node a left right) frames) =
        (before frames ++ inorder left ++ [a]) ++
          (inorder right ++ after frames) := by
    simp [inorder_rebuild]
  have hFront :
      ∀ b ∈ before frames ++ inorder left ++ [a],
        b.key ≤ a.key := by
    intro b hMember
    rcases List.mem_append.mp hMember with hOld | hSelf
    · exact le_of_lt (hLow b hOld)
    · rw [List.mem_singleton.mp hSelf]
  unfold mapOf
  rw [hList, pairs_append] at hSorted ⊢
  have hNearest :=
    @nearest_toMap _ _ _ _ _ a.key hSorted
      ((forall_mem_pairs fun k => k ≤ a.key).mpr hFront)
      ((forall_mem_pairs fun k => a.key < k).mpr hHigh)
  rw [pairs, List.getLast?_map, List.getLast?_concat]
    at hNearest
  exact hNearest

------------------------------------------------------------
-- Queries
------------------------------------------------------------

theorem treeFind_spec
    (hTree : Represents tree t)
    (key : Int) :
    ∃ count,
      treeFind tree key =
        .ok (tree.counted count,
          ((mapOf t).lookup key).join) := by
  have hRoot := hTree.focused.above
  rcases
      @findLoop_spec tree [] t key _ hTree.focused hTree.fuel with
    ⟨count, hLoop⟩
  refine ⟨count, ?_⟩
  rw [treeFind, show tree.root = rootOf t from hRoot, hLoop]
  rcases hTree.search key with
    ⟨frames, hSearch, hRebuild, hSplits⟩ |
    ⟨frames, a, l, r, hSearch, rfl, rfl⟩
  · rw [hSearch, hRebuild, lookup_between hSplits]
    rfl
  · rw [hSearch, lookup_node hTree]
    rfl

theorem treeFindNearest_spec
    (hTree : Represents tree t)
    (key : Int) :
    ∃ count found,
      treeFindNearest tree key =
          .ok (tree.counted count, found.join) ∧
        Nearest (mapOf t) key found := by
  have hRoot := hTree.focused.above
  rcases
      @nearestLoop_spec tree [] t key _ hTree.focused
        hTree.increasing hTree.fuel with
    ⟨count, hLoop, _⟩
  have hRun :
      treeFindNearest tree key =
        .ok (tree.counted count,
          nearestRecord (searchFor key t [])) := by
    rw [treeFindNearest,
      show tree.root = rootOf t from hRoot]
    exact hLoop
  refine ⟨count, ?_⟩
  rcases hTree.search key with
    ⟨frames, hSearch, rfl, hSplits⟩ |
    ⟨frames, a, l, r, hSearch, rfl, rfl⟩
  · refine ⟨(lastBefore frames).map Entry.record, ?_,
      nearest_between hTree hSplits⟩
    rw [hRun, hSearch]
    cases hLast : lastBefore frames with
    | none => simp [nearestRecord, hLast]
    | some b => simp [nearestRecord, hLast]
  · refine ⟨some a.record, ?_, nearest_node hTree⟩
    rw [hRun, hSearch]
    rfl

theorem mem_mapOf :
    key ∈ mapOf t ↔ (mapOf t).lookup key ≠ none := by
  rw [Ne, Finmap.lookup_eq_none, not_not]

/- The key of a search that misses is not in the map. -/
theorem Represents.search_missing
    (hTree : Represents tree t)
    (hMissing : key ∉ mapOf t) :
    ∃ frames,
      searchFor key t [] = (frames, .nil) ∧
        t = rebuild .nil frames ∧
          Splits Entry.key key frames := by
  rcases hTree.search key with hMissed | hFound
  · exact hMissed
  · rcases hFound with ⟨frames, a, l, r, _, rfl, rfl⟩
    rw [mem_mapOf, lookup_node hTree] at hMissing
    exact absurd (by simp) hMissing

theorem Represents.search_present
    (hTree : Represents tree t)
    (hPresent : key ∈ mapOf t) :
    ∃ frames a left right,
      searchFor key t [] =
          (frames, .node a left right) ∧
        t = rebuild (.node a left right) frames ∧
          key = a.key := by
  rcases hTree.search key with hMissed | hFound
  · rcases hMissed with ⟨frames, _, rfl, hSplits⟩
    rw [mem_mapOf, lookup_between hSplits] at hPresent
    exact absurd rfl hPresent
  · exact hFound

------------------------------------------------------------
-- Insertion
------------------------------------------------------------

theorem Focused.recount
    (hTree : Focused tree frames t)
    (count : Nat) :
    Focused { tree with nodeCount := count } frames t where
  focus := hTree.focus
  above := hTree.above.congr rfl fun _ _ => rfl
  nodup := hTree.nodup

/- A node that malloc gives is none of the tree's. -/
theorem Focused.fresh
    {z : Nat}
    (hTree : Focused tree frames t)
    (hFresh : tree.nodes z = none) :
    z ∉ locs t ++ frameLocs frames := by
  intro hMember
  have hTop : z ∈ locs (rebuild t frames) :=
    locs_rebuild_perm.mem_iff.mp hMember
  rcases List.mem_map.mp hTop with ⟨a, hEntry, rfl⟩
  rcases hTree.stored hEntry with ⟨node, hGet, _⟩
  simp [Tree.get, hFresh] at hGet

/- The new node is linked where the search ended. -/
theorem linkNew_spec
    {z : Nat}
    {record : Ptr}
    (hTree : Focused tree frames .nil)
    (hSplits : Splits Entry.key key frames)
    (hFresh : z ∉ frameLocs frames)
    (hNode :
      tree.nodes z =
        some ⟨none, none, parentOf frames, key, record⟩) :
    ∃ tree',
      linkNew tree (parentOf frames) (some z) = .ok tree' ∧
        Focused tree' frames
            (.node ⟨z, key, record⟩ .nil .nil) ∧
          tree'.nodeCount = tree.nodeCount := by
  have hNodup :
      (locs (.node ⟨z, key, record⟩ .nil .nil) ++
        frameLocs frames).Nodup :=
    List.nodup_cons.mpr ⟨hFresh, hTree.nodup⟩
  cases frames with
  | nil =>
      exact ⟨{ tree with root := some z }, rfl,
        ⟨⟨hNode, trivial, trivial⟩, rfl, hNodup⟩, rfl⟩
  | cons frame frames =>
      rcases link_spec hTree.above hTree.nodup (some z) with
        ⟨tree', hLink, hAbove, hEdits, hRoot⟩
      have hNe : z ≠ frame.value.loc := by
        rintro rfl
        exact hFresh (by simp [frameLocs])
      have hz := (hEdits.nodes z (by simp [hNe])).trans hNode
      refine ⟨tree', ?_,
        ⟨⟨hz, trivial, trivial⟩, hAbove, hNodup⟩,
        hEdits.count⟩
      unfold linkNew
      rw [parentOf, if_neg (by simp),
        get_of_nodes hTree.above.1, ok_bind,
        get_of_nodes hNode, ok_bind, cell_key, ← hLink]
      cases hSide : frame.side with
      | left =>
          have hGreater : key < frame.value.key := by
            apply hSplits.after
            simp [after, hSide]
          exact if_neg (not_lt_of_gt hGreater)
      | right =>
          have hLess : frame.value.key < key := by
            apply hSplits.before
            simp [before, hSide]
          exact if_pos hLess

/- The new node comes to the root. -/
theorem insertUnder_spec
    {z : Nat}
    (hTree : Focused tree frames .nil)
    (hSplits : Splits Entry.key key frames)
    (hFresh : tree.nodes z = none)
    (hCount :
      (inorder (rebuild .nil frames)).length =
        tree.nodeCount)
    (record : Ptr) :
    ∃ tree' left right,
      insertUnder tree key record (parentOf frames) z =
          .ok tree' ∧
        Focused tree' [] (.node ⟨z, key, record⟩ left right) ∧
          Splayed (.node ⟨z, key, record⟩ .nil .nil) frames
              (.node ⟨z, key, record⟩ left right) ∧
            tree'.nodeCount = tree.nodeCount + 1 := by
  have hApart := hTree.fresh hFresh
  rw [locs_nil, List.nil_append] at hApart
  have hPut :=
    put_edits tree z
      ⟨none, none, parentOf frames, key, record⟩
  have hAbove :=
    hTree.above.edits hPut rfl fun loc hLoc hEq => by
      rw [List.mem_singleton] at hEq
      exact hApart (hEq ▸ hLoc)
  rcases
      @linkNew_spec _ frames key z record
        ⟨trivial, hAbove, hTree.nodup⟩ hSplits hApart put_same with
    ⟨t₁, hLink, hTree₁, hCount₁⟩
  have hOrder :
      inorder
          (rebuild (.node ⟨z, key, record⟩ .nil .nil)
            frames) =
        before frames ++
          ⟨z, key, record⟩ :: after frames := by
    simp [inorder_rebuild]
  have hLength :
      (inorder
          (rebuild (.node ⟨z, key, record⟩ .nil .nil)
            frames)).length ≤
        t₁.nodeCount + 1 := by
    rw [hOrder, hCount₁]
    change _ ≤ tree.nodeCount + 1
    rw [← hCount, inorder_rebuild]
    simp
    omega
  rcases splay_spec hTree₁ hLength with
    ⟨t₂, l, r, hSplay, hTree₂, hSplayed, hCount₂⟩
  refine ⟨{ t₂ with nodeCount := t₂.nodeCount + 1 }, l, r,
    ?_, hTree₂.recount _, hSplayed, ?_⟩
  · unfold insertUnder
    change (linkNew (tree.put z _) (parentOf frames)
      (some z) >>= _) = _
    rw [hLink, ok_bind, hSplay, ok_bind]
    rfl
  · change t₂.nodeCount + 1 = _
    rw [hCount₂, hCount₁]
    rfl

theorem treeInsert_present
    (hTree : Represents tree t)
    (hPresent : key ∈ mapOf t)
    (record malloced : Ptr) :
    ∃ count,
      treeInsert tree key record malloced =
        .ok (tree.counted count, false) := by
  have hRoot := hTree.focused.above
  rcases
      @insertLoop_spec tree [] t key _ hTree.focused
        hTree.fuel with
    ⟨count, hLoop, _⟩
  rcases hTree.search_present hPresent with
    ⟨frames, a, l, r, hSearch, _, _⟩
  refine ⟨count, ?_⟩
  rw [treeInsert, show tree.root = rootOf t from hRoot]
  change (insertLoop key (tree.nodeCount + 1) tree
    (rootOf t) (parentOf []) >>= _) = _
  rw [hLoop, hSearch]
  rfl

theorem treeInsert_fresh
    {z : Nat}
    (hTree : Represents tree t)
    (hMissing : key ∉ mapOf t)
    (hFresh : tree.nodes z = none)
    (record : Ptr) :
    ∃ tree' t',
      treeInsert tree key record (some z) =
          .ok (tree', true) ∧
        Represents tree' t' ∧
          mapOf t' = (mapOf t).insert key record ∧
            tree'.root = some z ∧
              Splayed (.node ⟨z, key, record⟩ .nil .nil)
                (searchFor key t []).1 t' := by
  have hRoot := hTree.focused.above
  rcases
      @insertLoop_spec tree [] t key _ hTree.focused
        hTree.fuel with
    ⟨count, hLoop, _⟩
  rcases hTree.search_missing hMissing with
    ⟨frames, hSearch, rfl, hSplits⟩
  have hIncreasing := hTree.increasing
  have hList :
      inorder (rebuild .nil frames) =
        before frames ++ after frames := by
    simp [inorder_rebuild]
  rcases
      @insertUnder_spec (tree.counted count) frames key z
        ((focused_rebuild.mpr hTree.focused).counted count)
        hSplits hFresh hTree.count.symm record with
    ⟨tree', l, r, hInsert, hTree', hSplayed, hCount⟩
  have hOrder :
      inorder (.node ⟨z, key, record⟩ l r) =
        before frames ++
          ⟨z, key, record⟩ :: after frames := by
    rw [hSplayed.inorder_eq]
    simp [inorder_rebuild]
  have hSorted :
      Sorted
        (pairs (before frames) ++
          (key, record) :: pairs (after frames)) := by
    apply Sorted.insert
    · rw [← pairs_append, sorted_pairs, ← hList]
      exact hIncreasing
    · exact (forall_mem_pairs fun k => k < key).mpr
        hSplits.before
    · exact (forall_mem_pairs fun k => key < k).mpr
        hSplits.after
  have hPairs :
      pairs (inorder (.node ⟨z, key, record⟩ l r)) =
        pairs (before frames) ++
          (key, record) :: pairs (after frames) := by
    rw [hOrder, pairs_append, pairs_cons]
  refine ⟨tree', .node ⟨z, key, record⟩ l r, ?_,
    ⟨hTree', ?_, ?_⟩, ?_, hTree'.above, ?_⟩
  · rw [treeInsert, show tree.root = _ from hRoot]
    change (insertLoop key (tree.nodeCount + 1) tree
      (rootOf (rebuild .nil frames)) (parentOf []) >>=
        _) = _
    rw [hLoop, hSearch, ok_bind]
    change (insertUnder (tree.counted count) key record
      (parentOf frames) z >>= _) = _
    rw [hInsert]
    rfl
  · rw [ordered_iff, ← sorted_pairs, hPairs]
    exact hSorted
  · rw [hCount, hOrder]
    change tree.nodeCount + 1 = _
    rw [hTree.count, hList]
    simp
    omega
  · unfold mapOf
    rw [hPairs, toMap_insert hSorted, hList, pairs_append]
  · rw [hSearch]
    exact hSplayed

------------------------------------------------------------
-- Removal
------------------------------------------------------------

theorem treeRemove_missing
    (hTree : Represents tree t)
    (hMissing : key ∉ mapOf t) :
    ∃ count,
      treeRemove tree key =
        .ok (tree.counted count, none) := by
  have hRoot := hTree.focused.above
  rcases
      @removeLoop_spec tree [] t key _ hTree.focused
        hTree.fuel with
    ⟨count, hLoop, _⟩
  rcases hTree.search_missing hMissing with
    ⟨frames, hSearch, _, _⟩
  refine ⟨count, ?_⟩
  rw [treeRemove, show tree.root = rootOf t from hRoot,
    hLoop, hSearch]
  rfl

/- A node that is not the tree's is freed. -/
theorem Focused.freeNode
    {z : Nat}
    (hTree : Focused tree frames t)
    (hApart : z ∉ locs t ++ frameLocs frames) :
    Focused (tree.freeNode z) frames t := by
  have hSame :
      ∀ loc ∈ locs t ++ frameLocs frames,
        (tree.freeNode z).nodes loc = tree.nodes loc := by
    intro loc hLoc
    have hNe : loc ≠ z := fun hEq => hApart (hEq ▸ hLoc)
    simp [Tree.freeNode, hNe]
  refine ⟨hTree.focus.congr fun loc hLoc => ?_,
    hTree.above.congr rfl fun loc hLoc => ?_, hTree.nodup⟩
  · exact hSame loc (List.mem_append_left _ hLoc)
  · exact hSame loc (List.mem_append_right _ hLoc)

theorem treeRemove_present
    (hTree : Represents tree t)
    (hPresent : key ∈ mapOf t) :
    ∃ tree' t',
      treeRemove tree key =
          .ok (tree', ((mapOf t).lookup key).join) ∧
        Represents tree' t' ∧
          mapOf t' = (mapOf t).erase key ∧
            ∃ a l r l' r',
              (searchFor key t []).2 = .node a l r ∧
                Splayed (.node a l r) (searchFor key t []).1
                    (.node a l' r') ∧
                  Uprooted l' r' t' := by
  have hRoot := hTree.focused.above
  rcases
      @removeLoop_spec tree [] t key _ hTree.focused
        hTree.fuel with
    ⟨count, hLoop, _⟩
  rcases hTree.search_present hPresent with
    ⟨frames, a, l, r, hSearch, rfl, rfl⟩
  have hSorted := hTree.sorted
  rcases
      @unlink_spec (tree.counted count) a l r frames
        ((focused_rebuild.mpr hTree.focused).counted count)
        (le_of_eq hTree.count.symm) with
    ⟨t₁, t', l', r', node, hUnlink, hTree₁, hSplayed, hUprooted,
     hNode, hRecord, hCount⟩
  have hOrder := hSplayed.inorder_eq.symm
  have hRest := hUprooted.inorder_eq
  rw [inorder_node] at hOrder
  rw [hOrder, pairs_append, pairs_cons] at hSorted
  have hErase := toMap_erase hSorted
  have hApart : a.loc ∉ locs t' ++ frameLocs [] := by
    have hNodup := hTree.focused.nodup
    rw [frameLocs, List.flatMap_nil, List.append_nil, locs,
      hOrder, List.map_append, List.map_cons,
      List.nodup_middle, List.nodup_cons, ← List.map_append,
      ← hRest] at hNodup
    rw [frameLocs, List.flatMap_nil, List.append_nil]
    exact hNodup.1
  have hFreed :=
    (hTree₁.recount (t₁.nodeCount - 1)).freeNode hApart
  refine ⟨_, t', ?_, ⟨hFreed, ?_, ?_⟩, ?_, a, l, r, l', r', ?_⟩
  · rw [treeRemove, show tree.root = _ from hRoot, hLoop,
      hSearch, ok_bind]
    change (unlink (tree.counted count) (some a.loc) >>=
      _) = _
    rw [hUnlink, ok_bind, get_of_nodes hNode, ok_bind, hRecord,
      lookup_node hTree]
    rfl
  · rw [ordered_iff, ← sorted_pairs, hRest, pairs_append]
    exact hSorted.around.2.2
  · change t₁.nodeCount - 1 = _
    rw [hCount]
    change tree.nodeCount - 1 = _
    rw [hTree.count, hOrder, hRest]
    simp
  · unfold mapOf
    rw [hRest, hOrder, pairs_append, hErase, pairs_append,
      pairs_cons]
  · rw [hSearch]
    exact ⟨rfl, hSplayed, hUprooted⟩

end Map

end Splay

end CsappLabs
