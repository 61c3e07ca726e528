import CsappLabs.Lib.Transition
import CsappLabs.Splay.Operations

/-
  The splay tree as a finite map, over whole runs.

  A run of calls on a tree from tree_new is a run of a finite
  map with the same results.  In every state that a run
  reaches the nodes form a search tree with the right links,
  and every further call returns.

  Key definitions:
    * `Step`, `MapStep`
    * `Linked`, `Answers`

  Key theorems:
    * `step_simulated`
    * `splay_tree_is_map`
-/

------------------------------------------------------------
-- Calls
------------------------------------------------------------

namespace CsappLabs

namespace Splay

open TreePath SearchTree SortedMap Transition

inductive Call where
  | insert (key : Int) (record : Ptr)
  | find (key : Int)
  | findNearest (key : Int)
  | remove (key : Int)

inductive Result where
  | inserted (isNew : Bool)
  | record (r : Ptr)

/- A call that returns; malloc gives a node not in use. -/
inductive Step : Tree → Call × Result → Tree → Prop
| insert {tree tree' : Tree} {key : Int} {record : Ptr}
    {z : Nat} {isNew : Bool} :
    tree.nodes z = none →
    treeInsert tree key record (some z) =
      .ok (tree', isNew) →
    Step tree (.insert key record, .inserted isNew) tree'
| find {tree tree' : Tree} {key : Int} {r : Ptr} :
    treeFind tree key = .ok (tree', r) →
    Step tree (.find key, .record r) tree'
| findNearest {tree tree' : Tree} {key : Int} {r : Ptr} :
    treeFindNearest tree key = .ok (tree', r) →
    Step tree (.findNearest key, .record r) tree'
| remove {tree tree' : Tree} {key : Int} {r : Ptr} :
    treeRemove tree key = .ok (tree', r) →
    Step tree (.remove key, .record r) tree'

/- What the same call does to a finite map. -/
inductive MapStep :
    Finmap (fun _ : Int => Ptr) → Call × Result →
      Finmap (fun _ : Int => Ptr) → Prop
| insertPresent {m : Finmap (fun _ : Int => Ptr)}
    {key : Int} {record : Ptr} :
    key ∈ m →
    MapStep m (.insert key record, .inserted false) m
| insertFresh {m : Finmap (fun _ : Int => Ptr)}
    {key : Int} {record : Ptr} :
    key ∉ m →
    MapStep m (.insert key record, .inserted true)
      (m.insert key record)
| find {m : Finmap (fun _ : Int => Ptr)} {key : Int} :
    MapStep m (.find key, .record (m.lookup key).join) m
| findNearest {m : Finmap (fun _ : Int => Ptr)}
    {key : Int} {found : Option Ptr} :
    Nearest m key found →
    MapStep m (.findNearest key, .record found.join) m
| remove {m : Finmap (fun _ : Int => Ptr)} {key : Int} :
    MapStep m (.remove key, .record (m.lookup key).join)
      (m.erase key)

------------------------------------------------------------
-- One Call
------------------------------------------------------------

section Calls

variable {tree tree' : Tree}
variable {t : BinaryTree Entry}
variable {key : Int}

theorem erase_missing
    {m : Finmap (fun _ : Int => Ptr)}
    (hMissing : key ∉ m) :
    m.erase key = m := by
  apply Finmap.ext_lookup
  intro k
  by_cases hKey : k = key
  · rw [hKey, Finmap.lookup_erase,
      Finmap.lookup_eq_none.mpr hMissing]
  · rw [Finmap.lookup_erase_ne hKey]

theorem treeNew_represents :
    Represents treeNew .nil where
  focused := ⟨trivial, rfl, List.nodup_nil⟩
  ordered := trivial
  count := rfl

/- Every call is a call on the finite map. -/
theorem step_simulated
    {event : Call × Result}
    (hTree : Represents tree t)
    (hStep : Step tree event tree') :
    ∃ t',
      Represents tree' t' ∧
        MapStep (mapOf t) event (mapOf t') := by
  cases hStep with
  | @insert _ key record z isNew hFresh hRun =>
      by_cases hPresent : key ∈ mapOf t
      · rcases
            treeInsert_present hTree hPresent record (some z) with
          ⟨count, hInsert⟩
        rw [hInsert] at hRun
        cases hRun
        exact ⟨t, hTree.counted count,
          .insertPresent hPresent⟩
      · rcases treeInsert_fresh hTree hPresent hFresh record with
          ⟨t₁, t', hInsert, hTree', hMap, _⟩
        rw [hInsert] at hRun
        cases hRun
        refine ⟨t', hTree', ?_⟩
        rw [hMap]
        exact .insertFresh hPresent
  | @find _ key r hRun =>
      rcases treeFind_spec hTree key with ⟨count, hFind⟩
      rw [hFind] at hRun
      cases hRun
      exact ⟨t, hTree.counted count, .find⟩
  | @findNearest _ key r hRun =>
      rcases treeFindNearest_spec hTree key with
        ⟨count, found, hFind, hNearest⟩
      rw [hFind] at hRun
      cases hRun
      exact ⟨t, hTree.counted count, .findNearest hNearest⟩
  | @remove _ key r hRun =>
      by_cases hPresent : key ∈ mapOf t
      · rcases treeRemove_present hTree hPresent with
          ⟨t₁, t', hRemove, hTree', hMap, _⟩
        rw [hRemove] at hRun
        cases hRun
        refine ⟨t', hTree', ?_⟩
        rw [hMap]
        exact .remove
      · rcases treeRemove_missing hTree hPresent with
          ⟨count, hRemove⟩
        rw [hRemove] at hRun
        cases hRun
        refine ⟨t, hTree.counted count, ?_⟩
        have hStep := @MapStep.remove (mapOf t) key
        rw [erase_missing hPresent,
          Finmap.lookup_eq_none.mpr hPresent] at hStep
        exact hStep

------------------------------------------------------------
-- What Holds in a State
------------------------------------------------------------

/-
  The parent links of the nodes at `places`: NULL at the root
  and the node itself in each child.
-/
structure Linked
    (tree : Tree)
    (places : List Nat) :
    Prop where
  root :
    ∀ x, tree.root = some x →
      x ∈ places ∧
        ∃ node,
          tree.get (some x) = .ok node ∧ node.parent = none
  child :
    ∀ x ∈ places, ∃ node,
      tree.get (some x) = .ok node ∧
        ∀ side y, node.child side = some y →
          y ∈ places ∧
            ∃ below,
              tree.get (some y) = .ok below ∧
                below.parent = some x

/- The root of a held tree has the parent it hangs below. -/
theorem Focused.root_parent
    {frames : List (Frame Entry)}
    {x : Nat}
    (hTree : Focused tree frames t)
    (hRoot : rootOf t = some x) :
    ∃ node,
      tree.get (some x) = .ok node ∧
        node.parent = parentOf frames := by
  cases t with
  | nil => cases hRoot
  | node a left right =>
      cases hRoot
      exact ⟨_, hTree.get, rfl⟩

theorem Represents.linked
    (hTree : Represents tree t) :
    Linked tree (locs t) where
  root := by
    intro x hRoot
    have hTop : rootOf t = some x :=
      hTree.focused.above.symm.trans hRoot
    exact ⟨rootOf_mem hTop, hTree.focused.root_parent hTop⟩
  child := by
    intro x hMember
    rcases List.mem_map.mp hMember with ⟨a, hEntry, rfl⟩
    rcases exists_rebuild_of_mem hEntry with ⟨frames, l, r, rfl⟩
    have hHere := focused_rebuild.mpr hTree.focused
    have hIn :
        ∀ loc ∈ locs (.node a l r),
          loc ∈ locs (rebuild (.node a l r) frames) :=
      fun loc hLoc =>
        locs_rebuild_perm.mem_iff.mp
          (List.mem_append_left _ hLoc)
    refine ⟨_, hHere.get, fun side y hChild => ?_⟩
    cases side with
    | left =>
        have hBelow := rootOf_mem hChild
        exact ⟨hIn y (by simp [hBelow]),
          hHere.goLeft.root_parent hChild⟩
    | right =>
        have hBelow := rootOf_mem hChild
        exact ⟨hIn y (by simp [hBelow]),
          hHere.goRight.root_parent hChild⟩

/- Every call returns, with the result that the map has. -/
structure Answers
    (tree : Tree)
    (m : Finmap (fun _ : Int => Ptr)) :
    Prop where
  insertPresent :
    ∀ key ∈ m, ∀ record malloced, ∃ count,
      treeInsert tree key record malloced =
        .ok (tree.counted count, false)
  insertFresh :
    ∀ key, key ∉ m → ∀ record z, tree.nodes z = none →
      ∃ tree',
        treeInsert tree key record (some z) =
            .ok (tree', true) ∧
          tree'.root = some z
  find :
    ∀ key, ∃ count,
      treeFind tree key =
        .ok (tree.counted count, (m.lookup key).join)
  findNearest :
    ∀ key, ∃ count found,
      treeFindNearest tree key =
          .ok (tree.counted count, found.join) ∧
        Nearest m key found
  remove :
    ∀ key, ∃ tree',
      treeRemove tree key =
        .ok (tree', (m.lookup key).join)

theorem Represents.answers
    (hTree : Represents tree t) :
    Answers tree (mapOf t) where
  insertPresent := by
    intro key hPresent record malloced
    exact treeInsert_present hTree hPresent record malloced
  insertFresh := by
    intro key hMissing record z hFresh
    rcases treeInsert_fresh hTree hMissing hFresh record with
      ⟨tree', _, hRun, _, _, hRoot, _⟩
    exact ⟨tree', hRun, hRoot⟩
  find := treeFind_spec hTree
  findNearest := treeFindNearest_spec hTree
  remove := by
    intro key
    by_cases hPresent : key ∈ mapOf t
    · rcases treeRemove_present hTree hPresent with
        ⟨tree', _, hRun, _⟩
      exact ⟨tree', hRun⟩
    · rcases treeRemove_missing hTree hPresent with ⟨count, hRun⟩
      rw [Finmap.lookup_eq_none.mpr hPresent]
      exact ⟨_, hRun⟩

/- A node of the tree is splayed to the root. -/
theorem Represents.splays
    {x : Nat}
    (hTree : Represents tree t)
    (hMember : x ∈ locs t) :
    ∃ tree' t',
      splay tree (some x) = .ok tree' ∧
        Represents tree' t' ∧
          mapOf t' = mapOf t ∧
            tree'.root = some x := by
  rcases List.mem_map.mp hMember with ⟨a, hEntry, rfl⟩
  rcases exists_rebuild_of_mem hEntry with ⟨frames, l, r, rfl⟩
  rcases
      splay_spec (focused_rebuild.mpr hTree.focused)
        (by rw [hTree.count]; exact Nat.le_succ _) with
    ⟨tree', l', r', hRun, hTree', hSplayed, hCount⟩
  have hOrder := hSplayed.inorder_eq
  refine ⟨tree', .node a l' r', hRun, ⟨hTree', ?_, ?_⟩, ?_,
    hTree'.above⟩
  · rw [ordered_iff, hOrder]
    exact hTree.increasing
  · rw [hCount, hTree.count, hOrder]
  · unfold mapOf
    rw [hOrder]

theorem Represents.card
    (hTree : Represents tree t) :
    tree.nodeCount = (mapOf t).keys.card := by
  rw [mapOf, card_toMap hTree.sorted, hTree.count, pairs,
    List.length_map]

end Calls

------------------------------------------------------------
-- Runs
------------------------------------------------------------

/-
  Every run from tree_new is a run of the finite map with the
  same results, and its nodes are a search tree of that map.
-/
theorem splay_tree_is_map
    {events : List (Call × Result)}
    {tree : Tree}
    (hRun : Run Step treeNew events tree) :
    ∃ m t,
      Run MapStep ∅ events m ∧
        mapOf t = m ∧
        Represents tree t ∧
        Linked tree (locs t) ∧
        tree.nodeCount = m.keys.card ∧
        Answers tree m ∧
        ∀ x ∈ locs t, ∃ tree',
          splay tree (some x) = .ok tree' ∧
            tree'.root = some x := by
  rcases
      hRun.simulation
        (fun tree m => ∃ t, Represents tree t ∧ mapOf t = m)
        ⟨.nil, treeNew_represents, rfl⟩
        (by
          rintro tree m event tree' ⟨t, hTree, rfl⟩ hStep
          obtain ⟨t', hTree', hMapStep⟩ :=
            step_simulated hTree hStep
          exact ⟨_, hMapStep, t', hTree', rfl⟩) with
    ⟨m, hMap, t, hTree, rfl⟩
  refine ⟨_, t, hMap, rfl, hTree, hTree.linked, hTree.card,
    hTree.answers, ?_⟩
  intro x hMember
  rcases hTree.splays hMember with
    ⟨tree', _, hSplay, _, _, hRoot⟩
  exact ⟨tree', hSplay, hRoot⟩

/- Two insertions, a search between them and a removal. -/
theorem splay_tree_is_map_four_calls :
    ∃ tree m t,
      Run MapStep ∅
          [(.insert 3 (some 30), .inserted true),
            (.insert 1 (some 10), .inserted true),
            (.findNearest 2, .record (some 10)),
            (.remove 3, .record (some 30))] m ∧
        mapOf t = m ∧ Represents tree t := by
  have hOne :=
    Run.nil.snoc
      (@Step.insert treeNew _ 3 (some 30) 0 true rfl rfl)
  have hTwo :=
    hOne.snoc (@Step.insert _ _ 1 (some 10) 1 true rfl rfl)
  have hThree :=
    hTwo.snoc (@Step.findNearest _ _ 2 (some 10) rfl)
  have hRun :=
    hThree.snoc (@Step.remove _ _ 3 (some 30) rfl)
  rcases splay_tree_is_map hRun with ⟨m, t, hMap, hEq, hTree, _⟩
  exact ⟨_, m, t, hMap, hEq, hTree⟩

end Splay

end CsappLabs
