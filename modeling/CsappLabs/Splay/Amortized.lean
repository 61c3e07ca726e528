import CsappLabs.Splay.Comparisons
import CsappLabs.Splay.Refinement

/-
  How many comparisons a run makes.

  A call that inserts or removes a node splays the node that
  its search led to.  The potential that this sets free pays
  for the search, so over a run such a call costs no more
  than a logarithm of the greatest size.

  Key definitions:
    * `Edit`

  Key theorems:
    * `treeInsert_amortized`, `treeRemove_amortized`
    * `edits_compare_logarithmically`
-/

------------------------------------------------------------
-- The Cost of One Call
------------------------------------------------------------

namespace CsappLabs

namespace Splay

open TreePath SearchTree SortedMap Splaying Transition

section Calls

variable {tree tree' : Tree}
variable {t : BinaryTree Entry}
variable {key : Int}

theorem Represents.weight_eq
    (hTree : Represents tree t) :
    weight t = tree.nodeCount + 1 := by
  rw [hTree.count]
  rfl

/- The comparisons of a call that inserts a node. -/
theorem treeInsert_count
    {record : Ptr}
    {z : Nat}
    (hTree : Represents tree t)
    (hMissing : key ∉ mapOf t)
    (hRun :
      treeInsert tree key record (some z) =
        .ok (tree', true)) :
    tree'.comparisonCount =
      tree.comparisonCount +
        2 * (searchFor key t []).1.length := by
  have hRoot : tree.root = rootOf t := hTree.focused.above
  rcases
      @insertLoop_spec tree [] t key _ hTree.focused
        hTree.fuel with
    ⟨count, hLoop, hCount⟩
  rcases hTree.search_missing hMissing with
    ⟨frames, hSearch, _, _⟩
  rw [hSearch] at hLoop hCount ⊢
  have hSame :
      LeavesCount count
        (insertUnder (tree.counted count) key record
          (parentOf frames) z) :=
    insertUnder_count key record _ z rfl
  rw [treeInsert, hRoot] at hRun
  change (insertLoop key (tree.nodeCount + 1) tree
    (rootOf t) (parentOf []) >>= _) = _ at hRun
  rw [hLoop, ok_bind] at hRun
  change (insertUnder (tree.counted count) key record
    (parentOf frames) z >>= _) = _ at hRun
  cases hInsert :
      insertUnder (tree.counted count) key record
        (parentOf frames) z with
  | error stop =>
      rw [hInsert] at hRun
      cases hRun
  | ok after =>
      rw [hInsert, ok_bind] at hRun
      cases hRun
      rw [hSame _ hInsert]
      simpa [lastCompared] using hCount

/- The comparisons of a call that removes a node. -/
theorem treeRemove_count
    {r : Ptr}
    (hTree : Represents tree t)
    (hPresent : key ∈ mapOf t)
    (hRun : treeRemove tree key = .ok (tree', r)) :
    tree'.comparisonCount =
      tree.comparisonCount +
        (searchFor key t []).1.length := by
  have hRoot : tree.root = rootOf t := hTree.focused.above
  rcases
      @removeLoop_spec tree [] t key _ hTree.focused
        hTree.fuel with
    ⟨count, hLoop, hCount⟩
  rcases hTree.search_present hPresent with
    ⟨frames, a, left, right, hSearch, _, _⟩
  rw [hSearch] at hLoop hCount ⊢
  have hSame :
      LeavesCount count
        (unlink (tree.counted count) (some a.loc)) :=
    unlink_count _ rfl
  rw [treeRemove, hRoot, hLoop, ok_bind] at hRun
  change (unlink (tree.counted count) (some a.loc) >>=
    _) = _ at hRun
  cases hUnlink :
      unlink (tree.counted count) (some a.loc) with
  | error stop =>
      rw [hUnlink] at hRun
      cases hRun
  | ok after =>
      rw [hUnlink, ok_bind] at hRun
      cases hGet : after.get (some a.loc) with
      | error stop =>
          rw [hGet] at hRun
          cases hRun
      | ok node =>
          rw [hGet] at hRun
          cases hRun
          change after.comparisonCount = _
          rw [hSame _ hUnlink]
          simpa using hCount

/- Inserting splays a new leaf up the path of the search. -/
theorem treeInsert_amortized
    {record : Ptr}
    {z : Nat}
    (hTree : Represents tree t)
    (hMissing : key ∉ mapOf t)
    (hFresh : tree.nodes z = none)
    (hRun :
      treeInsert tree key record (some z) =
        .ok (tree', true)) :
    ∃ t',
      Represents tree' t' ∧
        mapOf t' = (mapOf t).insert key record ∧
          (searchFor key t []).1.length + potential t' + 2 ≤
            potential t + 4 * rank t' := by
  rcases treeInsert_fresh hTree hMissing hFresh record with
    ⟨tree₁, t', hInsert, hTree', hMap, _, hSplayed⟩
  rw [hRun] at hInsert
  cases hInsert
  refine ⟨t', hTree', hMap, ?_⟩
  rcases hTree.search_missing hMissing with
    ⟨frames, hSearch, rfl, _⟩
  rw [hSearch] at hSplayed ⊢
  have hPath := hSplayed.potential_le
  have hLeaf :=
    @potential_leaf_le Entry ⟨z, key, record⟩ frames
  have hNew :=
    @one_le_rank_build Entry ⟨z, key, record⟩ .left .nil .nil
  rw [build] at hNew
  rw [← rank_congr hSplayed.weight_eq] at hLeaf
  linarith

/- Removing splays the node found up the path to it. -/
theorem treeRemove_amortized
    {r : Ptr}
    (hTree : Represents tree t)
    (hPresent : key ∈ mapOf t)
    (hRun : treeRemove tree key = .ok (tree', r)) :
    ∃ t',
      Represents tree' t' ∧
        mapOf t' = (mapOf t).erase key ∧
          (searchFor key t []).1.length + potential t' + 2 ≤
            potential t + 3 * rank t := by
  rcases treeRemove_present hTree hPresent with
    ⟨tree₁, t', hRemove, hTree', hMap, a, left, right, left',
     right', hFound, hSplayed, hUprooted⟩
  rw [hRun] at hRemove
  cases hRemove
  refine ⟨t', hTree', hMap, ?_⟩
  have hWhole :
      rebuild (searchFor key t []).2
          (searchFor key t []).1 = t :=
    rebuild_descend
  rw [hFound] at hWhole
  have hPath := hSplayed.potential_le
  have hRank := rank_congr hSplayed.weight_eq
  rw [hWhole] at hPath hRank
  have hRest := @Uprooted.potential_le _ a _ _ _ hUprooted
  have hOld := @one_le_rank_build _ a .left left right
  rw [build] at hOld
  linarith

end Calls

------------------------------------------------------------
-- Runs of Edits
------------------------------------------------------------

/- A call that inserts or removes a node, below a limit. -/
def Edit
    (limit : Nat)
    (tree : Tree)
    (event : Call × Result)
    (tree' : Tree) :
    Prop :=
  Step tree event tree' ∧
    tree'.nodeCount ≠ tree.nodeCount ∧
      tree'.nodeCount ≤ limit

section Edits

variable {limit : Nat}
variable {tree tree' : Tree}
variable {t : BinaryTree Entry}

theorem Represents.rank_le
    (hTree : Represents tree t)
    (hSize : tree.nodeCount ≤ limit) :
    rank t ≤ Real.logb 2 (limit + 1) := by
  unfold rank
  rw [hTree.weight_eq]
  apply Real.logb_le_logb_of_le one_lt_two
  · positivity
  · exact_mod_cast Nat.succ_le_succ hSize

/- An edit is paid for by eight ranks of the largest tree. -/
theorem edit_amortized
    {event : Call × Result}
    (hTree : Represents tree t)
    (hSize : tree.nodeCount ≤ limit)
    (hEdit : Edit limit tree event tree') :
    ∃ t',
      Represents tree' t' ∧
        tree'.comparisonCount + 2 * potential t' ≤
          tree.comparisonCount + 2 * potential t +
            8 * Real.logb 2 (limit + 1) := by
  rcases hEdit with ⟨hStep, hChanged, hSize'⟩
  cases hStep with
  | @insert _ key record z isNew hFresh hRun =>
      by_cases hPresent : key ∈ mapOf t
      · rcases
            treeInsert_present hTree hPresent record (some z) with
          ⟨count, hInsert⟩
        rw [hInsert] at hRun
        cases hRun
        exact absurd rfl hChanged
      · rcases treeInsert_fresh hTree hPresent hFresh record with
          ⟨t₁, _, hInsert, _⟩
        have hNew := hRun
        rw [hInsert] at hNew
        cases hNew
        rcases
            treeInsert_amortized hTree hPresent hFresh hRun with
          ⟨t', hTree', _, hPath⟩
        have hRank := hTree'.rank_le hSize'
        refine ⟨t', hTree', ?_⟩
        rw [treeInsert_count hTree hPresent hRun]
        push_cast
        linarith
  | @find _ key r hRun =>
      rcases treeFind_spec hTree key with ⟨count, hFind⟩
      rw [hFind] at hRun
      cases hRun
      exact absurd rfl hChanged
  | @findNearest _ key r hRun =>
      rcases treeFindNearest_spec hTree key with
        ⟨count, found, hFind, _⟩
      rw [hFind] at hRun
      cases hRun
      exact absurd rfl hChanged
  | @remove _ key r hRun =>
      by_cases hPresent : key ∈ mapOf t
      · rcases treeRemove_amortized hTree hPresent hRun with
          ⟨t', hTree', _, hPath⟩
        have hRank := hTree.rank_le hSize
        have hNonneg := rank_nonneg t
        have hLength :
            (0 : ℝ) ≤ (searchFor key t []).1.length :=
          Nat.cast_nonneg _
        refine ⟨t', hTree', ?_⟩
        rw [treeRemove_count hTree hPresent hRun]
        push_cast
        linarith
      · rcases treeRemove_missing hTree hPresent with
          ⟨count, hRemove⟩
        rw [hRemove] at hRun
        cases hRun
        exact absurd rfl hChanged

/-
  m insertions and removals that find what they look for make
  at most 8 m log (n + 1) comparisons on trees of n nodes.
-/
theorem edits_compare_logarithmically
    {events : List (Call × Result)}
    {tree : Tree}
    (hRun : Run (Edit limit) treeNew events tree) :
    tree.comparisonCount ≤
      8 * events.length * Real.logb 2 (limit + 1) := by
  have hPaid :
      ∃ t,
        Represents tree t ∧ tree.nodeCount ≤ limit ∧
          tree.comparisonCount + 2 * potential t ≤
            8 * events.length * Real.logb 2 (limit + 1) := by
    refine hRun.history
      (fun events tree =>
        ∃ t,
          Represents tree t ∧ tree.nodeCount ≤ limit ∧
            tree.comparisonCount + 2 * potential t ≤
              8 * events.length * Real.logb 2 (limit + 1))
      ⟨.nil, treeNew_represents, Nat.zero_le _, ?_⟩ ?_
    · simp [treeNew, potential]
    · rintro events tree event tree' ⟨t, hTree, hSize, hPaid⟩
        hEdit
      rcases edit_amortized hTree hSize hEdit with
        ⟨t', hTree', hStep⟩
      refine ⟨t', hTree', hEdit.2.2, ?_⟩
      rw [List.length_append, List.length_singleton]
      push_cast
      linarith
  rcases hPaid with ⟨t, _, _, hPaid⟩
  have hNonneg := potential_nonneg t
  linarith

/- Two insertions and a removal in a tree of two nodes. -/
theorem edits_compare_logarithmically_three_calls :
    ∃ tree,
      Run (Edit 2) treeNew
          [(.insert 3 (some 30), .inserted true),
            (.insert 1 (some 10), .inserted true),
            (.remove 3, .record (some 30))] tree ∧
        (tree.comparisonCount : ℝ) ≤
          8 * (3 : Nat) * Real.logb 2 ((2 : Nat) + 1) := by
  have hOne :
      Run (Edit 2) treeNew _ _ :=
    Run.nil.snoc
      ⟨@Step.insert treeNew _ 3 (some 30) 0 true rfl rfl,
        by decide, by decide⟩
  have hTwo :=
    hOne.snoc
      (⟨@Step.insert _ _ 1 (some 10) 1 true rfl rfl,
        by decide, by decide⟩ : Edit 2 _ _ _)
  have hRun :=
    hTwo.snoc
      (⟨@Step.remove _ _ 3 (some 30) rfl, by decide,
        by decide⟩ : Edit 2 _ _ _)
  exact ⟨_, hRun, edits_compare_logarithmically hRun⟩

end Edits

end Splay

end CsappLabs
