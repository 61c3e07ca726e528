import CsappLabs.Splay.Rotate

/-
  Only the search loops compare keys.

  Whatever rotates, links or splices leaves the comparison
  count of the tree as it was.

  Key definitions:
    * `LeavesCount`

  Key theorems:
    * `splay_count`
    * `insertUnder_count`
    * `unlink_count`
-/

------------------------------------------------------------
-- Calls that Compare Nothing
------------------------------------------------------------

namespace CsappLabs

namespace Splay

open TreePath (Side)

/- Where the call returns, the tree has this count. -/
def LeavesCount
    (count : Nat)
    (run : Except Stop Tree) :
    Prop :=
  ∀ tree, run = .ok tree → tree.comparisonCount = count

variable {count : Nat}
variable {tree : Tree}

theorem LeavesCount.ok
    (hCount : tree.comparisonCount = count) :
    LeavesCount count (.ok tree) := by
  intro tree' hRun
  cases hRun
  exact hCount

/- A read in front of a call. -/
theorem LeavesCount.read
    {β : Type}
    {found : Except Stop β}
    {next : β → Except Stop Tree}
    (hNext : ∀ b, LeavesCount count (next b)) :
    LeavesCount count (found >>= next) := by
  cases found with
  | error stop =>
      intro tree' hRun
      cases hRun
  | ok b => exact hNext b

/- One call after another. -/
theorem LeavesCount.bind
    {first : Except Stop Tree}
    {next : Tree → Except Stop Tree}
    (hFirst : LeavesCount count first)
    (hNext :
      ∀ tree, tree.comparisonCount = count →
        LeavesCount count (next tree)) :
    LeavesCount count (first >>= next) := by
  cases first with
  | error stop =>
      intro tree' hRun
      cases hRun
  | ok middle => exact hNext middle (hFirst middle rfl)

theorem LeavesCount.ite
    {p : Prop}
    [Decidable p]
    {run run' : Except Stop Tree}
    (hThen : LeavesCount count run)
    (hElse : LeavesCount count run') :
    LeavesCount count (if p then run else run') := by
  split_ifs
  · exact hThen
  · exact hElse

------------------------------------------------------------
-- Rotating and Splaying
------------------------------------------------------------

theorem modify_count
    {change : Node → Node}
    (x : Ptr)
    (hCount : tree.comparisonCount = count) :
    LeavesCount count (tree.modify x change) := by
  intro tree' hRun
  unfold Tree.modify at hRun
  split at hRun
  · cases hRun
  · split at hRun
    · cases hRun
    · cases hRun
      exact hCount

theorem setInParent_count
    (u v : Ptr)
    (hCount : tree.comparisonCount = count) :
    LeavesCount count (setInParent tree u v) := by
  unfold setInParent
  refine .read fun node => .ite (.ok hCount) ?_
  refine .read fun parent => .ite ?_ ?_
  · exact modify_count _ hCount
  · exact modify_count _ hCount

theorem adopt_count
    (v u : Ptr)
    (hCount : tree.comparisonCount = count) :
    LeavesCount count (adopt tree v u) :=
  .ite (.ok hCount) (modify_count v hCount)

theorem rotate_count
    (side : Side)
    (x : Ptr)
    (hCount : tree.comparisonCount = count) :
    LeavesCount count (rotate side tree x) := by
  unfold rotate
  refine .read fun node => .ite ?_ ?_
  · refine .read fun below => ?_
    refine (modify_count x hCount).bind fun tree hCount => ?_
    refine .read fun below => ?_
    refine (adopt_count _ x hCount).bind fun tree hCount => ?_
    refine .read fun node => ?_
    refine (modify_count _ hCount).bind fun tree hCount => ?_
    refine (setInParent_count x _ hCount).bind
      fun tree hCount => .ite ?_ (modify_count x hCount)
    refine (modify_count _ hCount).bind fun tree hCount => ?_
    exact modify_count x hCount
  · refine (setInParent_count x _ hCount).bind
      fun tree hCount => .ite ?_ (modify_count x hCount)
    refine (modify_count _ hCount).bind fun tree hCount => ?_
    exact modify_count x hCount

/- Two rotations, the second about x's new parent. -/
theorem rotate_twice_count
    (side side' : Side)
    (x y : Ptr)
    (hCount : tree.comparisonCount = count) :
    LeavesCount count (do
      let tree ← rotate side tree y
      rotate side' tree (← tree.get x).parent) := by
  refine (rotate_count side y hCount).bind
    fun tree hCount => .read fun node => ?_
  exact rotate_count side' _ hCount

theorem splayStep_count
    (x : Ptr)
    (hCount : tree.comparisonCount = count) :
    LeavesCount count (splayStep tree x) := by
  unfold splayStep
  refine .read fun node => .read fun parent => .ite ?_ ?_
  · refine .read fun parent => .ite ?_ ?_
    · exact rotate_count .right _ hCount
    · exact rotate_count .left _ hCount
  · refine .read fun parent => .read fun grand => .ite ?_ ?_
    · exact rotate_twice_count .right .right x _ hCount
    · refine .read fun parent => .read fun grand =>
        .ite ?_ ?_
      · exact rotate_twice_count .left .left x _ hCount
      · refine .read fun parent => .read fun grand =>
          .ite ?_ ?_
        · exact rotate_twice_count .right .left x _ hCount
        · exact rotate_twice_count .left .right x _ hCount

theorem splayLoop_count
    (x : Ptr)
    (fuel : Nat) :
    ∀ tree, tree.comparisonCount = count →
      LeavesCount count (splayLoop x fuel tree) := by
  induction fuel with
  | zero =>
      intro tree hCount tree' hRun
      cases hRun
  | succ fuel ih =>
      intro tree hCount
      unfold splayLoop
      refine .read fun node => .ite (.ok hCount) ?_
      exact (splayStep_count x hCount).bind ih

theorem splay_count
    (x : Ptr)
    (hCount : tree.comparisonCount = count) :
    LeavesCount count (splay tree x) :=
  splayLoop_count x _ tree hCount

------------------------------------------------------------
-- Linking and Unlinking
------------------------------------------------------------

theorem insertUnder_count
    (key : Int)
    (record p : Ptr)
    (z : Nat)
    (hCount : tree.comparisonCount = count) :
    LeavesCount count (insertUnder tree key record p z) := by
  have hLinked :
      ∀ tree, tree.comparisonCount = count →
        LeavesCount count (linkNew tree p (some z)) := by
    intro tree hCount
    unfold linkNew
    refine .ite (.ok hCount) (.read fun parent =>
      .read fun node => .ite ?_ ?_)
    · exact modify_count p hCount
    · exact modify_count p hCount
  unfold insertUnder
  refine LeavesCount.bind (hLinked _ ?_)
    fun tree hCount => ?_
  · exact hCount
  · refine (splay_count _ hCount).bind fun tree hCount => ?_
    exact .ok hCount

theorem replace_count
    (u v : Ptr)
    (hCount : tree.comparisonCount = count) :
    LeavesCount count (replace tree u v) := by
  unfold replace
  refine (setInParent_count u v hCount).bind
    fun tree hCount => .read fun node => ?_
  exact adopt_count v _ hCount

theorem spliceSuccessor_count
    (z : Ptr)
    (hCount : tree.comparisonCount = count) :
    LeavesCount count (spliceSuccessor tree z) := by
  have hTakes :
      ∀ y tree, tree.comparisonCount = count →
        LeavesCount count (do
          let tree ← replace tree z y
          let left := (← tree.get z).left
          let tree ← tree.modify y
            (fun node => node.setChild left .left)
          tree.modify (← tree.get y).left
            (fun node => node.setParent y)) := by
    intro y tree hCount
    refine (replace_count z y hCount).bind fun tree hCount =>
      .read fun node => ?_
    refine (modify_count y hCount).bind fun tree hCount =>
      .read fun node => ?_
    exact modify_count _ hCount
  unfold spliceSuccessor
  refine .read fun node => .read fun y => .read fun next =>
    .ite ?_ (hTakes y tree hCount)
  refine .read fun next => ?_
  refine (replace_count y _ hCount).bind fun tree hCount =>
    .read fun node => ?_
  refine (modify_count y hCount).bind fun tree hCount =>
    .read fun node => ?_
  refine (modify_count _ hCount).bind fun tree hCount => ?_
  exact hTakes y tree hCount

theorem unlink_count
    (z : Ptr)
    (hCount : tree.comparisonCount = count) :
    LeavesCount count (unlink tree z) := by
  unfold unlink
  refine (splay_count z hCount).bind fun tree hCount =>
    .read fun node => .ite ?_ ?_
  · refine .read fun node => ?_
    exact replace_count z _ hCount
  · refine .read fun node => .ite ?_ ?_
    · refine .read fun node => ?_
      exact replace_count z _ hCount
    · exact spliceSuccessor_count z hCount

end Splay

end CsappLabs
