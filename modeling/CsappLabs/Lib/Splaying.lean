import CsappLabs.Lib.TreePath
import Mathlib.Analysis.SpecialFunctions.Log.Base

/-
  The amortized cost of splaying.

  Splaying takes a node up its path, one frame or two frames
  at a time.  The potential of a tree is the sum of the ranks
  of its subtrees, where the rank is the logarithm of the
  number of values plus one.  A long path is paid for by the
  potential that splaying sets free.

  Key definitions include:
    * `Splaying.Splayed`
    * `Splaying.weight`, `Splaying.rank`
    * `Splaying.potential`
    * `Splaying.Uprooted`

  Key theorems include:
    * `Splaying.Splayed.potential_le`
    * `Splaying.potential_leaf_le`
    * `Splaying.Uprooted.potential_le`
-/

------------------------------------------------------------
-- Splaying
------------------------------------------------------------

namespace Splaying

open TreePath

variable {α : Type}

/-
  A subtree goes up a path to the root, two frames at a time
  where there are two.
-/
inductive Splayed :
    BinaryTree α → List (Frame α) → BinaryTree α → Prop
| top {t : BinaryTree α} :
    Splayed t [] t
| single {a : α} {frame : Frame α}
    {inner outer : BinaryTree α} :
    Splayed (build frame.side a inner outer) [frame]
      (build frame.side a inner
        (build frame.side frame.value outer frame.sibling))
| same {a : α} {frame frame' : Frame α}
    {frames : List (Frame α)}
    {inner outer t : BinaryTree α} :
    frame.side = frame'.side →
    Splayed
      (build frame.side a inner
        (build frame.side frame.value outer
          (build frame.side frame'.value frame.sibling
            frame'.sibling)))
      frames t →
    Splayed (build frame.side a inner outer)
      (frame :: frame' :: frames) t
| cross {a : α} {frame frame' : Frame α}
    {frames : List (Frame α)}
    {inner outer t : BinaryTree α} :
    frame'.side = frame.side.other →
    Splayed
      (build frame'.side a
        (build frame.side frame.value outer frame.sibling)
        (build frame'.side frame'.value inner
          frame'.sibling))
      frames t →
    Splayed (build frame.side a inner outer)
      (frame :: frame' :: frames) t

/- At the root splaying is over. -/
theorem Splayed.eq_of_nil
    {t t' : BinaryTree α}
    {frames : List (Frame α)}
    (hSplayed : Splayed t frames t')
    (hTop : frames = []) :
    t' = t := by
  cases hSplayed with
  | top => rfl
  | single => cases hTop
  | same => cases hTop
  | cross => cases hTop

/- One rotation of a node over its parent. -/
theorem inorder_up
    {a : α} {frame : Frame α}
    {inner outer : BinaryTree α} :
    inorder
        (build frame.side a inner
          (build frame.side frame.value outer
            frame.sibling)) =
      inorder
        (frame.plug (build frame.side a inner outer)) :=
  (inorder_rotate frame.side a frame.value inner outer
    frame.sibling).symm

/- Splaying keeps the order of the values. -/
theorem Splayed.inorder_eq
    {t t' : BinaryTree α}
    {frames : List (Frame α)}
    (hSplayed : Splayed t frames t') :
    inorder t' = inorder (rebuild t frames) := by
  induction hSplayed with
  | top => rfl
  | single => exact inorder_up
  | @same a frame frame' frames inner outer t hSide _ ih =>
      rw [ih]
      apply inorder_rebuild_congr
      calc
        inorder
            (build frame.side a inner
              (build frame.side frame.value outer
                (build frame.side frame'.value frame.sibling
                  frame'.sibling))) =
            inorder
              (build frame.side frame.value
                (build frame.side a inner outer)
                (build frame.side frame'.value frame.sibling
                  frame'.sibling)) :=
          (inorder_rotate _ _ _ _ _ _).symm
        _ = inorder
              (build frame.side frame'.value
                (build frame.side frame.value
                  (build frame.side a inner outer)
                  frame.sibling)
                frame'.sibling) :=
          (inorder_rotate _ _ _ _ _ _).symm
        _ = _ := by
          rw [Frame.plug, Frame.plug, hSide]
  | @cross a frame frame' frames inner outer t hSide _ ih =>
      rw [ih]
      apply inorder_rebuild_congr
      have hLower := @inorder_up _ a frame inner outer
      rw [← build_other, ← hSide] at hLower
      rw [inorder_up]
      exact @inorder_rebuild_congr _ _ [frame'] _ hLower

------------------------------------------------------------
-- Weights
------------------------------------------------------------

/- One more than the number of values. -/
def weight (t : BinaryTree α) : Nat :=
  (inorder t).length + 1

noncomputable def rank (t : BinaryTree α) : ℝ :=
  Real.logb 2 (weight t)

/- The ranks of all nodes. -/
noncomputable def potential : BinaryTree α → ℝ
  | .nil => 0
  | .node a left right =>
      potential left + potential right +
        rank (.node a left right)

section Weights

variable {a : α}
variable {side : Side}
variable {t t' inner outer : BinaryTree α}
variable {frame : Frame α}
variable {frames : List (Frame α)}

@[simp] theorem weight_nil :
    weight (.nil : BinaryTree α) = 1 := rfl

@[simp] theorem weight_build :
    weight (build side a inner outer) =
      weight inner + weight outer := by
  unfold weight
  rw [(inorder_build_perm side a inner outer).length_eq,
    List.length_cons, List.length_append]
  omega

@[simp] theorem weight_plug :
    weight (frame.plug t) = weight t + weight frame.sibling :=
  weight_build

theorem weight_pos (t : BinaryTree α) : 0 < weight t :=
  Nat.succ_pos _

theorem potential_build :
    potential (build side a inner outer) =
      potential inner + potential outer +
        rank (build side a inner outer) := by
  cases side with
  | left => rfl
  | right =>
      unfold build
      simp only [potential]
      rw [add_comm (potential outer)]

theorem rank_congr
    (hWeight : weight t = weight t') :
    rank t = rank t' := by
  unfold rank
  rw [hWeight]

theorem rank_mono
    (hWeight : weight t ≤ weight t') :
    rank t ≤ rank t' := by
  unfold rank
  apply Real.logb_le_logb_of_le one_lt_two
  · exact_mod_cast weight_pos t
  · exact_mod_cast hWeight

theorem rank_nonneg (t : BinaryTree α) : 0 ≤ rank t := by
  apply Real.logb_nonneg one_lt_two
  exact_mod_cast weight_pos t

theorem potential_nonneg (t : BinaryTree α) :
    0 ≤ potential t := by
  induction t with
  | nil => exact le_refl 0
  | node a left right ihLeft ihRight =>
      have hRank := rank_nonneg (.node a left right)
      rw [potential]
      linarith

theorem one_le_rank_build :
    1 ≤ rank (build side a inner outer) := by
  have hInner := weight_pos inner
  have hOuter := weight_pos outer
  have hTwo : 2 ≤ weight (build side a inner outer) := by
    rw [weight_build]
    omega
  unfold rank
  rw [Real.le_logb_iff_rpow_le one_lt_two
    (by exact_mod_cast weight_pos _), Real.rpow_one]
  exact_mod_cast hTwo

theorem weight_rebuild_congr
    (hWeight : weight t = weight t') :
    weight (rebuild t frames) =
      weight (rebuild t' frames) := by
  induction frames generalizing t t' with
  | nil => exact hWeight
  | cons frame frames ih =>
      apply ih
      rw [weight_plug, weight_plug, hWeight]

/- Above a subtree only its weight matters. -/
theorem potential_rebuild_congr
    (hWeight : weight t = weight t') :
    potential (rebuild t frames) - potential t =
      potential (rebuild t' frames) - potential t' := by
  induction frames generalizing t t' with
  | nil => simp
  | cons frame frames ih =>
      have hPlug :
          weight (frame.plug t) = weight (frame.plug t') := by
        rw [weight_plug, weight_plug, hWeight]
      have hRank := rank_congr hPlug
      have hRest := ih hPlug
      rw [Frame.plug] at hRank
      simp only [rebuild_cons, Frame.plug, potential_build]
        at hRank hRest ⊢
      linarith

end Weights

------------------------------------------------------------
-- The Cost of a Path
------------------------------------------------------------

section Cost

variable {t t' : BinaryTree α}
variable {frames : List (Frame α)}

/- Two parts of a whole have logarithms well below its own. -/
theorem logb_add_logb_le
    {x y z : ℝ}
    (hx : 0 < x)
    (hy : 0 < y)
    (hSum : x + y ≤ z) :
    Real.logb 2 x + Real.logb 2 y ≤
      2 * Real.logb 2 z - 2 := by
  have hz : 0 < z := by linarith
  have hProduct : 4 * (x * y) ≤ z * z := by
    nlinarith [sq_nonneg (x - y)]
  have hLog :
      Real.logb 2 (4 * (x * y)) ≤ Real.logb 2 (z * z) :=
    Real.logb_le_logb_of_le one_lt_two (by positivity)
      hProduct
  have hFour : Real.logb 2 4 = 2 := by
    rw [show (4 : ℝ) = 2 ^ (2 : ℝ) by norm_num,
      Real.logb_rpow two_pos (by norm_num)]
  rw [Real.logb_mul (by norm_num) (by positivity),
    Real.logb_mul hx.ne' hy.ne',
    Real.logb_mul hz.ne' hz.ne', hFour] at hLog
  linarith

theorem rank_add_rank_le
    {small other whole : BinaryTree α}
    (hSum : weight small + weight other ≤ weight whole) :
    rank small + rank other ≤ 2 * rank whole - 2 := by
  apply logb_add_logb_le
  · exact_mod_cast weight_pos small
  · exact_mod_cast weight_pos other
  · exact_mod_cast hSum

/- Splaying neither adds nor drops values. -/
theorem Splayed.weight_eq
    (hSplayed : Splayed t frames t') :
    weight t' = weight (rebuild t frames) := by
  induction hSplayed with
  | top => rfl
  | single =>
      simp only [rebuild_cons, rebuild_nil, weight_build,
        weight_plug]
      omega
  | same hSide _ ih =>
      rw [ih]
      apply weight_rebuild_congr
      simp only [weight_build, weight_plug]
      omega
  | cross hSide _ ih =>
      rw [ih]
      apply weight_rebuild_congr
      simp only [weight_build, weight_plug]
      omega

/- A rank is at most that of the tree around it. -/
theorem rank_le_plug
    {frame : Frame α} :
    rank t ≤ rank (frame.plug t) := by
  apply rank_mono
  rw [weight_plug]
  omega

/-
  Two frames on one side: both the node's old rank and the
  new rank of the upper frame fit under the whole.
-/
theorem round_same
    {a : α} {frame frame' : Frame α}
    {inner outer : BinaryTree α} :
    2 + potential
          (build frame.side a inner
            (build frame.side frame.value outer
              (build frame.side frame'.value frame.sibling
                frame'.sibling))) +
        3 * rank (build frame.side a inner outer) ≤
      potential
          (frame'.plug
            (frame.plug (build frame.side a inner outer))) +
        3 * rank
          (build frame.side a inner
            (build frame.side frame.value outer
              (build frame.side frame'.value frame.sibling
                frame'.sibling))) := by
  have hWhole :
      rank
          (build frame.side a inner
            (build frame.side frame.value outer
              (build frame.side frame'.value frame.sibling
                frame'.sibling))) =
        rank
          (frame'.plug
            (frame.plug (build frame.side a inner outer))) := by
    apply rank_congr
    simp only [weight_build, weight_plug]
    omega
  have hMiddle :
      rank
          (build frame.side frame.value outer
            (build frame.side frame'.value frame.sibling
              frame'.sibling)) ≤
        rank
          (build frame.side a inner
            (build frame.side frame.value outer
              (build frame.side frame'.value frame.sibling
                frame'.sibling))) := by
    apply rank_mono
    simp only [weight_build]
    omega
  have hParts :
      rank (build frame.side a inner outer) +
          rank
            (build frame.side frame'.value frame.sibling
              frame'.sibling) ≤
        2 * rank
            (build frame.side a inner
              (build frame.side frame.value outer
                (build frame.side frame'.value frame.sibling
                  frame'.sibling))) -
          2 := by
    apply rank_add_rank_le
    simp only [weight_build]
    omega
  have hUp :=
    @rank_le_plug _ (build frame.side a inner outer) frame
  unfold Frame.plug at hWhole hUp ⊢
  simp only [potential_build] at hWhole ⊢
  linarith

/-
  Two frames on different sides: both go below the node, and
  their new ranks fit under the whole.
-/
theorem round_cross
    {a : α} {frame frame' : Frame α}
    {inner outer : BinaryTree α} :
    2 + potential
          (build frame'.side a
            (build frame.side frame.value outer
              frame.sibling)
            (build frame'.side frame'.value inner
              frame'.sibling)) +
        3 * rank (build frame.side a inner outer) ≤
      potential
          (frame'.plug
            (frame.plug (build frame.side a inner outer))) +
        3 * rank
          (build frame'.side a
            (build frame.side frame.value outer
              frame.sibling)
            (build frame'.side frame'.value inner
              frame'.sibling)) := by
  have hWhole :
      rank
          (build frame'.side a
            (build frame.side frame.value outer
              frame.sibling)
            (build frame'.side frame'.value inner
              frame'.sibling)) =
        rank
          (frame'.plug
            (frame.plug (build frame.side a inner outer))) := by
    apply rank_congr
    simp only [weight_build, weight_plug]
    omega
  have hParts :
      rank
            (build frame.side frame.value outer
              frame.sibling) +
          rank
            (build frame'.side frame'.value inner
              frame'.sibling) ≤
        2 * rank
            (build frame'.side a
              (build frame.side frame.value outer
                frame.sibling)
              (build frame'.side frame'.value inner
                frame'.sibling)) -
          2 := by
    apply rank_add_rank_le
    simp only [weight_build]
    omega
  have hUp :=
    @rank_le_plug _ (build frame.side a inner outer) frame
  have hUp' :=
    @rank_le_plug _
      (frame.plug (build frame.side a inner outer)) frame'
  unfold Frame.plug at hWhole hUp hUp' ⊢
  simp only [potential_build] at hWhole ⊢
  linarith

/-
  The length of the path is paid for by the drop of the
  potential, up to three times the gain in rank and one.
-/
theorem Splayed.potential_le
    (hSplayed : Splayed t frames t') :
    frames.length + potential t' + 3 * rank t ≤
      potential (rebuild t frames) + 3 * rank t' + 1 := by
  induction hSplayed with
  | top => simp
  | @single a frame inner outer =>
      have hWhole :
          rank
              (build frame.side a inner
                (build frame.side frame.value outer
                  frame.sibling)) =
            rank
              (frame.plug
                (build frame.side a inner outer)) := by
        apply rank_congr
        simp only [weight_build, weight_plug]
        omega
      have hLower :
          rank
              (build frame.side frame.value outer
                frame.sibling) ≤
            rank
              (build frame.side a inner
                (build frame.side frame.value outer
                  frame.sibling)) := by
        apply rank_mono
        simp only [weight_build]
        omega
      have hUp :=
        @rank_le_plug _ (build frame.side a inner outer)
          frame
      unfold Frame.plug at hWhole hUp
      simp only [rebuild_cons, rebuild_nil, Frame.plug,
        potential_build, List.length_cons, List.length_nil]
        at hWhole ⊢
      push_cast
      linarith
  | @same a frame frame' frames inner outer t hSide hRest ih =>
      have hRound :=
        @round_same _ a frame frame' inner outer
      have hAbove :=
        @potential_rebuild_congr _
          (build frame.side a inner
            (build frame.side frame.value outer
              (build frame.side frame'.value frame.sibling
                frame'.sibling)))
          (frame'.plug
            (frame.plug (build frame.side a inner outer)))
          frames
          (by simp only [weight_build, weight_plug]; omega)
      simp only [rebuild_cons, List.length_cons]
      push_cast
      linarith
  | @cross a frame frame' frames inner outer t hSide hRest ih =>
      have hRound :=
        @round_cross _ a frame frame' inner outer
      have hAbove :=
        @potential_rebuild_congr _
          (build frame'.side a
            (build frame.side frame.value outer
              frame.sibling)
            (build frame'.side frame'.value inner
              frame'.sibling))
          (frame'.plug
            (frame.plug (build frame.side a inner outer)))
          frames
          (by simp only [weight_build, weight_plug]; omega)
      simp only [rebuild_cons, List.length_cons]
      push_cast
      linarith

end Cost

------------------------------------------------------------
-- Trees That Grow and Shrink
------------------------------------------------------------

section Changes

variable {a : α}
variable {t t' left right : BinaryTree α}
variable {frames : List (Frame α)}

/- A subtree that is one value heavier. -/
theorem potential_grow
    (hWeight : weight t' = weight t + 1) :
    potential (rebuild t' frames) + rank t' ≤
      potential (rebuild t frames) +
        (potential t' - potential t) +
          rank (rebuild t' frames) := by
  induction frames generalizing t t' with
  | nil =>
      simp only [rebuild_nil]
      linarith
  | cons frame frames ih =>
      have hPlug :
          weight (frame.plug t') =
            weight (frame.plug t) + 1 := by
        rw [weight_plug, weight_plug, hWeight]
        omega
      have hRest := ih hPlug
      have hRank : rank t' ≤ rank (frame.plug t) := by
        apply rank_mono
        have hSibling := weight_pos frame.sibling
        rw [weight_plug, hWeight]
        omega
      unfold Frame.plug at hRest hRank
      simp only [rebuild_cons, Frame.plug, potential_build]
        at hRest ⊢
      linarith

/- A new leaf below a path. -/
theorem potential_leaf_le :
    potential (rebuild (.node a .nil .nil) frames) ≤
      potential (rebuild .nil frames) +
        rank (rebuild (.node a .nil .nil) frames) := by
  have hGrow :=
    @potential_grow α .nil (.node a .nil .nil) frames rfl
  simp only [potential] at hGrow
  linarith

theorem weight_shrink
    (hWeight : weight t' ≤ weight t) :
    weight (rebuild t' frames) ≤
      weight (rebuild t frames) := by
  induction frames generalizing t t' with
  | nil => exact hWeight
  | cons frame frames ih =>
      apply ih
      rw [weight_plug, weight_plug]
      omega

/- A subtree that loses weight and potential. -/
theorem potential_shrink
    (hWeight : weight t' ≤ weight t)
    (hPotential : potential t' ≤ potential t) :
    potential (rebuild t' frames) ≤
      potential (rebuild t frames) := by
  induction frames generalizing t t' with
  | nil => exact hPotential
  | cons frame frames ih =>
      have hPlug :
          weight (frame.plug t') ≤
            weight (frame.plug t) := by
        rw [weight_plug, weight_plug]
        omega
      apply ih hPlug
      have hRank := rank_mono hPlug
      unfold Frame.plug at hRank ⊢
      rw [potential_build, potential_build]
      linarith

/- A child's potential is at most its tree's. -/
theorem potential_child_le
    {side : Side}
    {inner outer : BinaryTree α} :
    potential inner ≤
      potential (build side a inner outer) := by
  have hOuter := potential_nonneg outer
  have hRank := rank_nonneg (build side a inner outer)
  rw [potential_build]
  linarith

end Changes

------------------------------------------------------------
-- A Root Taken Away
------------------------------------------------------------

/-
  The tree without its root: a lone child, or the two children
  below the leftmost value of the right one.
-/
inductive Uprooted :
    BinaryTree α → BinaryTree α → BinaryTree α → Prop
| right {right : BinaryTree α} :
    Uprooted .nil right right
| left {left : BinaryTree α} :
    Uprooted left .nil left
| successor {b : α} {left right : BinaryTree α}
    {frames : List (Frame α)} :
    (∀ frame ∈ frames, frame.side = .left) →
    Uprooted left (rebuild (.node b .nil right) frames)
      (.node b left (rebuild right frames))

theorem Uprooted.inorder_eq
    {left right t : BinaryTree α}
    (hUprooted : Uprooted left right t) :
    inorder t = inorder left ++ inorder right := by
  cases hUprooted with
  | right => rfl
  | left => simp
  | successor hSides =>
      simp [inorder_rebuild, before_of_left hSides]

/- Taking the root away never adds potential. -/
theorem Uprooted.potential_le
    {a : α}
    {left right t : BinaryTree α}
    (hUprooted : Uprooted left right t) :
    potential t ≤ potential (.node a left right) := by
  cases hUprooted with
  | right => exact @potential_child_le _ a .right _ _
  | left => exact @potential_child_le _ a .left _ _
  | @successor b _ right frames _ =>
      have hWeight :
          weight right ≤ weight (.node b .nil right) := by
        have hBuild :=
          @weight_build _ b .right right .nil
        change weight (.node b .nil right) = _ at hBuild
        omega
      have hUp :=
        @weight_shrink _ (.node b .nil right) right frames
          hWeight
      have hBelow :=
        @potential_shrink _ (.node b .nil right) right frames
          hWeight (@potential_child_le _ b .right _ _)
      have hRoot :
          rank (.node b left (rebuild right frames)) ≤
            rank
              (.node a left
                (rebuild (.node b .nil right) frames)) := by
        apply rank_mono
        change weight (build .left b _ _) ≤
          weight (build .left a _ _)
        rw [weight_build, weight_build]
        omega
      simp only [potential]
      linarith

end Splaying
