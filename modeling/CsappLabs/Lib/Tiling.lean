import Mathlib.Algebra.BigOperators.Group.List.Basic
import Mathlib.Algebra.GroupWithZero.Nat
import Mathlib.Data.List.Nodup

/-
  Pieces of positive length laid end to end.

  A list of pieces with a length function covers an interval;
  a piece sits at the sum of the lengths before it. The
  lemmas say that an offset names at most one piece and that
  pieces at different offsets do not overlap.

  Key definitions include:
    * `Tiling.extent`
    * `Tiling.firstSplit`
    * `Tiling.placed`
    * `Tiling.locate`

  Key theorems include:
    * `Tiling.firstSplit_eq_some_iff`
    * `Tiling.mem_placed_iff`
    * `Tiling.apart_of_mem_placed`
    * `Tiling.locate_eq_some_iff`
-/

------------------------------------------------------------
-- Extents
------------------------------------------------------------

namespace Tiling

variable {α : Type}

/- The total length of a list of pieces. -/
def extent (length : α → Nat) (pieces : List α) : Nat :=
  (pieces.map length).sum

variable {length : α → Nat}

@[simp] theorem extent_nil :
    extent length [] = 0 := rfl

@[simp] theorem extent_cons
    (piece : α) (rest : List α) :
    extent length (piece :: rest) =
      length piece + extent length rest := by
  simp [extent]

@[simp] theorem extent_append
    (front back : List α) :
    extent length (front ++ back) =
      extent length front + extent length back := by
  simp [extent]

/- A piece is no longer than the list it is in. -/
theorem length_le_extent
    {piece : α} {pieces : List α}
    (hMember : piece ∈ pieces) :
    length piece ≤ extent length pieces := by
  rcases List.append_of_mem hMember with
    ⟨front, back, rfl⟩
  simp only [extent_append, extent_cons]
  omega

/- A tiling has no more pieces than units of length. -/
theorem count_le_extent
    (hPositive : ∀ p : α, 0 < length p)
    (pieces : List α) :
    pieces.length ≤ extent length pieces := by
  induction pieces with
  | nil => simp
  | cons piece rest ih =>
      have hPiece := hPositive piece
      simp only [List.length_cons, extent_cons]
      omega

------------------------------------------------------------
-- First Piece With A Property
------------------------------------------------------------

/- Split a list at its first piece that satisfies `test`. -/
def firstSplit (test : α → Bool) :
    List α → Option (List α × α × List α)
| [] => none
| piece :: rest =>
    if test piece then
      some ([], piece, rest)
    else
      (firstSplit test rest).map
        fun (front, found, back) =>
          (piece :: front, found, back)

variable {test : α → Bool}
variable {front back pieces : List α} {piece : α}

theorem firstSplit_eq_some_iff :
    firstSplit test pieces = some (front, piece, back) ↔
      pieces = front ++ piece :: back ∧
        test piece = true ∧
        ∀ other ∈ front, test other = false := by
  induction pieces generalizing front with
  | nil => simp [firstSplit]
  | cons head rest ih =>
      by_cases hTest : test head = true
      · rw [firstSplit, if_pos hTest]
        constructor
        · intro hSome
          cases hSome
          simp [hTest]
        · rintro ⟨hEq, hPiece, hFront⟩
          cases front with
          | nil =>
              cases hEq
              rfl
          | cons first front =>
              cases hEq
              simp [hTest] at hFront
      · rw [firstSplit, if_neg hTest]
        have hFalse : test head = false := by
          simpa using hTest
        constructor
        · intro hSome
          rcases Option.map_eq_some_iff.mp hSome with
            ⟨⟨front', found, back'⟩, hRest, hEq⟩
          cases hEq
          rcases ih.mp hRest with ⟨rfl, hPiece, hFront⟩
          exact ⟨rfl, hPiece, by simpa [hFalse] using hFront⟩
        · rintro ⟨hEq, hPiece, hFront⟩
          cases front with
          | nil =>
              cases hEq
              simp [hFalse] at hPiece
          | cons first front =>
              cases hEq
              have hRest :
                  firstSplit test
                      (front ++ piece :: back) =
                    some (front, piece, back) :=
                ih.mpr ⟨rfl, hPiece, fun other hOther =>
                  hFront other (by simp [hOther])⟩
              exact Option.map_eq_some_iff.mpr
                ⟨_, hRest, rfl⟩

theorem firstSplit_eq_none_iff :
    firstSplit test pieces = none ↔
      ∀ other ∈ pieces, test other = false := by
  induction pieces with
  | nil => simp [firstSplit]
  | cons head rest ih =>
      by_cases hTest : test head = true
      · simp [firstSplit, hTest]
      · simp [firstSplit, hTest, ih]

------------------------------------------------------------
-- Offsets
------------------------------------------------------------

/- The pieces with their start addresses, from `start`. -/
def placed (length : α → Nat) :
    Nat → List α → List (Nat × α)
| _, [] => []
| start, piece :: rest =>
    (start, piece) ::
      placed length (start + length piece) rest

variable {start address : Nat}

@[simp] theorem placed_nil :
    placed length start [] = [] := rfl

@[simp] theorem placed_cons
    (piece : α) (rest : List α) :
    placed length start (piece :: rest) =
      (start, piece) ::
        placed length (start + length piece) rest := rfl

@[simp] theorem placed_append
    (front back : List α) :
    placed length start (front ++ back) =
      placed length start front ++
        placed length (start + extent length front)
          back := by
  induction front generalizing start with
  | nil => simp
  | cons piece front ih =>
      simp [ih, Nat.add_assoc]

theorem map_snd_placed :
    (placed length start pieces).map Prod.snd = pieces := by
  induction pieces generalizing start with
  | nil => rfl
  | cons piece rest ih => simp [ih]

/- A piece is placed after everything in front of it. -/
theorem mem_placed_iff :
    (address, piece) ∈ placed length start pieces ↔
      ∃ front back,
        pieces = front ++ piece :: back ∧
          address = start + extent length front := by
  constructor
  · intro hMember
    induction pieces generalizing start with
    | nil => simp at hMember
    | cons head rest ih =>
        rcases List.mem_cons.mp hMember with hHead | hRest
        · cases hHead
          exact ⟨[], rest, rfl, rfl⟩
        · rcases ih hRest with
            ⟨front, back, rfl, rfl⟩
          refine ⟨head :: front, back, rfl, ?_⟩
          simp only [extent_cons]
          omega
  · rintro ⟨front, back, rfl, rfl⟩
    simp

/- A placed piece lies inside the tiled interval. -/
theorem bounds_of_mem_placed
    (hMember :
      (address, piece) ∈ placed length start pieces) :
    start ≤ address ∧
      address + length piece ≤
        start + extent length pieces := by
  rcases mem_placed_iff.mp hMember with
    ⟨front, back, rfl, rfl⟩
  simp only [extent_append, extent_cons]
  omega

/- Pieces at different addresses do not overlap. -/
theorem apart_of_mem_placed
    {address' : Nat} {piece' : α}
    (hLeft :
      (address, piece) ∈ placed length start pieces)
    (hRight :
      (address', piece') ∈ placed length start pieces)
    (hNe : address ≠ address') :
    address + length piece ≤ address' ∨
      address' + length piece' ≤ address := by
  induction pieces generalizing start with
  | nil => simp at hLeft
  | cons head rest ih =>
      rcases List.mem_cons.mp hLeft with hHead | hRest
      · cases hHead
        rcases List.mem_cons.mp hRight with hHead' | hRest'
        · cases hHead'
          exact absurd rfl hNe
        · have hBounds := bounds_of_mem_placed hRest'
          exact Or.inl hBounds.1
      · rcases List.mem_cons.mp hRight with hHead' | hRest'
        · cases hHead'
          have hBounds := bounds_of_mem_placed hRest
          exact Or.inr hBounds.1
        · exact ih hRest hRest'

/- Every address of the tiled interval is in some piece. -/
theorem exists_mem_placed
    (hLow : start ≤ address)
    (hHigh : address < start + extent length pieces) :
    ∃ entry ∈ placed length start pieces,
      entry.1 ≤ address ∧
        address < entry.1 + length entry.2 := by
  induction pieces generalizing start with
  | nil =>
      simp only [extent_nil] at hHigh
      omega
  | cons head rest ih =>
      by_cases hHead : address < start + length head
      · exact ⟨(start, head), by simp, hLow, hHead⟩
      · rw [extent_cons] at hHigh
        rcases @ih (start + length head) (by omega)
            (by omega) with
          ⟨entry, hMember, hEntry⟩
        exact ⟨entry, by simp [hMember], hEntry⟩

/- Each piece ends before the next ones start. -/
theorem pairwise_placed :
    (placed length start pieces).Pairwise
      fun left right =>
        left.1 + length left.2 ≤ right.1 := by
  induction pieces generalizing start with
  | nil => exact List.Pairwise.nil
  | cons head rest ih =>
      rw [placed_cons, List.pairwise_cons]
      refine ⟨fun other hOther => ?_, ih⟩
      exact (bounds_of_mem_placed hOther).1

/- Pieces of positive length start at different addresses. -/
theorem nodup_placed
    (hPositive : ∀ p : α, 0 < length p) :
    ((placed length start pieces).map Prod.fst).Nodup := by
  refine List.pairwise_map.mpr
    (pairwise_placed.imp fun {left right} hBefore => ?_)
  have hLeft := hPositive left.2
  omega

/- An address names one piece. -/
theorem eq_of_mem_placed
    {piece' : α}
    (hPositive : ∀ p : α, 0 < length p)
    (hLeft :
      (address, piece) ∈ placed length start pieces)
    (hRight :
      (address, piece') ∈ placed length start pieces) :
    piece = piece' := by
  have hEq :=
    List.inj_on_of_nodup_map (nodup_placed hPositive)
      hLeft hRight rfl
  exact congrArg Prod.snd hEq

/- Split a tiling at the piece that starts at `offset`. -/
def locate (length : α → Nat) :
    Nat → List α → Option (List α × α × List α)
| _, [] => none
| 0, piece :: rest => some ([], piece, rest)
| offset + 1, piece :: rest =>
    if length piece ≤ offset + 1 then
      (locate length (offset + 1 - length piece) rest).map
        fun (front, found, back) =>
          (piece :: front, found, back)
    else
      none

theorem locate_eq_some_iff
    (hPositive : ∀ p : α, 0 < length p)
    {offset : Nat} :
    locate length offset pieces =
        some (front, piece, back) ↔
      pieces = front ++ piece :: back ∧
        extent length front = offset := by
  induction pieces generalizing front offset with
  | nil => simp [locate]
  | cons head rest ih =>
      have hHead := hPositive head
      cases offset with
      | zero =>
          constructor
          · intro hSome
            cases hSome
            simp
          · rintro ⟨hEq, hOffset⟩
            cases front with
            | nil =>
                cases hEq
                rfl
            | cons first front =>
                have hFirst := hPositive first
                simp only [extent_cons] at hOffset
                omega
      | succ offset =>
          rw [locate]
          constructor
          · intro hSome
            split at hSome
            · rcases Option.map_eq_some_iff.mp hSome with
                ⟨⟨front', found, back'⟩, hRest, hEq⟩
              cases hEq
              rcases ih.mp hRest with ⟨rfl, hOffset⟩
              refine ⟨rfl, ?_⟩
              simp only [extent_cons]
              omega
            · cases hSome
          · rintro ⟨hEq, hOffset⟩
            cases front with
            | nil => simp at hOffset
            | cons first front =>
                cases hEq
                simp only [extent_cons] at hOffset
                rw [if_pos (by omega)]
                have hRest :
                    locate length
                        (offset + 1 - length head)
                        (front ++ piece :: back) =
                      some (front, piece, back) :=
                  ih.mpr ⟨rfl, by omega⟩
                exact Option.map_eq_some_iff.mpr
                  ⟨_, hRest, rfl⟩

end Tiling
