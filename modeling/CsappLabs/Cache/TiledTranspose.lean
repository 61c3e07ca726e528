import CsappLabs.Cache.Transpose

/-
  The tiled transposes of `trans.c` against the plain one.

  Each of them moves the cells of the matrix rounded up to
  whole tiles. When the tile size divides both dimensions
  these are the cells of the matrix, and otherwise some of
  them lie outside.

  Key definitions include:
    * `IsTranspose`
    * `LikePlain`
    * `Access.InRange`

  Key theorems include:
    * `tiled_moved`
    * `tiled_equal_plain`
    * `tiled_inRange_iff`
    * `validate_eq_one_iff`
-/

namespace CsappLabs

namespace Transpose

open Loop

variable {M N : Nat} {s t : State}

------------------------------------------------------------
-- Whole Transposes
------------------------------------------------------------

/- The cells above a row and left of a column. -/
def corner (rows cols : Nat) : Set (Nat × Nat) :=
  {cell | cell.1 < rows ∧ cell.2 < cols}

/- The cells of a transposed matrix, tile by tile. -/
theorem tiles_eq_corner
    {tile : Nat}
    (hTile : 0 < tile) :
    (⋃ iMov ∈ visited N tile, ⋃ jMov ∈ visited M tile,
      ⋃ iLocal ∈ visited tile 1,
        rowCells (iLocal + iMov) jMov tile) =
      corner (ceiling N tile) (ceiling M tile) := by
  ext ⟨i, j⟩
  simp only [Set.mem_iUnion, exists_prop]
  constructor
  · rintro ⟨iMov, hI, jMov, hJ, iLocal, hLocal, k, hK, hEq⟩
    cases hEq
    exact
      ⟨(mem_visited_tiles hTile).mp
          ⟨iMov, hI, iLocal, hLocal, rfl⟩,
        (mem_visited_tiles hTile).mp
          ⟨jMov, hJ, k, mem_visited_one.mpr hK, rfl⟩⟩
  · rintro ⟨hRow, hCol⟩
    rcases (mem_visited_tiles hTile).mpr hRow with
      ⟨iMov, hI, iLocal, hLocal, hRowEq⟩
    rcases (mem_visited_tiles hTile).mpr hCol with
      ⟨jMov, hJ, k, hK, hColEq⟩
    refine
      ⟨iMov, hI, jMov, hJ, iLocal, hLocal, k,
        mem_visited_one.mp hK, ?_⟩
    exact Prod.ext hRowEq hColEq

/- A row moved cell by cell. -/
theorem singletons_eq_rowCells (i jMov size : Nat) :
    (⋃ k ∈ visited size 1, {(i, k + jMov)}) =
      rowCells i jMov size := by
  ext cell
  simp only [Set.mem_iUnion, exists_prop, mem_visited_one,
    Set.mem_singleton_iff]
  exact Iff.rfl

/- A matrix moved row by row and cell by cell. -/
theorem rows_eq_corner :
    (⋃ i ∈ visited N 1, ⋃ j ∈ visited M 1, {(i, j)}) =
      corner N M := by
  ext ⟨i, j⟩
  simp only [Set.mem_iUnion, exists_prop, mem_visited_one,
    Set.mem_singleton_iff]
  constructor
  · rintro ⟨i', hRow, j', hCol, hEq⟩
    cases hEq
    exact ⟨hRow, hCol⟩
  · rintro ⟨hRow, hCol⟩
    exact ⟨i, hRow, j, hCol, rfl⟩

theorem plain_moved (M N : Nat) (s : State) :
    Moved (corner N M) s (trans M N s) := by
  rw [← rows_eq_corner]
  apply moved_footprint.forLoop
  intro i s _
  apply moved_footprint.forLoop
  intro j s _
  exact moved_tmp i j s

/-
  Any three loops over tiles and rows whose innermost body
  moves the cells of a row move the whole tiled corner.
-/
theorem tiled_moved
    {tile : Nat}
    {hTile : 0 < tile}
    {row : Nat → Nat → State → State}
    (hRow :
      ∀ i jMov s, Moved (rowCells i jMov tile) s (row i jMov s))
    (s : State) :
    Moved (corner (ceiling N tile) (ceiling M tile)) s
      (forLoop N tile hTile
        (fun iMov s =>
          forLoop M tile hTile
            (fun jMov s =>
              forLoop tile 1 Nat.one_pos
                (fun iLocal s => row (iLocal + iMov) jMov s)
                s)
            s)
        s) := by
  rw [← tiles_eq_corner hTile]
  apply moved_footprint.forLoop
  intro iMov s _
  apply moved_footprint.forLoop
  intro jMov s _
  apply moved_footprint.forLoop
  intro iLocal s _
  exact hRow (iLocal + iMov) jMov s

/- A row of a tile through `tmp`. -/
theorem row_moved (size i jMov : Nat) (s : State) :
    Moved (rowCells i jMov size) s
      (forLoop size 1 Nat.one_pos
        (fun jLocal s =>
          (s.loadTmp i (jLocal + jMov)).storeTmp
            (jLocal + jMov) i)
        s) := by
  rw [← singletons_eq_rowCells]
  apply moved_footprint.forLoop
  intro jLocal s _
  exact moved_tmp i (jLocal + jMov) s

theorem OptimizeM32_moved (M N : Nat) (s : State) :
    Moved (corner (ceiling N 8) (ceiling M 8)) s
      (OptimizeM32 M N s) :=
  tiled_moved (row_moved 8) s

theorem OptimizeM32_rowlocal_moved
    (M N : Nat)
    (s : State) :
    Moved (corner (ceiling N 8) (ceiling M 8)) s
      (OptimizeM32_rowlocal M N s) :=
  tiled_moved (copyRow_moved 8) s

theorem OptimizeM64_moved (M N : Nat) (s : State) :
    Moved (corner (ceiling N 4) (ceiling M 4)) s
      (OptimizeM64 M N s) :=
  tiled_moved (copyRow_moved 4) s

------------------------------------------------------------
-- Agreement With the Plain Transpose
------------------------------------------------------------

/- `B[j][i] = A[i][j]` for all cells of the matrices. -/
def IsTranspose
    (M N : Nat)
    (A B : Nat → Nat → Int) : Prop :=
  ∀ i j, i < N → j < M → B j i = A i j

/-
  A transpose function leaves `A` alone, fills `B` with its
  transpose, and leaves both as the plain functions do.
-/
structure LikePlain
    (f : Nat → Nat → State → State)
    (M N : Nat)
    (s : State) : Prop where
  source : (f M N s).A = s.A
  transposed : IsTranspose M N s.A (f M N s).B
  like_trans :
    (f M N s).A = (trans M N s).A ∧
      (f M N s).B = (trans M N s).B
  like_correctTrans :
    (f M N s).A = (correctTrans M N s).A ∧
      (f M N s).B = (correctTrans M N s).B

theorem Moved.isTranspose
    (hMoved : Moved (corner N M) s t) :
    IsTranspose M N s.A t.B :=
  fun i j hRow hCol => hMoved.moved i j ⟨hRow, hCol⟩

/- Two ways to move the same cells end in equal matrices. -/
theorem Moved.unique
    {cells : Set (Nat × Nat)}
    {t' : State}
    (hMoved : Moved cells s t)
    (hMoved' : Moved cells s t') :
    t.A = t'.A ∧ t.B = t'.B := by
  refine ⟨hMoved.source.trans hMoved'.source.symm, ?_⟩
  funext j i
  by_cases hCell : (i, j) ∈ cells
  · rw [hMoved.moved i j hCell, hMoved'.moved i j hCell]
  · rw [hMoved.kept i j hCell, hMoved'.kept i j hCell]

theorem Moved.likePlain
    {f : Nat → Nat → State → State}
    (hMoved : Moved (corner N M) s (f M N s)) :
    LikePlain f M N s where
  source := hMoved.source
  transposed := hMoved.isTranspose
  like_trans := hMoved.unique (plain_moved M N s)
  like_correctTrans := hMoved.unique (plain_moved M N s)

/-
  The tiled transposes do what the plain one does when their
  tiles fill the matrix.
-/
theorem tiled_equal_plain (M N : Nat) (s : State) :
    (8 ∣ M → 8 ∣ N →
      LikePlain OptimizeM32 M N s ∧
        LikePlain OptimizeM32_rowlocal M N s) ∧
    (4 ∣ M → 4 ∣ N → LikePlain OptimizeM64 M N s) := by
  constructor
  · intro hM hN
    have hRows := ceiling_of_dvd (by decide) hN
    have hCols := ceiling_of_dvd (by decide) hM
    have hPlain := OptimizeM32_moved M N s
    have hLocal := OptimizeM32_rowlocal_moved M N s
    rw [hRows, hCols] at hPlain hLocal
    exact ⟨hPlain.likePlain, hLocal.likePlain⟩
  · intro hM hN
    have hMoved := OptimizeM64_moved M N s
    rw [ceiling_of_dvd (by decide) hN,
      ceiling_of_dvd (by decide) hM] at hMoved
    exact hMoved.likePlain

/- A matrix with its places as elements, and a zero one. -/
def numbered : State where
  A := fun i j => 100 * i + j
  B := fun _ _ => 0
  tmp := 0
  tmp8 := fun _ => 0
  accesses := []

theorem tiled_equal_plain_16_24 :
    (LikePlain OptimizeM32 16 24 numbered ∧
      LikePlain OptimizeM32_rowlocal 16 24 numbered) ∧
    LikePlain OptimizeM64 12 20 numbered :=
  ⟨(tiled_equal_plain 16 24 numbered).1 ⟨2, rfl⟩ ⟨3, rfl⟩,
    (tiled_equal_plain 12 20 numbered).2 ⟨3, rfl⟩ ⟨5, rfl⟩⟩

/- The checker accepts `B` when it is the transpose of `A`. -/
theorem validate_eq_one_iff
    (M N : Nat)
    (A B : Nat → Nat → Int) :
    validate M N A B = 1 ↔ IsTranspose M N A B := by
  have hRef :=
    (plain_moved M N
      ⟨A, fun _ _ => 0, 0, fun _ => 0, []⟩).isTranspose
  have hAll :
      ((List.range M).all fun i =>
        (List.range N).all fun j =>
          B i j == (trans M N
            ⟨A, fun _ _ => 0, 0, fun _ => 0, []⟩).B i j) =
        true ↔ IsTranspose M N A B := by
    simp only [List.all_eq_true, List.mem_range, beq_iff_eq]
    constructor
    · intro hCells i j hRow hCol
      rw [hCells j hCol i hRow]
      exact hRef i j hRow hCol
    · intro hTransposed i hCol j hRow
      rw [hTransposed j i hRow hCol]
      exact (hRef j i hRow hCol).symm
  rw [← hAll]
  change (if _ then (1 : Int) else 0) = 1 ↔ _
  split
  · rename_i hYes
    exact iff_of_true rfl hYes
  · rename_i hNo
    exact iff_of_false (by decide) hNo

------------------------------------------------------------
-- Accesses Outside the Matrices
------------------------------------------------------------

/- The row and the column are those of a cell of the matrix. -/
def Access.InRange (M N : Nat) : Access → Prop
  | .readA r c => r < N ∧ c < M
  | .writeB c r => r < N ∧ c < M

instance (M N : Nat) (a : Access) :
    Decidable (a.InRange M N) := by
  cases a <;> unfold Access.InRange <;> infer_instance

/- A call on two matrices, with whatever the locals hold. -/
def enter
    (A B : Nat → Nat → Int)
    (tmp : Int)
    (tmp8 : Nat → Int) : State :=
  ⟨A, B, tmp, tmp8, []⟩

/- Every element access of a call is in range. -/
def StaysInside
    (f : Nat → Nat → State → State)
    (M N : Nat) : Prop :=
  ∀ A B tmp tmp8,
    ∀ a ∈ (f M N (enter A B tmp tmp8)).accesses,
      a.InRange M N

/- The accesses of a call are those of the cells it moves. -/
theorem Moved.mem_accesses
    {cells : Set (Nat × Nat)}
    {A B : Nat → Nat → Int}
    {tmp : Int}
    {tmp8 : Nat → Int}
    (hMoved : Moved cells (enter A B tmp tmp8) t)
    (a : Access) :
    a ∈ t.accesses ↔ a ∈ accessesOf cells := by
  have hMem := Set.ext_iff.mp hMoved.accessed a
  simpa [enter] using hMem

theorem inRange_of_mem_corner
    {a : Access}
    (hMem : a ∈ accessesOf (corner N M)) :
    a.InRange M N := by
  rcases hMem with ⟨i, j, hCell, rfl | rfl⟩
  · exact hCell
  · exact hCell

/- The plain scan stays inside matrices of every size. -/
theorem trans_staysInside (M N : Nat) :
    StaysInside trans M N := by
  intro A B tmp tmp8 a hMem
  rw [(plain_moved M N _).mem_accesses] at hMem
  exact inRange_of_mem_corner hMem

theorem transpose_submit_staysInside (M N : Nat) :
    StaysInside transpose_submit M N :=
  trans_staysInside M N

/-
  A function that moves whole tiles stays inside exactly
  when the tiles fill the matrices.
-/
theorem staysInside_iff
    {f : Nat → Nat → State → State}
    {tile : Nat}
    (hTile : 0 < tile)
    (hMoved :
      ∀ s, Moved (corner (ceiling N tile) (ceiling M tile)) s
        (f M N s))
    (hM : 0 < M)
    (hN : 0 < N) :
    StaysInside f M N ↔ tile ∣ M ∧ tile ∣ N := by
  have hRows : N ≤ ceiling N tile := le_ceiling hTile
  have hCols : M ≤ ceiling M tile := le_ceiling hTile
  constructor
  · intro hInside
    have hAt :
        ∀ i j, (i, j) ∈
            corner (ceiling N tile) (ceiling M tile) →
          i < N ∧ j < M := by
      intro i j hCell
      apply hInside (fun _ _ => 0) (fun _ _ => 0) 0
        (fun _ => 0) (.readA i j)
      rw [(hMoved _).mem_accesses]
      exact ⟨i, j, hCell, Or.inl rfl⟩
    constructor
    · -- The last cell of the first row is a column of `A`.
      have hLast :=
        hAt 0 (ceiling M tile - 1) ⟨by omega, by simp; omega⟩
      have hEq : ceiling M tile = M := by omega
      exact hEq ▸ dvd_ceiling
    · have hLast :=
        hAt (ceiling N tile - 1) 0 ⟨by simp; omega, by omega⟩
      have hEq : ceiling N tile = N := by omega
      exact hEq ▸ dvd_ceiling
  · rintro ⟨hDvdM, hDvdN⟩ A B tmp tmp8 a hMem
    rw [(hMoved _).mem_accesses, ceiling_of_dvd hTile hDvdM,
      ceiling_of_dvd hTile hDvdN] at hMem
    exact inRange_of_mem_corner hMem

/-
  The tiled transposes stay inside their matrices exactly
  when the tile size divides both dimensions.
-/
theorem tiled_inRange_iff
    (M N : Nat)
    (hM : 0 < M)
    (hN : 0 < N) :
    (StaysInside OptimizeM32 M N ↔ 8 ∣ M ∧ 8 ∣ N) ∧
    (StaysInside OptimizeM32_rowlocal M N ↔
      8 ∣ M ∧ 8 ∣ N) ∧
    (StaysInside OptimizeM64 M N ↔ 4 ∣ M ∧ 4 ∣ N) :=
  ⟨staysInside_iff (by decide) (OptimizeM32_moved M N) hM hN,
    staysInside_iff (by decide)
      (OptimizeM32_rowlocal_moved M N) hM hN,
    staysInside_iff (by decide) (OptimizeM64_moved M N) hM hN⟩

theorem tiled_inRange_iff_32_32 :
    StaysInside OptimizeM32 32 32 ∧
      StaysInside OptimizeM64 32 32 :=
  have hIff :=
    tiled_inRange_iff 32 32 (by decide) (by decide)
  ⟨hIff.1.mpr ⟨⟨4, rfl⟩, ⟨4, rfl⟩⟩,
    hIff.2.2.mpr ⟨⟨8, rfl⟩, ⟨8, rfl⟩⟩⟩

/-
  On the 61 x 67 run of the driver the last tile column
  ends at column 64.
-/
theorem tiled_leave_61_67 :
    ¬ StaysInside OptimizeM32 61 67 ∧
      ¬ StaysInside OptimizeM32_rowlocal 61 67 ∧
      ¬ StaysInside OptimizeM64 61 67 := by
  refine ⟨?_, ?_, ?_⟩
  · rw [staysInside_iff (by decide) (OptimizeM32_moved 61 67)
      (by decide) (by decide)]
    decide
  · rw [staysInside_iff (by decide)
      (OptimizeM32_rowlocal_moved 61 67)
      (by decide) (by decide)]
    decide
  · rw [staysInside_iff (by decide) (OptimizeM64_moved 61 67)
      (by decide) (by decide)]
    decide

end Transpose

end CsappLabs
