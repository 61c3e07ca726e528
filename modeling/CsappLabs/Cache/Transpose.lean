import CsappLabs.Lib.Loop
import Mathlib.Data.Set.Insert

/-
  The matrix transposes of `trans.c` and the check of
  `tracegen.c` that judges them.

  A function gets `int A[N][M]` and `int B[M][N]`, two
  separate matrices. They are read and written by row and
  column here, and every element access is recorded, in
  range or not. Loop indices are natural numbers.

  Key definitions include:
    * `OptimizeM32`, `OptimizeM32_rowlocal`, `OptimizeM64`
    * `trans`, `correctTrans`, `validate`
    * `Moved`

  Key theorems include:
    * `Moved.trans_moved`
    * `moved_tmp`
    * `copyRow_moved`
-/

------------------------------------------------------------
-- Matrices
------------------------------------------------------------

namespace CsappLabs

namespace Transpose

open Loop

/- An element access: `A[r][c]` is read or `B[r][c]` written. -/
inductive Access where
  | readA (r c : Nat)
  | writeB (r c : Nat)
deriving DecidableEq, Repr

/- The matrices, the locals and the accesses made so far. -/
structure State where
  A : Nat → Nat → Int
  B : Nat → Nat → Int
  tmp : Int
  tmp8 : Nat → Int
  accesses : List Access

variable {M N : Nat} {s t u : State}

/- `B[r][c] = v` on the contents of a matrix. -/
def setCell
    (B : Nat → Nat → Int)
    (r c : Nat)
    (v : Int) :
    Nat → Nat → Int :=
  fun r' c' => if r' = r ∧ c' = c then v else B r' c'

/- `tmp = A[r][c]` -/
def State.loadTmp (s : State) (r c : Nat) : State :=
  { s with
    tmp := s.A r c
    accesses := s.accesses ++ [.readA r c] }

/- `B[r][c] = tmp` -/
def State.storeTmp (s : State) (r c : Nat) : State :=
  { s with
    B := setCell s.B r c s.tmp
    accesses := s.accesses ++ [.writeB r c] }

/- `tmp8[k] = A[r][c]` -/
def State.loadTmp8 (s : State) (k r c : Nat) : State :=
  { s with
    tmp8 := Function.update s.tmp8 k (s.A r c)
    accesses := s.accesses ++ [.readA r c] }

/- `B[r][c] = tmp8[k]` -/
def State.storeTmp8 (s : State) (k r c : Nat) : State :=
  { s with
    B := setCell s.B r c (s.tmp8 k)
    accesses := s.accesses ++ [.writeB r c] }

------------------------------------------------------------
-- The Functions of trans.c
------------------------------------------------------------

def M32BLOCKSIZE : Nat := 8

def M64BLOCKSIZE : Nat := 4

def trans (M N : Nat) (s : State) : State :=
  forLoop N 1 Nat.one_pos
    (fun i s =>
      forLoop M 1 Nat.one_pos
        (fun j s => (s.loadTmp i j).storeTmp j i)
        s)
    s

/- `transpose_submit` is the plain scan. -/
def transpose_submit (M N : Nat) (s : State) : State :=
  trans M N s

def OptimizeM32 (M N : Nat) (s : State) : State :=
  forLoop N 8 (by decide)
    (fun iMov s =>
      forLoop M 8 (by decide)
        (fun jMov s =>
          forLoop M32BLOCKSIZE 1 Nat.one_pos
            (fun iLocal s =>
              forLoop M32BLOCKSIZE 1 Nat.one_pos
                (fun jLocal s =>
                  (s.loadTmp (iLocal + iMov)
                    (jLocal + jMov)).storeTmp
                      (jLocal + jMov) (iLocal + iMov))
                s)
            s)
        s)
    s

/-
  A row of a tile through `tmp8`: the two inner loops that
  `OptimizeM32_rowlocal` and `OptimizeM64` have in common.
-/
def copyRow
    (size i jMov : Nat)
    (s : State) : State :=
  forLoop size 1 Nat.one_pos
    (fun jLocal s =>
      s.storeTmp8 jLocal (jLocal + jMov) i)
    (forLoop size 1 Nat.one_pos
      (fun jLocal s =>
        s.loadTmp8 jLocal i (jLocal + jMov))
      s)

def OptimizeM32_rowlocal
    (M N : Nat)
    (s : State) : State :=
  forLoop N 8 (by decide)
    (fun iMov s =>
      forLoop M 8 (by decide)
        (fun jMov s =>
          forLoop M32BLOCKSIZE 1 Nat.one_pos
            (fun iLocal s =>
              copyRow M32BLOCKSIZE (iLocal + iMov) jMov s)
            s)
        s)
    s

def OptimizeM64 (M N : Nat) (s : State) : State :=
  forLoop N M64BLOCKSIZE (by decide)
    (fun iMov s =>
      forLoop M M64BLOCKSIZE (by decide)
        (fun jMov s =>
          forLoop M64BLOCKSIZE 1 Nat.one_pos
            (fun iLocal s =>
              copyRow M64BLOCKSIZE (iLocal + iMov) jMov s)
            s)
        s)
    s

/- The reference transpose of `cachelab.c`. -/
def correctTrans (M N : Nat) (s : State) : State :=
  forLoop N 1 Nat.one_pos
    (fun i s =>
      forLoop M 1 Nat.one_pos
        (fun j s => (s.loadTmp i j).storeTmp j i)
        s)
    s

/-
  `validate`: `C` starts as zeros, the reference transpose
  fills it from `A`, and `B` must agree with it cell by cell.
-/
def validate
    (M N : Nat)
    (A B : Nat → Nat → Int) : Int :=
  let C :=
    (correctTrans M N ⟨A, fun _ _ => 0, 0, fun _ => 0, []⟩).B
  if (List.range M).all fun i =>
      (List.range N).all fun j => B i j == C i j
  then 1
  else 0

------------------------------------------------------------
-- What a Piece of a Transpose Does
------------------------------------------------------------

/- The accesses that move a set of cells `(i, j)` of `A`. -/
def accessesOf (cells : Set (Nat × Nat)) : Set Access :=
  {a | ∃ i j, (i, j) ∈ cells ∧
    (a = .readA i j ∨ a = .writeB j i)}

/-
  The cells of a set were moved from `A` to their transposed
  places in `B`, and nothing else was done to the matrices.
-/
structure Moved
    (cells : Set (Nat × Nat))
    (s t : State) : Prop where
  source : t.A = s.A
  moved : ∀ i j, (i, j) ∈ cells → t.B j i = s.A i j
  kept : ∀ i j, (i, j) ∉ cells → t.B j i = s.B j i
  accessed :
    {a | a ∈ t.accesses} =
      {a | a ∈ s.accesses} ∪ accessesOf cells

@[simp] theorem accessesOf_empty :
    accessesOf ∅ = ∅ := by
  simp [accessesOf]

theorem accessesOf_union (c d : Set (Nat × Nat)) :
    accessesOf (c ∪ d) = accessesOf c ∪ accessesOf d := by
  ext a
  constructor
  · rintro ⟨i, j, hCell | hCell, hAccess⟩
    · exact Or.inl ⟨i, j, hCell, hAccess⟩
    · exact Or.inr ⟨i, j, hCell, hAccess⟩
  · rintro (⟨i, j, hCell, hAccess⟩ | ⟨i, j, hCell, hAccess⟩)
    · exact ⟨i, j, Or.inl hCell, hAccess⟩
    · exact ⟨i, j, Or.inr hCell, hAccess⟩

theorem Moved.refl (s : State) : Moved ∅ s s where
  source := rfl
  moved := fun i j hCell => absurd hCell (Set.notMem_empty _)
  kept := fun i j _ => rfl
  accessed := by simp

/- Moving one set and then another moves both. -/
theorem Moved.trans_moved
    {c d : Set (Nat × Nat)}
    (hFirst : Moved c s t)
    (hSecond : Moved d t u) :
    Moved (c ∪ d) s u where
  source := hSecond.source.trans hFirst.source
  moved := by
    intro i j hCell
    by_cases hD : (i, j) ∈ d
    · rw [hSecond.moved i j hD, hFirst.source]
    · rw [hSecond.kept i j hD]
      exact hFirst.moved i j (hCell.resolve_right hD)
  kept := by
    intro i j hCell
    have hNone := not_or.mp hCell
    rw [hSecond.kept i j hNone.2, hFirst.kept i j hNone.1]
  accessed := by
    rw [hSecond.accessed, hFirst.accessed,
      accessesOf_union, Set.union_assoc]

theorem moved_footprint : Footprint Moved where
  refl := Moved.refl
  trans := fun _ _ _ _ _ => Moved.trans_moved

theorem setCell_self (B : Nat → Nat → Int) (r c : Nat) (v : Int) :
    setCell B r c v r c = v := by
  simp [setCell]

theorem setCell_of_ne
    (B : Nat → Nat → Int)
    {r c r' c' : Nat}
    (v : Int)
    (hNe : r' = r → c' ≠ c) :
    setCell B r c v r' c' = B r' c' := by
  unfold setCell
  rw [if_neg]
  rintro ⟨hRow, hCol⟩
  exact hNe hRow hCol

/- The body of the plain scan moves one cell. -/
theorem moved_tmp (i j : Nat) (s : State) :
    Moved {(i, j)} s ((s.loadTmp i j).storeTmp j i) where
  source := rfl
  moved := by
    intro i' j' hCell
    cases hCell
    exact setCell_self s.B j i (s.A i j)
  kept := by
    intro i' j' hCell
    apply setCell_of_ne
    rintro rfl rfl
    exact hCell rfl
  accessed := by
    ext a
    simp [accessesOf, State.loadTmp, State.storeTmp]

------------------------------------------------------------
-- A Row Through the Buffer
------------------------------------------------------------

/-
  The buffer holds a row of the tile and nothing else has
  been done than reading it.
-/
structure Buffered
    (i jMov size : Nat)
    (s t : State) : Prop where
  source : t.A = s.A
  kept : t.B = s.B
  buffer : ∀ k, k < size → t.tmp8 k = s.A i (k + jMov)
  accessed :
    {a | a ∈ t.accesses} =
      {a | a ∈ s.accesses} ∪
        {a | ∃ k, k < size ∧ a = .readA i (k + jMov)}

/- One more round of a loop makes one more access. -/
theorem accessed_next
    {before now : List Access}
    {k : Nat}
    (access : Nat → Access)
    (hSoFar :
      {a | a ∈ now} =
        {a | a ∈ before} ∪ {a | ∃ k', k' < k ∧ a = access k'}) :
    {a | a ∈ now ++ [access k]} =
      {a | a ∈ before} ∪
        {a | ∃ k', k' < k + 1 ∧ a = access k'} := by
  ext a
  have hMem := Set.ext_iff.mp hSoFar a
  simp only [Set.mem_ofPred_eq, Set.mem_union] at hMem ⊢
  rw [List.mem_append, hMem, List.mem_singleton, or_assoc]
  apply or_congr Iff.rfl
  constructor
  · rintro (⟨k', hLt, hEq⟩ | hEq)
    · exact ⟨k', by omega, hEq⟩
    · exact ⟨k, by omega, hEq⟩
  · rintro ⟨k', hLt, hEq⟩
    by_cases hLast : k' = k
    · exact Or.inr (hLast ▸ hEq)
    · exact Or.inl ⟨k', by omega, hEq⟩

/- The first loop of a row fills the buffer. -/
theorem buffered_row (size i jMov : Nat) (s : State) :
    Buffered i jMov size s
      (forLoop size 1 Nat.one_pos
        (fun jLocal s => s.loadTmp8 jLocal i (jLocal + jMov))
        s) := by
  have hLoop :=
    @forLoop_rule _ size 1 Nat.one_pos
      (fun jLocal s => s.loadTmp8 jLocal i (jLocal + jMov)) s
      (fun k t => Buffered i jMov k s t)
      { source := rfl
        kept := rfl
        buffer := fun k hLt => absurd hLt (Nat.not_lt_zero k)
        accessed := by simp }
      (fun k t _ hSoFar =>
        { source := hSoFar.source
          kept := hSoFar.kept
          buffer := by
            intro k' hLt
            change Function.update t.tmp8 k _ k' = _
            by_cases hEq : k' = k
            · rw [hEq, Function.update_self, hSoFar.source]
            · rw [Function.update_of_ne hEq]
              exact hSoFar.buffer k' (by omega)
          accessed :=
            accessed_next (fun k => .readA i (k + jMov))
              hSoFar.accessed })
  rwa [ceiling_of_dvd Nat.one_pos (Nat.one_dvd size)]
    at hLoop

/- The cells of one row of a tile. -/
def rowCells (i jMov size : Nat) : Set (Nat × Nat) :=
  {cell | ∃ k, k < size ∧ cell = (i, k + jMov)}

/- The row was written from the buffer to its column. -/
structure Written
    (i jMov size : Nat)
    (s t : State) : Prop where
  source : t.A = s.A
  buffer : t.tmp8 = s.tmp8
  moved :
    ∀ k, k < size → t.B (k + jMov) i = s.tmp8 k
  kept :
    ∀ i' j', (i', j') ∉ rowCells i jMov size →
      t.B j' i' = s.B j' i'
  accessed :
    {a | a ∈ t.accesses} =
      {a | a ∈ s.accesses} ∪
        {a | ∃ k, k < size ∧ a = .writeB (k + jMov) i}

/- The second loop of a row empties the buffer. -/
theorem written_row (size i jMov : Nat) (s : State) :
    Written i jMov size s
      (forLoop size 1 Nat.one_pos
        (fun jLocal s => s.storeTmp8 jLocal (jLocal + jMov) i)
        s) := by
  have hLoop :=
    @forLoop_rule _ size 1 Nat.one_pos
      (fun jLocal s => s.storeTmp8 jLocal (jLocal + jMov) i) s
      (fun k t => Written i jMov k s t)
      { source := rfl
        buffer := rfl
        moved := fun k hLt => absurd hLt (Nat.not_lt_zero k)
        kept := fun _ _ _ => rfl
        accessed := by simp }
      (fun k t _ hSoFar =>
        { source := hSoFar.source
          buffer := hSoFar.buffer
          moved := by
            intro k' hLt
            change setCell t.B (k + jMov) i _ _ _ = _
            by_cases hEq : k' = k
            · rw [hEq, setCell_self, hSoFar.buffer]
            · rw [setCell_of_ne t.B _ (fun hRow => by omega)]
              exact hSoFar.moved k' (by omega)
          kept := by
            intro i' j' hCell
            change setCell t.B (k + jMov) i _ _ _ = _
            rw [setCell_of_ne]
            · apply hSoFar.kept
              rintro ⟨k', hLt, hEq⟩
              exact hCell ⟨k', by omega, hEq⟩
            · rintro rfl rfl
              exact hCell ⟨k, by omega, rfl⟩
          accessed :=
            accessed_next (fun k => .writeB (k + jMov) i)
              hSoFar.accessed })
  rwa [ceiling_of_dvd Nat.one_pos (Nat.one_dvd size)]
    at hLoop

theorem accessesOf_rowCells (i jMov size : Nat) :
    accessesOf (rowCells i jMov size) =
      {a | ∃ k, k < size ∧ a = .readA i (k + jMov)} ∪
        {a | ∃ k, k < size ∧ a = .writeB (k + jMov) i} := by
  ext a
  constructor
  · rintro ⟨i', j', ⟨k, hLt, hEq⟩, hAccess⟩
    cases hEq
    rcases hAccess with hRead | hWrite
    · exact Or.inl ⟨k, hLt, hRead⟩
    · exact Or.inr ⟨k, hLt, hWrite⟩
  · rintro (⟨k, hLt, hEq⟩ | ⟨k, hLt, hEq⟩)
    · exact ⟨i, k + jMov, ⟨k, hLt, rfl⟩, Or.inl hEq⟩
    · exact ⟨i, k + jMov, ⟨k, hLt, rfl⟩, Or.inr hEq⟩

/- Both loops together move the cells of the row. -/
theorem copyRow_moved (size i jMov : Nat) (s : State) :
    Moved (rowCells i jMov size) s
      (copyRow size i jMov s) := by
  have hRead := buffered_row size i jMov s
  have hWrite := written_row size i jMov
    (forLoop size 1 Nat.one_pos
      (fun jLocal s => s.loadTmp8 jLocal i (jLocal + jMov)) s)
  exact
    { source := hWrite.source.trans hRead.source
      moved := by
        rintro i' j' ⟨k, hLt, hEq⟩
        cases hEq
        exact (hWrite.moved k hLt).trans (hRead.buffer k hLt)
      kept := by
        intro i' j' hCell
        rw [← hRead.kept]
        exact hWrite.kept i' j' hCell
      accessed := by
        rw [accessesOf_rowCells, ← Set.union_assoc,
          ← hRead.accessed]
        exact hWrite.accessed }

end Transpose

end CsappLabs
