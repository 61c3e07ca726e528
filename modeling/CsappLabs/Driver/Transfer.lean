import CsappLabs.Driver.Access

/-
  Reads, writes, fills and copies inside the heap.

  A fill and a copy are loops of accesses to words, with one
  access to what is left.  Their bytes are stored as by one
  access of any length.

  Key definitions:
    * `InHeap`, `Copies`

  Key theorems:
    * `memWrite_spec`, `memRead_spec`
    * `memMemset_spec`, `memMemcpy_spec`
-/

------------------------------------------------------------
-- Single Accesses
------------------------------------------------------------

namespace CsappLabs

namespace Driver

open Splay (Stop ok_bind)

variable {memory memory' memory'' : Memory}
variable {pages pages' pages'' : Nat → Option Nat}
variable {addr dst src a len count n value : Nat} {c : Int}
variable {byte byte' : Nat → UInt8}

/- The addresses lie between the heap and the break. -/
def InHeap (memBrk addr len : Nat) : Prop :=
  sparseHeapStart ≤ addr ∧ addr + len ≤ memBrk

instance {memBrk : Nat} : Decidable (InHeap memBrk addr len) :=
  inferInstanceAs (Decidable (_ ∧ _))

theorem Paged.emulated
    (hPaged : Paged memory pages)
    (hIn : InHeap memory.memBrk addr len) :
    emulated memory addr len = true := by
  rcases hIn with ⟨hLow, hHigh⟩
  unfold Driver.emulated
  rw [hPaged.sparse, hPaged.heap, decide_eq_true hLow,
    decide_eq_true hHigh]
  rfl

theorem memWrite_spec
    (hPaged : Paged memory pages)
    (hIn : InHeap memory.memBrk addr len)
    (hPositive : 0 < len)
    (hLen : len ≤ wordSize) :
    Outcome memory pages (fun ids => Covers ids addr len)
      (memWrite memory addr value len)
      (fun memory' => memory')
      fun memory' pages' =>
        Stores memory pages memory' pages' addr len
          (valueBytes addr value) := by
  have hPage : wordSize ≤ sparsePageSize := by decide
  unfold memWrite
  rw [if_pos (hPaged.emulated hIn)]
  exact heapWrite_spec hPaged hIn.1 hPositive
    (hLen.trans hPage)

theorem memRead_spec
    (hPaged : Paged memory pages)
    (hIn : InHeap memory.memBrk addr len)
    (hPositive : 0 < len)
    (hLen : len ≤ wordSize) :
    Outcome memory pages (fun ids => Covers ids addr len)
      (memRead memory addr len)
      (fun fetched : Memory × Nat => fetched.1)
      fun fetched pages' =>
        Extends memory pages fetched.1 pages' ∧
          Readable fetched.1 pages' addr len ∧
          fetched.2 =
            (bytesOf fetched.1 pages').readWord addr len := by
  unfold memRead
  rw [if_pos (hPaged.emulated hIn)]
  refine (heapRead_spec hPaged hIn.1 hPositive hLen).bind
    (fun ids hCovers => hCovers) ?_
  rintro ⟨memory₁, rdata⟩ pages₁ ⟨hExtends, hReadable, hData⟩
  exact .ok ⟨hExtends, hReadable, hData⟩ rfl

------------------------------------------------------------
-- Filling
------------------------------------------------------------

theorem Stores.congr
    (hStores :
      Stores memory pages memory' pages' addr len byte)
    (hSame :
      ∀ a, addr ≤ a → a < addr + len → byte a = byte' a) :
    Stores memory pages memory' pages' addr len byte' :=
  { hStores with
    inside := fun a hLow hHigh => by
      rw [hStores.inside a hLow hHigh, hSame a hLow hHigh] }

/- The loop of mem_memset over the bytes of its word. -/
theorem fillWord_eq :
    fillWord c =
      ByteMemory.readWord
        (fun _ => UInt8.ofNat (c % 256).toNat) 0
        wordSize := by
  have hByte : (c % 256).toNat < 256 := by omega
  unfold fillWord
  generalize (c % 256).toNat = low at hByte ⊢
  induction wordSize with
  | zero => rfl
  | succ width ih =>
      have hLow :
          ByteMemory.readWord (fun _ => UInt8.ofNat low) 0
              width <
            2 ^ (8 * width) := by
        rw [← pow_256]
        exact ByteMemory.readWord_lt
      rw [List.range_succ, List.foldl_append, ih,
        ByteMemory.readWord_add]
      simp only [List.foldl_cons, List.foldl_nil]
      rw [Nat.shiftLeft_eq, Nat.mul_comm low, Nat.lor_comm,
        ← Nat.two_pow_add_eq_or_of_lt hLow, pow_256]
      simp [ByteMemory.readWord, Nat.mod_eq_of_lt hByte,
        Nat.add_comm]

theorem valueBytes_fillWord
    (hLen : len ≤ wordSize)
    (hLow : dst ≤ a)
    (hHigh : a < dst + len) :
    valueBytes dst (fillWord c) a =
      UInt8.ofNat (c % 256).toNat := by
  unfold valueBytes
  rw [fillWord_eq,
    ByteMemory.ofNat_readWord_div (by omega)]

/- The loop of mem_memset stores its byte everywhere. -/
theorem fill_spec
    (hPaged : Paged memory pages)
    (hIn : InHeap memory.memBrk dst n) :
    Outcome memory pages (fun ids => Covers ids dst n)
      (fill memory dst (fillWord c) n)
      (fun memory' => memory')
      fun memory' pages' =>
        Stores memory pages memory' pages' dst n
          fun _ => UInt8.ofNat (c % 256).toNat := by
  rcases hIn with ⟨hHeap, hBreak⟩
  induction n using Nat.strong_induction_on
    generalizing memory pages dst with
  | _ n ih =>
      have hWord : wordSize = 8 := rfl
      rw [fill]
      by_cases hWords : wordSize ≤ n
      · rw [if_pos hWords]
        refine
          (memWrite_spec hPaged ⟨hHeap, by omega⟩ (by omega)
            (le_refl _)).bind
            (fun ids hCovers =>
              hCovers.mono (le_refl _) (by omega)) ?_
        intro memory₁ pages₁ hFirst
        have hBreak₁ :
            dst + wordSize + (n - wordSize) ≤
              memory₁.memBrk := by
          rw [hFirst.memBrk]
          omega
        refine
          (ih (n - wordSize) (by omega) hFirst.paged
            (by omega) hBreak₁).mono
            (fun ids hCovers =>
              hCovers.mono (by omega) (by omega)) ?_
        intro memory' pages' hRest
        have hBytes :=
          hFirst.congr fun a hLow hHigh =>
            valueBytes_fillWord (le_refl _) hLow hHigh
        have hAll := hBytes.trans hRest hHeap
        rwa [Nat.add_sub_cancel' hWords] at hAll
      · rw [if_neg hWords]
        by_cases hRest : n ≠ 0
        · rw [if_pos hRest]
          refine
            (memWrite_spec hPaged ⟨hHeap, hBreak⟩
              (by omega) (by omega)).mono
              (fun ids hCovers => hCovers) ?_
          intro memory' pages' hStores
          exact hStores.congr fun a hLow hHigh =>
            valueBytes_fillWord (by omega) hLow hHigh
        · rw [if_neg hRest]
          have hNone : n = 0 := by omega
          rw [hNone]
          exact .ok hPaged.refl.stores rfl

theorem memMemset_spec
    (hPaged : Paged memory pages)
    (hIn : InHeap memory.memBrk dst n) :
    Outcome memory pages (fun ids => Covers ids dst n)
      (memMemset memory dst c n) (fun memory' => memory')
      fun memory' pages' =>
        Stores memory pages memory' pages' dst n
          fun _ => UInt8.ofNat (c % 256).toNat :=
  fill_spec hPaged hIn

------------------------------------------------------------
-- Copying
------------------------------------------------------------

/-
  The addresses from `dst` hold the bytes at those from
  `src`, which the emulation has, and no other byte changed.
-/
structure Copies
    (memory : Memory)
    (pages : Nat → Option Nat)
    (memory' : Memory)
    (pages' : Nat → Option Nat)
    (dst src n : Nat) :
    Prop where
  stores :
    Stores memory pages memory' pages' dst n fun a =>
      bytesOf memory' pages' (src + (a - dst))
  source : Readable memory' pages' src n

/- Bytes apart from those that are stored to are kept. -/
theorem Stores.bytesOf
    (hStores :
      Stores memory pages memory' pages' addr len byte)
    (hHeap : sparseHeapStart ≤ a)
    (hApart : a < addr ∨ addr + len ≤ a)
    {old : UInt8}
    (hOld : contents memory pages a = some old) :
    bytesOf memory' pages' a = bytesOf memory pages a := by
  unfold Driver.bytesOf
  rw [hStores.outside a old hHeap hApart hOld, hOld]

theorem Stores.readable
    (hStores :
      Stores memory pages memory' pages' addr len byte)
    (hHeap : sparseHeapStart ≤ src)
    (hApart : src + count ≤ addr ∨ addr + len ≤ src)
    (hReadable : Readable memory pages src count) :
    Readable memory' pages' src count := by
  intro a hLow hHigh
  rcases hReadable a hLow hHigh with ⟨old, hOld⟩
  exact ⟨old, hStores.outside a old (by omega) (by omega)
    hOld⟩

/- One read and the write of what it gives. -/
theorem Copies.once
    (hRead : Extends memory pages memory' pages')
    (hReadable : Readable memory' pages' src len)
    (hWrite :
      Stores memory' pages' memory'' pages'' dst len
        (valueBytes dst
          ((bytesOf memory' pages').readWord src len)))
    (hDst : sparseHeapStart ≤ dst)
    (hSrc : sparseHeapStart ≤ src)
    (hApart : src + len ≤ dst ∨ dst + len ≤ src) :
    Copies memory pages memory'' pages'' dst src len where
  stores := by
    have hOpened :
        Stores memory pages memory' pages' dst 0
          (valueBytes dst
            ((bytesOf memory' pages').readWord src len)) :=
      hRead.stores
    have hAll :
        Stores memory pages memory'' pages'' dst len
          (valueBytes dst
            ((bytesOf memory' pages').readWord src len)) := by
      simpa using
        hOpened.trans (by simpa using hWrite) hDst
    refine hAll.congr ?_
    intro a hLow hHigh
    rcases hReadable (src + (a - dst)) (by omega) (by omega) with
      ⟨old, hOld⟩
    rw [hWrite.bytesOf (by omega) (by omega) hOld]
    exact ByteMemory.ofNat_readWord_div (by omega)
  source := hWrite.readable hSrc hApart hReadable

/- Copies of two parts that follow each other. -/
theorem Copies.trans
    (hFirst :
      Copies memory pages memory' pages' dst src len)
    (hRest :
      Copies memory' pages' memory'' pages'' (dst + len)
        (src + len) count)
    (hDst : sparseHeapStart ≤ dst)
    (hSrc : sparseHeapStart ≤ src)
    (hApart :
      src + (len + count) ≤ dst ∨
        dst + (len + count) ≤ src) :
    Copies memory pages memory'' pages'' dst src
      (len + count) where
  stores := by
    have hLeft :
        Stores memory pages memory' pages' dst len fun a =>
          bytesOf memory'' pages'' (src + (a - dst)) := by
      refine hFirst.stores.congr ?_
      intro a hLow hHigh
      rcases
          hFirst.source (src + (a - dst)) (by omega) (by omega) with
        ⟨old, hOld⟩
      exact (hRest.stores.bytesOf (by omega) (by omega)
        hOld).symm
    have hRight :
        Stores memory' pages' memory'' pages'' (dst + len)
          count fun a =>
            bytesOf memory'' pages'' (src + (a - dst)) := by
      refine hRest.stores.congr ?_
      intro a hLow hHigh
      rw [show src + len + (a - (dst + len)) =
        src + (a - dst) by omega]
    exact hLeft.trans hRight hDst
  source := by
    intro a hLow hHigh
    by_cases hInside : a < src + len
    · exact hRest.stores.readable hSrc (by omega)
        hFirst.source a hLow hInside
    · exact hRest.source a (by omega) (by omega)

/- One turn of mem_memcpy. -/
theorem copyOnce_spec
    (hPaged : Paged memory pages)
    (hDst : InHeap memory.memBrk dst len)
    (hSrc : InHeap memory.memBrk src len)
    (hApart : src + len ≤ dst ∨ dst + len ≤ src)
    (hPositive : 0 < len)
    (hLen : len ≤ wordSize) :
    Outcome memory pages
      (fun ids => Covers ids dst len ∧ Covers ids src len)
      (memRead memory src len >>= fun fetched =>
        memWrite fetched.1 dst fetched.2 len)
      (fun memory' => memory')
      fun memory' pages' =>
        Copies memory pages memory' pages' dst src len := by
  refine (memRead_spec hPaged hSrc hPositive hLen).bind
    (fun ids hCovers => hCovers.2) ?_
  rintro ⟨memory₁, data⟩ pages₁ ⟨hRead, hReadable, hData⟩
  dsimp only at hRead hReadable hData ⊢
  subst hData
  have hDst₁ : InHeap memory₁.memBrk dst len := by
    rw [hRead.memBrk]
    exact hDst
  refine (memWrite_spec hRead.paged hDst₁ hPositive hLen).mono
    (fun ids hCovers => hCovers.1) ?_
  intro memory' pages' hWrite
  exact .once hRead hReadable hWrite hDst.1 hSrc.1 hApart

/- A word of mem_memcpy and the turns after it. -/
theorem memMemcpy_words (hWords : wordSize ≤ n) :
    memMemcpy memory dst src n =
      (memRead memory src wordSize >>= fun fetched =>
          memWrite fetched.1 dst fetched.2 wordSize) >>=
        fun stored =>
          memMemcpy stored (dst + wordSize) (src + wordSize)
            (n - wordSize) := by
  rw [memMemcpy, if_pos hWords]
  exact (bind_assoc _ _ _).symm

/- mem_memcpy copies ranges that do not overlap. -/
theorem memMemcpy_spec
    (hPaged : Paged memory pages)
    (hDst : InHeap memory.memBrk dst n)
    (hSrc : InHeap memory.memBrk src n)
    (hApart : src + n ≤ dst ∨ dst + n ≤ src) :
    Outcome memory pages
      (fun ids => Covers ids dst n ∧ Covers ids src n)
      (memMemcpy memory dst src n) (fun memory' => memory')
      fun memory' pages' =>
        Copies memory pages memory' pages' dst src n := by
  rcases hDst with ⟨hDst, hDstBreak⟩
  rcases hSrc with ⟨hSrc, hSrcBreak⟩
  induction n using Nat.strong_induction_on
    generalizing memory pages dst src with
  | _ n ih =>
      have hWord : wordSize = 8 := rfl
      by_cases hWords : wordSize ≤ n
      · have hTurn :=
          @copyOnce_spec memory pages dst src wordSize hPaged
            ⟨hDst, by omega⟩ ⟨hSrc, by omega⟩ (by omega)
            (by omega) (le_refl _)
        rw [memMemcpy_words hWords]
        refine hTurn.bind
          (fun ids hCovers =>
            ⟨hCovers.1.mono (le_refl _) (by omega),
              hCovers.2.mono (le_refl _) (by omega)⟩) ?_
        intro memory₁ pages₁ hFirst
        have hBreak₁ := hFirst.stores.memBrk
        refine
          (ih (n - wordSize) (by omega) hFirst.stores.paged
            (by omega) (by omega) (by omega) (by omega)
            (by omega)).mono
            (fun ids hCovers =>
              ⟨hCovers.1.mono (by omega) (by omega),
                hCovers.2.mono (by omega) (by omega)⟩) ?_
        intro memory' pages' hRest
        have hAll :=
          hFirst.trans hRest hDst hSrc (by omega)
        rwa [Nat.add_sub_cancel' hWords] at hAll
      · rw [memMemcpy, if_neg hWords]
        by_cases hLeft : n ≠ 0
        · rw [if_pos hLeft]
          exact copyOnce_spec hPaged ⟨hDst, hDstBreak⟩
            ⟨hSrc, hSrcBreak⟩ hApart (by omega) (by omega)
        · rw [if_neg hLeft]
          have hNone : n = 0 := by omega
          rw [hNone]
          exact .ok
            ⟨hPaged.refl.stores, fun a hA hB => by omega⟩ rfl

end Driver

end CsappLabs
