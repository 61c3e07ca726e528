import CsappLabs.Lib.BitField
import CsappLabs.Driver.Pages

/-
  Reads and writes through the page table.

  A write puts the bytes of its value at its addresses, a
  read collects those at its own, on one page or on two, and
  neither changes a byte elsewhere.

  Key definitions:
    * `Stores`, `Covers`
    * `bytesOf`

  Key theorems:
    * `heapWrite_spec`
    * `heapRead_spec`
-/

------------------------------------------------------------
-- Addresses
------------------------------------------------------------

namespace CsappLabs

namespace Driver

open Splay (Stop ok_bind)

variable {memory memory' memory'' : Memory}
variable {pages pages' pages'' : Nat → Option Nat}
variable {ids : Finset Nat}
variable {addr a len count k value : Nat}
variable {byte : Nat → UInt8}

theorem sparsePageSize_eq : sparsePageSize = 1024 := by
  decide

/- An address is the offset into its page. -/
theorem addr_eq
    (hHeap : sparseHeapStart ≤ addr) :
    addr = pageStart (pageId addr) + pageOffset addr ∧
      pageOffset addr < sparsePageSize := by
  unfold pageOffset pageStart pageId
  rw [sparsePageSize_eq]
  omega

/- Addresses of one page differ as their offsets do. -/
theorem same_page
    (hHeap : sparseHeapStart ≤ addr)
    (hFits : pageOffset addr + len ≤ sparsePageSize)
    (hLow : addr ≤ a)
    (hHigh : a < addr + len) :
    pageId a = pageId addr ∧
      pageOffset a = pageOffset addr + (a - addr) := by
  unfold pageOffset pageStart pageId at *
  rw [sparsePageSize_eq] at *
  omega

theorem of_same_page
    (hHeap : sparseHeapStart ≤ addr)
    (hOther : sparseHeapStart ≤ a)
    (hSame : pageId a = pageId addr) :
    a + pageOffset addr = addr + pageOffset a := by
  have hAddr := (addr_eq hHeap).1
  have hA := (addr_eq hOther).1
  rw [hSame] at hA
  omega

/- The page after the one of an address. -/
theorem next_page
    (hHeap : sparseHeapStart ≤ addr) :
    pageOffset (addr + (sparsePageSize - pageOffset addr)) =
      0 := by
  unfold pageOffset pageStart pageId
  rw [sparsePageSize_eq]
  omega

------------------------------------------------------------
-- Stores Inside A Page
------------------------------------------------------------

theorem storeBytes_id {offset : Nat} :
    (fun j =>
        ((memory.storeBytes k offset value len).blocks j).id) =
      fun j => (memory.blocks j).id := by
  funext j
  by_cases hBlock : j = k <;>
    simp [Memory.storeBytes, Memory.modifyBlock,
      Function.update, hBlock]

theorem storeBytes_next {offset : Nat} :
    (fun j =>
        ((memory.storeBytes k offset value len).blocks
          j).next) =
      fun j => (memory.blocks j).next := by
  funext j
  by_cases hBlock : j = k <;>
    simp [Memory.storeBytes, Memory.modifyBlock,
      Function.update, hBlock]

/- A store to the bytes of a page leaves the table. -/
theorem Paged.storeBytes
    {offset : Nat}
    (hPaged : Paged memory pages) :
    Paged (memory.storeBytes k offset value len) pages := by
  rcases hPaged.table with ⟨chains, hTable, hUsed, hPages⟩
  refine ⟨hPaged.sparse, hPaged.heap, hPaged.buckets,
    hPaged.pool, chains, ?_, hUsed, ?_⟩
  · rw [storeBytes_id, storeBytes_next]
    exact hTable
  · rw [storeBytes_id]
    exact hPages

/- The bytes that a store inside a page leaves. -/
theorem contents_storeBytes
    (hPaged : Paged memory pages)
    (hPage : pages (pageId addr) = some k)
    (hHeap : sparseHeapStart ≤ addr)
    (hFits : pageOffset addr + len ≤ sparsePageSize)
    (hOther : sparseHeapStart ≤ a) :
    contents
        (memory.storeBytes k (pageOffset addr) value len)
        pages a =
      if addr ≤ a ∧ a < addr + len then
        some (UInt8.ofNat (value / 256 ^ (a - addr)))
      else
        contents memory pages a := by
  unfold contents
  by_cases hSame : pageId a = pageId addr
  · have hPlace := of_same_page hHeap hOther hSame
    rw [hSame, hPage]
    simp only [Option.map_some, Memory.storeBytes,
      Memory.modifyBlock, Function.update_self,
      ByteMemory.writeWord]
    by_cases hInside : addr ≤ a ∧ a < addr + len
    · rw [if_pos hInside, if_pos (by omega),
        show pageOffset a - pageOffset addr = a - addr by
          omega]
    · rw [if_neg hInside, if_neg (by omega)]
  · have hOutside : ¬(addr ≤ a ∧ a < addr + len) :=
      fun hInside =>
        hSame (same_page hHeap hFits hInside.1 hInside.2).1
    rw [if_neg hOutside]
    cases hOwn : pages (pageId a) with
    | none => rfl
    | some j =>
        have hNe : j ≠ k := by
          rintro rfl
          exact hSame (hPaged.inj hOwn hPage)
        simp [Memory.storeBytes, Memory.modifyBlock, hNe]

------------------------------------------------------------
-- Stores To Addresses
------------------------------------------------------------

/- The bytes of a value from an address on. -/
def valueBytes (addr value : Nat) : Nat → UInt8 :=
  fun a => UInt8.ofNat (value / 256 ^ (a - addr))

/-
  The addresses from `addr` hold the bytes given for them, and
  every other byte that the emulation had is as it was.
-/
structure Stores
    (memory : Memory)
    (pages : Nat → Option Nat)
    (memory' : Memory)
    (pages' : Nat → Option Nat)
    (addr len : Nat)
    (byte : Nat → UInt8) :
    Prop where
  paged : Paged memory' pages'
  memBrk : memory'.memBrk = memory.memBrk
  memMaxAddr : memory'.memMaxAddr = memory.memMaxAddr
  inside :
    ∀ a, addr ≤ a → a < addr + len →
      contents memory' pages' a = some (byte a)
  outside :
    ∀ a b, sparseHeapStart ≤ a →
      a < addr ∨ addr + len ≤ a →
      contents memory pages a = some b →
      contents memory' pages' a = some b

/- The page ids of some addresses are among these. -/
def Covers (ids : Finset Nat) (addr len : Nat) : Prop :=
  ∀ a, addr ≤ a → a < addr + len → pageId a ∈ ids

theorem Covers.mono
    {addr' len' : Nat}
    (hCovers : Covers ids addr len)
    (hLow : addr ≤ addr')
    (hHigh : addr' + len' ≤ addr + len) :
    Covers ids addr' len' :=
  fun a hA hB => hCovers a (by omega) (by omega)

/- Opening pages stores nothing. -/
theorem Extends.stores
    (hExtends : Extends memory pages memory' pages') :
    Stores memory pages memory' pages' addr 0 byte where
  paged := hExtends.paged
  memBrk := hExtends.memBrk
  memMaxAddr := hExtends.memMaxAddr
  inside := fun a hLow hHigh => by omega
  outside := fun _ _ _ _ hByte => hExtends.contents hByte

/- One store after another, at the addresses that follow. -/
theorem Stores.trans
    (hFirst :
      Stores memory pages memory' pages' addr len byte)
    (hSecond :
      Stores memory' pages' memory'' pages'' (addr + len)
        count byte)
    (hHeap : sparseHeapStart ≤ addr) :
    Stores memory pages memory'' pages'' addr (len + count)
      byte where
  paged := hSecond.paged
  memBrk := hSecond.memBrk.trans hFirst.memBrk
  memMaxAddr := hSecond.memMaxAddr.trans hFirst.memMaxAddr
  inside := by
    intro a hLow hHigh
    by_cases hInside : a < addr + len
    · exact hSecond.outside a _ (by omega) (.inl hInside)
        (hFirst.inside a hLow hInside)
    · exact hSecond.inside a (by omega) (by omega)
  outside := by
    intro a b hA hApart hByte
    exact hSecond.outside a b hA (by omega)
      (hFirst.outside a b hA (by omega) hByte)

/- A store of part of a value inside a page. -/
theorem Paged.stores
    (hPaged : Paged memory pages)
    (hPage : pages (pageId addr) = some k)
    (hHeap : sparseHeapStart ≤ addr)
    (hFits : pageOffset addr + len ≤ sparsePageSize)
    (hValue :
      ∀ a, addr ≤ a → a < addr + len →
        byte a = UInt8.ofNat (value / 256 ^ (a - addr))) :
    Stores memory pages
      (memory.storeBytes k (pageOffset addr) value len)
      pages addr len byte where
  paged := hPaged.storeBytes
  memBrk := rfl
  memMaxAddr := rfl
  inside := by
    intro a hLow hHigh
    rw [contents_storeBytes hPaged hPage hHeap hFits
      (by omega), if_pos ⟨hLow, hHigh⟩, hValue a hLow hHigh]
  outside := by
    intro a b hA hApart hByte
    rw [contents_storeBytes hPaged hPage hHeap hFits hA,
      if_neg (by omega), hByte]

/- A store in a page that was opened for it. -/
theorem Extends.storeBytes
    (hExtends : Extends memory pages memory' pages')
    (hPage : pages' (pageId addr) = some k)
    (hHeap : sparseHeapStart ≤ addr)
    (hFits : pageOffset addr + len ≤ sparsePageSize) :
    Stores memory pages
      (memory'.storeBytes k (pageOffset addr) value len)
      pages' addr len (valueBytes addr value) := by
  have hOpened :
      Stores memory pages memory' pages' addr 0
        (valueBytes addr value) :=
    hExtends.stores
  have hStored :
      Stores memory' pages'
        (memory'.storeBytes k (pageOffset addr) value len)
        pages' (addr + 0) len (valueBytes addr value) :=
    hExtends.paged.stores hPage hHeap hFits fun _ _ _ => rfl
  simpa using hOpened.trans hStored hHeap

/- The rest of a value, from its byte `low` on. -/
theorem valueBytes_rest
    {low : Nat}
    (hLow : addr + low ≤ a) :
    valueBytes (addr + low) (value / 256 ^ low) a =
      valueBytes addr value a := by
  unfold valueBytes
  rw [Nat.div_div_eq_div_mul, ← Nat.pow_add,
    show low + (a - (addr + low)) = a - addr by omega]

/- The two parts of a write that goes on in the next page. -/
theorem Stores.onNextPage
    {low : Nat}
    (hLeft :
      Stores memory pages memory' pages' addr low
        (valueBytes addr value))
    (hRight :
      Stores memory' pages' memory'' pages'' (addr + low)
        (len - low)
        (valueBytes (addr + low) (value / 256 ^ low)))
    (hHeap : sparseHeapStart ≤ addr)
    (hLow : low < len) :
    Stores memory pages memory'' pages'' addr len
      (valueBytes addr value) := by
  have hBytes :
      Stores memory' pages' memory'' pages'' (addr + low)
        (len - low) (valueBytes addr value) :=
    { hRight with
      inside := fun a hA hB => by
        rw [hRight.inside a hA hB, valueBytes_rest hA] }
  have hAll := hLeft.trans hBytes hHeap
  rwa [Nat.add_sub_cancel' (Nat.le_of_lt hLow)] at hAll

/-
  A heap write stores the bytes of its value, in one page or
  in two.
-/
theorem heapWrite_spec
    (hPaged : Paged memory pages)
    (hHeap : sparseHeapStart ≤ addr)
    (hPositive : 0 < len)
    (hLen : len ≤ sparsePageSize) :
    Outcome memory pages (fun ids => Covers ids addr len)
      (heapWrite memory addr value len)
      (fun memory' => memory')
      fun memory' pages' =>
        Stores memory pages memory' pages' addr len
          (valueBytes addr value) := by
  have hOffset := (addr_eq hHeap).2
  unfold heapWrite
  refine (getMem_spec hPaged addr).bind
    (fun ids hCovers => hCovers addr (le_refl _) (by omega))
    ?_
  rintro ⟨memory₁, k, _⟩ pages₁ ⟨rfl, hExtends, hPage⟩
  change Outcome memory₁ pages₁ _
    (if sparsePageSize - pageOffset addr < len then _ else _)
    (fun memory' => memory') _
  by_cases hTwo : sparsePageSize - pageOffset addr < len
  · rw [if_pos hTwo]
    have hNext := next_page hHeap
    generalize hLow :
      sparsePageSize - pageOffset addr = low at hTwo hNext
    have hLeft :
        Stores memory pages
          (memory₁.storeBytes k (pageOffset addr) value low)
          pages₁ addr low (valueBytes addr value) :=
      hExtends.storeBytes hPage hHeap (by omega)
    change Outcome _ pages₁ _
      (getMem
          (memory₁.storeBytes k (pageOffset addr) value
            (sparsePageSize - pageOffset addr))
          (addr + (sparsePageSize - pageOffset addr)) >>=
        fun opened =>
          .ok
            (opened.1.storeBytes opened.2.1 opened.2.2
              (value /
                256 ^ (sparsePageSize - pageOffset addr))
              (len - (sparsePageSize - pageOffset addr))))
      (fun memory' => memory') _
    rw [hLow]
    refine (getMem_spec hLeft.paged (addr + low)).bind
      (fun ids hCovers =>
        hCovers (addr + low) (by omega) (by omega)) ?_
    rintro ⟨memory₂, k₂, _⟩ pages₂ ⟨rfl, hExtends₂, hPage₂⟩
    have hRest :
        pageOffset (addr + low) + (len - low) ≤
          sparsePageSize := by
      rw [hNext]
      omega
    exact .ok
      (hLeft.onNextPage
        (hExtends₂.storeBytes hPage₂ (by omega) hRest)
        hHeap hTwo)
      rfl
  · rw [if_neg hTwo]
    exact .ok
      (hExtends.storeBytes hPage hHeap (by omega)) rfl

------------------------------------------------------------
-- Words
------------------------------------------------------------

/- The bytes of the emulation, 0 where it has none. -/
def bytesOf
    (memory : Memory)
    (pages : Nat → Option Nat) :
    ByteMemory :=
  fun a => (contents memory pages a).getD 0

/- The emulation has a byte at each of these addresses. -/
def Readable
    (memory : Memory)
    (pages : Nat → Option Nat)
    (addr len : Nat) :
    Prop :=
  ∀ a, addr ≤ a → a < addr + len →
    ∃ b, contents memory pages a = some b

theorem pow_256 : 256 ^ len = 2 ^ (8 * len) :=
  (Nat.pow_mul 2 8 len).symm

theorem and_byteMask :
    value &&& byteMask len = value % 256 ^ len := by
  rw [byteMask, BitField.and_low_mask, pow_256]

/- The last mask keeps the low bytes of a word. -/
theorem truncate_eq
    (hWord : value < 256 ^ wordSize)
    (hLen : len ≤ wordSize) :
    truncate value len = value % 256 ^ len := by
  unfold truncate
  by_cases hShort : len < wordSize
  · rw [if_pos hShort, and_byteMask]
  · have hFull : len = wordSize := by omega
    rw [if_neg hShort, hFull, Nat.mod_eq_of_lt hWord]

/- The bytes of one page, as the emulation has them. -/
theorem page_bytes
    (hPage : pages (pageId addr) = some k)
    (hHeap : sparseHeapStart ≤ addr)
    (hFits : pageOffset addr + len ≤ sparsePageSize) :
    Readable memory pages addr len ∧
      (memory.byteAt k).readWord (pageOffset addr) len =
        (bytesOf memory pages).readWord addr len := by
  have hByte :
      ∀ a, addr ≤ a → a < addr + len →
        contents memory pages a =
          some
            (memory.byteAt k
              (pageOffset addr + (a - addr))) := by
    intro a hLow hHigh
    rcases same_page hHeap hFits hLow hHigh with ⟨hSame, hOffset⟩
    have hInside :
        pageOffset addr + (a - addr) < sparsePageSize := by
      omega
    unfold contents Memory.byteAt
    rw [hSame, hPage, hOffset, if_pos hInside,
      Option.map_some]
  refine ⟨fun a hLow hHigh => ⟨_, hByte a hLow hHigh⟩, ?_⟩
  apply ByteMemory.readWord_congr
  intro i hi
  unfold bytesOf
  rw [hByte (addr + i) (by omega) (by omega),
    Nat.add_sub_cancel_left, Option.getD_some]

/- Bytes that were readable are read the same later. -/
theorem Extends.readable
    (hExtends : Extends memory pages memory' pages')
    (hReadable : Readable memory pages addr len) :
    Readable memory' pages' addr len ∧
      (bytesOf memory' pages').readWord addr len =
        (bytesOf memory pages).readWord addr len := by
  constructor
  · intro a hLow hHigh
    rcases hReadable a hLow hHigh with ⟨b, hByte⟩
    exact ⟨b, hExtends.contents hByte⟩
  · apply ByteMemory.readWord_congr
    intro i hi
    rcases hReadable (addr + i) (by omega) (by omega) with
      ⟨b, hByte⟩
    unfold bytesOf
    rw [hByte, hExtends.contents hByte]

/-
  The word that a read stitches together: the low bytes of
  one page, and above them those of the next.
-/
theorem truncate_stitched
    {left right : ByteMemory} {p q low : Nat}
    (hLow : low < len)
    (hLen : len ≤ wordSize) :
    truncate
        ((left.readWord p wordSize &&& byteMask low) |||
          (right.readWord q wordSize <<< (8 * low)) % 2 ^ 64)
        len =
      left.readWord p low +
        256 ^ low * right.readWord q (len - low) := by
  have hWord : wordSize = 8 := rfl
  have hSplit : 64 = 8 * low + 8 * (wordSize - low) := by
    omega
  have hLeft : left.readWord p low < 256 ^ low :=
    ByteMemory.readWord_lt
  have hRight :
      right.readWord q (wordSize - low) <
        256 ^ (wordSize - low) :=
    ByteMemory.readWord_lt
  have hSmall :
      left.readWord p low +
          256 ^ low * right.readWord q (wordSize - low) <
        256 ^ wordSize := by
    calc
      _ < 256 ^ low +
            256 ^ low * right.readWord q (wordSize - low) :=
          Nat.add_lt_add_right hLeft _
      _ = 256 ^ low *
            (right.readWord q (wordSize - low) + 1) := by
          ring
      _ ≤ 256 ^ low * 256 ^ (wordSize - low) :=
          Nat.mul_le_mul_left _ hRight
      _ = 256 ^ wordSize := by
          rw [← Nat.pow_add,
            Nat.add_sub_cancel' (by omega)]
  rw [and_byteMask, ByteMemory.readWord_mod (by omega),
    hSplit,
    BitField.or_shiftLeft_mod (by rw [← pow_256]; exact hLeft),
    ← pow_256, ← pow_256,
    ByteMemory.readWord_mod (by omega),
    truncate_eq hSmall hLen]
  rcases Nat.exists_eq_add_of_le (Nat.le_of_lt hLow) with
    ⟨high, rfl⟩
  rw [Nat.pow_add, Nat.mod_mul, Nat.add_mul_mod_self_left,
    Nat.mod_eq_of_lt hLeft,
    Nat.add_mul_div_left _ _ (Nat.pow_pos (by decide)),
    Nat.div_eq_of_lt hLeft, Nat.zero_add,
    Nat.add_sub_cancel_left,
    ByteMemory.readWord_mod (by omega)]

/- A range of addresses ends in another page or fits. -/
theorem same_page_iff
    (hHeap : sparseHeapStart ≤ addr)
    (hPositive : 0 < len)
    (hLen : len ≤ sparsePageSize) :
    pageId addr = pageId (addr + len - 1) ↔
      pageOffset addr + len ≤ sparsePageSize := by
  unfold pageOffset pageStart pageId
  rw [sparsePageSize_eq] at *
  omega

/- The word of a read that stays in one page. -/
theorem page_word
    (hPage : pages (pageId addr) = some k)
    (hHeap : sparseHeapStart ≤ addr)
    (hFits : pageOffset addr + len ≤ sparsePageSize)
    (hLen : len ≤ wordSize) :
    Readable memory pages addr len ∧
      truncate (fetchWord memory k (pageOffset addr)) len =
        (bytesOf memory pages).readWord addr len := by
  rcases
      @page_bytes memory pages addr len k hPage hHeap hFits with
    ⟨hReadable, hBytes⟩
  refine ⟨hReadable, ?_⟩
  rw [← hBytes, fetchWord,
    truncate_eq ByteMemory.readWord_lt hLen,
    ByteMemory.readWord_mod hLen]

/-
  The word of a read that goes on in the next page, which is
  opened after the word of the first one is fetched.
-/
theorem pages_word
    {k' low : Nat}
    (hPage : pages (pageId addr) = some k)
    (hExtends : Extends memory pages memory' pages')
    (hPage' : pages' (pageId (addr + low)) = some k')
    (hHeap : sparseHeapStart ≤ addr)
    (hEnd : pageOffset addr + low = sparsePageSize)
    (hNext : pageOffset (addr + low) = 0)
    (hLow : low < len)
    (hLen : len ≤ wordSize) :
    Readable memory' pages' addr len ∧
      truncate
          ((fetchWord memory k (pageOffset addr) &&&
              byteMask low) |||
            (fetchWord memory' k' (pageOffset (addr + low)) <<<
              (8 * low)) % 2 ^ 64)
          len =
        (bytesOf memory' pages').readWord addr len := by
  have hShort : wordSize ≤ sparsePageSize := by decide
  have hSplit : len = low + (len - low) := by omega
  rcases
      @page_bytes memory pages addr low k hPage hHeap
        (Nat.le_of_eq hEnd) with
    ⟨hOld, hOldBytes⟩
  rcases hExtends.readable hOld with ⟨hLeft, hLeftBytes⟩
  rcases
      @page_bytes memory' pages' (addr + low) (len - low) k'
        hPage' (by omega) (by omega) with
    ⟨hRight, hRightBytes⟩
  constructor
  · intro a hA hB
    by_cases hSide : a < addr + low
    · exact hLeft a hA hSide
    · exact hRight a (by omega) (by omega)
  · rw [fetchWord, fetchWord,
      truncate_stitched hLow hLen, hOldBytes, hRightBytes,
      ← hLeftBytes, ← ByteMemory.readWord_add, ← hSplit]

/-
  A heap read returns the bytes at its addresses, which the
  emulation then has.
-/
theorem heapRead_spec
    (hPaged : Paged memory pages)
    (hHeap : sparseHeapStart ≤ addr)
    (hPositive : 0 < len)
    (hLen : len ≤ wordSize) :
    Outcome memory pages (fun ids => Covers ids addr len)
      (heapRead memory addr len)
      (fun fetched : Memory × Nat => fetched.1)
      fun fetched pages' =>
        Extends memory pages fetched.1 pages' ∧
          Readable fetched.1 pages' addr len ∧
          truncate fetched.2 len =
            (bytesOf fetched.1 pages').readWord addr len := by
  have hShort : wordSize ≤ sparsePageSize := by decide
  have hOffset := (addr_eq hHeap).2
  have hSameIff :=
    same_page_iff hHeap hPositive (hLen.trans hShort)
  unfold heapRead
  refine (getMem_spec hPaged addr).bind
    (fun ids hCovers => hCovers addr (le_refl _) (by omega))
    ?_
  rintro ⟨memory₁, k, _⟩ pages₁ ⟨rfl, hExtends, hPage⟩
  change Outcome memory₁ pages₁ _
    (if pageId addr ≠ pageId (addr + len - 1) then _ else _)
    (fun fetched : Memory × Nat => fetched.1) _
  by_cases hFits :
      pageOffset addr + len ≤ sparsePageSize
  · rw [if_neg (not_not.mpr (hSameIff.mpr hFits))]
    exact .ok
      ⟨hExtends, page_word hPage hHeap hFits hLen⟩ rfl
  · rw [if_pos fun hSame => hFits (hSameIff.mp hSame)]
    have hNext := next_page hHeap
    generalize hLow :
      sparsePageSize - pageOffset addr = low at hNext
    change Outcome _ pages₁ _
      (getMem memory₁
          (addr + (sparsePageSize - pageOffset addr)) >>=
        fun opened =>
          .ok (opened.1,
            (fetchWord memory₁ k (pageOffset addr) &&&
                byteMask
                  (sparsePageSize - pageOffset addr)) |||
              (fetchWord opened.1 opened.2.1 opened.2.2 <<<
                (8 * (sparsePageSize - pageOffset addr))) %
                2 ^ 64))
      (fun fetched : Memory × Nat => fetched.1) _
    rw [hLow]
    refine (getMem_spec hExtends.paged (addr + low)).bind
      (fun ids hCovers =>
        hCovers (addr + low) (by omega) (by omega)) ?_
    rintro ⟨memory₂, k₂, _⟩ pages₂ ⟨rfl, hExtends₂, hPage₂⟩
    exact .ok
      ⟨hExtends.trans hExtends₂,
        pages_word hPage hExtends₂ hPage₂ hHeap (by omega)
          hNext (by omega) hLen⟩ rfl

end Driver

end CsappLabs
