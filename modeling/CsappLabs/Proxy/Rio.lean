import CsappLabs.Lib.Line

/-
  Buffered reading and robust writing over sockets
  (proxylab/csapp.c, rio_*).

  What read() and write() will report on a descriptor is a
  script: chunks of any positive length and interrupted
  calls, then an end.  `Rio` is rio_t, whose buffer holds
  RIO_BUFSIZE bytes.  `Rio.stream` is everything the other
  side still has to say: the unread part of the buffer and
  then the script.

  Key definitions:
    * `rioRead`
    * `rioReadlineb`
    * `rioWriten`
    * `Rio.stream`

  Key theorems:
    * `rioReadlineb_of_complete`
    * `rioReadlineb_of_eof`
    * `rioReadlineb_of_error`
    * `rioWriten_of_takes`
-/

------------------------------------------------------------
-- Descriptors
------------------------------------------------------------

namespace CsappLabs

namespace Proxy

abbrev Byte := UInt8

/- One call of read() before the end of the stream. -/
inductive Read where
  | data (b : Byte) (bs : List Byte)
  | eintr
  deriving DecidableEq, Repr

/- What a descriptor reports once its script is used up. -/
inductive Ending where
  | eof
  | error
  deriving DecidableEq, Repr

/- The reading side of a descriptor. -/
structure Source where
  reads : List Read
  ending : Ending
  deriving DecidableEq, Repr

def Read.bytes :
    Read → List Byte
  | .data b bs => b :: bs
  | .eintr => []

/- The bytes that the script delivers. -/
def Source.bytes
    (src : Source) :
    List Byte :=
  src.reads.flatMap Read.bytes

/- What read() had no room for stays with the kernel. -/
def pushBack
    (rest : List Byte)
    (reads : List Read) :
    List Read :=
  match rest with
  | [] => reads
  | b :: bs => .data b bs :: reads

theorem flatMap_pushBack
    (rest : List Byte)
    (reads : List Read) :
    (pushBack rest reads).flatMap Read.bytes =
      rest ++ reads.flatMap Read.bytes := by
  cases rest with
  | nil => rfl
  | cons b bs => rfl

------------------------------------------------------------
-- The Buffer
------------------------------------------------------------

def RIO_BUFSIZE : Nat := 8192

def MAXLINE : Nat := 8192

/- rio_t, with its descriptor in place of rio_fd. -/
structure Rio where
  input : Source
  rioBuf : List Byte
  rioBufptr : Nat
  rioCnt : Int
  hUnread : rioBufptr + rioCnt.toNat ≤ rioBuf.length
  deriving Repr

/- `old` is what the uncleared buffer held before. -/
def rioReadinitb
    (input : Source)
    (old : List Byte) :
    Rio :=
  { input := input
    rioBuf := old
    rioBufptr := 0
    rioCnt := 0
    hUnread := by simp }

/- The bytes of the buffer that no one has taken yet. -/
def Rio.unread
    (rp : Rio) :
    List Byte :=
  (rp.rioBuf.drop rp.rioBufptr).take rp.rioCnt.toNat

/- All bytes still to come on this descriptor. -/
def Rio.stream
    (rp : Rio) :
    List Byte :=
  rp.unread ++ rp.input.bytes

@[simp] theorem rioReadinitb_stream
    (input : Source)
    (old : List Byte) :
    (rioReadinitb input old).stream = input.bytes := by
  simp [Rio.stream, Rio.unread, rioReadinitb]

@[simp] theorem rioReadinitb_ending
    (input : Source)
    (old : List Byte) :
    (rioReadinitb input old).input.ending =
      input.ending := rfl

theorem Rio.unread_of_empty
    {rp : Rio}
    (hCnt : rp.rioCnt ≤ 0) :
    rp.unread = [] := by
  have hZero : rp.rioCnt.toNat = 0 :=
    Int.toNat_eq_zero.mpr hCnt
  rw [Rio.unread, hZero, List.take_zero]

theorem Rio.unread_length
    (rp : Rio) :
    rp.unread.length = rp.rioCnt.toNat := by
  have hBound := rp.hUnread
  rw [Rio.unread, List.length_take, List.length_drop]
  omega

------------------------------------------------------------
-- rio_read
------------------------------------------------------------

inductive Fill where
  | error
  | eof
  | ready
  deriving DecidableEq, Repr

/- The reader after read() returned `cnt`, 0 or -1. -/
def Rio.exhausted
    (rp : Rio)
    (cnt : Int)
    (hCnt : cnt ≤ 0) :
    Rio :=
  { rp with
    input := ⟨[], rp.input.ending⟩
    rioCnt := cnt
    hUnread := by
      have hBound := rp.hUnread
      have hZero : cnt.toNat = 0 :=
        Int.toNat_eq_zero.mpr hCnt
      omega }

theorem Rio.exhausted_stream
    (rp : Rio)
    {cnt : Int}
    (hCnt : cnt ≤ 0) :
    (rp.exhausted cnt hCnt).stream = [] := by
  have hUnread : (rp.exhausted cnt hCnt).unread = [] :=
    Rio.unread_of_empty hCnt
  rw [Rio.stream, hUnread]
  rfl

/- The reads of rio_cnt <= 0: EINTR goes round again. -/
def fillBuffer
    (rp : Rio) :
    List Read → Fill × Rio
  | [] =>
      match rp.input.ending with
      | .eof => (.eof, rp.exhausted 0 (by decide))
      | .error => (.error, rp.exhausted (-1) (by decide))
  | .eintr :: reads => fillBuffer rp reads
  | .data b bs :: reads =>
      let chunk := (b :: bs).take RIO_BUFSIZE
      let rest := (b :: bs).drop RIO_BUFSIZE
      (.ready,
        { input := ⟨pushBack rest reads, rp.input.ending⟩
          rioBuf := chunk ++ rp.rioBuf.drop chunk.length
          rioBufptr := 0
          rioCnt := chunk.length
          hUnread := by simp })

/- rio_read returns -1, or the bytes it copied out. -/
inductive RioRead where
  | error
  | bytes (bs : List Byte)
  deriving DecidableEq, Repr

/- Copy min(n, rio_cnt) bytes from the internal buffer. -/
def copyOut
    (rp : Rio)
    (n : Nat) :
    RioRead × Rio :=
  let cnt := min n rp.rioCnt.toNat
  (.bytes ((rp.rioBuf.drop rp.rioBufptr).take cnt),
    { rp with
      rioBufptr := rp.rioBufptr + cnt
      rioCnt := rp.rioCnt - cnt
      hUnread := by
        have hBound := rp.hUnread
        omega })

def rioRead
    (rp : Rio)
    (n : Nat) :
    RioRead × Rio :=
  if 0 < rp.rioCnt then
    copyOut rp n
  else
    match fillBuffer rp rp.input.reads with
    | (.error, rp') => (.error, rp')
    | (.eof, rp') => (.bytes [], rp')
    | (.ready, rp') => copyOut rp' n

/- The copy takes the front of the unread bytes. -/
theorem copyOut_bytes
    (rp : Rio)
    (n : Nat) :
    (copyOut rp n).1 = .bytes (rp.unread.take n) := by
  simp only [copyOut, Rio.unread, List.take_take]

/- The copy leaves the other unread bytes. -/
theorem copyOut_unread
    (rp : Rio)
    (n : Nat) :
    (copyOut rp n).2.unread = rp.unread.drop n := by
  simp only [copyOut, Rio.unread, List.drop_take,
    List.drop_drop]
  by_cases hn : n ≤ rp.rioCnt.toNat
  · rw [min_eq_left hn]
    congr 1
    omega
  · have hCnt : rp.rioCnt.toNat - n = 0 := by
      omega
    rw [hCnt, List.take_zero, List.take_eq_nil_iff]
    left
    omega

@[simp] theorem copyOut_input
    (rp : Rio)
    (n : Nat) :
    (copyOut rp n).2.input = rp.input := rfl

/- Copying one byte out of a buffer that has one. -/
theorem copyOut_one
    {rp : Rio}
    (hCnt : 0 < rp.rioCnt)
    {c : Byte}
    {s : List Byte}
    (hStream : rp.stream = c :: s) :
    ∃ rp',
      copyOut rp 1 = (.bytes [c], rp') ∧
        rp'.stream = s ∧
        rp'.input.ending = rp.input.ending := by
  have hSome : rp.unread ≠ [] := by
    intro hNil
    have hLen := rp.unread_length
    rw [hNil, List.length_nil] at hLen
    omega
  rcases List.exists_cons_of_ne_nil hSome with ⟨d, ds, hSplit⟩
  have hParts : d :: (ds ++ rp.input.bytes) = c :: s := by
    rw [← hStream, Rio.stream, hSplit, List.cons_append]
  rcases List.cons.inj hParts with ⟨hHead, hTail⟩
  refine ⟨(copyOut rp 1).2, ?_, ?_, rfl⟩
  · apply Prod.ext
    · rw [copyOut_bytes, hSplit, hHead]
      rfl
    · rfl
  · rw [Rio.stream, copyOut_unread, copyOut_input, hSplit]
    exact hTail

/- Filling from a script that still has bytes. -/
theorem fillBuffer_ready
    (rp : Rio)
    {reads : List Read}
    (hBytes : reads.flatMap Read.bytes ≠ []) :
    ∃ rp',
      fillBuffer rp reads = (.ready, rp') ∧
        0 < rp'.rioCnt ∧
        rp'.stream = reads.flatMap Read.bytes ∧
        rp'.input.ending = rp.input.ending := by
  induction reads with
  | nil => exact absurd rfl hBytes
  | cons r reads ih =>
      cases r with
      | eintr =>
          have hRest : reads.flatMap Read.bytes ≠ [] := by
            simpa [Read.bytes] using hBytes
          rcases ih hRest with ⟨rp', hFill, hCnt, hStream, hEnd⟩
          refine ⟨rp', ?_, hCnt, ?_, hEnd⟩
          · rw [fillBuffer, hFill]
          · simpa [Read.bytes] using hStream
      | data b bs =>
          refine ⟨_, rfl, ?_, ?_, rfl⟩
          · simp [RIO_BUFSIZE]
          · simp only [Rio.stream, Rio.unread,
              List.drop_zero, Int.toNat_natCast,
              List.take_left', Source.bytes,
              flatMap_pushBack, List.flatMap_cons,
              Read.bytes]
            rw [← List.append_assoc, List.take_append_drop]

/- Filling from a script that has no bytes left. -/
theorem fillBuffer_exhausted
    (rp : Rio)
    {reads : List Read}
    (hBytes : reads.flatMap Read.bytes = []) :
    ∃ rp',
      fillBuffer rp reads =
          (match rp.input.ending with
            | .eof => (Fill.eof, rp')
            | .error => (Fill.error, rp')) ∧
        rp'.stream = [] ∧
        rp'.input.ending = rp.input.ending := by
  induction reads with
  | nil =>
      cases hEnd : rp.input.ending with
      | eof =>
          refine ⟨rp.exhausted 0 (by decide), ?_, ?_, hEnd⟩
          · rw [fillBuffer, hEnd]
          · exact rp.exhausted_stream (by decide)
      | error =>
          refine ⟨rp.exhausted (-1) (by decide), ?_, ?_,
            hEnd⟩
          · rw [fillBuffer, hEnd]
          · exact rp.exhausted_stream (by decide)
  | cons r reads ih =>
      cases r with
      | eintr =>
          have hRest : reads.flatMap Read.bytes = [] := by
            simpa [Read.bytes] using hBytes
          rcases ih hRest with ⟨rp', hFill, hStream, hEnd⟩
          exact ⟨rp', by rw [fillBuffer, hFill], hStream, hEnd⟩
      | data b bs =>
          simp [Read.bytes] at hBytes

/- One byte of a stream that has one. -/
theorem rioRead_one
    {rp : Rio}
    {c : Byte}
    {s : List Byte}
    (hStream : rp.stream = c :: s) :
    ∃ rp',
      rioRead rp 1 = (.bytes [c], rp') ∧
        rp'.stream = s ∧
        rp'.input.ending = rp.input.ending := by
  by_cases hCnt : 0 < rp.rioCnt
  · rw [rioRead, if_pos hCnt]
    exact copyOut_one hCnt hStream
  · have hInput : rp.input.bytes = c :: s := by
      rw [← hStream, Rio.stream,
        Rio.unread_of_empty (Int.not_lt.mp hCnt),
        List.nil_append]
    have hSome : rp.input.bytes ≠ [] := by
      rw [hInput]
      exact List.cons_ne_nil c s
    rcases fillBuffer_ready rp hSome with
      ⟨filled, hFill, hReady, hFilled, hEnd⟩
    rcases copyOut_one hReady (hFilled.trans hInput) with
      ⟨rp', hCopy, hRest, hEnd'⟩
    refine ⟨rp', ?_, hRest, hEnd'.trans hEnd⟩
    rw [rioRead, if_neg hCnt, hFill]
    exact hCopy

/- A stream with nothing left reports how it ended. -/
theorem rioRead_exhausted
    {rp : Rio}
    (hStream : rp.stream = []) :
    ∃ rp',
      rioRead rp 1 =
          (match rp.input.ending with
            | .eof => (.bytes [], rp')
            | .error => (.error, rp')) ∧
        rp'.stream = [] ∧
        rp'.input.ending = rp.input.ending := by
  rcases List.append_eq_nil_iff.mp hStream with ⟨hUnread, hInput⟩
  have hCnt : ¬ 0 < rp.rioCnt := by
    intro hPos
    have hLen := rp.unread_length
    rw [hUnread, List.length_nil] at hLen
    omega
  rcases fillBuffer_exhausted rp hInput with
    ⟨rp', hFill, hRest, hEnd⟩
  refine ⟨rp', ?_, hRest, hEnd⟩
  rw [rioRead, if_neg hCnt, hFill]
  cases rp.input.ending with
  | eof => rfl
  | error => rfl

------------------------------------------------------------
-- rio_readlineb
------------------------------------------------------------

/-
  What rio_readlineb returns: -1, 0 at the end of the file
  with the user's buffer untouched, or the bytes it stored
  in front of the closing NUL.
-/
inductive Readline where
  | error
  | eof
  | line (bs : List Byte)
  deriving DecidableEq, Repr

/- `left` is maxlen - n, and n is one past `line`. -/
def readlineLoop
    (line : List Byte) :
    Nat → Rio → Readline × Rio
  | 0, rp => (.line line, rp)
  | left + 1, rp =>
      match rioRead rp 1 with
      | (.bytes (c :: _), rp') =>
          if c = 10 then
            (.line (line ++ [c]), rp')
          else
            readlineLoop (line ++ [c]) left rp'
      | (.bytes [], rp') =>
          if line = [] then
            (.eof, rp')
          else
            (.line line, rp')
      | (.error, rp') => (.error, rp')

def rioReadlineb
    (rp : Rio)
    (maxlen : Nat) :
    Readline × Rio :=
  readlineLoop [] (maxlen - 1) rp

/- The step of the line loop on a stream with a byte. -/
theorem readlineLoop_cons
    (line : List Byte)
    (left : Nat)
    {rp : Rio}
    {c : Byte}
    {s : List Byte}
    (hStream : rp.stream = c :: s) :
    ∃ rp',
      readlineLoop line (left + 1) rp =
          (if c = 10 then
            (.line (line ++ [c]), rp')
          else
            readlineLoop (line ++ [c]) left rp') ∧
        rp'.stream = s ∧
        rp'.input.ending = rp.input.ending := by
  rcases rioRead_one hStream with ⟨rp', hRead, hRest, hEnd⟩
  refine ⟨rp', ?_, hRest, hEnd⟩
  rw [readlineLoop, hRead]

/- The step of the line loop on an exhausted stream. -/
theorem readlineLoop_nil
    (line : List Byte)
    (left : Nat)
    {rp : Rio}
    (hStream : rp.stream = []) :
    ∃ rp',
      readlineLoop line (left + 1) rp =
          (match rp.input.ending with
            | .eof =>
                if line = [] then
                  (.eof, rp')
                else
                  (.line line, rp')
            | .error => (.error, rp')) ∧
        rp'.stream = [] ∧
        rp'.input.ending = rp.input.ending := by
  rcases rioRead_exhausted hStream with ⟨rp', hRead, hRest, hEnd⟩
  refine ⟨rp', ?_, hRest, hEnd⟩
  rw [readlineLoop, hRead]
  cases rp.input.ending with
  | eof => rfl
  | error => rfl

/- A line the stream completes is stored whole. -/
theorem readlineLoop_of_complete
    (line : List Byte)
    (left : Nat)
    {rp : Rio}
    (hComplete : Line.Complete 10 left rp.stream) :
    ∃ rp',
      readlineLoop line left rp =
          (.line (line ++ Line.next 10 left rp.stream),
            rp') ∧
        rp'.stream =
          rp.stream.drop
            (Line.next 10 left rp.stream).length ∧
        rp'.input.ending = rp.input.ending := by
  induction left generalizing line rp with
  | zero =>
      exact ⟨rp, by simp [readlineLoop], by simp, rfl⟩
  | succ left ih =>
      cases hStream : rp.stream with
      | nil =>
          rw [hStream] at hComplete
          exact absurd hComplete (Line.not_complete_nil 10 left)
      | cons c s =>
          rcases readlineLoop_cons line left hStream with
            ⟨rp', hStep, hRest, hEnd⟩
          by_cases hc : c = 10
          · subst hc
            rw [if_pos rfl] at hStep
            rw [Line.next_cons_nl]
            exact ⟨rp', hStep, by simpa using hRest, hEnd⟩
          · rw [if_neg hc] at hStep
            rw [hStream, Line.complete_cons_ne hc,
              ← hRest] at hComplete
            rcases ih (line ++ [c]) hComplete with
              ⟨rp'', hLoop, hRest', hEnd'⟩
            rw [Line.next_cons_ne hc, ← hRest]
            refine ⟨rp'', ?_, ?_, hEnd'.trans hEnd⟩
            · rw [hStep, hLoop, List.append_assoc,
                List.singleton_append]
            · rw [hRest', List.length_cons,
                List.drop_succ_cons]

/- Before an error every incomplete line fails. -/
theorem readlineLoop_of_error
    (line : List Byte)
    (left : Nat)
    {rp : Rio}
    (hEnding : rp.input.ending = .error)
    (hComplete : ¬ Line.Complete 10 left rp.stream) :
    ∃ rp', readlineLoop line left rp = (.error, rp') := by
  induction left generalizing line rp with
  | zero =>
      exact absurd (Line.complete_zero 10 rp.stream) hComplete
  | succ left ih =>
      cases hStream : rp.stream with
      | nil =>
          rcases readlineLoop_nil line left hStream with
            ⟨rp', hStep, _, _⟩
          rw [hEnding] at hStep
          exact ⟨rp', hStep⟩
      | cons c s =>
          rcases readlineLoop_cons line left hStream with
            ⟨rp', hStep, hRest, hEnd⟩
          rw [hStream] at hComplete
          by_cases hc : c = 10
          · subst hc
            exact absurd (Line.complete_cons_nl 10 left s)
              hComplete
          · rw [if_neg hc] at hStep
            rw [Line.complete_cons_ne hc, ← hRest]
              at hComplete
            rw [hStep]
            exact ih (line ++ [c]) (hEnd.trans hEnding)
              hComplete

/- At the end of the file the line is what is left. -/
theorem readlineLoop_of_eof
    (line : List Byte)
    (left : Nat)
    {rp : Rio}
    (hEnding : rp.input.ending = .eof)
    (hSome : line ++ rp.stream ≠ []) :
    ∃ rp',
      readlineLoop line left rp =
          (.line (line ++ Line.next 10 left rp.stream),
            rp') ∧
        rp'.stream =
          rp.stream.drop
            (Line.next 10 left rp.stream).length ∧
        rp'.input.ending = .eof := by
  induction left generalizing line rp with
  | zero =>
      exact ⟨rp, by simp [readlineLoop], by simp, hEnding⟩
  | succ left ih =>
      cases hStream : rp.stream with
      | nil =>
          rcases readlineLoop_nil line left hStream with
            ⟨rp', hStep, hRest, hEnd⟩
          have hLine : line ≠ [] := by
            simpa [hStream] using hSome
          rw [hEnding, if_neg hLine] at hStep
          refine ⟨rp', ?_, ?_, hEnd.trans hEnding⟩
          · simpa using hStep
          · simpa using hRest
      | cons c s =>
          rcases readlineLoop_cons line left hStream with
            ⟨rp', hStep, hRest, hEnd⟩
          by_cases hc : c = 10
          · subst hc
            rw [if_pos rfl] at hStep
            rw [Line.next_cons_nl]
            exact ⟨rp', hStep, by simpa using hRest,
              hEnd.trans hEnding⟩
          · rw [if_neg hc] at hStep
            rcases
                ih (line ++ [c]) (hEnd.trans hEnding)
                  (by simp) with
              ⟨rp'', hLoop, hRest', hEnd'⟩
            rw [Line.next_cons_ne hc, ← hRest]
            refine ⟨rp'', ?_, ?_, hEnd'⟩
            · rw [hStep, hLoop, List.append_assoc,
                List.singleton_append]
            · rw [hRest', List.length_cons,
                List.drop_succ_cons]

------------------------------------------------------------
-- The Contract of rio_readlineb
------------------------------------------------------------

theorem rioReadlineb_of_complete
    {maxlen : Nat}
    {rp : Rio}
    (hComplete :
      Line.Complete 10 (maxlen - 1) rp.stream) :
    ∃ rp',
      rioReadlineb rp maxlen =
          (.line (Line.next 10 (maxlen - 1) rp.stream),
            rp') ∧
        rp'.stream =
          rp.stream.drop
            (Line.next 10 (maxlen - 1) rp.stream).length ∧
        rp'.input.ending = rp.input.ending := by
  rcases readlineLoop_of_complete [] (maxlen - 1) hComplete with
    ⟨rp', hLoop, hRest, hEnd⟩
  exact ⟨rp', hLoop, hRest, hEnd⟩

theorem rioReadlineb_of_eof
    {maxlen : Nat}
    {rp : Rio}
    (hEnding : rp.input.ending = .eof)
    (hSome : rp.stream ≠ []) :
    ∃ rp',
      rioReadlineb rp maxlen =
          (.line (Line.next 10 (maxlen - 1) rp.stream),
            rp') ∧
        rp'.stream =
          rp.stream.drop
            (Line.next 10 (maxlen - 1) rp.stream).length ∧
        rp'.input.ending = .eof := by
  rcases readlineLoop_of_eof [] (maxlen - 1) hEnding hSome with
    ⟨rp', hLoop, hRest, hEnd⟩
  exact ⟨rp', hLoop, hRest, hEnd⟩

theorem rioReadlineb_of_nil
    {maxlen : Nat}
    (hMaxlen : 1 < maxlen)
    {rp : Rio}
    (hEnding : rp.input.ending = .eof)
    (hStream : rp.stream = []) :
    ∃ rp',
      rioReadlineb rp maxlen = (.eof, rp') ∧
        rp'.stream = [] ∧
        rp'.input.ending = .eof := by
  obtain ⟨left, hLeft⟩ : ∃ left, maxlen - 1 = left + 1 :=
    ⟨maxlen - 2, by omega⟩
  rcases readlineLoop_nil [] left hStream with
    ⟨rp', hStep, hRest, hEnd⟩
  rw [hEnding, if_pos rfl] at hStep
  refine ⟨rp', ?_, hRest, hEnd.trans hEnding⟩
  rw [rioReadlineb, hLeft]
  exact hStep

theorem rioReadlineb_of_error
    {maxlen : Nat}
    {rp : Rio}
    (hEnding : rp.input.ending = .error)
    (hComplete :
      ¬ Line.Complete 10 (maxlen - 1) rp.stream) :
    ∃ rp', rioReadlineb rp maxlen = (.error, rp') :=
  readlineLoop_of_error [] (maxlen - 1) hEnding hComplete

------------------------------------------------------------
-- rio_writen
------------------------------------------------------------

/- One call of write(): it takes up to k + 1 bytes. -/
inductive Write where
  | taken (k : Nat)
  | eintr
  deriving DecidableEq, Repr

/-
  The writing side of a descriptor.  `room` is the number
  of bytes it takes before write() fails, without a bound
  if there is none.  `sent` is what went out, `calls` the
  buffers given to rio_writen.
-/
structure Sink where
  writes : List Write
  room : Option Nat
  sent : List Byte
  calls : List (List Byte)
  deriving DecidableEq, Repr

/- There is room for `n` more bytes. -/
def Sink.Takes
    (sink : Sink)
    (n : Nat) :
    Prop :=
  ∀ r ∈ sink.room, n ≤ r

instance
    (sink : Sink)
    (n : Nat) :
    Decidable (sink.Takes n) :=
  inferInstanceAs (Decidable (∀ r ∈ sink.room, n ≤ r))

/- How many of `n` bytes a call of write() takes. -/
def Sink.limit
    (sink : Sink)
    (n : Nat) :
    Nat :=
  match sink.room with
  | none => n
  | some r => min n r

def Sink.accept
    (sink : Sink)
    (bs : List Byte) :
    Sink :=
  { sink with
    room := sink.room.map (fun r => r - bs.length)
    sent := sink.sent ++ bs }

/-
  The loop of rio_writen; false is its return of -1.  After
  the script write() takes all it can.
-/
def writenLoop
    (sink : Sink) :
    List Byte → List Write → Bool × Sink
  | [], writes => (true, { sink with writes := writes })
  | b :: bs, [] =>
      let n := sink.limit (b :: bs).length
      (sink.Takes (b :: bs).length,
        { sink.accept ((b :: bs).take n) with writes := [] })
  | b :: bs, .eintr :: writes =>
      writenLoop sink (b :: bs) writes
  | b :: bs, .taken k :: writes =>
      let n := sink.limit (k + 1)
      if n = 0 then
        (false, { sink with writes := writes })
      else
        writenLoop (sink.accept ((b :: bs).take n))
          ((b :: bs).drop n) writes

def rioWriten
    (sink : Sink)
    (usrbuf : List Byte) :
    Bool × Sink :=
  writenLoop
    { sink with calls := sink.calls ++ [usrbuf] }
    usrbuf sink.writes

theorem Sink.limit_of_takes
    {sink : Sink}
    {n : Nat}
    (hTakes : sink.Takes n) :
    sink.limit n = n := by
  cases hRoom : sink.room with
  | none => rw [Sink.limit, hRoom]
  | some r =>
      have hLe : n ≤ r := hTakes r hRoom
      rw [Sink.limit, hRoom]
      exact min_eq_left hLe

/- A write that gets nowhere means a full descriptor. -/
theorem Sink.not_takes_of_limit
    {sink : Sink}
    {k : Nat}
    (hLimit : sink.limit (k + 1) = 0)
    (n : Nat) :
    ¬ sink.Takes (n + 1) := by
  intro hTakes
  cases hRoom : sink.room with
  | none =>
      rw [Sink.limit, hRoom] at hLimit
      exact absurd hLimit (Nat.succ_ne_zero k)
  | some r =>
      have hLe : n + 1 ≤ r := hTakes r hRoom
      rw [Sink.limit, hRoom] at hLimit
      simp only at hLimit
      omega

/- The room for the rest is what the first part leaves. -/
theorem Sink.takes_accept
    (sink : Sink)
    {m : Nat}
    (bs : List Byte) :
    (sink.accept (bs.take (sink.limit m))).Takes
        (bs.drop (sink.limit m)).length ↔
      sink.Takes bs.length := by
  cases hRoom : sink.room with
  | none => simp [Sink.Takes, Sink.accept, hRoom]
  | some r =>
      simp only [Sink.Takes, Sink.accept, Sink.limit,
        hRoom, Option.map_some, Option.mem_def,
        Option.some.injEq, forall_eq',
        List.length_take, List.length_drop]
      omega

/- A descriptor with room for it takes every byte. -/
theorem writenLoop_of_takes
    (sink : Sink)
    (bufp : List Byte)
    (writes : List Write)
    (hTakes : sink.Takes bufp.length) :
    ∃ sink',
      writenLoop sink bufp writes = (true, sink') ∧
        sink'.sent = sink.sent ++ bufp ∧
        sink'.calls = sink.calls ∧
        sink'.room =
          sink.room.map (fun r => r - bufp.length) := by
  induction writes generalizing bufp sink with
  | nil =>
      cases bufp with
      | nil => exact ⟨_, rfl, by simp, rfl, by simp⟩
      | cons b bs =>
          refine ⟨{ sink.accept (b :: bs) with
              writes := [] },
            ?_, rfl, rfl, rfl⟩
          simp only [writenLoop, Sink.limit_of_takes hTakes,
            List.take_length, hTakes, decide_true]
  | cons w writes ih =>
      cases bufp with
      | nil =>
          refine ⟨{ sink with writes := w :: writes },
            ?_, ?_, rfl, ?_⟩
          · rw [writenLoop]
          · simp
          · simp
      | cons b bs =>
          cases w with
          | eintr =>
              rw [writenLoop]
              exact ih sink (b :: bs) hTakes
          | taken k =>
              have hLimit : sink.limit (k + 1) ≠ 0 := by
                intro hZero
                exact Sink.not_takes_of_limit hZero
                  bs.length hTakes
              have hRest :=
                (@Sink.takes_accept sink (k + 1)
                  (b :: bs)).mpr hTakes
              rcases ih _ _ hRest with
                ⟨sink', hLoop, hSent, hCalls, hRoom⟩
              refine ⟨sink', ?_, ?_, hCalls, ?_⟩
              · rw [writenLoop, if_neg hLimit, hLoop]
              · rw [hSent, Sink.accept, List.append_assoc,
                  List.take_append_drop]
              · rw [hRoom, Sink.accept, Option.map_map]
                congr 1
                funext r
                simp only [Function.comp_apply,
                  List.length_take, List.length_drop]
                omega

/- Without the room the call fails. -/
theorem writenLoop_of_not_takes
    (sink : Sink)
    (bufp : List Byte)
    (writes : List Write)
    (hTakes : ¬ sink.Takes bufp.length) :
    ∃ sink', writenLoop sink bufp writes = (false, sink') := by
  induction writes generalizing bufp sink with
  | nil =>
      cases bufp with
      | nil => exact absurd (by simp [Sink.Takes]) hTakes
      | cons b bs =>
          exact ⟨_, by
            simp only [writenLoop, hTakes, decide_false]
            rfl⟩
  | cons w writes ih =>
      cases bufp with
      | nil => exact absurd (by simp [Sink.Takes]) hTakes
      | cons b bs =>
          cases w with
          | eintr =>
              rw [writenLoop]
              exact ih sink (b :: bs) hTakes
          | taken k =>
              by_cases hLimit : sink.limit (k + 1) = 0
              · refine ⟨{ sink with writes := writes }, ?_⟩
                rw [writenLoop, if_pos hLimit]
              · have hRest := hTakes
                rw [← @Sink.takes_accept sink (k + 1)
                  (b :: bs)] at hRest
                rcases ih _ _ hRest with ⟨sink', hLoop⟩
                refine ⟨sink', ?_⟩
                rw [writenLoop, if_neg hLimit, hLoop]

theorem rioWriten_of_takes
    (sink : Sink)
    (usrbuf : List Byte)
    (hTakes : sink.Takes usrbuf.length) :
    ∃ sink',
      rioWriten sink usrbuf = (true, sink') ∧
        sink'.sent = sink.sent ++ usrbuf ∧
        sink'.calls = sink.calls ++ [usrbuf] ∧
        sink'.room =
          sink.room.map (fun r => r - usrbuf.length) :=
  writenLoop_of_takes
    { sink with calls := sink.calls ++ [usrbuf] }
    usrbuf sink.writes hTakes

theorem rioWriten_of_not_takes
    (sink : Sink)
    (usrbuf : List Byte)
    (hTakes : ¬ sink.Takes usrbuf.length) :
    ∃ sink', rioWriten sink usrbuf = (false, sink') :=
  writenLoop_of_not_takes
    { sink with calls := sink.calls ++ [usrbuf] }
    usrbuf sink.writes hTakes

/- The room after one piece is the room for the next. -/
theorem Sink.takes_of_room
    {sink sink' : Sink}
    {m : Nat}
    (hRoom :
      sink'.room = sink.room.map (fun r => r - m))
    (n : Nat)
    (hm : sink.Takes m) :
    sink'.Takes n ↔ sink.Takes (m + n) := by
  cases hOld : sink.room with
  | none => simp [Sink.Takes, hRoom, hOld]
  | some r =>
      have hLe : m ≤ r := hm r hOld
      simp only [Sink.Takes, hRoom, hOld, Option.map_some,
        Option.mem_def, Option.some.injEq, forall_eq']
      omega

end Proxy

end CsappLabs
