import CsappLabs.Lib.Quoting
import CsappLabs.Lib.CharBuffer

/-
  parseline of the tiny shell: its local copy of the command
  line, the two pointers that walk over it, and every store
  it makes into argv.

  A pointer into the copy is an index, and NULL is `none`.
  The argv array is unbounded here; the indices stored to are
  recorded. What the static copy and argv held before the
  call is arbitrary.

  Key definitions include:
    * `Parse`
    * `takeWord`
    * `parseline`

  Key theorems include:
    * `nextWord_cases`
    * `buildArgv_scanned`
    * `parseline_scanned`
-/

------------------------------------------------------------
-- The Function
------------------------------------------------------------

namespace CsappLabs

namespace Shell

namespace Parseline

open CharBuffer Quoting

/- The terminator of a C string, and the single quote. -/
abbrev nul : Char := Char.ofNat 0

abbrev mark : Char := Char.ofNat 39

/- MAXLINE and MAXARGS -/
abbrev maxLine : Nat := 1024

abbrev maxArgs : Nat := 128

/- The locals of parseline and the argv it fills. -/
structure Parse where
  array : List Char
  buf : Nat
  delim : Option Nat
  argc : Nat
  argv : Nat → Option Nat
  stored : List Nat

/- `argv[i] = p` -/
def Parse.store
    (s : Parse)
    (i : Nat)
    (p : Option Nat) :
    Parse :=
  { s with
    argv := Function.update s.argv i p
    stored := s.stored ++ [i] }

/- `while (*buf && (*buf == ' ')) buf++` -/
def Parse.skipSpaces (s : Parse) : Parse :=
  { s with buf := skip nul ' ' s.array s.buf }

/- The delimiter of the word at buf, behind a quote. -/
def Parse.findDelim (s : Parse) : Parse :=
  if charAt nul s.array s.buf = mark then
    { s with
      buf := s.buf + 1
      delim := strchr nul s.array (s.buf + 1) mark }
  else
    { s with delim := strchr nul s.array s.buf ' ' }

/- The body of the loop, with the value of delim. -/
def Parse.takeWord (s : Parse) (delim : Nat) : Parse :=
  let t := s.store s.argc (some s.buf)
  { t with
    argc := s.argc + 1
    array := s.array.set delim nul
    buf := delim + 1 }.skipSpaces.findDelim

/- `while (delim)`, with a bound on the number of words. -/
def buildArgv : Nat → Parse → Parse
| 0, s => s
| fuel + 1, s =>
    match s.delim with
    | none => s
    | some delim => buildArgv fuel (s.takeWord delim)

/- strcpy into a buffer. -/
def strcpy (old line : List Char) : List Char :=
  line ++ nul :: old.drop (line.length + 1)

/- `*argv[i]` -/
def Parse.firstChar (s : Parse) (i : Nat) : Char :=
  match s.argv i with
  | some p => charAt nul s.array p
  | none => nul

/- What follows the loop: the returned value and the locals. -/
def Parse.finish (s : Parse) : Int × Parse :=
  let t := s.store s.argc none
  if s.argc = 0 then
    (1, t)
  else if t.firstChar (s.argc - 1) = '&' then
    (1, { t.store (s.argc - 1) none with argc := s.argc - 1 })
  else
    (0, t)

def parseline
    (old : List Char)
    (argv : Nat → Option Nat)
    (cmdline : List Char) :
    Int × Parse :=
  let copy := strcpy old cmdline
  let array := copy.set ((stringAt nul copy 0).length - 1) ' '
  let s : Parse :=
    { array := array
      buf := 0
      delim := none
      argc := 0
      argv := argv
      stored := [] }
  (buildArgv array.length s.skipSpaces.findDelim).finish

------------------------------------------------------------
-- One Word
------------------------------------------------------------

/- The words of a text by the quoting rules of the shell. -/
abbrev words (text : List Char) : List (List Char) :=
  wordsOf ' ' mark text

/-
  The pointer stands behind `front`, at a text that the
  terminator ends.
-/
structure At
    (front text stale : List Char)
    (s : Parse) :
    Prop where
  array : s.array = front ++ (text ++ nul :: stale)
  buf : s.buf = front.length
  noNul : nul ∉ text

variable {front text stale : List Char} {s t : Parse}

/- Behind the spaces stands the rest of the text. -/
theorem At.skipSpaces
    {n : Nat}
    {rest : List Char}
    (hAt : At front text stale s)
    (hText : text = List.replicate n ' ' ++ rest)
    (hRest : ∀ c ∈ rest.head?, c ≠ ' ') :
    At (front ++ List.replicate n ' ') rest stale
      s.skipSpaces where
  array := by
    change s.array = _
    rw [hAt.array, hText, List.append_assoc,
      List.append_assoc]
  buf := by
    have hNul := hAt.noNul
    rw [hText] at hNul
    change skip nul ' ' s.array s.buf = _
    rw [hAt.array, hAt.buf, hText, skip_append hNul hRest,
      List.length_append, List.length_replicate]
  noNul := by
    have hNul := hAt.noNul
    rw [hText, List.mem_append, not_or] at hNul
    exact hNul.2

theorem At.charAt
    (hAt : At front text stale s) :
    charAt nul s.array s.buf = text.headD nul := by
  rw [hAt.array, hAt.buf, charAt_append]

/- The buffer from the character behind a quote on. -/
theorem At.behind_mark
    {word : List Char}
    (hAt : At front (mark :: word) stale s) :
    s.array =
      (front ++ [mark]) ++ (word ++ nul :: stale) := by
  rw [hAt.array, List.append_assoc]
  rfl

/- A word between quotes. -/
theorem At.findDelim_mark
    {word : List Char}
    (hAt : At front (mark :: word) stale s) :
    s.findDelim =
      { s with
        buf := (front ++ [mark]).length
        delim :=
          strchr nul s.array (front ++ [mark]).length mark } := by
  have hFirst : CharBuffer.charAt nul s.array s.buf = mark :=
    hAt.charAt
  unfold Parse.findDelim
  rw [if_pos hFirst, hAt.buf, List.length_append]
  rfl

/- A word without one, or the end of the line. -/
theorem At.findDelim_plain
    (hAt : At front text stale s)
    (hMark : text.headD nul ≠ mark) :
    s.findDelim =
      { s with
        delim := strchr nul s.array front.length ' ' } := by
  unfold Parse.findDelim
  rw [hAt.charAt, if_neg hMark, hAt.buf]

/-
  Looking for a word either finds no delimiter, and there is
  no word, or finds the two ends of the first word.
-/
theorem nextWord_cases
    (hAt : At front text stale s) :
    (words text = [] ∧
      ∃ buf, s.skipSpaces.findDelim =
        { s with buf := buf, delim := none }) ∨
    ∃ lead word c rest,
      text = lead ++ (word ++ c :: rest) ∧
      words text = word :: words rest ∧
      s.skipSpaces.findDelim =
        { s with
          buf := (front ++ lead).length
          delim := some (front ++ lead ++ word).length } := by
  have hDiff : mark ≠ ' ' := by decide
  cases shape ' ' mark text with
  | blank n hText =>
      have hBlank : text = List.replicate n ' ' ++ [] := by
        rw [hText, List.append_nil]
      have hSkip := hAt.skipSpaces hBlank (by simp)
      refine
        Or.inl ⟨hText ▸ wordsOf_blank n, s.skipSpaces.buf, ?_⟩
      rw [hSkip.findDelim_plain (by decide), hSkip.array,
        strchr_append_none hSkip.noNul (by simp),
        ← hSkip.array]
      rfl
  | openQuoted n word hText hWord =>
      have hSkip := hAt.skipSpaces hText (by simp [hDiff])
      have hNul := (not_or.mp (List.mem_cons.not.mp
        hSkip.noNul)).2
      refine
        Or.inl
          ⟨hText ▸ wordsOf_openQuoted hDiff hWord,
            (front ++ List.replicate n ' ' ++ [mark]).length,
            ?_⟩
      rw [hSkip.findDelim_mark, hSkip.behind_mark,
        strchr_append_none hNul hWord, ← hSkip.behind_mark]
      rfl
  | openPlain n c word hText hSep hQuote hWord =>
      have hSkip := hAt.skipSpaces hText (by simp [hSep])
      refine
        Or.inl
          ⟨hText ▸ wordsOf_openPlain hSep hQuote hWord,
            s.skipSpaces.buf, ?_⟩
      rw [hSkip.findDelim_plain hQuote, hSkip.array,
        strchr_append_none hSkip.noNul
          (by simp [Ne.symm hSep, hWord]),
        ← hSkip.array]
      rfl
  | quoted n word rest hText hWord =>
      have hSkip := hAt.skipSpaces hText (by simp [hDiff])
      have hNul := (not_or.mp (List.mem_cons.not.mp
        hSkip.noNul)).2
      refine
        Or.inr
          ⟨List.replicate n ' ' ++ [mark], word, mark, rest,
            by rw [hText, List.append_assoc]; rfl,
            hText ▸ wordsOf_quoted hDiff hWord, ?_⟩
      rw [hSkip.findDelim_mark, hSkip.behind_mark,
        strchr_append hNul hWord, ← hSkip.behind_mark,
        ← List.append_assoc front]
      rfl
  | plain n c word rest hText hSep hQuote hWord =>
      have hSkip := hAt.skipSpaces hText (by simp [hSep])
      have hCons :
          c :: (word ++ ' ' :: rest) =
            (c :: word) ++ ' ' :: rest := rfl
      have hFree : ' ' ∉ c :: word := by
        simp [Ne.symm hSep, hWord]
      refine
        Or.inr
          ⟨List.replicate n ' ', c :: word, ' ', rest,
            hText, hText ▸ wordsOf_plain hSep hQuote hWord, ?_⟩
      have hNul := hSkip.noNul
      have hArray := hSkip.array
      rw [hCons] at hNul hArray
      rw [hSkip.findDelim_plain hQuote, hArray,
        strchr_append hNul hFree, ← hArray, ← hSkip.buf]
      rfl

------------------------------------------------------------
-- The Loop
------------------------------------------------------------

/-
  The loop ended with pointers to the words stored one after
  another, and left the front of the buffer alone.
-/
structure Scanned
    (front : List Char)
    (found : List (List Char))
    (s t : Parse) :
    Prop where
  delim : t.delim = none
  argc : t.argc = s.argc + found.length
  stored :
    t.stored = s.stored ++ List.range' s.argc found.length
  kept : ∀ k, k < s.argc → t.argv k = s.argv k
  argv :
    ∀ k word, found[k]? = some word →
      ∃ p, t.argv (s.argc + k) = some p ∧
        stringAt nul t.array p = word
  front : ∃ rest, t.array = front ++ rest

/- Taking a word leaves the pointer behind its terminator. -/
theorem takeWord_at
    {lead word rest : List Char}
    {c : Char}
    (hAt : At front text stale s)
    (hText : text = lead ++ (word ++ c :: rest)) :
    ∃ u, At (front ++ lead ++ word ++ [nul]) rest stale u ∧
      u.argc = s.argc + 1 ∧
      u.stored = s.stored ++ [s.argc] ∧
      u.argv =
        Function.update s.argv s.argc
          (some (front ++ lead).length) ∧
      ({ s with
        buf := (front ++ lead).length
        delim := some (front ++ lead ++ word).length }.takeWord
          (front ++ lead ++ word).length) =
        u.skipSpaces.findDelim := by
  refine
    ⟨{ s with
        argv := Function.update s.argv s.argc
          (some (front ++ lead).length)
        stored := s.stored ++ [s.argc]
        argc := s.argc + 1
        array := s.array.set (front ++ lead ++ word).length nul
        buf := (front ++ lead ++ word).length + 1
        delim := some (front ++ lead ++ word).length },
      ⟨?_, ?_, ?_⟩, rfl, rfl, rfl, rfl⟩
  · have hArray :
        s.array =
          (front ++ lead ++ word) ++
            c :: (rest ++ nul :: stale) := by
      rw [hAt.array, hText]
      simp
    change s.array.set _ nul = _
    rw [hArray, set_append]
    simp
  · change
      (front ++ lead ++ word).length + 1 =
        (front ++ lead ++ word ++ [nul]).length
    rw [@List.length_append _ (front ++ lead ++ word)]
    rfl
  · have hNul := hAt.noNul
    rw [hText] at hNul
    intro hMem
    apply hNul
    simp [hMem]

/- Without a delimiter the loop takes no word. -/
theorem Scanned.nil
    {buf : Nat}
    (hArray : s.array = front ++ stale) :
    Scanned front [] s { s with buf := buf, delim := none } where
  delim := rfl
  argc := rfl
  stored := (List.append_nil _).symm
  kept := fun _ _ => rfl
  argv := fun k word hWord => by simp at hWord
  front := ⟨stale, hArray⟩

/- A word taken and then the others. -/
theorem Scanned.cons
    {lead word : List Char}
    {others : List (List Char)}
    {u : Parse}
    (hNul : nul ∉ word)
    (hArgc : u.argc = s.argc + 1)
    (hStored : u.stored = s.stored ++ [s.argc])
    (hArgv :
      u.argv =
        Function.update s.argv s.argc
          (some (front ++ lead).length))
    (hRest :
      Scanned (front ++ lead ++ word ++ [nul]) others u t) :
    Scanned front (word :: others) s t := by
  rcases hRest.front with ⟨after, hFront⟩
  exact
    { delim := hRest.delim
      argc := by
        rw [hRest.argc, hArgc, List.length_cons]
        omega
      stored := by
        rw [hRest.stored, hStored, hArgc, List.length_cons,
          List.range'_succ, List.append_assoc]
        rfl
      kept := by
        intro k hK
        rw [hRest.kept k (by omega), hArgv]
        exact Function.update_of_ne (by omega) _ _
      argv := by
        intro k word' hFound
        cases k with
        | zero =>
            -- The word just taken stays in the buffer.
            cases hFound
            refine ⟨(front ++ lead).length, ?_, ?_⟩
            · rw [hRest.kept _ (by omega), hArgv]
              exact Function.update_self _ _ _
            · rw [hFront]
              have hSplit :
                  front ++ lead ++ word ++ [nul] ++ after =
                    (front ++ lead) ++
                      (word ++ nul :: after) := by
                simp
              rw [hSplit, stringAt_append hNul]
        | succ k =>
            have hLater := hRest.argv k word' hFound
            rw [hArgc] at hLater
            rwa [Nat.add_assoc, Nat.add_comm 1 k] at hLater
      front := ⟨lead ++ word ++ [nul] ++ after, by
        rw [hFront]
        simp⟩ }

/- The loop finds the words of the text in front of it. -/
theorem buildArgv_scanned
    (fuel : Nat) :
    ∀ {front text stale : List Char} {s : Parse},
      At front text stale s →
      text.length < fuel →
      Scanned front (words text) s
        (buildArgv fuel s.skipSpaces.findDelim) := by
  induction fuel with
  | zero => exact fun _ hFuel => absurd hFuel (Nat.not_lt_zero _)
  | succ fuel ih =>
      intro front text stale s hAt hFuel
      rcases nextWord_cases hAt with
        ⟨hNone, buf, hNext⟩ |
        ⟨lead, word, c, rest, hText, hWords, hNext⟩
      · rw [hNone, hNext, buildArgv]
        exact Scanned.nil hAt.array
      · rcases takeWord_at hAt hText with
          ⟨u, hU, hArgc, hStored, hArgv, hTake⟩
        have hShort : rest.length < fuel := by
          rw [hText] at hFuel
          simp only [List.length_append, List.length_cons]
            at hFuel
          omega
        have hNul : nul ∉ word := by
          intro hMem
          apply hAt.noNul
          rw [hText]
          simp [hMem]
        rw [hNext, buildArgv]
        simp only
        rw [hTake, hWords]
        exact
          (ih hU hShort).cons hNul hArgc hStored hArgv

------------------------------------------------------------
-- The Whole Line
------------------------------------------------------------

/- argv shows the words one after another, and then NULL. -/
structure Filled
    (found : List (List Char))
    (s : Parse) :
    Prop where
  argv :
    ∀ k word, found[k]? = some word →
      ∃ p, s.argv k = some p ∧ stringAt nul s.array p = word
  null : s.argv found.length = none

/-
  The words of a command line. Its last character, the
  newline, is read as a space.
-/
def lineWords (cmdline : List Char) : List (List Char) :=
  words (cmdline.dropLast ++ [' '])

/- A command line as fgets stores it, without its NUL. -/
structure IsLine (cmdline : List Char) : Prop where
  newline : cmdline.getLast? = some '\n'
  noNul : nul ∉ cmdline
  short : cmdline.length < maxLine

variable {old cmdline : List Char} {argv : Nat → Option Nat}

/- The copy of the line, with a space for the newline. -/
theorem copy_line
    (hLine : IsLine cmdline) :
    (strcpy old cmdline).set
        ((stringAt nul (strcpy old cmdline) 0).length - 1)
        ' ' =
      (cmdline.dropLast ++ [' ']) ++
        nul :: old.drop (cmdline.length + 1) := by
  have hString :
      stringAt nul (strcpy old cmdline) 0 = cmdline :=
    stringAt_append hLine.noNul [] _
  have hSplit :=
    List.dropLast_append_getLast? '\n' hLine.newline
  have hLength :
      cmdline.length - 1 = cmdline.dropLast.length :=
    List.length_dropLast.symm
  have hCopy :
      strcpy old cmdline =
        cmdline.dropLast ++
          '\n' :: nul :: old.drop (cmdline.length + 1) := by
    change
      _ =
        cmdline.dropLast ++
          (['\n'] ++ nul :: old.drop (cmdline.length + 1))
    rw [← List.append_assoc, hSplit]
    rfl
  rw [hString, hLength, hCopy, set_append, List.append_assoc]
  rfl

/- The loop over a whole line. -/
theorem parseline_scanned
    (old : List Char)
    (argv : Nat → Option Nat)
    (hLine : IsLine cmdline) :
    ∃ start s,
      parseline old argv cmdline = s.finish ∧
      start.argc = 0 ∧ start.stored = [] ∧
      Scanned [] (lineWords cmdline) start s := by
  have hCopy := @copy_line old cmdline hLine
  have hNul : nul ∉ cmdline.dropLast ++ [' '] := by
    intro hMem
    rcases List.mem_append.mp hMem with hBody | hSpace
    · exact hLine.noNul (List.dropLast_subset _ hBody)
    · exact absurd (List.mem_singleton.mp hSpace) (by decide)
  unfold parseline
  simp only
  rw [hCopy]
  refine ⟨_, _, rfl, ?_, ?_,
    @buildArgv_scanned _ [] _
      (old.drop (cmdline.length + 1)) _
      ⟨rfl, rfl, hNul⟩ ?_⟩
  · rfl
  · rfl
  · simp

end Parseline

end Shell

end CsappLabs
