import CsappLabs.Shell.Parseline

/-
  Command lines as they are written and what parseline makes
  of them.

  Written words are read back, a last word that begins with
  an ampersand asks for the background, and the stores into
  argv stay inside it when the line has less than MAXARGS
  words.

  Key definitions include:
    * `ShellWord`
    * `CommandLine`
    * `Ampersand`

  Key theorems include:
    * `finish_foreground`
    * `finish_background`
    * `parseline_undoes_quoting`
    * `parseline_stores_iff`
-/

------------------------------------------------------------
-- The End of parseline
------------------------------------------------------------

namespace CsappLabs

namespace Shell

namespace Parseline

open CharBuffer Quoting

variable {found : List (List Char)} {start s : Parse}
variable {old cmdline : List Char} {argv : Nat → Option Nat}

/- The last word begins with an ampersand. -/
def Ampersand (found : List (List Char)) : Prop :=
  found.getLast?.bind List.head? = some '&'

instance (found : List (List Char)) :
    Decidable (Ampersand found) :=
  inferInstanceAs (Decidable (_ = _))

/- The result of the loop on a whole line. -/
structure WholeLine
    (found : List (List Char))
    (s : Parse) :
    Prop where
  argc : s.argc = found.length
  stored : s.stored = List.range found.length
  argv :
    ∀ k word, found[k]? = some word →
      ∃ p, s.argv k = some p ∧ stringAt nul s.array p = word

theorem Scanned.wholeLine
    (hScanned : Scanned [] found start s)
    (hArgc : start.argc = 0)
    (hStored : start.stored = []) :
    WholeLine found s where
  argc := by
    rw [hScanned.argc, hArgc, Nat.zero_add]
  stored := by
    rw [hScanned.stored, hStored, hArgc, List.nil_append,
      List.range_eq_range']
  argv := by
    intro k word hWord
    have hArgv := hScanned.argv k word hWord
    rwa [hArgc, Nat.zero_add] at hArgv

/- The terminating NULL leaves the words alone. -/
theorem WholeLine.store_null
    (hWhole : WholeLine found s) :
    Filled found (s.store s.argc none) where
  argv := by
    intro k word hWord
    have hLt : k < found.length :=
      (List.getElem?_eq_some_iff.mp hWord).1
    rcases hWhole.argv k word hWord with ⟨p, hArgv, hString⟩
    refine ⟨p, ?_, hString⟩
    rw [← hArgv, Parse.store, hWhole.argc]
    exact Function.update_of_ne (by omega) _ _
  null := by
    rw [Parse.store, hWhole.argc]
    exact Function.update_self _ _ _

/- The test for the background looks at the last word. -/
theorem WholeLine.firstChar_iff
    (hWhole : WholeLine found s)
    (hSome : found ≠ []) :
    (s.store s.argc none).firstChar (s.argc - 1) = '&' ↔
      Ampersand found := by
  rcases List.eq_nil_or_concat found with
    hNil | ⟨front, last, rfl⟩
  · exact absurd hNil hSome
  · have hLast :
        (front.concat last)[front.length]? = some last := by
      simp
    rcases hWhole.store_null.argv _ last hLast with
      ⟨p, hArgv, hString⟩
    have hIndex : s.argc - 1 = front.length := by
      rw [hWhole.argc, List.length_concat]
      omega
    unfold Parse.firstChar
    rw [hIndex, hArgv]
    simp only
    rw [charAt_eq_headD, hString]
    cases last with
    | nil =>
        simp only [Ampersand, List.headD_nil]
        simp
        decide
    | cons c rest => simp [Ampersand]

theorem finish_blank
    (hWhole : WholeLine [] s) :
    s.finish = (1, s.store 0 none) := by
  have hArgc : s.argc = 0 := hWhole.argc
  unfold Parse.finish
  simp only
  rw [if_pos hArgc, hArgc]

/- Without an ampersand all words stay, and 0 is returned. -/
theorem finish_foreground
    (hWhole : WholeLine found s)
    (hSome : found ≠ [])
    (hNot : ¬Ampersand found) :
    s.finish.1 = 0 ∧
      Filled found s.finish.2 ∧
      s.finish.2.stored = List.range (found.length + 1) := by
  have hPos : s.argc ≠ 0 := by
    rw [hWhole.argc]
    exact fun hZero => hSome (List.length_eq_zero_iff.mp hZero)
  have hFinish : s.finish = (0, s.store s.argc none) := by
    unfold Parse.finish
    simp only
    rw [if_neg hPos, if_neg]
    exact fun hAmp =>
      hNot ((hWhole.firstChar_iff hSome).mp hAmp)
  rw [hFinish]
  refine ⟨rfl, hWhole.store_null, ?_⟩
  change s.stored ++ [s.argc] = _
  rw [hWhole.stored, hWhole.argc, List.range_succ]

/- With one the last word goes, and 1 is returned. -/
theorem finish_background
    (hWhole : WholeLine found s)
    (hAmp : Ampersand found) :
    s.finish.1 = 1 ∧
      Filled found.dropLast s.finish.2 ∧
      s.finish.2.stored =
        List.range (found.length + 1) ++
          [found.length - 1] := by
  have hSome : found ≠ [] := by
    rintro rfl
    cases hAmp
  have hPos : s.argc ≠ 0 := by
    rw [hWhole.argc]
    exact fun hZero => hSome (List.length_eq_zero_iff.mp hZero)
  have hFinish :
      s.finish =
        (1, { (s.store s.argc none).store (s.argc - 1) none
          with argc := s.argc - 1 }) := by
    unfold Parse.finish
    simp only
    rw [if_neg hPos]
    exact if_pos ((hWhole.firstChar_iff hSome).mpr hAmp)
  have hFilled := hWhole.store_null
  rw [hFinish]
  refine ⟨rfl, ⟨?_, ?_⟩, ?_⟩
  · intro k word hWord
    have hLt : k < found.dropLast.length :=
      (List.getElem?_eq_some_iff.mp hWord).1
    rw [List.length_dropLast] at hLt
    rw [List.getElem?_dropLast, if_pos hLt] at hWord
    rcases hFilled.argv k word hWord with ⟨p, hArgv, hString⟩
    refine ⟨p, ?_, hString⟩
    rw [← hArgv, hWhole.argc]
    exact Function.update_of_ne (by omega) _ _
  · rw [List.length_dropLast, hWhole.argc]
    exact Function.update_self _ _ _
  · change s.stored ++ [s.argc] ++ [s.argc - 1] = _
    rw [hWhole.stored, hWhole.argc, List.range_succ]

theorem parseline_wholeLine
    (old : List Char)
    (argv : Nat → Option Nat)
    (hLine : IsLine cmdline) :
    ∃ s, parseline old argv cmdline = s.finish ∧
      WholeLine (lineWords cmdline) s := by
  rcases parseline_scanned old argv hLine with
    ⟨start, s, hParse, hArgc, hStored, hScanned⟩
  exact ⟨s, hParse, hScanned.wholeLine hArgc hStored⟩

------------------------------------------------------------
-- Stores Into argv
------------------------------------------------------------

/- The highest store is the terminating NULL. -/
theorem parseline_stored_iff
    (old : List Char)
    (argv : Nat → Option Nat)
    (hLine : IsLine cmdline)
    (bound : Nat) :
    (∀ k ∈ (parseline old argv cmdline).2.stored, k < bound) ↔
      (lineWords cmdline).length < bound := by
  rcases parseline_wholeLine old argv hLine with
    ⟨s, hParse, hWhole⟩
  have hRange :
      (∀ k ∈ List.range ((lineWords cmdline).length + 1),
        k < bound) ↔ (lineWords cmdline).length < bound := by
    simp only [List.mem_range]
    exact
      ⟨fun hAll => hAll _ (Nat.lt_succ_self _),
        fun hLt k hK => by omega⟩
  rw [hParse]
  by_cases hSome : lineWords cmdline = []
  · rw [hSome] at hWhole ⊢
    rw [finish_blank hWhole]
    change (∀ k ∈ s.stored ++ [0], k < bound) ↔ _
    rw [hWhole.stored]
    simp
  · by_cases hAmp : Ampersand (lineWords cmdline)
    · rw [(finish_background hWhole hAmp).2.2]
      constructor
      · intro hAll
        apply hRange.mp
        exact fun k hK => hAll k (List.mem_append_left _ hK)
      · intro hLt k hK
        rcases List.mem_append.mp hK with hRun | hLast
        · exact hRange.mpr hLt k hRun
        · have hEq := List.mem_singleton.mp hLast
          omega
    · rw [(finish_foreground hWhole hSome hAmp).2.2]
      exact hRange

/-
  Every store into argv is inside it exactly when the line
  has less than MAXARGS words.
-/
theorem parseline_stores_iff
    (old : List Char)
    (argv : Nat → Option Nat)
    (cmdline : List Char)
    (hLine : IsLine cmdline) :
    (∀ k ∈ (parseline old argv cmdline).2.stored,
      k < maxArgs) ↔
      (lineWords cmdline).length < maxArgs :=
  parseline_stored_iff old argv hLine maxArgs

/- A line of `n` words `a`, each followed by a space. -/
def manyWords (n : Nat) : List Char :=
  (List.replicate n ['a', ' ']).flatten ++ ['\n']

theorem isLine_manyWords : IsLine (manyWords 128) where
  newline := by decide +kernel
  noNul := by decide +kernel
  short := by decide +kernel

/- `ls -l` with an empty argument. -/
theorem parseline_stores_iff_three :
    (lineWords "ls -l ''\n".toList).length = 3 ∧
      ∀ k ∈ (parseline [] (fun _ => none)
          "ls -l ''\n".toList).2.stored,
        k < maxArgs := by
  constructor
  · decide +kernel
  · apply (parseline_stores_iff _ _ _ ⟨_, _, _⟩).mpr
    · decide +kernel
    · decide +kernel
    · decide +kernel
    · decide +kernel

/- 128 words of one letter make a line of 257 characters. -/
theorem parseline_stores_past_argv :
    IsLine (manyWords 128) ∧
      ¬∀ k ∈ (parseline [] (fun _ => none)
          (manyWords 128)).2.stored,
        k < maxArgs := by
  refine ⟨isLine_manyWords, ?_⟩
  rw [parseline_stored_iff _ _ isLine_manyWords]
  decide +kernel

------------------------------------------------------------
-- Written Lines
------------------------------------------------------------

/-
  A word without newline and NUL, plain or between quotes.
-/
structure ShellWord where
  word : Word ' ' mark
  clean : ∀ c ∈ word.text, c ≠ '\n' ∧ c ≠ nul

theorem clean_of_all
    {word : Word ' ' mark}
    (hAll :
      word.text.all
        (fun c => decide (c ≠ '\n' ∧ c ≠ nul)) = true) :
    ∀ c ∈ word.text, c ≠ '\n' ∧ c ≠ nul :=
  fun c hMem =>
    of_decide_eq_true (List.all_eq_true.mp hAll c hMem)

/-
  Words with their gaps: spaces before the first, one space
  and any number more before each of the others and before
  the ampersand, if there is one, and spaces after the last.
-/
structure CommandLine where
  leading : Nat
  first : ShellWord
  others : List (Nat × ShellWord)
  background : Option Nat
  trailing : Nat

/- The ampersand as a word of its own. -/
def ampersand : ShellWord where
  word := .plain '&' [] (by decide) (by decide)
  clean := clean_of_all (by decide)

variable {line : CommandLine}

/- The words behind the first, the ampersand among them. -/
def CommandLine.items
    (line : CommandLine) :
    List (Nat × ShellWord) :=
  match line.background with
  | none => line.others
  | some gap => line.others ++ [(gap, ampersand)]

def CommandLine.render (line : CommandLine) : List Char :=
  List.replicate line.leading ' ' ++
    (line.first.word.render ++
      (Quoting.render
          (line.items.map fun item => (item.1, item.2.word)) ++
        (List.replicate line.trailing ' ' ++ ['\n'])))

/- The words the line was written for. -/
def CommandLine.words
    (line : CommandLine) :
    List (List Char) :=
  line.first.word.text ::
    line.others.map fun item => item.2.word.text

/- All the words are scanned back. -/
theorem lineWords_render (line : CommandLine) :
    lineWords line.render =
      line.first.word.text ::
        line.items.map fun item => item.2.word.text := by
  have hBody :
      line.render.dropLast ++ [' '] =
        List.replicate line.leading ' ' ++
          (line.first.word.render ++
            (Quoting.render
                (line.items.map fun item =>
                  (item.1, item.2.word)) ++
              List.replicate (line.trailing + 1) ' ')) := by
    unfold CommandLine.render
    rw [← List.append_assoc, ← List.append_assoc,
      ← List.append_assoc, List.dropLast_concat,
      List.replicate_succ']
    simp only [List.append_assoc]
  rw [lineWords, hBody, words, wordsOf_line (by decide),
    List.map_map]
  rfl

theorem lineWords_foreground
    (hBackground : line.background = none) :
    lineWords line.render = line.words := by
  rw [lineWords_render, CommandLine.items, hBackground]
  rfl

theorem lineWords_background
    {gap : Nat}
    (hBackground : line.background = some gap) :
    lineWords line.render = line.words ++ [['&']] := by
  rw [lineWords_render, CommandLine.items, hBackground]
  simp only [List.map_append]
  rfl

theorem nul_notMem_word (word : ShellWord) :
    nul ∉ word.word.render := by
  have hText : nul ∉ word.word.text :=
    fun hMem => (word.clean nul hMem).2 rfl
  cases hWord : word.word with
  | plain first rest hFirst hRest =>
      rw [hWord] at hText
      exact hText
  | quoted text hQuote =>
      rw [hWord] at hText
      intro hMem
      have hCases : nul = mark ∨ nul ∈ text ∨ nul = mark := by
        simpa [Word.render] using hMem
      rcases hCases with hMark | hIn | hMark
      · exact absurd hMark (by decide)
      · exact hText hIn
      · exact absurd hMark (by decide)

theorem nul_notMem_spaces (n : Nat) :
    nul ∉ List.replicate n ' ' := by
  intro hMem
  exact absurd (List.eq_of_mem_replicate hMem) (by decide)

theorem nul_notMem_items
    (items : List (Nat × ShellWord)) :
    nul ∉ Quoting.render
      (items.map fun item => (item.1, item.2.word)) := by
  induction items with
  | nil => exact List.not_mem_nil
  | cons item items ih =>
      intro hMem
      rcases List.mem_append.mp hMem with hGap | hRest
      · exact nul_notMem_spaces _ hGap
      · rcases List.mem_append.mp hRest with hWord | hItems
        · exact nul_notMem_word item.2 hWord
        · exact ih hItems

/- A written line is one that fgets can store. -/
theorem isLine_render
    (hShort : line.render.length < maxLine) :
    IsLine line.render where
  newline := by
    unfold CommandLine.render
    simp
  noNul := by
    intro hMem
    rcases List.mem_append.mp hMem with hLead | hMem
    · exact nul_notMem_spaces _ hLead
    · rcases List.mem_append.mp hMem with hFirst | hMem
      · exact nul_notMem_word line.first hFirst
      · rcases List.mem_append.mp hMem with hItems | hMem
        · exact nul_notMem_items line.items hItems
        · rcases List.mem_append.mp hMem with hTrail | hLast
          · exact nul_notMem_spaces _ hTrail
          · exact absurd (List.mem_singleton.mp hLast)
              (by decide)
  short := hShort

/-
  parseline undoes the quoting of a written line: argv shows
  its words and then NULL, and the returned value tells
  whether the ampersand stood behind them.
-/
theorem parseline_undoes_quoting
    (line : CommandLine)
    (old : List Char)
    (argv : Nat → Option Nat)
    (hCount : line.words.length ≤ 126)
    (hShort : line.render.length < maxLine)
    (hLast : ¬Ampersand line.words) :
    Filled line.words (parseline old argv line.render).2 ∧
      ((parseline old argv line.render).1 = 0 ↔
        line.background = none) ∧
      ∀ k ∈ (parseline old argv line.render).2.stored,
        k < maxArgs := by
  have hLine := isLine_render hShort
  have hMax : maxArgs = 128 := rfl
  rw [parseline_stored_iff old argv hLine]
  rcases parseline_wholeLine old argv hLine with
    ⟨s, hParse, hWhole⟩
  rw [hParse]
  cases hBackground : line.background with
  | none =>
      rw [lineWords_foreground hBackground] at hWhole ⊢
      have hEnd :=
        finish_foreground hWhole (by simp [CommandLine.words])
          hLast
      exact
        ⟨hEnd.2.1, iff_of_true hEnd.1 rfl, by omega⟩
  | some gap =>
      rw [lineWords_background hBackground] at hWhole ⊢
      have hEnd :=
        finish_background hWhole (by simp [Ampersand])
      rw [List.dropLast_concat] at hEnd
      refine ⟨hEnd.2.1, iff_of_false ?_ (by simp), ?_⟩
      · rw [hEnd.1]
        decide
      · rw [List.length_append, List.length_singleton]
        omega

/- `/bin/echo 'a b'  '' &`, with spaces around. -/
def echoLine : CommandLine where
  leading := 2
  first :=
    ⟨.plain '/' "bin/echo".toList (by decide) (by decide),
      clean_of_all (by decide)⟩
  others :=
    [(0, ⟨.quoted "a b".toList (by decide),
        clean_of_all (by decide)⟩),
      (1, ⟨.quoted [] (by decide),
        clean_of_all (by decide)⟩)]
  background := some 0
  trailing := 1

theorem parseline_undoes_quoting_echo :
    Filled echoLine.words
        (parseline [] (fun _ => none) echoLine.render).2 ∧
      ((parseline [] (fun _ => none) echoLine.render).1 = 0 ↔
        echoLine.background = none) ∧
      ∀ k ∈ (parseline [] (fun _ => none)
          echoLine.render).2.stored,
        k < maxArgs :=
  parseline_undoes_quoting echoLine [] (fun _ => none)
    (by decide) (by decide) (by decide)

end Parseline

end Shell

end CsappLabs
