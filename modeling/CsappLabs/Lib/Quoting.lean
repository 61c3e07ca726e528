import Mathlib.Data.List.TakeWhile
import Mathlib.Data.List.Basic

/-
  Words separated by runs of a separator, some of them
  between quotes.

  A word ends at the next separator, or at the next quote if
  a quote opens it; a word that does not end is dropped. The
  separator and the quote are any two different symbols.

  Key definitions include:
    * `Quoting.wordsOf`
    * `Quoting.Shape`
    * `Quoting.Word`
    * `Quoting.render`

  Key theorems include:
    * `Quoting.shape`
    * `Quoting.wordsOf_render`
    * `Quoting.wordsOf_line`
-/

namespace Quoting

variable {α : Type} [DecidableEq α]
variable {sep quote : α}

------------------------------------------------------------
-- Scanning
------------------------------------------------------------

/- Between two words, or inside one with what came so far. -/
inductive Mode (α : Type) where
| between
| plain (word : List α)
| quoted (word : List α)

/- The words that end in a text. -/
def wordsFrom (sep quote : α) :
    Mode α → List α → List (List α)
| _, [] => []
| .between, c :: rest =>
    if c = sep then
      wordsFrom sep quote .between rest
    else if c = quote then
      wordsFrom sep quote (.quoted []) rest
    else
      wordsFrom sep quote (.plain [c]) rest
| .plain word, c :: rest =>
    if c = sep then
      word :: wordsFrom sep quote .between rest
    else
      wordsFrom sep quote (.plain (word ++ [c])) rest
| .quoted word, c :: rest =>
    if c = quote then
      word :: wordsFrom sep quote .between rest
    else
      wordsFrom sep quote (.quoted (word ++ [c])) rest

def wordsOf (sep quote : α) (text : List α) :
    List (List α) :=
  wordsFrom sep quote .between text

theorem wordsOf_sep (text : List α) :
    wordsOf sep quote (sep :: text) =
      wordsOf sep quote text := by
  unfold wordsOf
  rw [wordsFrom, if_pos rfl]

theorem wordsOf_seps (n : Nat) (text : List α) :
    wordsOf sep quote (List.replicate n sep ++ text) =
      wordsOf sep quote text := by
  induction n with
  | zero => rfl
  | succ n ih =>
      rw [List.replicate_succ, List.cons_append, wordsOf_sep,
        ih]

/- A plain word grows up to the next separator. -/
theorem wordsFrom_plain
    {more : List α}
    (hMore : sep ∉ more)
    (word rest : List α) :
    wordsFrom sep quote (.plain word) (more ++ sep :: rest) =
      (word ++ more) :: wordsOf sep quote rest := by
  induction more generalizing word with
  | nil =>
      rw [List.nil_append, wordsFrom, if_pos rfl,
        List.append_nil]
      rfl
  | cons c more ih =>
      rw [List.mem_cons, not_or] at hMore
      rw [List.cons_append, wordsFrom,
        if_neg (Ne.symm hMore.1), ih hMore.2,
        List.append_assoc]
      rfl

theorem wordsFrom_plain_open
    {more : List α}
    (hMore : sep ∉ more)
    (word : List α) :
    wordsFrom sep quote (.plain word) more = [] := by
  induction more generalizing word with
  | nil => rfl
  | cons c more ih =>
      rw [List.mem_cons, not_or] at hMore
      rw [wordsFrom, if_neg (Ne.symm hMore.1), ih hMore.2]

/- A quoted word grows up to the next quote. -/
theorem wordsFrom_quoted
    {more : List α}
    (hMore : quote ∉ more)
    (word rest : List α) :
    wordsFrom sep quote (.quoted word)
        (more ++ quote :: rest) =
      (word ++ more) :: wordsOf sep quote rest := by
  induction more generalizing word with
  | nil =>
      rw [List.nil_append, wordsFrom, if_pos rfl,
        List.append_nil]
      rfl
  | cons c more ih =>
      rw [List.mem_cons, not_or] at hMore
      rw [List.cons_append, wordsFrom,
        if_neg (Ne.symm hMore.1), ih hMore.2,
        List.append_assoc]
      rfl

theorem wordsFrom_quoted_open
    {more : List α}
    (hMore : quote ∉ more)
    (word : List α) :
    wordsFrom sep quote (.quoted word) more = [] := by
  induction more generalizing word with
  | nil => rfl
  | cons c more ih =>
      rw [List.mem_cons, not_or] at hMore
      rw [wordsFrom, if_neg (Ne.symm hMore.1), ih hMore.2]

------------------------------------------------------------
-- The First Word
------------------------------------------------------------

/- How a text begins, up to the end of its first word. -/
inductive Shape (sep quote : α) (text : List α) : Prop
| blank (n : Nat)
    (hText : text = List.replicate n sep)
| openQuoted (n : Nat) (word : List α)
    (hText : text = List.replicate n sep ++ quote :: word)
    (hWord : quote ∉ word)
| openPlain (n : Nat) (c : α) (word : List α)
    (hText : text = List.replicate n sep ++ c :: word)
    (hSep : c ≠ sep)
    (hQuote : c ≠ quote)
    (hWord : sep ∉ word)
| quoted (n : Nat) (word rest : List α)
    (hText :
      text =
        List.replicate n sep ++
          quote :: (word ++ quote :: rest))
    (hWord : quote ∉ word)
| plain (n : Nat) (c : α) (word rest : List α)
    (hText :
      text =
        List.replicate n sep ++ c :: (word ++ sep :: rest))
    (hSep : c ≠ sep)
    (hQuote : c ≠ quote)
    (hWord : sep ∉ word)

/- A text either lacks a symbol or goes on after the first. -/
theorem split_at_first
    (c : α)
    (text : List α) :
    c ∉ text ∨
      ∃ before after,
        text = before ++ c :: after ∧ c ∉ before := by
  by_cases hMem : c ∈ text
  · exact Or.inr (List.eq_append_cons_of_mem hMem)
  · exact Or.inl hMem

/- One more separator in front. -/
omit [DecidableEq α] in
theorem Shape.cons_sep
    {text : List α}
    (hShape : Shape sep quote text) :
    Shape sep quote (sep :: text) := by
  cases hShape with
  | blank n hText =>
      exact .blank (n + 1) (by rw [hText]; rfl)
  | openQuoted n word hText hWord =>
      exact .openQuoted (n + 1) word (by rw [hText]; rfl) hWord
  | openPlain n c word hText hSep hQuote hWord =>
      exact
        .openPlain (n + 1) c word (by rw [hText]; rfl) hSep
          hQuote hWord
  | quoted n word rest hText hWord =>
      exact
        .quoted (n + 1) word rest (by rw [hText]; rfl) hWord
  | plain n c word rest hText hSep hQuote hWord =>
      exact
        .plain (n + 1) c word rest (by rw [hText]; rfl) hSep
          hQuote hWord

theorem shape (sep quote : α) (text : List α) :
    Shape sep quote text := by
  induction text with
  | nil => exact .blank 0 rfl
  | cons c rest ih =>
      by_cases hSep : c = sep
      · rw [hSep]
        exact ih.cons_sep
      · by_cases hQuote : c = quote
        · rcases split_at_first quote rest with
            hOpen | ⟨word, after, hRest, hWord⟩
          · exact .openQuoted 0 rest (by rw [hQuote]; rfl) hOpen
          · exact
              .quoted 0 word after (by rw [hQuote, hRest]; rfl)
                hWord
        · rcases split_at_first sep rest with
            hOpen | ⟨word, after, hRest, hWord⟩
          · exact .openPlain 0 c rest rfl hSep hQuote hOpen
          · exact
              .plain 0 c word after (by rw [hRest]; rfl) hSep
                hQuote hWord

theorem wordsOf_blank (n : Nat) :
    wordsOf sep quote (List.replicate n sep) = [] := by
  have hSeps := @wordsOf_seps α _ sep quote n []
  rw [List.append_nil] at hSeps
  rw [hSeps]
  rfl

theorem wordsOf_openQuoted
    {n : Nat} {word : List α}
    (hDiff : quote ≠ sep)
    (hWord : quote ∉ word) :
    wordsOf sep quote
      (List.replicate n sep ++ quote :: word) = [] := by
  rw [wordsOf_seps, wordsOf, wordsFrom, if_neg hDiff,
    if_pos rfl, wordsFrom_quoted_open hWord]

theorem wordsOf_openPlain
    {n : Nat} {c : α} {word : List α}
    (hSep : c ≠ sep)
    (hQuote : c ≠ quote)
    (hWord : sep ∉ word) :
    wordsOf sep quote
      (List.replicate n sep ++ c :: word) = [] := by
  rw [wordsOf_seps, wordsOf, wordsFrom, if_neg hSep,
    if_neg hQuote, wordsFrom_plain_open hWord]

theorem wordsOf_quoted
    {n : Nat} {word rest : List α}
    (hDiff : quote ≠ sep)
    (hWord : quote ∉ word) :
    wordsOf sep quote
        (List.replicate n sep ++
          quote :: (word ++ quote :: rest)) =
      word :: wordsOf sep quote rest := by
  rw [wordsOf_seps, wordsOf, wordsFrom, if_neg hDiff,
    if_pos rfl, wordsFrom_quoted hWord, List.nil_append]

theorem wordsOf_plain
    {n : Nat} {c : α} {word rest : List α}
    (hSep : c ≠ sep)
    (hQuote : c ≠ quote)
    (hWord : sep ∉ word) :
    wordsOf sep quote
        (List.replicate n sep ++
          c :: (word ++ sep :: rest)) =
      (c :: word) :: wordsOf sep quote rest := by
  rw [wordsOf_seps, wordsOf, wordsFrom, if_neg hSep,
    if_neg hQuote, wordsFrom_plain hWord]
  rfl

------------------------------------------------------------
-- Writing Words
------------------------------------------------------------

/- A word that can be written plainly or between quotes. -/
inductive Word (sep quote : α) where
| plain (first : α) (rest : List α)
    (hFirst : first ≠ sep ∧ first ≠ quote)
    (hRest : sep ∉ rest)
| quoted (text : List α) (hText : quote ∉ text)

def Word.text : Word sep quote → List α
| .plain first rest _ _ => first :: rest
| .quoted text _ => text

def Word.render : Word sep quote → List α
| .plain first rest _ _ => first :: rest
| .quoted text _ => quote :: (text ++ [quote])

/- Words, each after a separator and any number more. -/
def render : List (Nat × Word sep quote) → List α
| [] => []
| (gap, word) :: rest =>
    List.replicate (gap + 1) sep ++
      (word.render ++ render rest)

/- A written word in front of a separator is read back. -/
theorem Word.wordsOf_render
    (hDiff : quote ≠ sep)
    (word : Word sep quote)
    (rest : List α) :
    wordsOf sep quote (word.render ++ sep :: rest) =
      word.text :: wordsOf sep quote (sep :: rest) := by
  cases word with
  | plain first more hFirst hMore =>
      have hWords :=
        @wordsOf_plain α _ sep quote 0 first more rest
          hFirst.1 hFirst.2 hMore
      rw [wordsOf_sep]
      exact hWords
  | quoted text hText =>
      have hWords :=
        @wordsOf_quoted α _ sep quote 0 text (sep :: rest)
          hDiff hText
      simpa [Word.render, Word.text] using hWords

/-
  A sequence of written words followed by a separator begins
  with a separator.
-/
omit [DecidableEq α] in
theorem render_append_sep
    (words : List (Nat × Word sep quote))
    (rest : List α) :
    ∃ rest',
      render words ++ sep :: rest = sep :: rest' := by
  cases words with
  | nil => exact ⟨rest, rfl⟩
  | cons item words => exact ⟨_, rfl⟩

/- Written words are read back. -/
theorem wordsOf_render
    (hDiff : quote ≠ sep)
    (words : List (Nat × Word sep quote))
    (n : Nat) :
    wordsOf sep quote
        (render words ++ List.replicate (n + 1) sep) =
      words.map fun item => item.2.text := by
  induction words with
  | nil => exact wordsOf_blank (n + 1)
  | cons item words ih =>
      rcases render_append_sep words (List.replicate n sep)
        with ⟨rest, hRest⟩
      change
        render words ++ List.replicate (n + 1) sep =
          sep :: rest at hRest
      have hSplit :
          render (item :: words) ++
              List.replicate (n + 1) sep =
            List.replicate (item.1 + 1) sep ++
              (item.2.render ++ sep :: rest) := by
        rw [← hRest]
        simp only [render, List.append_assoc]
      rw [hSplit, wordsOf_seps, item.2.wordsOf_render hDiff,
        ← hRest, ih, List.map_cons]

/- The same with separators or none in front of the first. -/
theorem wordsOf_line
    (hDiff : quote ≠ sep)
    (lead : Nat)
    (first : Word sep quote)
    (words : List (Nat × Word sep quote))
    (n : Nat) :
    wordsOf sep quote
        (List.replicate lead sep ++
          (first.render ++
            (render words ++ List.replicate (n + 1) sep))) =
      first.text :: words.map fun item => item.2.text := by
  rcases render_append_sep words (List.replicate n sep)
    with ⟨rest, hRest⟩
  change
    render words ++ List.replicate (n + 1) sep =
      sep :: rest at hRest
  rw [wordsOf_seps, hRest, first.wordsOf_render hDiff,
    ← hRest, wordsOf_render hDiff]

end Quoting
