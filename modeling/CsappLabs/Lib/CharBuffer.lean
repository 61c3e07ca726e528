import Mathlib.Data.List.TakeWhile
import Mathlib.Data.List.Basic

/-
  Strings in a buffer, named by the index of their first
  character and ended by a terminator.

  A buffer is described from one index on: what stands in
  front of it, the string there, and what the terminator
  hides.

  Key definitions include:
    * `CharBuffer.stringAt`
    * `CharBuffer.skip`
    * `CharBuffer.strchr`

  Key theorems include:
    * `CharBuffer.stringAt_append`
    * `CharBuffer.skip_append`
    * `CharBuffer.strchr_append`
    * `CharBuffer.set_append`
-/

namespace CharBuffer

variable {α : Type} [DecidableEq α]
variable {nul c : α}

------------------------------------------------------------
-- Reading
------------------------------------------------------------

/- The string that begins at an index. -/
def stringAt (nul : α) (a : List α) (p : Nat) : List α :=
  (a.drop p).takeWhile fun c => decide (c ≠ nul)

/- `*p` -/
def charAt (nul : α) (a : List α) (p : Nat) : α :=
  a.getD p nul

/- `while (*p && *p == c) p++` -/
def skip (nul c : α) (a : List α) (p : Nat) : Nat :=
  p + ((stringAt nul a p).takeWhile
    fun d => decide (d = c)).length

/- `strchr(p, c)` for a `c` that is not the terminator. -/
def strchr
    (nul : α)
    (a : List α)
    (p : Nat)
    (c : α) :
    Option Nat :=
  ((stringAt nul a p).findIdx? fun d => decide (d = c)).map
    (p + ·)

variable {text : List α}

theorem stringAt_append
    (hText : nul ∉ text)
    (before stale : List α) :
    stringAt nul (before ++ (text ++ nul :: stale))
      before.length = text := by
  have hAll : ∀ d ∈ text, decide (d ≠ nul) = true := by
    intro d hMem
    apply decide_eq_true
    rintro rfl
    exact hText hMem
  rw [stringAt, List.drop_left,
    List.takeWhile_append_of_pos hAll,
    List.takeWhile_cons_of_neg (by simp), List.append_nil]

omit [DecidableEq α] in
theorem charAt_append (before text stale : List α) :
    charAt nul (before ++ (text ++ nul :: stale))
      before.length = text.headD nul := by
  rw [charAt, List.getD_eq_getElem?_getD,
    List.getElem?_append_right (Nat.le_refl _), Nat.sub_self]
  cases text with
  | nil => rfl
  | cons d rest => rfl

/- The character at an index begins the string there. -/
theorem charAt_eq_headD (a : List α) (p : Nat) :
    charAt nul a p = (stringAt nul a p).headD nul := by
  rw [charAt, stringAt, List.getD_eq_getElem?_getD,
    ← List.head?_drop]
  cases a.drop p with
  | nil => rfl
  | cons d rest =>
      by_cases hNul : d = nul
      · rw [List.takeWhile_cons_of_neg (by simpa using hNul)]
        exact hNul
      · rw [List.takeWhile_cons_of_pos (by simpa using hNul)]
        rfl

/- The loop stops behind the run of characters skipped. -/
theorem skip_append
    {n : Nat}
    {rest : List α}
    (hText : nul ∉ List.replicate n c ++ rest)
    (hRest : ∀ d ∈ rest.head?, d ≠ c)
    (before stale : List α) :
    skip nul c
        (before ++
          (List.replicate n c ++ rest ++ nul :: stale))
        before.length =
      before.length + n := by
  have hRun :
      (List.replicate n c ++ rest).takeWhile
          (fun d => decide (d = c)) =
        List.replicate n c := by
    have hAll :
        ∀ d ∈ List.replicate n c, decide (d = c) = true := by
      intro d hMem
      exact decide_eq_true (List.eq_of_mem_replicate hMem)
    rw [List.takeWhile_append_of_pos hAll]
    cases rest with
    | nil => simp
    | cons d rest =>
        have hNe := hRest d rfl
        rw [List.takeWhile_cons_of_neg (by simpa using hNe),
          List.append_nil]
  rw [skip, stringAt_append hText, hRun,
    List.length_replicate]

theorem strchr_append
    {front after : List α}
    (hText : nul ∉ front ++ c :: after)
    (hFront : c ∉ front)
    (before stale : List α) :
    strchr nul
        (before ++ (front ++ c :: after ++ nul :: stale))
        before.length c =
      some (before ++ front).length := by
  have hFind :
      (front ++ c :: after).findIdx?
          (fun d => decide (d = c)) =
        some front.length := by
    rw [List.findIdx?_append]
    have hNone :
        front.findIdx? (fun d => decide (d = c)) = none := by
      rw [List.findIdx?_eq_none_iff]
      intro d hMem
      apply decide_eq_false
      rintro rfl
      exact hFront hMem
    rw [hNone, List.findIdx?_cons]
    simp
  rw [strchr, stringAt_append hText, hFind, Option.map_some,
    List.length_append]

theorem strchr_append_none
    (hText : nul ∉ text)
    (hNone : c ∉ text)
    (before stale : List α) :
    strchr nul (before ++ (text ++ nul :: stale))
      before.length c = none := by
  rw [strchr, stringAt_append hText, Option.map_eq_none_iff,
    List.findIdx?_eq_none_iff]
  intro d hMem
  apply decide_eq_false
  rintro rfl
  exact hNone hMem

------------------------------------------------------------
-- Writing
------------------------------------------------------------

/- Writing over the character behind a piece of the buffer. -/
omit [DecidableEq α] in
theorem set_append
    (before rest : List α)
    (c d : α) :
    (before ++ c :: rest).set before.length d =
      before ++ d :: rest := by
  rw [List.set_append_right _ _ (Nat.le_refl _), Nat.sub_self,
    List.set_cons_zero]

end CharBuffer
