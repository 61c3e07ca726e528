import Mathlib.Data.List.Infix
import Mathlib.Data.List.TakeWhile

/-
  Lines of a finite stream.

  `Line.next nl k s` is what a line reader with room for
  `k` items takes from the front of `s`: it stops after
  the first `nl`, after `k` items, or where `s` ends.

  Key theorems:
    * `Line.next_append_drop`
    * `Line.next_eq_nil`
    * `Line.next_of_line`
    * `Line.next_append`
-/

------------------------------------------------------------
-- The Next Line
------------------------------------------------------------

namespace CsappLabs

namespace Line

variable {α : Type} [DecidableEq α]

/- The next line of a stream, of at most `k` items. -/
def next
    (nl : α) :
    Nat → List α → List α
  | 0, _ => []
  | _ + 1, [] => []
  | k + 1, b :: s =>
      if b = nl then
        [b]
      else
        b :: next nl k s

@[simp] theorem next_zero
    (nl : α)
    (s : List α) :
    next nl 0 s = [] := by
  rw [next]

@[simp] theorem next_nil
    (nl : α)
    (k : Nat) :
    next nl k [] = [] := by
  cases k with
  | zero => rw [next]
  | succ k => rw [next]

theorem next_cons_nl
    (nl : α)
    (k : Nat)
    (s : List α) :
    next nl (k + 1) (nl :: s) = [nl] := by
  rw [next, if_pos rfl]

theorem next_cons_ne
    {nl b : α}
    (hb : b ≠ nl)
    (k : Nat)
    (s : List α) :
    next nl (k + 1) (b :: s) = b :: next nl k s := by
  rw [next, if_neg hb]

theorem length_next_le
    (nl : α)
    (k : Nat)
    (s : List α) :
    (next nl k s).length ≤ k := by
  induction k generalizing s with
  | zero => rw [next_zero, List.length_nil]
  | succ k ih =>
      cases s with
      | nil =>
          rw [next_nil]
          exact Nat.zero_le _
      | cons b s =>
          rw [next]
          split
          · exact Nat.succ_le_succ (Nat.zero_le k)
          · exact Nat.succ_le_succ (ih s)

/- The line and what is left make up the stream. -/
theorem next_append_drop
    (nl : α)
    (k : Nat)
    (s : List α) :
    next nl k s ++ s.drop (next nl k s).length = s := by
  induction k generalizing s with
  | zero => simp
  | succ k ih =>
      cases s with
      | nil => simp
      | cons b s =>
          by_cases hb : b = nl
          · subst hb
            rw [next_cons_nl]
            simp
          · rw [next_cons_ne hb]
            simpa using ih s

/- A reader with room takes nothing only at the end. -/
theorem next_eq_nil
    (nl : α)
    {k : Nat}
    (hk : 0 < k)
    (s : List α) :
    next nl k s = [] ↔ s = [] := by
  cases k with
  | zero => exact absurd hk (lt_irrefl 0)
  | succ k =>
      cases s with
      | nil => simp
      | cons b s =>
          by_cases hb : b = nl
          · subst hb
            simp [next_cons_nl]
          · simp [next_cons_ne hb]

/- A line that fits is read whole. -/
theorem next_of_line
    {nl : α}
    {body : List α}
    (hBody : nl ∉ body)
    {k : Nat}
    (hk : body.length < k)
    (s : List α) :
    next nl k (body ++ nl :: s) = body ++ [nl] := by
  induction body generalizing k with
  | nil =>
      cases k with
      | zero => simp at hk
      | succ k => exact next_cons_nl nl k s
  | cons b body ih =>
      cases k with
      | zero => simp at hk
      | succ k =>
          have hb : b ≠ nl := by
            intro hEq
            exact hBody (by simp [hEq])
          have hRest : nl ∉ body := by
            intro hMem
            exact hBody (List.mem_cons_of_mem b hMem)
          have hLt : body.length < k := by
            simpa using hk
          rw [List.cons_append, next_cons_ne hb,
            ih hRest hLt, List.cons_append]

------------------------------------------------------------
-- Complete Lines
------------------------------------------------------------

/- The reader is done before it asks past the end. -/
def Complete
    (nl : α)
    (k : Nat)
    (s : List α) :
    Prop :=
  nl ∈ s.take k ∨ k ≤ s.length

instance
    (nl : α)
    (k : Nat)
    (s : List α) :
    Decidable (Complete nl k s) :=
  inferInstanceAs (Decidable (_ ∨ _))

omit [DecidableEq α] in
@[simp] theorem complete_zero
    (nl : α)
    (s : List α) :
    Complete nl 0 s :=
  Or.inr (Nat.zero_le s.length)

omit [DecidableEq α] in
@[simp] theorem not_complete_nil
    (nl : α)
    (k : Nat) :
    ¬ Complete nl (k + 1) [] := by
  simp [Complete]

omit [DecidableEq α] in
theorem complete_cons_nl
    (nl : α)
    (k : Nat)
    (s : List α) :
    Complete nl (k + 1) (nl :: s) := by
  left
  simp

omit [DecidableEq α] in
theorem complete_cons_ne
    {nl b : α}
    (hb : b ≠ nl)
    (k : Nat)
    (s : List α) :
    Complete nl (k + 1) (b :: s) ↔ Complete nl k s := by
  simp [Complete, Ne.symm hb]

omit [DecidableEq α] in
/- A line that fits completes. -/
theorem complete_of_line
    {nl : α}
    {body : List α}
    {k : Nat}
    (hk : body.length < k)
    (s : List α) :
    Complete nl k (body ++ nl :: s) := by
  left
  rw [List.take_append, List.mem_append]
  right
  obtain ⟨m, hm⟩ : ∃ m, k - body.length = m + 1 :=
    ⟨k - body.length - 1, by omega⟩
  rw [hm]
  simp

omit [DecidableEq α] in
/- A stream with an end of line in it has a first line. -/
theorem complete_of_mem
    {nl : α}
    {s : List α}
    (hMem : nl ∈ s)
    (k : Nat) :
    Complete nl k s := by
  by_cases hLe : k ≤ s.length
  · exact Or.inr hLe
  · left
    rw [List.take_of_length_le (by omega)]
    exact hMem

/- What follows a complete line does not matter to it. -/
theorem next_append
    {nl : α}
    {k : Nat}
    {s : List α}
    (hComplete : Complete nl k s)
    (t : List α) :
    next nl k (s ++ t) = next nl k s := by
  induction k generalizing s with
  | zero => rw [next_zero, next_zero]
  | succ k ih =>
      cases s with
      | nil => exact absurd hComplete (not_complete_nil nl k)
      | cons b s =>
          by_cases hb : b = nl
          · rw [hb, List.cons_append, next_cons_nl,
              next_cons_nl]
          · rw [complete_cons_ne hb] at hComplete
            rw [List.cons_append, next_cons_ne hb,
              next_cons_ne hb, ih hComplete]

end Line

end CsappLabs
