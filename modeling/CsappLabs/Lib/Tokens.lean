import Mathlib.Algebra.BigOperators.Group.Finset.Piecewise
import Mathlib.Algebra.Order.BigOperators.Group.Finset
import Mathlib.Data.Fintype.Basic

/-
  Tokens held by threads.

  Each thread is at some point of its program, and a point
  holds a number of tokens. The total changes with the one
  thread that moves.

  Key definitions include:
    * `Tokens.total`

  Key theorems include:
    * `Tokens.total_update`
    * `Tokens.le_total`
-/

namespace Tokens

variable {ι α : Type} [Fintype ι]

/- The tokens that all threads hold together. -/
def total (held : α → Nat) (point : ι → α) : Nat :=
  ∑ i, held (point i)

theorem total_const
    {held : α → Nat}
    {start : α}
    (hNone : held start = 0) :
    total held (fun _ : ι => start) = 0 := by
  rw [total, hNone, Finset.sum_const_zero]

theorem le_total
    (held : α → Nat)
    (point : ι → α)
    (i : ι) :
    held (point i) ≤ total held point :=
  Finset.single_le_sum (fun j _ => Nat.zero_le (held (point j)))
    (Finset.mem_univ i)

theorem total_mono
    {held more : α → Nat}
    (hMore : ∀ a, held a ≤ more a)
    (point : ι → α) :
    total held point ≤ total more point :=
  Finset.sum_le_sum fun i _ => hMore (point i)

/- A thread gives back what it held and takes what it holds. -/
theorem total_update
    [DecidableEq ι]
    (held : α → Nat)
    (point : ι → α)
    (i : ι)
    (next : α) :
    total held (Function.update point i next) +
        held (point i) =
      total held point + held next := by
  have hAt : (fun j => held (Function.update point i next j)) =
      Function.update (fun j => held (point j)) i
        (held next) := by
    funext j
    by_cases hSame : j = i
    · rw [hSame, Function.update_self, Function.update_self]
    · rw [Function.update_of_ne hSame,
        Function.update_of_ne hSame]
  have hOthers := Finset.sum_erase_add Finset.univ
    (fun j => held (point j)) (Finset.mem_univ i)
  rw [total, total, hAt, Finset.sum_update_of_mem
    (Finset.mem_univ i), Finset.sdiff_singleton_eq_erase]
  omega

end Tokens
