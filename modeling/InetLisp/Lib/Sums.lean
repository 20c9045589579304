import Mathlib.Algebra.BigOperators.Group.Finset.Basic
import Mathlib.Algebra.BigOperators.Group.List.Basic
import Mathlib.Algebra.BigOperators.Fin
import Mathlib.Tactic.Abel

/-! # Sums over families with one member overwritten

Overwriting one member of a family changes a sum over it by that member only.
Both sides add the value of the other one, so no subtraction is needed.
-/

namespace Sums

variable {ι α M : Type*} [AddCommMonoid M]

theorem sum_erase_update [Fintype ι] [DecidableEq ι] (g : α → M) (f : ι → α) (i : ι) (a : α) :
    ∑ j ∈ Finset.univ.erase i, g (Function.update f i a j) =
      ∑ j ∈ Finset.univ.erase i, g (f j) :=
  Finset.sum_congr rfl fun j hj => by
    rw [Function.update_of_ne (Finset.ne_of_mem_erase hj)]

theorem sum_update [Fintype ι] [DecidableEq ι] (g : α → M) (f : ι → α) (i : ι) (a : α) :
    ∑ j, g (Function.update f i a j) + g (f i) = ∑ j, g (f j) + g a := by
  rw [← Finset.add_sum_erase _ _ (Finset.mem_univ i), sum_erase_update,
    ← Finset.add_sum_erase _ (fun j => g (f j)) (Finset.mem_univ i), Function.update_self]
  abel

theorem sum_update_eq_add {N : Type*} [AddCancelCommMonoid N] [Fintype ι] [DecidableEq ι]
    {g : α → N} {f : ι → α} {i : ι} {a : α} {x : N} (h : g a = g (f i) + x) :
    ∑ j, g (Function.update f i a j) = ∑ j, g (f j) + x := by
  have := sum_update g f i a
  rw [h, add_comm (g (f i)), ← add_assoc] at this
  exact add_right_cancel this

theorem sum_eq_update_add {N : Type*} [AddCancelCommMonoid N] [Fintype ι] [DecidableEq ι]
    {g : α → N} {f : ι → α} {i : ι} {a : α} {x : N} (h : g (f i) = g a + x) :
    ∑ j, g (f j) = ∑ j, g (Function.update f i a j) + x := by
  have := sum_update g f i a
  rw [h, add_comm (g a), ← add_assoc] at this
  exact (add_right_cancel this).symm

theorem sum_update_of_mem [DecidableEq ι] {s : Finset ι} {i : ι} (hi : i ∈ s) (f : ι → M) (a : M) :
    ∑ j ∈ s, Function.update f i a j + f i = ∑ j ∈ s, f j + a := by
  rw [Finset.sum_update_of_mem hi, ← Finset.add_sum_erase s f hi, Finset.sdiff_singleton_eq_erase]
  abel

end Sums
