import Mathlib.Algebra.BigOperators.Group.Finset.Piecewise
import Mathlib.Algebra.Order.Group.Multiset
import Mathlib.Data.List.Induction

/-! # Dealing in turn

The elements of a list are dealt to `n` members in turn. Together the members get every
element once.
-/

namespace Lib

variable {α : Type*} {n i : ℕ} {l : List α} {a : α}

/-- What member `i` of `n` gets. -/
def deal (n i : ℕ) (l : List α) : List α := (l.zipIdx.filter fun a => a.2 % n = i).map Prod.fst

@[simp] theorem deal_nil : deal n i ([] : List α) = [] := rfl

theorem deal_snoc : deal n i (l ++ [a]) = deal n i l ++ if l.length % n = i then [a] else [] := by
  simp only [deal, List.zipIdx_append, List.zipIdx_singleton, Nat.zero_add, List.filter_append,
    List.map_append]
  by_cases h : l.length % n = i
  · simp [h]
  · simp [h]

theorem length_deal_le : (deal n i l).length ≤ l.length := by
  rw [deal, List.length_map]
  exact (List.length_filter_le _ _).trans_eq List.length_zipIdx

/-- Every element is dealt once. -/
theorem sum_deal (hn : 0 < n) (l : List α) :
    ∑ i ∈ Finset.range n, (deal n i l : Multiset α) = l := by
  induction l using List.reverseRecOn with
  | nil => simp
  | append_singleton l a ih =>
    have hturn (i : ℕ) : ((deal n i (l ++ [a]) : List α) : Multiset α) =
        deal n i l + if l.length % n = i then {a} else 0 := by
      rw [deal_snoc, ← Multiset.coe_add]
      split <;> rfl
    have hmem : l.length % n ∈ Finset.range n := Finset.mem_range.mpr (Nat.mod_lt _ hn)
    simp only [hturn, Finset.sum_add_distrib, ih, Finset.sum_ite_eq, if_pos hmem]
    rfl

theorem sum_length_deal (hn : 0 < n) (l : List α) :
    ∑ i ∈ Finset.range n, (deal n i l).length = l.length := by
  have hcard := congrArg Multiset.card (sum_deal hn l)
  simpa only [Multiset.card_sum, Multiset.coe_card] using hcard

end Lib
