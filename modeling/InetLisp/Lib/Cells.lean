import Mathlib.Algebra.BigOperators.Group.List.Basic
import Mathlib.Algebra.BigOperators.Group.Finset.Basic
import Mathlib.Tactic.Abel

/-! # Sums over a list of cells

A heap is a list of cells, addressed by position and grown at the end. A sum over
the cells changes with one overwritten cell by that cell only; both sides add
the other value, so no subtraction is needed.
-/

namespace Lib.Cells

variable {α M : Type*} [AddCommMonoid M] {l : List α} {i : ℕ} {a b : α}

/-- Sum over the cells; the summand may depend on the address. -/
def sum (g : ℕ → α → M) (l : List α) : M := (l.mapIdx g).sum

theorem map_set_of_eq {β : Type*} {f : α → β} (h : l[i]? = some a) (hf : f b = f a) :
    (l.set i b).map f = l.map f := by
  obtain ⟨hi, ha⟩ := List.getElem?_eq_some_iff.mp h
  rw [List.map_set, hf, ← ha]
  refine List.ext_getElem (by simp) fun j hj _ => ?_
  rw [List.getElem_set]
  split <;> simp [*]

theorem getElem?_set (h : l[i]? = some a) {j : ℕ} :
    (l.set i b)[j]? = if i = j then some b else l[j]? := by
  rw [List.getElem?_set, if_pos (List.getElem?_eq_some_iff.mp h).1]

theorem getElem?_snoc {j : ℕ} : (l ++ [a])[j]? = if l.length = j then some a else l[j]? := by
  rcases Nat.lt_trichotomy l.length j with h | rfl | h
  · rw [if_neg h.ne, List.getElem?_eq_none h.le, List.getElem?_eq_none]
    rw [List.length_append, List.length_singleton]
    exact h
  · simp
  · rw [if_neg h.ne', List.getElem?_append_left h]

theorem lt_length (h : l[i]? = some a) : i < l.length := (List.getElem?_eq_some_iff.mp h).1

variable (g : ℕ → α → M)

@[simp] theorem sum_nil : sum g [] = 0 := rfl

theorem sum_cons : sum g (a :: l) = g 0 a + sum (fun i => g (i + 1)) l := by
  simp [sum, List.mapIdx_cons]

@[simp] theorem sum_snoc : sum g (l ++ [a]) = sum g l + g l.length a := by
  simp [sum]

theorem sum_set (h : l[i]? = some a) : sum g (l.set i b) + g i a = sum g l + g i b := by
  induction l generalizing g i with
  | nil => simp at h
  | cons c l ih =>
    cases i with
    | zero =>
      obtain rfl : c = a := by simpa using h
      simp only [List.set_cons_zero, sum_cons]
      abel
    | succ i =>
      simp only [List.set_cons_succ, sum_cons, add_assoc]
      rw [ih (fun i => g (i + 1)) (by simpa using h)]

theorem sum_eq_add (h : l[i]? = some a) (hb : g i b = 0) : sum g l = g i a + sum g (l.set i b) := by
  rw [add_comm, sum_set g h, hb, add_zero]

theorem sum_congr {g' : ℕ → α → M} (h : ∀ i a, l[i]? = some a → g i a = g' i a) :
    sum g l = sum g' l := by
  induction l generalizing g g' with
  | nil => rfl
  | cons c l ih =>
    rw [sum_cons, sum_cons, h 0 c rfl, ih _ fun i a hi => h (i + 1) a (by simpa using hi)]

theorem sum_zero : sum (fun _ _ => (0 : M)) l = 0 := by
  induction l with
  | nil => rfl
  | cons c l ih => rw [sum_cons, ih, add_zero]

theorem sum_eq_range : sum g l = ∑ i ∈ Finset.range l.length, (l[i]?).elim 0 (g i) := by
  induction l using List.reverseRecOn with
  | nil => simp
  | append_singleton l a ih =>
    rw [sum_snoc, ih, List.length_append, List.length_singleton, Finset.sum_range_succ]
    congr 1
    · refine Finset.sum_congr rfl fun i hi => ?_
      rw [List.getElem?_append_left (Finset.mem_range.mp hi)]
    · simp

theorem sum_add (g' : ℕ → α → M) : sum (fun i a => g i a + g' i a) l = sum g l + sum g' l := by
  rw [sum_eq_range, sum_eq_range, sum_eq_range, ← Finset.sum_add_distrib]
  apply Finset.sum_congr rfl
  intro i _
  cases l[i]? with
  | none => exact (add_zero 0).symm
  | some a => rfl

theorem mem_sum {β : Type*} {e : β} {g : ℕ → α → Multiset β} (h : e ∈ sum g l) :
    ∃ i a, l[i]? = some a ∧ e ∈ g i a := by
  rw [sum_eq_range] at h
  obtain ⟨i, _, hi⟩ := Multiset.mem_sum.mp h
  cases ha : l[i]? with
  | none => simp [ha] at hi
  | some a => exact ⟨i, a, ha, by simpa [ha] using hi⟩

theorem exists_sum_eq (h : l[i]? = some a) : ∃ r, sum g l = g i a + r := by
  induction l generalizing g i with
  | nil => simp at h
  | cons c l ih =>
    cases i with
    | zero =>
      obtain rfl : c = a := by simpa using h
      exact ⟨_, sum_cons g⟩
    | succ i =>
      obtain ⟨r, hr⟩ := ih (fun i => g (i + 1)) (by simpa using h)
      exact ⟨g 0 c + r, by rw [sum_cons, hr]; abel⟩

end Lib.Cells
