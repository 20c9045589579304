import Mathlib.Algebra.BigOperators.Group.Multiset.Basic
import Mathlib.Algebra.BigOperators.Group.List.Basic
import Mathlib.Tactic.Abel

/-! # Growing arrays of slots

An array whose slots are empty until they are set. A slot beyond the end reads as
empty, and setting it makes the array longer.
-/

namespace Lib

/-- Slots that hold a value or nothing. -/
abbrev Slots (α : Type*) := List (Option α)

namespace Slots

variable {α : Type*} {l : Slots α} {i j : ℕ} {v o : Option α} {a : α}

def get (l : Slots α) (i : ℕ) : Option α := (l[i]?).join

def set : Slots α → ℕ → Option α → Slots α
  | [], 0, v => [v]
  | [], i + 1, v => none :: set [] i v
  | _ :: l, 0, v => v :: l
  | o :: l, i + 1, v => o :: set l i v

def single : Option α → Multiset α
  | none => 0
  | some a => {a}

def content (l : Slots α) : Multiset α := (l.map single).sum

@[simp] theorem single_none : single (none : Option α) = 0 := rfl
@[simp] theorem single_some : single (some a) = {a} := rfl

@[simp] theorem get_nil : get ([] : Slots α) i = none := rfl
@[simp] theorem get_cons_zero : get (o :: l) 0 = o := by cases o <;> rfl
@[simp] theorem get_cons_succ : get (o :: l) (i + 1) = get l i := rfl

@[simp] theorem content_nil : content ([] : Slots α) = 0 := rfl
@[simp] theorem content_cons : content (o :: l) = single o + content l := rfl

@[simp] theorem get_set_self : get (set l i v) i = v := by
  induction i generalizing l with
  | zero => cases l <;> simp [set]
  | succ i ih => cases l <;> simpa [set] using ih

theorem get_set_ne (h : i ≠ j) : get (set l i v) j = get l j := by
  induction i generalizing l j with
  | zero =>
    obtain ⟨j, rfl⟩ := Nat.exists_eq_succ_of_ne_zero h.symm
    cases l <;> simp [set]
  | succ i ih =>
    cases j with
    | zero => cases l <;> simp [set]
    | succ j => cases l <;> simp [set, ih (fun he => h (he ▸ rfl))]

theorem get_set : get (set l i v) j = if i = j then v else get l j := by
  split
  · subst j; exact get_set_self
  · exact get_set_ne ‹_›

theorem content_set : content (set l i v) + single (get l i) = content l + single v := by
  induction i generalizing l with
  | zero =>
    cases l with
    | nil => simp [set]
    | cons o l => simp only [set, content_cons, get_cons_zero]; abel
  | succ i ih =>
    cases l with
    | nil => simpa [set] using ih (l := [])
    | cons o l =>
      simp only [set, content_cons, get_cons_succ, add_assoc]
      rw [ih]

open Classical in
noncomputable def contentExcept : Set ℕ → Slots α → Multiset α
  | _, [] => 0
  | X, o :: l => (if 0 ∈ X then 0 else single o) + contentExcept {i | i + 1 ∈ X} l

section Except

variable {X Y : Set ℕ}

@[simp] theorem contentExcept_nil : contentExcept X ([] : Slots α) = 0 := rfl

open Classical in
theorem contentExcept_congr (h : ∀ i a, get l i = some a → (i ∈ X ↔ i ∈ Y)) :
    contentExcept X l = contentExcept Y l := by
  induction l generalizing X Y with
  | nil => rfl
  | cons o l ih =>
    have ih : contentExcept {i | i + 1 ∈ X} l = contentExcept {i | i + 1 ∈ Y} l :=
      ih fun i a hi => h (i + 1) a hi
    rw [contentExcept, contentExcept, ih]
    cases o with
    | none => simp
    | some a => rw [if_congr (h 0 a rfl) rfl rfl]

theorem contentExcept_set (h : i ∉ X) :
    contentExcept X (set l i v) + single (get l i) = contentExcept X l + single v := by
  induction i generalizing l X with
  | zero =>
    cases l with
    | nil => simp [set, contentExcept, h]
    | cons o l =>
      simp only [set, contentExcept, h, if_false, get_cons_zero]
      abel
  | succ i ih =>
    cases l with
    | nil =>
      have := ih (l := []) (X := {i | i + 1 ∈ X}) h
      simpa [set, contentExcept] using this
    | cons o l =>
      simp only [set, contentExcept, get_cons_succ, add_assoc]
      rw [ih (X := {i | i + 1 ∈ X}) h]

theorem contentExcept_insert (h : i ∉ X) :
    contentExcept (insert i X) l + single (get l i) = contentExcept X l := by
  induction i generalizing l X with
  | zero =>
    cases l with
    | nil => simp
    | cons o l =>
      have he : {i | i + 1 ∈ insert 0 X} = {i | i + 1 ∈ X} := by ext i; simp
      rw [contentExcept, contentExcept, he, if_pos (Set.mem_insert 0 X), if_neg h, get_cons_zero]
      abel
  | succ i ih =>
    cases l with
    | nil => simp
    | cons o l =>
      have he : {j | j + 1 ∈ insert (i + 1) X} = insert i {j | j + 1 ∈ X} := by ext j; simp
      have h0 : 0 ∈ insert (i + 1) X ↔ 0 ∈ X := by simp
      have ih := ih (l := l) (X := {j | j + 1 ∈ X}) h
      rw [contentExcept, contentExcept, he, get_cons_succ, add_assoc, ih]
      by_cases hX : 0 ∈ X
      · rw [if_pos hX, if_pos (h0.mpr hX)]
      · rw [if_neg hX, if_neg (h0.not.mpr hX)]

theorem mem_contentExcept (h : i ∉ X) (hi : get l i = some a) : a ∈ contentExcept X l := by
  rw [← contentExcept_insert h, hi, single_some]
  exact Multiset.mem_add.mpr (.inr (Multiset.mem_singleton_self a))

end Except

end Slots

end Lib
