import Mathlib.Order.RelClasses
import Mathlib.Tactic.Use

/-! # Loops with fuel

A loop repeats a step while there is more to do. It is given a number of steps; what
it ends with does not depend on that number, as soon as it is large enough.
-/

namespace Lib

universe u v

variable {σ : Type u} {ε : Type v} {more : σ → Bool} {step : σ → Except ε σ} {s t u : σ} {e : ε}
  {r r' : Except ε σ} {m n : ℕ}

/-- The result of the loop, or nothing if the steps were too few. -/
def loop (more : σ → Bool) (step : σ → Except ε σ) : ℕ → σ → Option (Except ε σ)
  | 0, _ => none
  | k + 1, s => if more s then match step s with
      | .ok s => loop more step k s
      | .error e => some (.error e)
    else some (.ok s)

/-- The loop ends with this result. -/
def Ends (more : σ → Bool) (step : σ → Except ε σ) (s : σ) (r : Except ε σ) : Prop :=
  ∃ n, loop more step n s = some r

/-- The loop passes from the first state to the second. -/
def Leads (more : σ → Bool) (step : σ → Except ε σ) (s t : σ) : Prop :=
  ∃ n, ∀ k, loop more step (n + k) s = loop more step k t

@[simp] theorem loop_zero : loop more step 0 s = none := rfl

theorem loop_succ_of_ok (hs : more s = true) (h : step s = .ok t) :
    loop more step (n + 1) s = loop more step n t := by
  simp [loop, hs, h]

theorem loop_add (h : loop more step n s = some r) (m : ℕ) : loop more step (n + m) s = some r := by
  induction n generalizing s with
  | zero => cases h
  | succ n ih =>
    rw [Nat.add_right_comm]
    unfold loop at h ⊢
    split
    · rename_i hs
      rw [if_pos hs] at h
      split at h
      · exact ih h
      · exact h
    · rename_i hs
      rwa [if_neg hs] at h

theorem loop_mono (h : loop more step n s = some r) (hm : n ≤ m) :
    loop more step m s = some r := by
  obtain ⟨k, rfl⟩ := Nat.exists_eq_add_of_le hm
  exact loop_add h k

theorem loop_eq_none_of_le (h : loop more step m s = none) (hn : n ≤ m) :
    loop more step n s = none := by
  cases hr : loop more step n s with
  | none => rfl
  | some r => rw [loop_mono hr hn] at h; cases h

theorem Ends.unique (h : Ends more step s r) (h' : Ends more step s r') : r = r' := by
  obtain ⟨n, hn⟩ := h
  obtain ⟨m, hm⟩ := h'
  have h₁ := loop_add hn m
  have h₂ := loop_add hm n
  rw [Nat.add_comm, h₁] at h₂
  exact Option.some.inj h₂

theorem Ends.of_not_more (hs : more s = false) : Ends more step s (.ok s) := by
  use 1
  simp [loop, hs]

theorem Ends.of_error (hs : more s = true) (h : step s = .error e) :
    Ends more step s (.error e) := by
  use 1
  simp [loop, hs, h]

/-- One round of the loop. -/
def Next (more : σ → Bool) (step : σ → Except ε σ) (s t : σ) : Prop :=
  more s = true ∧ step s = .ok t

theorem Ends.of_next (h : Next more step s t) (ht : Ends more step t r) : Ends more step s r := by
  obtain ⟨n, hn⟩ := ht
  use n + 1
  rw [loop_succ_of_ok h.1 h.2, hn]

/-- A loop that gets smaller with every round ends. -/
theorem exists_ends {α : Type*} [Preorder α] [WellFoundedLT α] {P : σ → Prop} {μ : σ → α}
    (h : ∀ s t, P s → Next more step s t → P t ∧ μ t < μ s) {s : σ} (hs : P s) :
    ∃ r, Ends more step s r := by
  induction hm : μ s using WellFoundedLT.induction generalizing s with
  | ind m ih =>
    subst hm
    cases hmore : more s with
    | false => exact ⟨_, .of_not_more hmore⟩
    | true =>
      cases hst : step s with
      | error e => exact ⟨_, .of_error hmore hst⟩
      | ok t =>
        obtain ⟨hp, hlt⟩ := h s t hs ⟨hmore, hst⟩
        obtain ⟨r, hr⟩ := ih _ hlt hp rfl
        exact ⟨r, hr.of_next ⟨hmore, hst⟩⟩

/-- A loop whose steps keep an invariant, get smaller and do not fail ends in a good state. -/
theorem exists_ends_ok {α : Type*} [Preorder α] [WellFoundedLT α] {P : σ → Prop} {μ : σ → α}
    (h : ∀ s, P s → more s = true → ∃ t, step s = .ok t ∧ P t ∧ μ t < μ s) {s : σ} (hs : P s) :
    ∃ t, Ends more step s (.ok t) ∧ P t ∧ more t = false := by
  induction hm : μ s using WellFoundedLT.induction generalizing s with
  | ind m ih =>
    subst hm
    cases hmore : more s with
    | false => exact ⟨s, .of_not_more hmore, hs, hmore⟩
    | true =>
      obtain ⟨t, hst, hp, hlt⟩ := h s hs hmore
      obtain ⟨u, hu, hpu, hmu⟩ := ih _ hlt hp rfl
      exact ⟨u, hu.of_next ⟨hmore, hst⟩, hpu, hmu⟩

section Map

variable {τ : Type*} {δ : Type*} {more' : τ → Bool} {step' : τ → Except δ τ} {R : σ → τ → Prop}
  {f : ε → δ}

/-- The second computation ends like the first, in a related state or with the error that the first
one has in the words of the second. -/
inductive Mirrors (R : σ → τ → Prop) (f : ε → δ) : Except ε σ → Except δ τ → Prop
  | ok {s : σ} {t : τ} (h : R s t) : Mirrors R f (.ok s) (.ok t)
  | error (e : ε) : Mirrors R f (.error e) (.error (f e))

/-- A loop mirrors another one round by round. -/
theorem rel_loop (hmore : ∀ s t, R s t → more s = more' t)
    (hstep : ∀ s t, R s t → more s = true → Mirrors R f (step s) (step' t)) {t : τ} (h : R s t)
    (n : ℕ) : Option.Rel (Mirrors R f) (loop more step n s) (loop more' step' n t) := by
  induction n generalizing s t with
  | zero => exact .none
  | succ n ih =>
    unfold loop
    rw [← hmore s t h]
    split
    · generalize he : step s = x
      generalize he' : step' t = y
      have hm := hstep s t h ‹_›
      rw [he, he'] at hm
      cases hm with
      | ok h => exact ih h
      | error e => exact .some (.error e)
    · exact .some (.ok h)

end Map

namespace Leads

theorem refl (s : σ) : Leads more step s s := ⟨0, fun k => by rw [Nat.zero_add]⟩

theorem of_eq (h : s = t) : Leads more step s t := h ▸ refl s

theorem of_step (hs : more s = true) (h : step s = .ok t) : Leads more step s t := by
  use 1
  intro k
  rw [Nat.add_comm]
  exact loop_succ_of_ok hs h

theorem trans (h : Leads more step s t) (h' : Leads more step t u) : Leads more step s u := by
  obtain ⟨n, hn⟩ := h
  obtain ⟨m, hm⟩ := h'
  use n + m
  intro k
  rw [Nat.add_assoc, hn, hm]

theorem ends (h : Leads more step s t) (ht : Ends more step t r) : Ends more step s r := by
  obtain ⟨n, hn⟩ := h
  obtain ⟨m, hm⟩ := ht
  use n + m
  rw [hn, hm]

theorem eq_none (h : Leads more step s t) (ht : loop more step m t = none) :
    loop more step m s = none := by
  obtain ⟨n, hn⟩ := h
  exact loop_eq_none_of_le ((hn m).trans ht) (Nat.le_add_left m n)

end Leads

end Lib
