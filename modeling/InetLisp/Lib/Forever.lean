import InetLisp.Lib.Transition
import Mathlib.Order.Monotone.Basic

/-! # Infinite runs

An infinite run of a labelled transition function. Some of its steps belong to
an agent. What the agent sees of the states is the same until it takes its next
step, so a rank that its own steps decrease leads it to its goal.
-/

namespace Transition

variable {σ ι : Type*} {f : σ → ι → Option σ}

/-- An infinite run: its states, and the labels of the steps between them. -/
structure Forever (f : σ → ι → Option σ) where
  state : ℕ → σ
  label : ℕ → ι
  step : ∀ k, f (state k) (label k) = some (state (k + 1))

namespace Forever

variable (p : Forever f) (own : ℕ → Prop) {goal : ℕ → Prop} {K : ℕ}

theorem reaches (k : ℕ) : Reaches f (p.state 0) (p.state k) := by
  induction k with
  | zero => exact .refl _
  | succ k ih => exact ih.tail (p.step k)

theorem invariant (P : σ → Prop) (hP : ∀ k ≥ K, P (p.state k) → P (p.state (k + 1)))
    (h : P (p.state K)) : ∀ k ≥ K, P (p.state k) := by
  intro k hk
  induction k, hk using Nat.le_induction with
  | base => exact h
  | succ k hk ih => exact hP k hk ih

theorem exists_next {ν : Type*} (view : σ → ν)
    (hother : ∀ k ≥ K, ¬ own k → view (p.state (k + 1)) = view (p.state k)) {k : ℕ} (hk : K ≤ k)
    (h : ∃ m ≥ k, own m) : ∃ m ≥ k, own m ∧ view (p.state m) = view (p.state k) := by
  obtain ⟨m, hm, ho⟩ := h
  obtain ⟨d, rfl⟩ := Nat.exists_eq_add_of_le hm
  induction d generalizing k with
  | zero => exact ⟨k, le_rfl, ho, rfl⟩
  | succ d ih =>
    by_cases hown : own k
    · exact ⟨k, le_rfl, hown, rfl⟩
    · obtain ⟨m, hm, ho, he⟩ := ih (k := k + 1) (by omega) (by omega) (by rwa [Nat.add_right_comm])
      exact ⟨m, by omega, ho, he.trans (hother k hk hown)⟩

/-- An agent that always takes another step, and whose steps decrease a rank, gets to its goal. -/
theorem eventually_of_rank (rank : σ → ℕ)
    (hother : ∀ k ≥ K, ¬ own k → rank (p.state (k + 1)) = rank (p.state k))
    (hown : ∀ k ≥ K, own k → goal k ∨ rank (p.state (k + 1)) < rank (p.state k))
    (hfair : ∀ k ≥ K, ∃ m ≥ k, own m) {k : ℕ} (hk : K ≤ k) : ∃ m ≥ k, goal m := by
  induction hr : rank (p.state k) using Nat.strongRecOn generalizing k with
  | ind r ih =>
    obtain ⟨m, hm, ho, he⟩ := p.exists_next own rank hother hk (hfair k hk)
    rcases hown m (hk.trans hm) ho with hg | hlt
    · exact ⟨m, hm, hg⟩
    · obtain ⟨j, hj, hg⟩ := ih _ (by omega) (k := m + 1) (by omega) rfl
      exact ⟨j, by omega, hg⟩

end Forever

end Transition
