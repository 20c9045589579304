import Mathlib.Logic.Relation
import Mathlib.Data.List.Basic

/-! # Labelled transition functions

A transition function gives the successor of a state under a label, or none
when the label is not enabled. Reachability is closed under steps, so a step
invariant holds along every run, and a decreasing measure bounds every run.
-/

namespace Transition

variable {σ ι : Type*} {f : σ → ι → Option σ} {s t u : σ}

/-- Some enabled label leads from the first state to the second. -/
def Step (f : σ → ι → Option σ) (s t : σ) : Prop := ∃ i, f s i = some t

/-- The second state is reached from the first by finitely many steps. -/
def Reaches (f : σ → ι → Option σ) : σ → σ → Prop := Relation.ReflTransGen (Step f)

/-- Take the labels in order; none when one of them is not enabled. -/
def run (f : σ → ι → Option σ) (s : σ) : List ι → Option σ
  | [] => some s
  | i :: l => (f s i).bind fun t => run f t l

/-- Only the labels that meet the condition in the state they are taken in. -/
def restrict (c : σ → ι → Bool) (f : σ → ι → Option σ) (s : σ) (i : ι) : Option σ :=
  if c s i then f s i else none

theorem restrict_eq_some {c : σ → ι → Bool} {i : ι} :
    restrict c f s i = some t ↔ c s i ∧ f s i = some t := by
  simp [restrict]

@[simp] theorem run_nil : run f s [] = some s := rfl

theorem run_cons_iff {i : ι} {l : List ι} :
    run f s (i :: l) = some u ↔ ∃ t, f s i = some t ∧ run f t l = some u := by
  simp [run, Option.bind_eq_some_iff]

theorem Reaches.refl (s : σ) : Reaches f s s := Relation.ReflTransGen.refl

theorem Reaches.head {i : ι} (h : f s i = some t) (ht : Reaches f t u) : Reaches f s u :=
  Relation.ReflTransGen.head ⟨i, h⟩ ht

theorem Reaches.tail {i : ι} (hs : Reaches f s t) (h : f t i = some u) : Reaches f s u :=
  Relation.ReflTransGen.tail hs ⟨i, h⟩

theorem Reaches.trans (hs : Reaches f s t) (ht : Reaches f t u) : Reaches f s u :=
  Relation.ReflTransGen.trans hs ht

theorem Reaches.of_run {l : List ι} (h : run f s l = some t) : Reaches f s t := by
  induction l generalizing s with
  | nil => cases h; exact .refl _
  | cons i l ih =>
    obtain ⟨u, hu, hl⟩ := run_cons_iff.mp h
    exact .head hu (ih hl)

/-- A property kept by every step holds of every state reached from one that has it. -/
theorem Reaches.invariant {P : σ → Prop} (hp : ∀ s i t, P s → f s i = some t → P t)
    (h : Reaches f s t) (hs : P s) : P t := by
  induction h with
  | refl => exact hs
  | tail _ hst ih =>
    obtain ⟨i, hi⟩ := hst
    exact hp _ i _ ih hi

/-- A measure that every step decreases bounds the length of every run. -/
theorem run_length_le {P : σ → Prop} {μ : σ → ℕ} (hp : ∀ s i t, P s → f s i = some t → P t)
    (hμ : ∀ s i t, P s → f s i = some t → μ t < μ s) {l : List ι} (hs : P s)
    (h : run f s l = some t) : l.length + μ t ≤ μ s := by
  induction l generalizing s with
  | nil => cases h; simp
  | cons i l ih =>
    obtain ⟨u, hu, hl⟩ := run_cons_iff.mp h
    have := ih (hp _ i _ hs hu) hl
    have := hμ _ i _ hs hu
    simp only [List.length_cons]
    omega

end Transition
