import Mathlib.Logic.Basic

/-! # Triples for computations that may fail

A computation succeeds with a value or stops with an error. A postcondition says
what holds of the value, and an error predicate which errors may stop it.
-/

namespace Lib

universe u v

variable {ε : Type u} {α β : Type v} {e : ε → Prop} {P Q : α → Prop} {R : β → Prop} {x : Except ε α}
  {f : α → Except ε β}

/-- The computation stops with an admitted error, or its value satisfies the postcondition. -/
def Outcome (e : ε → Prop) (P : α → Prop) : Except ε α → Prop
  | .ok a => P a
  | .error er => e er

namespace Outcome

theorem ok {a : α} (h : P a) : Outcome e P (.ok a) := h

theorem pure {a : α} (h : P a) : Outcome e P (pure a) := h

theorem throw {er : ε} (h : e er) : Outcome e P (throw er) := h

theorem error {er : ε} (h : e er) : Outcome e P (.error er) := h

theorem bind (h : Outcome e P x) (hf : ∀ a, P a → Outcome e R (f a)) : Outcome e R (x >>= f) := by
  cases x with
  | ok a => exact hf a h
  | error er => exact h

theorem mono (h : Outcome e P x) (hPQ : ∀ a, P a → Q a) : Outcome e Q x := by
  cases x with
  | ok a => exact hPQ a h
  | error er => exact h

theorem imp {e' : ε → Prop} (h : Outcome e P x) (he : ∀ er, e er → e' er)
    (hPQ : ∀ a, P a → Q a) : Outcome e' Q x := by
  cases x with
  | ok a => exact hPQ a h
  | error er => exact he er h

@[simp] theorem ok_bind {a : α} : (Except.ok a >>= f) = f a := rfl

@[simp] theorem error_bind {er : ε} : (Except.error er >>= f) = .error er := rfl

theorem of_bind_eq_ok {b : β} (h : (x >>= f) = .ok b) : ∃ a, x = .ok a ∧ f a = .ok b := by
  cases x with
  | ok a => exact ⟨a, rfl, h⟩
  | error er => cases h

theorem toOption_eq_some {a : α} : x.toOption = some a ↔ x = .ok a := by
  cases x <;> simp [Except.toOption]

/-- Remember what the value came from. -/
theorem and_eq (h : Outcome e P x) : Outcome e (fun a => P a ∧ x = .ok a) x := by
  cases x with
  | ok a => exact ⟨h, rfl⟩
  | error er => exact h

theorem of_ok {a : α} (h : Outcome e P x) (hx : x = .ok a) : P a := by
  subst hx
  exact h

theorem of_error {er : ε} (h : Outcome e P x) (hx : x = .error er) : e er := by
  subst hx
  exact h

end Outcome

end Lib
