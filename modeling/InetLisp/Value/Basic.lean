import Mathlib.Data.BitVec

/-! # Values

A value is a tagged 64-bit word or a pointer to an object. Objects of one kind
are numbered in the order of their allocation, and a pointer is such a number.
-/

namespace InetLisp

inductive Value where
  | word (bits : BitVec 64)
  | nodeCtor (c : ℕ)
  | function (f : ℕ)
  | primitive (k : ℕ)
  | principalWire (p : ℕ)
  | wire (w : ℕ)
  deriving DecidableEq, Repr

namespace Value

def IsWire : Value → Prop
  | .wire _ => True
  | _ => False

def IsNonWire : Value → Prop
  | .wire _ => False
  | .principalWire _ => False
  | _ => True

instance : DecidablePred IsWire := fun v => by
  cases v <;> first | exact .isTrue trivial | exact .isFalse id

instance : DecidablePred IsNonWire := fun v => by
  cases v <;> first | exact .isTrue trivial | exact .isFalse id

theorem IsWire.exists {v : Value} (h : v.IsWire) : ∃ w, v = .wire w := by
  cases v <;> first | exact ⟨_, rfl⟩ | exact h.elim

@[simp] theorem isWire_wire (w : ℕ) : (wire w).IsWire := trivial
@[simp] theorem not_isWire_principalWire (p : ℕ) : ¬ (principalWire p).IsWire := id

theorem kind (v : Value) : (∃ w, v = .wire w) ∨ (∃ p, v = .principalWire p) ∨ v.IsNonWire := by
  cases v <;> simp [IsNonWire]

theorem isNonWire_of_ne {v : Value} (hw : ∀ w, v ≠ .wire w) (hp : ∀ p, v ≠ .principalWire p) :
    v.IsNonWire := by
  rcases v.kind with ⟨w, rfl⟩ | ⟨p, rfl⟩ | hv
  · exact (hw w rfl).elim
  · exact (hp p rfl).elim
  · exact hv

theorem exists_principalWire_or_isNonWire {v : Value} (h : ¬ v.IsWire) :
    (∃ p, v = .principalWire p) ∨ v.IsNonWire := by
  cases v <;> first | exact (h trivial).elim | exact .inl ⟨_, rfl⟩ | exact .inr trivial

theorem IsNonWire.not_isWire {v : Value} (h : v.IsNonWire) : ¬ v.IsWire := by
  cases v <;> simp_all [IsNonWire, IsWire]

end Value

end InetLisp
