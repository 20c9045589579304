import Mathlib.Data.Nat.ModEq
import Mathlib.Data.BitVec
import Mathlib.Tactic.Ring

/-! # Cursors into a ring

A cursor is a machine word that counts without end and wraps around. Masking it
by a power of two less one gives a slot. Two cursors less than the ring apart
have different slots, wherever the count started.
-/

namespace Lib.Ring

variable {w k i j : ℕ} {c : BitVec w}

/-- The cursor `i` places after `c`. -/
def pos (c : BitVec w) (i : ℕ) : BitVec w := c + BitVec.ofNat w i

/-- Where the value of a cursor is stored. -/
def slot (mask c : BitVec w) : ℕ := (c &&& mask).toNat

@[simp] theorem pos_zero : pos c 0 = c := by simp [pos]

theorem pos_succ : pos c i + 1 = pos c (i + 1) := by
  rw [pos, pos, BitVec.ofNat_add, ← BitVec.add_assoc]
  rfl

theorem pos_sub (h : i ≤ j) : pos c j - pos c i = BitVec.ofNat w (j - i) := by
  obtain ⟨d, rfl⟩ := Nat.exists_eq_add_of_le h
  have hd : pos c (i + d) = pos c i + BitVec.ofNat w d := by
    rw [pos, pos, BitVec.ofNat_add, ← BitVec.add_assoc]
  rw [hd, BitVec.add_comm, BitVec.add_sub_cancel, Nat.add_sub_cancel_left]

theorem two_pow_lt (hk : k < w) : 2 ^ k < 2 ^ w := Nat.pow_lt_pow_right (by omega) hk

/-- The distance of two cursors says when the ring is full. -/
theorem pos_sub_eq_size (hk : k < w) (h : i ≤ j) (hj : j ≤ i + 2 ^ k) :
    pos c j - pos c i = BitVec.ofNat w (2 ^ k) ↔ j = i + 2 ^ k := by
  have hw := two_pow_lt hk
  rw [pos_sub h]
  constructor
  · intro he
    have := congrArg BitVec.toNat he
    simp only [BitVec.toNat_ofNat] at this
    rw [Nat.mod_eq_of_lt (by omega), Nat.mod_eq_of_lt hw] at this
    omega
  · rintro rfl
    rw [Nat.add_sub_cancel_left]

theorem pos_eq_iff (hk : k < w) (h : i ≤ j) (hj : j ≤ i + 2 ^ k) :
    pos c j = pos c i ↔ j = i := by
  have hw := two_pow_lt hk
  constructor
  · intro he
    have : pos c j - pos c i = 0#w := by rw [he]; exact BitVec.sub_self _
    rw [pos_sub h] at this
    have := congrArg BitVec.toNat this
    simp only [BitVec.toNat_ofNat, Nat.zero_mod] at this
    rw [Nat.mod_eq_of_lt (by omega)] at this
    omega
  · rintro rfl
    rfl

theorem slot_eq_mod (hk : k < w) : slot (BitVec.ofNat w (2 ^ k) - 1#w) c = c.toNat % 2 ^ k := by
  have hw := two_pow_lt hk
  have hp := Nat.two_pow_pos k
  have hm : (BitVec.ofNat w (2 ^ k) - 1#w).toNat = 2 ^ k - 1 := by
    have h1 : (1#w).toNat = 1 := by rw [BitVec.toNat_ofNat, Nat.mod_eq_of_lt (by omega)]
    have hs : (BitVec.ofNat w (2 ^ k)).toNat = 2 ^ k := by
      rw [BitVec.toNat_ofNat, Nat.mod_eq_of_lt hw]
    rw [BitVec.toNat_sub_of_le, hs, h1]
    rw [BitVec.le_def, hs, h1]
    exact hp
  rw [slot, BitVec.toNat_and, hm, Nat.and_two_pow_sub_one_eq_mod]

theorem slot_lt (hk : k < w) : slot (BitVec.ofNat w (2 ^ k) - 1#w) c < 2 ^ k := by
  rw [slot_eq_mod hk]
  exact Nat.mod_lt _ (Nat.two_pow_pos k)

/-- Wrapping around the word does not shift the slots: the ring divides the word. -/
theorem slot_pos (hk : k < w) :
    slot (BitVec.ofNat w (2 ^ k) - 1#w) (pos c i) = (c.toNat + i) % 2 ^ k := by
  have hd : 2 ^ k ∣ 2 ^ w := Nat.pow_dvd_pow 2 hk.le
  rw [slot_eq_mod hk, pos, BitVec.toNat_add, BitVec.toNat_ofNat, Nat.mod_mod_of_dvd _ hd,
    Nat.add_mod, Nat.mod_mod_of_dvd _ hd, ← Nat.add_mod]

theorem slot_ne (hk : k < w) (h : i < j) (hj : j < i + 2 ^ k) :
    slot (BitVec.ofNat w (2 ^ k) - 1#w) (pos c i) ≠ slot (BitVec.ofNat w (2 ^ k) - 1#w) (pos c j) := by
  rw [slot_pos hk, slot_pos hk]
  intro he
  have hij : i ≡ j [MOD 2 ^ k] := Nat.ModEq.add_left_cancel' c.toNat he
  have hd : 2 ^ k ∣ j - i := (Nat.modEq_iff_dvd' h.le).mp hij
  have := Nat.le_of_dvd (by omega) hd
  omega

end Lib.Ring
