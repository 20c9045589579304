import Mathlib.Data.BitVec
import Mathlib.Data.Int.ModEq

/-! # Words with a tag in the low bits

A word of `w` bits holds a tag in its low `k` bits and a number in the others. The
arithmetic shift that drops the tag gives back the signed residue of the number modulo
`2 ^ (w - k)`, whatever the number was.
-/

namespace Lib.Tagged

variable {w k : ℕ} {x t : BitVec w}

theorem getLsbD_of_le (ht : t.toNat < 2 ^ k) {i : ℕ} (hi : k ≤ i) : t.getLsbD i = false := by
  rw [BitVec.getLsbD, Nat.testBit_lt_two_pow (ht.trans_le (Nat.pow_le_pow_right (by decide) hi))]

theorem getLsbD_tag_of_lt {i : ℕ} (hi : i < k) : (x <<< k ||| t).getLsbD i = t.getLsbD i := by
  rw [BitVec.getLsbD_or, BitVec.getLsbD_shiftLeft]
  simp [hi]

theorem getLsbD_tag_add (ht : t.toNat < 2 ^ k) {i : ℕ} (hi : k + i < w) :
    (x <<< k ||| t).getLsbD (k + i) = x.getLsbD i := by
  rw [BitVec.getLsbD_or, BitVec.getLsbD_shiftLeft, getLsbD_of_le ht (Nat.le_add_right k i),
    Bool.or_false, Nat.add_sub_cancel_left]
  simp [hi]

theorem sshiftRight_tag (hk : k < w) (ht : t.toNat < 2 ^ k) :
    (x <<< k ||| t).sshiftRight k = (x.setWidth (w - k)).signExtend w := by
  have hmsb : (x <<< k ||| t).msb = x.getLsbD (w - k - 1) := by
    have hlast : w - 1 = k + (w - k - 1) := by omega
    rw [BitVec.msb_eq_getLsbD_last, hlast, getLsbD_tag_add ht (by omega)]
  apply BitVec.eq_of_getLsbD_eq
  intro i hi
  rw [BitVec.getLsbD_sshiftRight, BitVec.getLsbD_signExtend]
  by_cases h : k + i < w
  · rw [if_pos h, getLsbD_tag_add ht h]
    simp [hi, show i < w - k by omega]
  · -- the bits above are copies of the sign on both sides
    have hlt : ¬ i < w - k := by omega
    rw [if_neg h, hmsb]
    simp [hi, hlt, BitVec.msb_eq_getLsbD_last, show w - k - 1 < w - k by omega]

theorem toInt_sshiftRight_tag (hk : k < w) (ht : t.toNat < 2 ^ k) :
    ((x <<< k ||| t).sshiftRight k).toInt = x.toInt.bmod (2 ^ (w - k)) := by
  rw [sshiftRight_tag hk ht, BitVec.toInt_signExtend_of_le (Nat.sub_le w k), BitVec.toInt_setWidth,
    x.toInt_eq_toNat_bmod, Int.bmod_bmod_of_dvd (Nat.pow_dvd_pow 2 (Nat.sub_le w k))]

theorem and_tag (ht : t.toNat < 2 ^ k) :
    (x <<< k ||| t) &&& BitVec.ofNat w (2 ^ k - 1) = t := by
  apply BitVec.eq_of_getLsbD_eq
  intro i hi
  rw [BitVec.getLsbD_and, BitVec.getLsbD_ofNat, Nat.testBit_two_pow_sub_one]
  by_cases h : i < k
  · rw [getLsbD_tag_of_lt h]
    simp [hi, h]
  · simp [h, getLsbD_of_le ht (not_lt.mp h)]

/-- The word is determined by its tag and what the shift leaves. -/
theorem sshiftRight_tag_inj {y : BitVec w}
    (h : (x <<< k ||| t).sshiftRight k = (y <<< k ||| t).sshiftRight k) :
    x <<< k ||| t = y <<< k ||| t := by
  apply BitVec.eq_of_getLsbD_eq
  intro i hi
  by_cases hik : i < k
  · rw [getLsbD_tag_of_lt hik, getLsbD_tag_of_lt hik]
  · have hadd : k + (i - k) = i := by omega
    have hlt : ¬ w ≤ i - k := by omega
    have hbit := congrArg (·.getLsbD (i - k)) h
    simp only [BitVec.getLsbD_sshiftRight, hadd, if_pos hi, decide_eq_false hlt, Bool.not_false,
      Bool.true_and] at hbit
    exact hbit

theorem sshiftRight_shiftLeft_or (h : x &&& BitVec.ofNat w (2 ^ k - 1) = t) :
    x.sshiftRight k <<< k ||| t = x := by
  have ht {i : ℕ} (hi : i < w) : t.getLsbD i = (x.getLsbD i && decide (i < k)) := by
    rw [← h, BitVec.getLsbD_and, BitVec.getLsbD_ofNat, Nat.testBit_two_pow_sub_one]
    simp [hi]
  apply BitVec.eq_of_getLsbD_eq
  intro i hi
  rw [BitVec.getLsbD_or, BitVec.getLsbD_shiftLeft, ht hi]
  by_cases hik : i < k
  · simp [hik]
  · have hadd : k + (i - k) = i := by omega
    have hlt : ¬ w ≤ i - k := by omega
    rw [BitVec.getLsbD_sshiftRight, hadd]
    simp [hi, hik, hlt]

theorem bmod_eq_bmod_iff {a b : ℤ} {m : ℕ} : a.bmod m = b.bmod m ↔ a ≡ b [ZMOD m] := by
  constructor
  · intro h
    rw [Int.ModEq, ← Int.bmod_emod, h, Int.bmod_emod]
  · intro h
    rw [← Int.emod_bmod, h, Int.emod_bmod]

end Lib.Tagged
