import InetLisp.Lang.Compile
import InetLisp.Lib.Tagged

/-! # Integers as tagged words

The arithmetic of integers goes from words to numbers, computes on 64 bits, and goes back.
On the numbers it is arithmetic modulo `2 ^ 61`.
-/

namespace InetLisp

open Lib

inductive Tag where
  | xobject
  | xstatic
  | xint
  | xfloat
  | xextended
  deriving DecidableEq, Repr

def Tag.bits : Tag → BitVec 64
  | xobject => 0#64
  | xstatic => 1#64
  | xint => 2#64
  | xfloat => 3#64
  | xextended => 7#64

def tagMask : BitVec 64 := 0x07#64

def xtrue : Value := .word 0x00ffffffffffffff#64

def xfalse : Value := .word 0x01ffffffffffffff#64

/-- `value_tag`; objects are aligned to eight bytes. -/
def valueTag : Value → BitVec 64
  | .word bits => bits &&& tagMask
  | _ => Tag.xobject.bits

def isXint (value : Value) : Bool := valueTag value == Tag.xint.bits

def isXfloat (value : Value) : Bool := valueTag value == Tag.xfloat.bits

def isXobject (value : Value) : Bool :=
  value != .word 0#64 && valueTag value == Tag.xobject.bits

def xbool (target : Bool) : Value := if target then xtrue else xfalse

def isXbool (value : Value) : Bool := value == xtrue || value == xfalse

/-- `to_int64`; there is no result where its assertion fails. -/
def toInt64 : Value → Option (BitVec 64)
  | .word bits => if isXint (.word bits) then some (bits.sshiftRight 3) else none
  | _ => none

/-- The primitives on two integers compute on 64 bits and tag the result. -/
def xintBinary (op : BitVec 64 → BitVec 64 → BitVec 64) (x y : Value) : Option Value :=
  (toInt64 x).bind fun a => (toInt64 y).map fun b => xint (op a b)

def xintAdd : Value → Value → Option Value := xintBinary (· + ·)

def xintSub : Value → Value → Option Value := xintBinary (· - ·)

def xintMul : Value → Value → Option Value := xintBinary (· * ·)

def xEq (x y : Value) : Value := xbool (x == y)

/-- The numbers of 61 bits, as the residues that are nearest to zero. -/
def residue (n : ℤ) : ℤ := n.bmod (2 ^ 61)

/-- The value is an integer, and nothing else, and it reads as the residue of `n`. -/
structure Reads (value : Value) (n : ℤ) : Prop where
  toInt64 : ∃ bits, toInt64 value = some bits ∧ bits.toInt = residue n
  isXint : isXint value
  not_isXobject : ¬ isXobject value
  not_isXfloat : ¬ isXfloat value
  not_isXbool : ¬ isXbool value

variable {a b : BitVec 64} {x y : Value}

@[simp] theorem valueTag_xint (a : BitVec 64) : valueTag (xint a) = Tag.xint.bits :=
  Tagged.and_tag (k := 3) (by decide)

theorem toInt64_xint (a : BitVec 64) :
    toInt64 (xint a) = some ((a <<< 3 ||| 2#64).sshiftRight 3) := by
  have hxint : isXint (xint a) = true := by simp [isXint]
  exact if_pos hxint

theorem toInt_toInt64_xint (a : BitVec 64) :
    ((a <<< 3 ||| 2#64).sshiftRight 3).toInt = residue a.toInt :=
  Tagged.toInt_sshiftRight_tag (by decide) (by decide)

theorem not_isXbool_of_isXint {value : Value} (h : isXint value) : ¬ isXbool value := by
  intro hbool
  rcases (Bool.or_eq_true _ _).mp hbool with heq | heq
  · rw [beq_iff_eq.mp heq] at h
    exact absurd h (by decide)
  · rw [beq_iff_eq.mp heq] at h
    exact absurd h (by decide)

theorem reads_xint (a : BitVec 64) : Reads (xint a) a.toInt := by
  have hxint : isXint (xint a) := by simp [isXint]
  constructor
  · exact ⟨_, toInt64_xint a, toInt_toInt64_xint a⟩
  · exact hxint
  · simp [isXobject, Tag.bits]
  · simp [isXfloat, Tag.bits]
  · exact not_isXbool_of_isXint hxint

theorem Reads.congr {value : Value} {m n : ℤ} (h : Reads value m) (hmn : residue m = residue n) :
    Reads value n := by
  obtain ⟨⟨bits, hbits, hint⟩, hxint, hobject, hfloat, hbool⟩ := h
  exact ⟨⟨bits, hbits, hint.trans hmn⟩, hxint, hobject, hfloat, hbool⟩

/-- The 64 bits of an intermediate result lose nothing that the tagged word keeps. -/
theorem residue_bmod (n : ℤ) : residue (n.bmod (2 ^ 64)) = residue n :=
  Int.bmod_bmod_of_dvd (by decide)

/-- An operation on 64 bits that is `f` modulo `2 ^ 64` is `f` modulo `2 ^ 61` on integers. -/
theorem reads_xintBinary {op : BitVec 64 → BitVec 64 → BitVec 64} {f : ℤ → ℤ → ℤ}
    (hop : ∀ a b, (op a b).toInt = (f a.toInt b.toInt).bmod (2 ^ 64))
    (hf : ∀ m n, residue (f (residue m) (residue n)) = residue (f m n)) (a b : BitVec 64) :
    ∃ r, xintBinary op (xint a) (xint b) = some r ∧ Reads r (f a.toInt b.toInt) := by
  let a' := (a <<< 3 ||| 2#64).sshiftRight 3
  let b' := (b <<< 3 ||| 2#64).sshiftRight 3
  have hresult : xintBinary op (xint a) (xint b) = some (xint (op a' b')) := by
    simp only [xintBinary, toInt64_xint, Option.bind_some, Option.map_some, a', b']
  have hvalue : residue (op a' b').toInt = residue (f a.toInt b.toInt) := by
    rw [hop, residue_bmod, toInt_toInt64_xint, toInt_toInt64_xint, hf]
  exact ⟨_, hresult, (reads_xint _).congr hvalue⟩

theorem reads_xintAdd (a b : BitVec 64) :
    ∃ r, xintAdd (xint a) (xint b) = some r ∧ Reads r (a.toInt + b.toInt) := by
  apply reads_xintBinary (f := (· + ·)) BitVec.toInt_add
  intro m n
  simp only [residue, Int.add_bmod_bmod, Int.bmod_add_bmod]

theorem reads_xintSub (a b : BitVec 64) :
    ∃ r, xintSub (xint a) (xint b) = some r ∧ Reads r (a.toInt - b.toInt) := by
  apply reads_xintBinary (f := (· - ·)) fun _ _ => BitVec.toInt_sub
  intro m n
  simp only [residue, Int.sub_bmod_bmod, Int.bmod_sub_bmod]

theorem reads_xintMul (a b : BitVec 64) :
    ∃ r, xintMul (xint a) (xint b) = some r ∧ Reads r (a.toInt * b.toInt) := by
  apply reads_xintBinary (f := (· * ·)) BitVec.toInt_mul
  intro m n
  simp only [residue, Int.mul_bmod_bmod, Int.bmod_mul_bmod]

theorem residue_eq_self_iff {n : ℤ} : residue n = n ↔ -2 ^ 60 ≤ n ∧ n < 2 ^ 60 := by
  rw [residue, Int.bmod_eq_iff (by decide)]
  constructor
  · rintro ⟨hle, hlt, -⟩
    exact ⟨by omega, by omega⟩
  · rintro ⟨hle, hlt⟩
    exact ⟨by omega, by omega, by simp⟩

theorem toInt64_xint_eq_iff : toInt64 (xint a) = some a ↔ -2 ^ 60 ≤ a.toInt ∧ a.toInt < 2 ^ 60 := by
  rw [toInt64_xint, Option.some_inj, ← BitVec.toInt_inj, toInt_toInt64_xint, residue_eq_self_iff]

theorem xint_eq_xint_iff : xint a = xint b ↔ a.toInt ≡ b.toInt [ZMOD 2 ^ 61] := by
  have hmod : residue a.toInt = residue b.toInt ↔ a.toInt ≡ b.toInt [ZMOD 2 ^ 61] :=
    Tagged.bmod_eq_bmod_iff
  rw [← hmod, ← toInt_toInt64_xint, ← toInt_toInt64_xint, BitVec.toInt_inj]
  constructor
  · intro h
    rw [Value.word.inj h]
  · intro h
    exact congrArg Value.word (Tagged.sshiftRight_tag_inj h)

theorem xEq_eq_xtrue_iff : xEq x y = xtrue ↔ x = y := by
  constructor
  · intro h
    by_contra hne
    rw [xEq, xbool, if_neg (by simpa using hne)] at h
    exact absurd h (by decide)
  · rintro rfl
    simp [xEq, xbool]

/-- The primitives on integers compute modulo `2 ^ 61`. -/
theorem xint_modular (a b : BitVec 64) :
    Reads (xint a) a.toInt ∧
      (toInt64 (xint a) = some a ↔ -2 ^ 60 ≤ a.toInt ∧ a.toInt < 2 ^ 60) ∧
      (∃ r, xintAdd (xint a) (xint b) = some r ∧ Reads r (a.toInt + b.toInt)) ∧
      (∃ r, xintSub (xint a) (xint b) = some r ∧ Reads r (a.toInt - b.toInt)) ∧
      (∃ r, xintMul (xint a) (xint b) = some r ∧ Reads r (a.toInt * b.toInt)) ∧
      (xEq (xint a) (xint b) = xtrue ↔ a.toInt ≡ b.toInt [ZMOD 2 ^ 61]) := by
  have heq : xEq (xint a) (xint b) = xtrue ↔ a.toInt ≡ b.toInt [ZMOD 2 ^ 61] :=
    xEq_eq_xtrue_iff.trans xint_eq_xint_iff
  exact ⟨reads_xint a, toInt64_xint_eq_iff, reads_xintAdd a b, reads_xintSub a b,
    reads_xintMul a b, heq⟩

end InetLisp
