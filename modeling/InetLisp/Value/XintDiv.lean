import InetLisp.Value.Xint

/-! # Division of integers

The machine divides 64-bit numbers and rounds toward zero. Its division is undefined for
the divisor zero and where the quotient does not fit. Integers have 61 bits, so that their
quotients fit.
-/

namespace InetLisp

open Lib

/-- How a function on values ends without a result. -/
inductive Fault where
  /-- An assertion reports an error. -/
  | assertion
  /-- The machine division is undefined. -/
  | undefined
  deriving DecidableEq, Repr

/-- `/` on `int64_t` -/
def divInt64 (a b : BitVec 64) : Except Fault (BitVec 64) :=
  if b = 0#64 ∨ a = BitVec.intMin 64 ∧ b = -1#64 then .error .undefined else .ok (a.sdiv b)

/-- `%` on `int64_t`, which the same instruction computes -/
def modInt64 (a b : BitVec 64) : Except Fault (BitVec 64) :=
  if b = 0#64 ∨ a = BitVec.intMin 64 ∧ b = -1#64 then .error .undefined else .ok (a.srem b)

/-- `to_int64`, with its assertion -/
def assertInt64 (value : Value) : Except Fault (BitVec 64) :=
  match toInt64 value with
  | some bits => .ok bits
  | none => .error .assertion

/-- The operands are read before the division. -/
def xintDivision (op : BitVec 64 → BitVec 64 → Except Fault (BitVec 64)) (x y : Value) :
    Except Fault Value := do
  let a ← assertInt64 x
  let b ← assertInt64 y
  let c ← op a b
  return xint c

def xintDiv : Value → Value → Except Fault Value := xintDivision divInt64

def xintMod : Value → Value → Except Fault Value := xintDivision modInt64

/-- `worker_apply_primitive` with `PRIMITIVE_FN_2`: the second argument is on top of the stack. -/
def applyPrimitiveFn2 (fn : Value → Value → Except Fault Value) :
    List Value → Except Fault (List Value)
  | y :: x :: stack => do
    let result ← fn x y
    return if result = .word 0#64 then stack else result :: stack
  | _ => .error .assertion

/-- `q` and `r` are the quotient and the remainder of integers modulo `2 ^ 61`. -/
structure IsDivision (x y q r : ℤ) : Prop where
  sum : q * y + r ≡ x [ZMOD 2 ^ 61]
  lt : |r| < |y|
  sign : r = 0 ∨ r.sign = x.sign

/-- Neither primitive traps, and if the divisor is not zero they push the quotient and the
remainder. -/
structure Divides (x y : Value) : Prop where
  defined : ∀ stack, applyPrimitiveFn2 xintDiv (y :: x :: stack) ≠ .error .undefined ∧
    applyPrimitiveFn2 xintMod (y :: x :: stack) ≠ .error .undefined
  result : ∀ a b, toInt64 x = some a → toInt64 y = some b → b ≠ 0 → ∃ q r q' r',
    (∀ stack, applyPrimitiveFn2 xintDiv (y :: x :: stack) = .ok (q :: stack) ∧
      applyPrimitiveFn2 xintMod (y :: x :: stack) = .ok (r :: stack)) ∧
    toInt64 q = some q' ∧ toInt64 r = some r' ∧ IsDivision a.toInt b.toInt q'.toInt r'.toInt

variable {a b c : BitVec 64} {x y : Value} {stack : List Value}

theorem xint_ne_null (a : BitVec 64) : xint a ≠ .word 0#64 := by
  intro h
  have htag := congrArg valueTag h
  rw [valueTag_xint] at htag
  exact absurd htag (by decide)

theorem exists_of_toInt64 (h : toInt64 x = some a) :
    x = xint a ∧ -2 ^ 60 ≤ a.toInt ∧ a.toInt < 2 ^ 60 := by
  cases x with
  | word bits =>
    simp only [toInt64] at h
    split at h
    · rename_i hxint
      cases h
      have htag : bits &&& BitVec.ofNat 64 (2 ^ 3 - 1) = 2#64 := by
        simpa [isXint, valueTag, tagMask, Tag.bits] using hxint
      have hword : xint (bits.sshiftRight 3) = .word bits :=
        congrArg Value.word (Tagged.sshiftRight_shiftLeft_or htag)
      refine ⟨hword.symm, toInt64_xint_eq_iff.mp ?_⟩
      rw [hword, toInt64, if_pos hxint]
    · cases h
  | _ => cases h

theorem toInt64_eq_zero_iff : toInt64 y = some 0#64 ↔ y = xint 0#64 := by
  constructor
  · intro h
    exact (exists_of_toInt64 h).1
  · rintro rfl
    decide

/-- The quotient of two numbers of 61 bits fits into 64 bits. -/
theorem divInt64_of_ne (ha : -2 ^ 60 ≤ a.toInt) (hb : b ≠ 0#64) :
    divInt64 a b = .ok (a.sdiv b) ∧ modInt64 a b = .ok (a.srem b) := by
  have hmin : ¬ (b = 0#64 ∨ a = BitVec.intMin 64 ∧ b = -1#64) := by
    rintro (h | ⟨rfl, -⟩)
    · exact hb h
    · exact absurd ha (by decide)
  exact ⟨if_neg hmin, if_neg hmin⟩

theorem applyPrimitiveFn2_xintDivision {op : BitVec 64 → BitVec 64 → Except Fault (BitVec 64)}
    (hx : toInt64 x = some a) (hy : toInt64 y = some b) (h : op a b = .ok c) :
    applyPrimitiveFn2 (xintDivision op) (y :: x :: stack) = .ok (xint c :: stack) := by
  have hresult : xintDivision op x y = .ok (xint c) := by
    simp only [xintDivision, assertInt64, hx, hy, h, bind, Except.bind, pure, Except.pure]
  simp only [applyPrimitiveFn2, hresult, bind, Except.bind, pure, Except.pure,
    if_neg (xint_ne_null c)]

theorem applyPrimitiveFn2_of_none {op : BitVec 64 → BitVec 64 → Except Fault (BitVec 64)}
    (h : toInt64 x = none ∨ toInt64 y = none) :
    applyPrimitiveFn2 (xintDivision op) (y :: x :: stack) = .error .assertion := by
  have hresult : xintDivision op x y = .error .assertion := by
    unfold xintDivision assertInt64
    cases hx : toInt64 x with
    | none => rfl
    | some a =>
      cases hy : toInt64 y with
      | none => rfl
      | some b => simp [hx, hy] at h
  simp only [applyPrimitiveFn2, hresult, bind, Except.bind]

theorem applyPrimitiveFn2_zero (hx : toInt64 x = some a) :
    applyPrimitiveFn2 xintDiv (xint 0#64 :: x :: stack) = .error .undefined := by
  have hy : toInt64 (xint 0#64) = some 0#64 := toInt64_eq_zero_iff.mpr rfl
  simp only [applyPrimitiveFn2, xintDiv, xintDivision, assertInt64, hx, hy, divInt64, bind,
    Except.bind, true_or, if_true]

theorem isDivision_xint {q r : BitVec 64} (hb : -2 ^ 60 ≤ b.toInt ∧ b.toInt < 2 ^ 60)
    (hne : b ≠ 0#64)
    (hq : toInt64 (xint (a.sdiv b)) = some q) (hr : toInt64 (xint (a.srem b)) = some r) :
    IsDivision a.toInt b.toInt q.toInt r.toInt := by
  have hbz : b.toInt ≠ 0 := fun h => hne (BitVec.toInt_inj.mp h)
  rw [toInt64_xint, Option.some_inj] at hq hr
  have hlt : (a.toInt.tmod b.toInt).natAbs < b.toInt.natAbs := by
    rw [Int.natAbs_tmod]
    exact Nat.mod_lt _ (Int.natAbs_pos.mpr hbz)
  have hrem : r.toInt = a.toInt.tmod b.toInt := by
    rw [← hr, toInt_toInt64_xint, BitVec.toInt_srem, residue_eq_self_iff]
    omega
  have hquot : q.toInt ≡ a.toInt.tdiv b.toInt [ZMOD 2 ^ 61] := by
    rw [← hq, toInt_toInt64_xint, BitVec.toInt_sdiv, residue_bmod]
    exact Tagged.bmod_eq_bmod_iff.mp (Int.bmod_bmod_of_dvd (dvd_refl _))
  constructor
  · calc q.toInt * b.toInt + r.toInt
      _ ≡ a.toInt.tdiv b.toInt * b.toInt + a.toInt.tmod b.toInt [ZMOD 2 ^ 61] :=
        (hquot.mul_right _).add (by rw [hrem])
      _ = a.toInt := Int.tdiv_mul_add_tmod a.toInt b.toInt
  · rw [hrem, Int.abs_eq_natAbs, Int.abs_eq_natAbs]
    exact Int.ofNat_lt.mpr hlt
  · rw [hrem, Int.sign_tmod]
    split
    · exact .inl (Int.tmod_eq_zero_of_dvd ‹_›)
    · exact .inr rfl

/-- The machine division is undefined exactly for an integer divided by zero. -/
theorem divides_iff (x y : Value) : Divides x y ↔ ¬ (isXint x ∧ y = xint 0#64) := by
  have hsome : isXint x → ∃ a, toInt64 x = some a := by
    intro hx
    cases x with
    | word bits => exact ⟨_, if_pos hx⟩
    | _ => exact absurd hx (by simp [isXint, valueTag, Tag.bits])
  constructor
  · rintro ⟨hdefined, -⟩ ⟨hx, rfl⟩
    obtain ⟨a, ha⟩ := hsome hx
    exact (hdefined []).1 (applyPrimitiveFn2_zero ha)
  · intro h
    cases hx : toInt64 x with
    | none =>
      refine ⟨fun stack => ?_, fun a b ha => ?_⟩
      · simp [xintDiv, xintMod, applyPrimitiveFn2_of_none (.inl hx)]
      · cases hx.symm.trans ha
    | some a =>
      cases hy : toInt64 y with
      | none =>
        refine ⟨fun stack => ?_, fun a b _ hb => ?_⟩
        · simp [xintDiv, xintMod, applyPrimitiveFn2_of_none (.inr hy)]
        · cases hy.symm.trans hb
      | some b =>
        obtain ⟨rfl, ha⟩ := exists_of_toInt64 hx
        obtain ⟨rfl, hb⟩ := exists_of_toInt64 hy
        have hne : b ≠ 0#64 := by
          rintro rfl
          exact h ⟨(reads_xint a).isXint, rfl⟩
        obtain ⟨hdiv, hmod⟩ := divInt64_of_ne ha.1 hne
        have happly (stack : List Value) :
            applyPrimitiveFn2 xintDiv (xint b :: xint a :: stack) =
              .ok (xint (a.sdiv b) :: stack) ∧
            applyPrimitiveFn2 xintMod (xint b :: xint a :: stack) =
              .ok (xint (a.srem b) :: stack) :=
          ⟨applyPrimitiveFn2_xintDivision hx hy hdiv, applyPrimitiveFn2_xintDivision hx hy hmod⟩
        refine ⟨fun stack => by simp [happly], ?_⟩
        intro a' b' ha' hb' _
        cases hx.symm.trans ha'
        cases hy.symm.trans hb'
        obtain ⟨⟨q, hq, -⟩, -⟩ := reads_xint (a.sdiv b)
        obtain ⟨⟨r, hr, -⟩, -⟩ := reads_xint (a.srem b)
        exact ⟨_, _, q, r, happly, hq, hr, isDivision_xint hb hne hq hr⟩

/-- One divided by zero. -/
theorem not_divides_one_zero : isXint (xint 1#64) ∧ isXint (xint 0#64) ∧
    ¬ Divides (xint 1#64) (xint 0#64) := by
  refine ⟨by decide, by decide, ?_⟩
  rintro ⟨hdefined, -⟩
  exact (hdefined []).1 (by decide)

end InetLisp
