import InetLisp.Packages.Tiling

/-! # Decimal numerals

The lexer makes an integer token of a number that is printed in decimal, and the number is
read back.
-/

namespace InetLisp

open Lexer

/-- A number as `%ld` prints it. -/
def intText (n : ℤ) : Text :=
  if n < 0 then '-' :: Nat.toDigits 10 n.natAbs else Nat.toDigits 10 n.natAbs

section

variable {l : Text} {c : Char} {n acc : ℕ} {z : ℤ}

theorem digit_of_isDigit (hc : c.isDigit) : digit 10 c = some (c.toNat - 48) := by
  have hlt : c.toNat - 48 < 10 := by
    simp only [Char.isDigit, Bool.and_eq_true, decide_eq_true_eq] at hc
    have h := UInt32.le_iff_toNat_le.mp hc.2
    simp only [Char.toNat]
    have h9 : '9'.val.toNat = 57 := rfl
    omega
  simp [digit, hc, hlt]

theorem digits_of_isDigit (hl : ∀ c ∈ l, c.isDigit) :
    digits 10 acc l = (Nat.ofDigitChars 10 l acc, []) := by
  induction l generalizing acc with
  | nil => rfl
  | cons c l ih =>
    rw [digits, digit_of_isDigit (hl c List.mem_cons_self), Nat.ofDigitChars_cons, Nat.mul_comm 10]
    exact ih fun d hd => hl d (List.mem_cons_of_mem c hd)

theorem ne_of_isDigit (hc : c.isDigit) {d : Char} (hd : d.isDigit = false) : c ≠ d := by
  rintro rfl
  rw [hd] at hc
  cases hc

theorem isspace_of_isDigit (hc : c.isDigit) : isspace c = false := by
  simp [isspace, ne_of_isDigit hc]

theorem sign_of_isDigit (hc : c.isDigit) : sign (c :: l) = (false, c :: l) := by
  have hm : c ≠ '-' := ne_of_isDigit hc rfl
  have hp : c ≠ '+' := ne_of_isDigit hc rfl
  unfold sign
  split
  · rename_i h
    exact (hm (List.cons.inj h).1).elim
  · rename_i h
    exact (hp (List.cons.inj h).1).elim
  · rfl

theorem strtol_of_isDigit (hn : l ≠ []) (hl : ∀ c ∈ l, c.isDigit) : strtol 10 l =
    some (.ofInt 64 (max (-2 ^ 63) (min (Nat.ofDigitChars 10 l 0 : ℤ) (2 ^ 63 - 1))), []) := by
  cases l with
  | nil => exact (hn rfl).elim
  | cons c l =>
    have hc := hl c List.mem_cons_self
    have hd : (c :: l).dropWhile isspace = c :: l := by simp [isspace_of_isDigit hc]
    have hb : ¬10 = 16 := by decide
    simp only [strtol, hd, sign_of_isDigit hc, hb, if_false, digits_of_isDigit hl]
    simp

theorem not_startsWith_of_isDigit (hl : ∀ c ∈ l, c.isDigit) {d : Char} (hd : d.isDigit = false) :
    stringStartsWith l [d] = false := by
  cases l with
  | nil => rfl
  | cons c l =>
    have hne : c ≠ d := ne_of_isDigit (hl c List.mem_cons_self) hd
    rw [stringStartsWith, List.isPrefixOf, beq_eq_false_iff_ne.mpr hne.symm, Bool.false_and]

theorem not_startsWith_pair (hl : ∀ c ∈ l, c.isDigit) {d e : Char} (he : e.isDigit = false) :
    stringStartsWith l [d, e] = false := by
  cases l with
  | nil => rfl
  | cons c l =>
    have h := not_startsWith_of_isDigit (fun d hd => hl d (List.mem_cons_of_mem c hd)) he
    rw [stringStartsWith] at h ⊢
    rw [List.isPrefixOf, h, Bool.and_false]

theorem stringIsXint_of_isDigit (hn : l ≠ []) (hl : ∀ c ∈ l, c.isDigit) :
    stringIsXint l = true := by
  cases l with
  | nil => exact (hn rfl).elim
  | cons c l =>
    have hc := hl c List.mem_cons_self
    have hs : ¬(c = '-' ∨ c = '+') := by
      rintro (h | h)
      · exact ne_of_isDigit hc rfl h
      · exact ne_of_isDigit hc rfl h
    rw [stringIsXint, if_neg hs, not_startsWith_pair hl rfl, not_startsWith_pair hl rfl]
    simp [stringIsIntOfBase, strtol_of_isDigit hn hl]

theorem stringParseXint_of_isDigit (hn : l ≠ []) (hl : ∀ c ∈ l, c.isDigit)
    (hz : Nat.ofDigitChars 10 l 0 < 2 ^ 63) :
    stringParseXint l = .ofInt 64 (Nat.ofDigitChars 10 l 0) := by
  cases l with
  | nil => exact (hn rfl).elim
  | cons c l =>
    have hc := hl c List.mem_cons_self
    have hm : c ≠ '-' := ne_of_isDigit hc rfl
    have hp : c ≠ '+' := ne_of_isDigit hc rfl
    rw [stringParseXint, if_neg hm, if_neg hp, not_startsWith_pair hl rfl,
      not_startsWith_pair hl rfl, not_startsWith_pair hl rfl]
    simp only [Bool.false_eq_true, if_false, stringParseInt, strtol_of_isDigit hn hl]
    congr 1
    omega

theorem isDigit_of_mem_toDigits {n : ℕ} : ∀ c ∈ Nat.toDigits 10 n, c.isDigit := fun _ hc =>
  Nat.isDigit_of_mem_toDigits (by decide) (by decide) hc

theorem stringIsXint_intText : stringIsXint (intText z) = true := by
  have hd := stringIsXint_of_isDigit (Nat.toDigits_ne_nil (n := z.natAbs)) isDigit_of_mem_toDigits
  unfold intText
  split
  · rw [stringIsXint, if_pos (.inl rfl), not_startsWith_of_isDigit isDigit_of_mem_toDigits rfl,
      not_startsWith_of_isDigit isDigit_of_mem_toDigits rfl]
    exact hd
  · exact hd

theorem stringParseXint_intText (h : -2 ^ 63 < z) (h' : z < 2 ^ 63) :
    stringParseXint (intText z) = .ofInt 64 z := by
  have hlt : Nat.ofDigitChars 10 (Nat.toDigits 10 z.natAbs) 0 < 2 ^ 63 := by
    rw [Nat.ofDigitChars_ten_toDigits]
    omega
  have hd := stringParseXint_of_isDigit Nat.toDigits_ne_nil isDigit_of_mem_toDigits hlt
  rw [Nat.ofDigitChars_ten_toDigits] at hd
  unfold intText
  split
  · rw [stringParseXint, if_pos rfl, hd, ← BitVec.ofInt_neg]
    congr 1
    omega
  · rw [hd]
    congr 1
    omega

theorem lexed_of_isDigit {s : Text} (hl : ∀ c ∈ s, c = '-' ∨ c.isDigit) (hn : s ≠ [])
    (hx : stringIsXint s = true) (hlen : s.length ≤ maxTokenLength) : Lexed .int s := by
  have hk : kindOf s = .int := by rw [kindOf, if_pos hx]
  rw [← hk]
  refine .generic hn ?_ ?_ ?_ hlen
  · intro c hc
    rcases hl c hc with rfl | hd
    · decide
    · simp [isEnd, isspace_of_isDigit hd, ne_of_isDigit hd]
  · intro c hc
    rcases hl c (List.mem_of_mem_head? hc) with rfl | hd
    · decide
    · simp [ne_of_isDigit hd]
  · intro hc
    rcases hl _ hc with h | h <;> cases h

theorem lexed_intText (h : z.natAbs < 10 ^ 100) : Lexed .int (intText z) := by
  have hlen : (Nat.toDigits 10 z.natAbs).length ≤ 100 :=
    (Nat.length_toDigits_le_iff (by decide) (by decide)).mpr h
  refine lexed_of_isDigit ?_ ?_ stringIsXint_intText ?_
  · unfold intText
    split
    · intro c hc
      rcases List.mem_cons.mp hc with rfl | hc
      · exact .inl rfl
      · exact .inr (isDigit_of_mem_toDigits c hc)
    · exact fun c hc => .inr (isDigit_of_mem_toDigits c hc)
  · unfold intText
    split
    · exact List.cons_ne_nil _ _
    · exact Nat.toDigits_ne_nil
  · unfold intText
    split
    · rw [List.length_cons]
      exact (Nat.succ_le_succ hlen).trans (by decide : 101 ≤ 1024)
    · exact hlen.trans (by decide : 100 ≤ 1024)

end

end InetLisp
