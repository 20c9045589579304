import InetLisp.Packages.IntLiteral

/-! # Float literals

A literal is a sign, digits with at most one point, and an exponent. `strtod` takes the
words for infinity and for what is no number as well, and hexadecimal numbers.
-/

namespace InetLisp.FloatLiteral

open IntLiteral (Sign IsDigits Unsigned Tight numeral)

/-- Digits with at most one point among them. -/
inductive Mantissa (base : ℕ) : Text → Prop
  | digits {ds : Text} (hd : IsDigits base ds) : Mantissa base ds
  | point {ds ds' : Text} (hd : ∀ c ∈ ds, (digit base c).isSome)
      (hd' : ∀ c ∈ ds', (digit base c).isSome) (hn : ds ≠ [] ∨ ds' ≠ []) :
      Mantissa base (ds ++ '.' :: ds')

/-- An exponent after its marker, or none. -/
inductive Exponent (marker : Char) : Text → Prop
  | none : Exponent marker []
  | some {c : Char} {sgn ds : Text} {negative : Bool} (hc : c.toLower = marker)
      (hs : Sign sgn negative) (hd : IsDigits 10 ds) : Exponent marker (c :: (sgn ++ ds))

inductive Literal : Text → Prop
  | intro {sgn m e : Text} {negative : Bool} (hs : Sign sgn negative) (hm : Mantissa 10 m)
      (he : Exponent 'e' e) : Literal (sgn ++ (m ++ e))

/-- The words that `strtod` knows. -/
def words : List Text :=
  [['i', 'n', 'f'], ['i', 'n', 'f', 'i', 'n', 'i', 't', 'y'], ['n', 'a', 'n']]

/-- What else `strtod` takes. -/
inductive Special : Text → Prop
  | word {sgn word : Text} {negative : Bool} (hs : Sign sgn negative)
      (hw : word.map Char.toLower ∈ words) : Special (sgn ++ word)
  | hex {sgn m e : Text} {negative : Bool} {x : Char} (hs : Sign sgn negative)
      (hx : x.toLower = 'x') (hm : Mantissa 16 m) (he : Exponent 'p' e) :
      Special (sgn ++ ('0' :: x :: (m ++ e)))

section

variable {base n k : ℕ} {t m e rest stop body s : Text} {c x marker : Char} {v : BitVec 64} {z : ℤ}

theorem digit_point : digit base '.' = none := IntLiteral.digit_eq_none rfl rfl rfl

theorem digits_of_head (hr : ∀ c ∈ rest.head?, digit base c = none) :
    digits base n rest = (n, rest) := by
  cases rest with
  | nil => rfl
  | cons c rest => rw [digits, hr c rfl]

/-- The number ends in front of the text. -/
def Ends (base : ℕ) (rest : Text) : Prop :=
  ∀ c ∈ rest.head?, digit base c = none ∧ c ≠ '.'

theorem significand_point {n' : ℕ} (h : digits base 0 t = (n, '.' :: rest))
    (h' : digits base n rest = (n', stop)) : significand base t =
      if ('.' :: rest).length = t.length ∧ stop.length = rest.length then none
      else some (n', rest.length - stop.length, stop) := by
  unfold significand
  simp only [h, h']

theorem significand_digits (h : digits base 0 t = (n, rest)) (hr : ∀ c ∈ rest.head?, c ≠ '.') :
    significand base t = if rest.length = t.length then none else some (n, 0, rest) := by
  unfold significand
  simp only [h]
  split
  · exact (hr '.' rfl rfl).elim
  · rfl

theorem exists_significand (hm : Mantissa base m) (hr : Ends base rest) :
    ∃ n k, significand base (m ++ rest) = some (n, k, rest) := by
  have hstop (n : ℕ) : digits base n rest = (n, rest) :=
    digits_of_head fun c hc => (hr c hc).1
  cases hm with
  | digits hd =>
    have hdigits : digits base 0 (m ++ rest) = (numeral base 0 m, rest) := by
      rw [IntLiteral.digits_append hd.isSome, hstop]
    have hlen : ¬rest.length = (m ++ rest).length := by
      have hpos := List.length_pos_iff.mpr hd.ne_nil
      rw [List.length_append]
      omega
    use numeral base 0 m, 0
    rw [significand_digits hdigits fun c hc => (hr c hc).2, if_neg hlen]
  | @point ds ds' hd hd' hn =>
    have hdigits : digits base 0 (ds ++ '.' :: ds' ++ rest) =
        (numeral base 0 ds, '.' :: (ds' ++ rest)) := by
      rw [List.append_assoc, IntLiteral.digits_append hd, List.cons_append,
        digits_of_head fun c hc => Option.some.inj hc ▸ digit_point]
    have hdigits' : digits base (numeral base 0 ds) (ds' ++ rest) =
        (numeral base (numeral base 0 ds) ds', rest) := by
      rw [IntLiteral.digits_append hd', hstop]
    have hlen : ¬(('.' :: (ds' ++ rest)).length = (ds ++ '.' :: ds' ++ rest).length ∧
        rest.length = (ds' ++ rest).length) := by
      rintro ⟨hl, hl'⟩
      simp only [List.length_append, List.length_cons] at hl hl'
      rcases hn with hn | hn
      · exact hn (List.length_eq_zero_iff.mp (by omega))
      · exact hn (List.length_eq_zero_iff.mp (by omega))
    use numeral base (numeral base 0 ds) ds', (ds' ++ rest).length - rest.length
    rw [significand_point hdigits hdigits', if_neg hlen]

theorem exists_mantissa (h : significand base t = some (n, k, stop)) :
    ∃ m, t = m ++ stop ∧ Mantissa base m := by
  obtain ⟨n', rest, hread⟩ : ∃ n' rest, digits base 0 t = (n', rest) := ⟨_, _, rfl⟩
  obtain ⟨ds, rfl, hd, -⟩ := IntLiteral.digits_eq hread
  by_cases hpoint : ∃ rest', rest = '.' :: rest'
  · obtain ⟨rest', rfl⟩ := hpoint
    obtain ⟨n'', stop', hread'⟩ : ∃ n'' stop', digits base n' rest' = (n'', stop') := ⟨_, _, rfl⟩
    rw [significand_point hread hread'] at h
    obtain ⟨ds', rfl, hd', -⟩ := IntLiteral.digits_eq hread'
    obtain ⟨hlen, heq⟩ := Option.ite_none_left_eq_some.mp h
    obtain ⟨rfl, -, rfl⟩ := by simpa using heq
    refine ⟨ds ++ '.' :: ds', by simp, .point hd hd' ?_⟩
    by_contra hnil
    simp only [not_or, not_not] at hnil
    obtain ⟨rfl, rfl⟩ := hnil
    exact hlen ⟨rfl, rfl⟩
  · have hhead : ∀ c ∈ rest.head?, c ≠ '.' := by
      rintro c hc rfl
      cases rest with
      | nil => cases hc
      | cons d rest' =>
        obtain rfl := Option.some.inj hc
        exact hpoint ⟨rest', rfl⟩
    rw [significand_digits hread hhead] at h
    obtain ⟨hlen, heq⟩ := Option.ite_none_left_eq_some.mp h
    obtain ⟨rfl, -, rfl⟩ := by simpa using heq
    refine ⟨ds, rfl, .digits ⟨?_, hd⟩⟩
    rintro rfl
    exact hlen rfl

theorem exponent_eq (he : Exponent marker e) : ∃ z, exponent marker e = (z, []) := by
  cases he with
  | none => exact ⟨0, rfl⟩
  | @some c sgn ds negative hc hs hd =>
    have hlen : ¬([] : Text).length = ds.length := fun h =>
      hd.ne_nil (List.length_eq_zero_iff.mp h.symm)
    refine ⟨if negative then -numeral 10 0 ds else numeral 10 0 ds, ?_⟩
    rw [exponent, if_pos hc, IntLiteral.sign_append hs hd.unsigned]
    simp only [IntLiteral.digits_of_isDigits hd, if_neg hlen]

theorem exponent_of_eq (h : exponent marker e = (z, [])) : Exponent marker e := by
  cases e with
  | nil => exact .none
  | cons c rest =>
    rw [exponent] at h
    obtain ⟨sgn, hs, hsign, -⟩ := IntLiteral.exists_sign rest
    split at h
    · rename_i hc
      simp only at h
      split at h
      · cases h
      · rename_i hlen
        obtain ⟨-, hstop⟩ := Prod.mk.inj h
        obtain ⟨ds, hds, hd, -⟩ := IntLiteral.digits_eq (rfl : digits 10 0 (sign rest).2 = _)
        rw [hstop, List.append_nil] at hds
        rw [hsign, hds]
        refine .some hc hs ⟨?_, hd⟩
        rintro rfl
        rw [hds] at hlen
        exact hlen rfl
    · cases h

theorem eq_or_eq_of_toLower {upper lower : Char} (h : c.toLower = lower)
    (hu : upper.toLower = lower) (hne : upper ≠ lower) : c = lower ∨ c = upper := by
  unfold Char.toLower at h hu
  split at h
  · split at hu
    · right
      apply Char.ext
      have hval := congrArg Char.val (h.trans hu.symm)
      exact (UInt32.add_left_inj _).mp hval
    · exact (hne hu).elim
  · exact .inl h

theorem ends_exponent (he : Exponent marker e)
    (h : ∀ c : Char, c.toLower = marker → digit base c = none ∧ c ≠ '.') : Ends base e := by
  cases he with
  | none => nofun
  | some hc =>
    rintro d ⟨⟩
    exact h _ hc

theorem ends_decimal (he : Exponent 'e' e) : Ends 10 e := by
  refine ends_exponent he fun c hc => ?_
  rcases eq_or_eq_of_toLower hc (by decide : 'E'.toLower = 'e') (by decide) with rfl | rfl
  · decide
  · decide

theorem ends_hex (he : Exponent 'p' e) : Ends 16 e := by
  refine ends_exponent he fun c hc => ?_
  rcases eq_or_eq_of_toLower hc (by decide : 'P'.toLower = 'p') (by decide) with rfl | rfl
  · decide
  · decide

def Decimal (body : Text) : Prop := ∃ m e, body = m ++ e ∧ Mantissa 10 m ∧ Exponent 'e' e

def Hex (body : Text) : Prop :=
  ∃ x m e, body = '0' :: x :: (m ++ e) ∧ x.toLower = 'x' ∧ Mantissa 16 m ∧ Exponent 'p' e

theorem decimal_iff : (∃ v, unsignedDouble.decimal body = some (v, [])) ↔ Decimal body := by
  constructor
  · rintro ⟨v, h⟩
    obtain ⟨⟨n, k, stop⟩, hread, heq⟩ := Option.map_eq_some_iff.mp h
    obtain ⟨m, rfl, hm⟩ := exists_mantissa hread
    have hstop : (exponent 'e' stop).2 = [] := (Prod.mk.inj heq).2
    exact ⟨m, stop, rfl, hm, exponent_of_eq (Prod.ext rfl hstop)⟩
  · rintro ⟨m, e, rfl, hm, he⟩
    obtain ⟨n, k, hread⟩ := exists_significand hm (ends_decimal he)
    obtain ⟨z, hexp⟩ := exponent_eq he
    refine ⟨roundDouble (n * 10 ^ (z - k)), ?_⟩
    rw [unsignedDouble.decimal, hread, Option.map_some]
    simp only [hexp]

theorem skipWord_eq_nil {word : Text} (h : skipWord word body = some []) :
    body.map Char.toLower = word := by
  unfold skipWord at h
  obtain ⟨hpre, hdrop⟩ := Option.ite_none_right_eq_some.mp h
  have hlen := List.drop_eq_nil_iff.mp (Option.some.inj hdrop)
  have hpre := List.isPrefixOf_iff_prefix.mp hpre
  exact (hpre.eq_of_length_le (by simpa using hlen)).symm

theorem skipWord_map {word : Text} (h : body.map Char.toLower = word) :
    skipWord word body = some [] := by
  have hlen : body.length ≤ word.length := by rw [← h, List.length_map]
  rw [skipWord, h, stringStartsWith, List.isPrefixOf_iff_prefix.mpr List.prefix_rfl, if_pos rfl,
    List.drop_eq_nil_iff.mpr hlen]

theorem skipWord_eq_none {word : Text} (h : ¬word <+: body.map Char.toLower) :
    skipWord word body = none := by
  rw [skipWord, stringStartsWith, if_neg fun hpre => h (List.isPrefixOf_iff_prefix.mp hpre)]

theorem skipPayload_eq (h : '(' ∉ t) : skipPayload t = t := by
  unfold skipPayload
  split
  · exact (h List.mem_cons_self).elim
  · rfl

/-- After a zero and such a character nothing of a decimal number follows. -/
theorem not_decimal_of_zero (hx : digit 10 x = none ∧ x ≠ '.' ∧ x.toLower ≠ 'e') :
    ¬Decimal ('0' :: x :: rest) := by
  have hdigits : digits 10 0 ('0' :: x :: rest) = (0, x :: rest) := by
    have hzero : digit 10 '0' = some 0 := rfl
    simp only [digits, hzero, hx.1]
  rw [← decimal_iff]
  rintro ⟨v, h⟩
  have hread : significand 10 ('0' :: x :: rest) = some (0, 0, x :: rest) := by
    have hlen : ¬(x :: rest).length = ('0' :: x :: rest).length := by simp
    rw [significand_digits hdigits fun c hc => Option.some.inj hc ▸ hx.2.1, if_neg hlen]
  rw [unsignedDouble.decimal, hread, Option.map_some] at h
  simp [exponent, hx.2.2] at h

theorem not_decimal_hex (hx : x.toLower = 'x') : ¬Decimal ('0' :: x :: rest) := by
  apply not_decimal_of_zero
  rcases eq_or_eq_of_toLower hx (by decide : 'X'.toLower = 'x') (by decide) with rfl | rfl
  · decide
  · decide

theorem hex_iff (hx : x.toLower = 'x') : Hex ('0' :: x :: rest) ↔
    ∃ m e, rest = m ++ e ∧ Mantissa 16 m ∧ Exponent 'p' e := by
  constructor
  · rintro ⟨y, m, e, h, -, hm, he⟩
    exact ⟨m, e, (List.cons.inj (List.cons.inj h).2).2, hm, he⟩
  · rintro ⟨m, e, rfl, hm, he⟩
    exact ⟨x, m, e, rfl, hx, hm, he⟩

theorem unsignedDouble_number (hw : ∀ word ∈ words, skipWord word body = none) :
    (∃ v, unsignedDouble body = some (v, [])) ↔ Decimal body ∨ Hex body := by
  have h₁ := hw ['i', 'n', 'f', 'i', 'n', 'i', 't', 'y'] (by decide)
  have h₂ := hw ['i', 'n', 'f'] (by decide)
  have h₃ := hw ['n', 'a', 'n'] (by decide)
  by_cases hhex : ∃ x rest, body = '0' :: x :: rest ∧ x.toLower = 'x'
  · obtain ⟨x, rest, rfl, hx⟩ := hhex
    rw [hex_iff hx, or_iff_right (not_decimal_hex hx)]
    unfold unsignedDouble
    simp only [h₁, h₂, h₃, if_pos hx]
    constructor
    · rintro ⟨v, h⟩
      split at h
      · rename_i n k stop hread
        obtain ⟨m, rfl, hm⟩ := exists_mantissa hread
        have hstop : (exponent 'p' stop).2 = [] := (Prod.mk.inj (Option.some.inj h)).2
        exact ⟨m, stop, rfl, hm, exponent_of_eq (Prod.ext rfl hstop)⟩
      · exact (not_decimal_hex hx (decimal_iff.mp ⟨v, h⟩)).elim
    · rintro ⟨m, e, rfl, hm, he⟩
      obtain ⟨n, k, hread⟩ := exists_significand hm (ends_hex he)
      obtain ⟨z, hexp⟩ := exponent_eq he
      refine ⟨roundDouble (n * 2 ^ (z - 4 * k)), ?_⟩
      simp only [hread, hexp]
  · have hdecimal : unsignedDouble body = unsignedDouble.decimal body := by
      unfold unsignedDouble
      simp only [h₁, h₂, h₃]
      split
      · rename_i x rest
        rw [if_neg fun hx => hhex ⟨x, rest, rfl, hx⟩]
      · rfl
    have hnot : ¬Hex body := by
      rintro ⟨x, m, e, rfl, hx, -⟩
      exact hhex ⟨x, m ++ e, rfl, hx⟩
    rw [hdecimal, decimal_iff, or_iff_left hnot]

theorem exists_head (h : Decimal body ∨ Hex body) :
    ∃ c rest, body = c :: rest ∧ ((digit 10 c).isSome ∨ c = '.') := by
  rcases h with ⟨m, e, rfl, hm, -⟩ | ⟨x, m, e, rfl, -⟩
  · cases hm with
    | digits hd =>
      obtain ⟨c, ds, rfl, hc⟩ := hd.exists_cons
      exact ⟨c, _, rfl, .inl hc⟩
    | @point ds ds' hd =>
      cases ds with
      | nil => exact ⟨'.', _, rfl, .inr rfl⟩
      | cons c ds => exact ⟨c, _, rfl, .inl (hd c List.mem_cons_self)⟩
  · exact ⟨'0', _, rfl, .inl rfl⟩

theorem head_of_words {word : Text} (hw : word ∈ words) :
    word.head? = some 'i' ∨ word.head? = some 'n' := by
  simp only [words, List.mem_cons, List.not_mem_nil, or_false] at hw
  rcases hw with rfl | rfl | rfl
  · exact .inl rfl
  · exact .inl rfl
  · exact .inr rfl

theorem not_number_of_toLower (h : c.toLower = 'i' ∨ c.toLower = 'n') :
    digit 10 c = none ∧ c ≠ '.' ∧ c ≠ '-' ∧ c ≠ '+' := by
  rcases h with h | h
  · rcases eq_or_eq_of_toLower h (by decide : 'I'.toLower = 'i') (by decide) with rfl | rfl
    · decide
    · decide
  · rcases eq_or_eq_of_toLower h (by decide : 'N'.toLower = 'n') (by decide) with rfl | rfl
    · decide
    · decide

theorem skipWord_number (h : Decimal body ∨ Hex body) {word : Text} (hw : word ∈ words) :
    skipWord word body = none := by
  obtain ⟨c, rest, rfl, hc⟩ := exists_head h
  apply skipWord_eq_none
  rintro ⟨tail, htail⟩
  have hlower : c.toLower = 'i' ∨ c.toLower = 'n' := by
    have hhead : some c.toLower = word.head? := by
      cases word with
      | nil => exact absurd hw (by decide)
      | cons d word => exact congrArg some (List.cons.inj htail).1.symm
    rcases head_of_words hw with hi | hn
    · exact .inl (Option.some.inj (hhead.trans hi))
    · exact .inr (Option.some.inj (hhead.trans hn))
  obtain ⟨hdigit, hpoint, -⟩ := not_number_of_toLower hlower
  rcases hc with hc | hc
  · rw [hdigit] at hc
    cases hc
  · exact hpoint hc

theorem unsignedDouble_words (h : body.map Char.toLower ∈ words) :
    ∃ v, unsignedDouble body = some (v, []) := by
  have hword {word : Text} (hw : ¬word <+: body.map Char.toLower) := skipWord_eq_none hw
  simp only [words, List.mem_cons, List.not_mem_nil, or_false] at h
  rcases h with h | h | h
  · have hlong : ¬['i', 'n', 'f', 'i', 'n', 'i', 't', 'y'] <+: body.map Char.toLower := by
      rw [h]
      decide
    refine ⟨0x7ff0000000000000#64, ?_⟩
    simp only [unsignedDouble, hword hlong, skipWord_map h]
  · refine ⟨0x7ff0000000000000#64, ?_⟩
    simp only [unsignedDouble, skipWord_map h]
  · have hlong : ¬['i', 'n', 'f', 'i', 'n', 'i', 't', 'y'] <+: body.map Char.toLower := by
      rw [h]
      decide
    have hshort : ¬['i', 'n', 'f'] <+: body.map Char.toLower := by
      rw [h]
      decide
    refine ⟨0x7ff8000000000000#64, ?_⟩
    simp only [unsignedDouble, hword hlong, hword hshort, skipWord_map h]
    rfl

theorem mem_words_of_unsignedDouble (hp : '(' ∉ body) {word : Text} (hw : word ∈ words)
    (hs : skipWord word body ≠ none) (h : unsignedDouble body = some (v, [])) :
    body.map Char.toLower ∈ words := by
  have hmem {word : Text} (hw : word ∈ words) (hs : skipWord word body = some []) :
      body.map Char.toLower ∈ words := by
    rw [skipWord_eq_nil hs]
    exact hw
  cases h₁ : skipWord ['i', 'n', 'f', 'i', 'n', 'i', 't', 'y'] body with
  | some stop =>
    simp only [unsignedDouble, h₁] at h
    obtain ⟨-, rfl⟩ := Prod.mk.inj (Option.some.inj h)
    exact hmem (by decide) h₁
  | none =>
    cases h₂ : skipWord ['i', 'n', 'f'] body with
    | some stop =>
      simp only [unsignedDouble, h₁, h₂] at h
      obtain ⟨-, rfl⟩ := Prod.mk.inj (Option.some.inj h)
      exact hmem (by decide) h₂
    | none =>
      cases h₃ : skipWord ['n', 'a', 'n'] body with
      | some stop =>
        simp only [unsignedDouble, h₁, h₂, h₃] at h
        have hstop : '(' ∉ stop := by
          unfold skipWord at h₃
          obtain ⟨-, heq⟩ := Option.ite_none_right_eq_some.mp h₃
          rw [← Option.some.inj heq]
          exact fun hin => hp (List.mem_of_mem_drop hin)
        obtain ⟨-, hpayload⟩ := Prod.mk.inj (Option.some.inj h)
        rw [skipPayload_eq hstop] at hpayload
        subst hpayload
        exact hmem (by decide) h₃
      | none =>
        simp only [words, List.mem_cons, List.not_mem_nil, or_false] at hw
        rcases hw with rfl | rfl | rfl
        · exact (hs h₂).elim
        · exact (hs h₁).elim
        · exact (hs h₃).elim

theorem unsignedDouble_iff (hp : '(' ∉ body) : (∃ v, unsignedDouble body = some (v, [])) ↔
    body.map Char.toLower ∈ words ∨ Decimal body ∨ Hex body := by
  by_cases hw : ∀ word ∈ words, skipWord word body = none
  · rw [unsignedDouble_number hw]
    refine (or_iff_right fun hmem => ?_).symm
    have hnone := hw _ hmem
    rw [skipWord_map rfl] at hnone
    cases hnone
  · have hnot : ¬(Decimal body ∨ Hex body) := fun h => hw fun word => skipWord_number h
    rw [or_iff_left hnot]
    push Not at hw
    obtain ⟨word, hw, hs⟩ := hw
    exact ⟨fun ⟨_, h⟩ => mem_words_of_unsignedDouble hp hw hs h, unsignedDouble_words⟩

theorem literal_iff : Literal s ↔ Decimal (sign s).2 := by
  constructor
  · rintro ⟨hs, hm, he⟩
    rename_i sgn m e negative
    have hd : Decimal (m ++ e) := ⟨m, e, rfl, hm, he⟩
    have hu : Unsigned (m ++ e) := by
      obtain ⟨c, rest, heq, hc⟩ := exists_head (.inl hd)
      rw [heq]
      rintro d ⟨⟩
      rcases hc with hc | rfl
      · exact IntLiteral.not_sign_of_digit hc
      · decide
    rwa [IntLiteral.sign_append hs hu]
  · rintro ⟨m, e, hme, hm, he⟩
    obtain ⟨sgn, hs, hsign, -⟩ := IntLiteral.exists_sign s
    have h := Literal.intro hs hm he
    rwa [← hme, ← hsign] at h

theorem special_iff : Special s ↔ (sign s).2.map Char.toLower ∈ words ∨ Hex (sign s).2 := by
  constructor
  · intro h
    cases h with
    | @word sgn word negative hs hw =>
      have hu : Unsigned word := by
        intro c hc
        have hlower : c.toLower = 'i' ∨ c.toLower = 'n' := by
          have hhead : (word.map Char.toLower).head? = some c.toLower := by
            rw [List.head?_map, Option.mem_def.mp hc, Option.map_some]
          rcases head_of_words hw with hi | hn
          · exact .inl (Option.some.inj (hhead.symm.trans hi))
          · exact .inr (Option.some.inj (hhead.symm.trans hn))
        exact (not_number_of_toLower hlower).2.2
      rw [IntLiteral.sign_append hs hu]
      exact .inl hw
    | @hex sgn m e negative x hs hx hm he =>
      have hu : Unsigned ('0' :: x :: (m ++ e)) := by
        rintro c ⟨⟩
        decide
      rw [IntLiteral.sign_append hs hu]
      exact .inr ⟨x, m, e, rfl, hx, hm, he⟩
  · obtain ⟨sgn, hs, hsign, -⟩ := IntLiteral.exists_sign s
    rintro (hw | ⟨x, m, e, hbody, hx, hm, he⟩)
    · have h := Special.word hs hw
      rwa [← hsign] at h
    · have h := Special.hex hs hx hm he
      rwa [← hbody, ← hsign] at h

theorem dropWhile_isspace (hb : ∀ c ∈ s, ¬isspace c) : s.dropWhile isspace = s := by
  cases s with
  | nil => rfl
  | cons c s => rw [List.dropWhile_cons, if_neg (hb c List.mem_cons_self)]

/-- In front of blanks and parentheses `strtod` takes the literals and the special forms. -/
theorem stringIsDouble_iff (hb : ∀ c ∈ s, ¬isspace c) (hp : '(' ∉ s) :
    stringIsDouble s = true ↔ Literal s ∨ Special s := by
  have hread : stringIsDouble s = true ↔ ∃ v, unsignedDouble (sign s).2 = some (v, []) := by
    simp only [stringIsDouble, strtod, dropWhile_isspace hb]
    cases unsignedDouble (sign s).2 with
    | none => simp
    | some r => simp [Prod.ext_iff]
  have hbody : '(' ∉ (sign s).2 := by
    obtain ⟨sgn, -, hsign, -⟩ := IntLiteral.exists_sign s
    intro hin
    rw [hsign] at hp
    exact hp (List.mem_append_right sgn hin)
  rw [hread, unsignedDouble_iff hbody, literal_iff, special_iff]
  tauto

theorem Special.not_literal (h : Special s) : ¬Literal s := by
  rw [literal_iff]
  intro hd
  rcases special_iff.mp h with hw | hh
  · have hnone := skipWord_number (.inl hd) hw
    rw [skipWord_map rfl] at hnone
    cases hnone
  · obtain ⟨x, m, e, hbody, hx, -⟩ := hh
    rw [hbody] at hd
    exact not_decimal_hex hx hd

theorem not_double_of_binary (h : IntLiteral.Binary s) : ¬Literal s ∧ ¬Special s := by
  obtain ⟨hs, hd⟩ := h
  rename_i sgn ds negative
  have hu : Unsigned (['0', 'b'] ++ ds) := IntLiteral.Radix.binary.unsigned_append nofun
  rw [literal_iff, special_iff, IntLiteral.sign_append hs hu]
  refine ⟨not_decimal_of_zero (by decide), ?_⟩
  rintro (hw | ⟨x, m, e, hbody, hx, -⟩)
  · rcases head_of_words hw with h | h
    · exact absurd (Option.some.inj h) (by decide)
    · exact absurd (Option.some.inj h) (by decide)
  · obtain rfl : 'b' = x := (List.cons.inj (List.cons.inj hbody).2).1
    exact absurd hx (by decide)

end

end InetLisp.FloatLiteral
