import InetLisp.Packages.Numeral

/-! # Integer literals

A literal is a sign, the prefix of a base and digits of that base. The recogniser and the
decoder take off a sign and a prefix and leave the rest to `strtol`, which takes blanks, a
sign and a prefix of its own in front of the digits.
-/

namespace InetLisp.IntLiteral

/-- A sign or none, and whether it negates. -/
inductive Sign : Text → Bool → Prop
  | none : Sign [] false
  | plus : Sign ['+'] false
  | minus : Sign ['-'] true

/-- The prefix of a base; base ten has none. -/
inductive Radix : Text → ℕ → Prop
  | decimal : Radix [] 10
  | hexadecimal : Radix ['0', 'x'] 16
  | octal : Radix ['0', 'o'] 8
  | binary : Radix ['0', 'b'] 2

structure IsDigits (base : ℕ) (ds : Text) : Prop where
  ne_nil : ds ≠ []
  isSome : ∀ c ∈ ds, (digit base c).isSome

/-- The number that digits write, after digits of the value `n`. -/
def numeral (base n : ℕ) (ds : Text) : ℕ :=
  ds.foldl (fun n c => n * base + (digit base c).getD 0) n

def signed (negative : Bool) (n : ℕ) : ℤ := if negative then -n else n

inductive Literal : Text → ℤ → Prop
  | intro {sgn pre ds : Text} {negative : Bool} {base : ℕ} (hs : Sign sgn negative)
      (hr : Radix pre base) (hd : IsDigits base ds) :
      Literal (sgn ++ (pre ++ ds)) (signed negative (numeral base 0 ds))

inductive Binary : Text → Prop
  | intro {sgn ds : Text} {negative : Bool} (hs : Sign sgn negative) (hd : IsDigits 2 ds) :
      Binary (sgn ++ (['0', 'b'] ++ ds))

/-- What `strtol` takes in front of the digits: blanks, a sign, and a prefix in base 16. -/
inductive Padding (base : ℕ) : Text → Bool → Prop
  | intro {blanks sgn hex : Text} {negative : Bool} (hb : ∀ c ∈ blanks, isspace c)
      (hs : Sign sgn negative)
      (hh : hex = [] ∨ base = 16 ∧ (hex = ['0', 'x'] ∨ hex = ['0', 'X'])) :
      Padding base (blanks ++ (sgn ++ hex)) negative

/-- A text with something between its sign and prefix and its digits. In base ten this starts
with a blank, as another sign would be a second one. -/
inductive Padded : Text → Prop
  | intro {sgn pre pad ds : Text} {negative negative' : Bool} {base : ℕ}
      (hs : Sign sgn negative) (hr : Radix pre base) (hb : base ≠ 2)
      (hp : Padding base pad negative') (hn : pad ≠ [])
      (hblank : pre = [] → ∀ c ∈ pad.head?, isspace c) (hd : IsDigits base ds) :
      Padded (sgn ++ (pre ++ (pad ++ ds)))

section

variable {s t ds rest pad pre sgn body : Text} {negative : Bool} {base n m : ℕ} {z : ℤ} {c : Char}

/-- No sign stands in front. -/
def Unsigned (body : Text) : Prop := ∀ c ∈ body.head?, c ≠ '-' ∧ c ≠ '+'

theorem IsDigits.exists_cons (h : IsDigits base ds) :
    ∃ c rest, ds = c :: rest ∧ (digit base c).isSome := by
  obtain ⟨c, rest, rfl⟩ := List.exists_cons_of_ne_nil h.ne_nil
  exact ⟨c, rest, rfl, h.isSome c List.mem_cons_self⟩

theorem digit_eq_none (hdigit : c.isDigit = false) (hlower : c.isLower = false)
    (hupper : c.isUpper = false) : digit base c = none := by
  simp [digit, hdigit, hlower, hupper]

theorem digit_of_isspace (hc : isspace c) : digit base c = none := by
  simp only [isspace, decide_eq_true_eq, List.mem_cons, List.not_mem_nil, or_false] at hc
  rcases hc with rfl | rfl | rfl | rfl | rfl | rfl <;> exact digit_eq_none rfl rfl rfl

theorem digits_append (hd : ∀ c ∈ ds, (digit base c).isSome) :
    digits base n (ds ++ rest) = digits base (numeral base n ds) rest := by
  induction ds generalizing n with
  | nil => rfl
  | cons c ds ih =>
    obtain ⟨d, hc⟩ := Option.isSome_iff_exists.mp (hd c List.mem_cons_self)
    rw [List.cons_append, digits, hc]
    simp only [ih fun e he => hd e (List.mem_cons_of_mem c he), numeral, List.foldl_cons, hc,
      Option.getD_some]

theorem digits_eq (h : digits base n t = (m, rest)) :
    ∃ ds, t = ds ++ rest ∧ (∀ c ∈ ds, (digit base c).isSome) ∧ m = numeral base n ds := by
  induction t generalizing n with
  | nil =>
    obtain ⟨rfl, rfl⟩ := Prod.mk.inj h
    exact ⟨[], rfl, nofun, rfl⟩
  | cons c t ih =>
    rw [digits] at h
    cases hc : digit base c with
    | none =>
      rw [hc] at h
      obtain ⟨rfl, rfl⟩ := Prod.mk.inj h
      exact ⟨[], rfl, nofun, rfl⟩
    | some d =>
      rw [hc] at h
      obtain ⟨ds, rfl, hds, rfl⟩ := ih h
      refine ⟨c :: ds, rfl, ?_, ?_⟩
      · intro e he
        rcases List.mem_cons.mp he with rfl | he
        · simp [hc]
        · exact hds e he
      · simp [numeral, hc]

theorem not_sign_of_digit (hc : (digit base c).isSome) : c ≠ '-' ∧ c ≠ '+' := by
  constructor
  · rintro rfl
    rw [digit_eq_none rfl rfl rfl] at hc
    cases hc
  · rintro rfl
    rw [digit_eq_none rfl rfl rfl] at hc
    cases hc

theorem not_isspace_of_digit (hc : (digit base c).isSome) : isspace c = false := by
  by_contra h
  rw [digit_of_isspace (by simpa using h)] at hc
  cases hc

theorem IsDigits.unsigned (h : IsDigits base ds) : Unsigned ds := by
  obtain ⟨c, ds, rfl, hc⟩ := h.exists_cons
  rintro e ⟨⟩
  exact not_sign_of_digit hc

theorem sign_append (hs : Sign sgn negative) (hu : Unsigned body) :
    sign (sgn ++ body) = (negative, body) := by
  cases hs with
  | none =>
    cases body with
    | nil => rfl
    | cons c body =>
      obtain ⟨hm, hp⟩ := hu c rfl
      rw [List.nil_append, sign]
      · rintro rest h
        exact hm (List.cons.inj h).1
      · rintro rest h
        exact hp (List.cons.inj h).1
  | plus => rfl
  | minus => rfl

theorem exists_sign (s : Text) : ∃ sgn, Sign sgn (sign s).1 ∧ s = sgn ++ (sign s).2 ∧
    (sgn = [] → Unsigned (sign s).2) := by
  unfold sign
  split
  · exact ⟨['-'], .minus, rfl, nofun⟩
  · exact ⟨['+'], .plus, rfl, nofun⟩
  · rename_i hm hp
    refine ⟨[], .none, rfl, fun _ c hc => ?_⟩
    cases s with
    | nil => cases hc
    | cons d rest =>
      obtain rfl := Option.some.inj hc
      refine ⟨?_, ?_⟩
      · rintro rfl
        exact hm rest rfl
      · rintro rfl
        exact hp rest rfl

/-- The value that fits in a long, or the limit on its side. -/
def saturate (z : ℤ) : ℤ := max (-2 ^ 63) (min z (2 ^ 63 - 1))

theorem skipHex_digits (h : IsDigits 16 ds) : (skipHex ds).getD ds = ds := by
  unfold skipHex
  split
  · rename_i x c rest
    have hx : x ∉ ['x', 'X'] := by
      intro hx
      have hsome := h.isSome x (by simp)
      rcases List.mem_cons.mp hx with rfl | hx
      · exact absurd hsome (by decide)
      · obtain rfl := List.mem_singleton.mp hx
        exact absurd hsome (by decide)
    rw [if_neg fun hand => hx hand.1]
    rfl
  · rfl

theorem skipHex_prefix (h : IsDigits 16 ds) {x : Char} (hx : x ∈ ['x', 'X']) :
    (skipHex ('0' :: x :: ds)).getD ('0' :: x :: ds) = ds := by
  obtain ⟨c, rest, rfl, hc⟩ := h.exists_cons
  rw [skipHex, if_pos ⟨hx, hc⟩]
  rfl

theorem exists_hex (base : ℕ) (t : Text) :
    ∃ hex, (hex = [] ∨ base = 16 ∧ (hex = ['0', 'x'] ∨ hex = ['0', 'X'])) ∧
      t = hex ++ if base = 16 then (skipHex t).getD t else t := by
  split
  · rename_i hb
    unfold skipHex
    split
    · rename_i x c rest
      split
      · rename_i hx
        rcases List.mem_cons.mp hx.1 with rfl | hx
        · exact ⟨['0', 'x'], .inr ⟨hb, .inl rfl⟩, rfl⟩
        · obtain rfl := List.mem_singleton.mp hx
          exact ⟨['0', 'X'], .inr ⟨hb, .inr rfl⟩, rfl⟩
      · exact ⟨[], .inl rfl, rfl⟩
    · exact ⟨[], .inl rfl, rfl⟩
  · exact ⟨[], .inl rfl, rfl⟩

/-- No blank stands in front. -/
def Tight (body : Text) : Prop := ∀ c ∈ body.head?, isspace c = false

theorem dropWhile_blanks {blanks : Text} (hb : ∀ c ∈ blanks, isspace c) (ht : Tight body) :
    (blanks ++ body).dropWhile isspace = body := by
  rw [List.dropWhile_append_of_pos hb]
  cases body with
  | nil => rfl
  | cons c body => rw [List.dropWhile_cons, ht c rfl, if_neg Bool.false_ne_true]

theorem IsDigits.tight (h : IsDigits base ds) : Tight ds := by
  obtain ⟨c, ds, rfl, hc⟩ := h.exists_cons
  rintro e ⟨⟩
  exact not_isspace_of_digit hc

theorem Sign.tight (hs : Sign sgn negative) (ht : Tight body) : Tight (sgn ++ body) := by
  cases hs with
  | none => exact ht
  | plus =>
    rintro c ⟨⟩
    decide
  | minus =>
    rintro c ⟨⟩
    decide

theorem digits_of_isDigits (hd : IsDigits base ds) :
    digits base 0 ds = (numeral base 0 ds, []) := by
  have h : digits base 0 (ds ++ []) = digits base (numeral base 0 ds) [] :=
    digits_append hd.isSome
  rwa [List.append_nil] at h

/-- `strtol` reads the digits after their padding. -/
theorem strtol_append (hp : Padding base pad negative) (hd : IsDigits base ds) :
    strtol base (pad ++ ds) =
      some (.ofInt 64 (saturate (signed negative (numeral base 0 ds))), []) := by
  obtain ⟨hb, hs, hh⟩ := hp
  rename_i blanks sgn hex
  have htight : Tight (hex ++ ds) ∧ Unsigned (hex ++ ds) := by
    rcases hh with rfl | ⟨-, rfl | rfl⟩
    · exact ⟨hd.tight, hd.unsigned⟩
    · constructor <;> rintro c ⟨⟩ <;> decide
    · constructor <;> rintro c ⟨⟩ <;> decide
  have hdrop : ((blanks ++ (sgn ++ hex)) ++ ds).dropWhile isspace = sgn ++ (hex ++ ds) := by
    rw [List.append_assoc, List.append_assoc]
    exact dropWhile_blanks hb (hs.tight htight.1)
  have hhex : (if base = 16 then (skipHex (hex ++ ds)).getD (hex ++ ds) else hex ++ ds) = ds := by
    rcases hh with rfl | ⟨rfl, rfl | rfl⟩
    · split
      · subst_vars
        exact skipHex_digits hd
      · rfl
    · exact skipHex_prefix hd (by decide)
    · exact skipHex_prefix hd (by decide)
  have hlen : ¬([] : Text).length = ds.length := fun h =>
    hd.ne_nil (List.length_eq_zero_iff.mp h.symm)
  simp only [strtol, hdrop, sign_append hs htight.2, hhex, digits_of_isDigits hd, if_neg hlen]
  rfl

theorem exists_of_strtol {value : BitVec 64} (h : strtol base t = some (value, [])) :
    ∃ pad negative ds, Padding base pad negative ∧ IsDigits base ds ∧ t = pad ++ ds := by
  obtain ⟨sgn, hs, hsign, -⟩ := exists_sign (t.dropWhile isspace)
  obtain ⟨hex, hh, hhex⟩ := exists_hex base (sign (t.dropWhile isspace)).2
  simp only [strtol] at h
  generalize (sign (t.dropWhile isspace)).2 = body at *
  generalize (if base = 16 then (skipHex body).getD body else body) = rest at *
  split at h
  · cases h
  · rename_i hlen
    obtain ⟨-, hstop⟩ := Prod.mk.inj (Option.some.inj h)
    obtain ⟨ds, hds, hdigit, -⟩ := digits_eq (rfl : digits base 0 rest = _)
    rw [hstop, List.append_nil] at hds
    subst hds
    rw [hstop] at hlen
    have hb : ∀ c ∈ t.takeWhile isspace, isspace c := fun c hc => List.mem_takeWhile_imp hc
    refine ⟨_, _, rest, .intro hb hs hh, ⟨?_, hdigit⟩, ?_⟩
    · rintro rfl
      exact hlen rfl
    · rw [List.append_assoc, List.append_assoc, ← hhex, ← hsign, List.takeWhile_append_dropWhile]

theorem stringIsIntOfBase_iff : stringIsIntOfBase t base = true ↔
    ∃ pad negative ds, Padding base pad negative ∧ IsDigits base ds ∧ t = pad ++ ds := by
  constructor
  · intro h
    unfold stringIsIntOfBase at h
    split at h
    · rename_i value stop hread
      obtain rfl : stop = [] := by simpa using h
      exact exists_of_strtol hread
    · cases h
  · rintro ⟨pad, negative, ds, hp, hd, rfl⟩
    rw [stringIsIntOfBase, strtol_append hp hd]
    rfl

/-- The base of an unsigned text and what stands after its prefix. -/
def radix : Text → ℕ × Text
  | '0' :: 'x' :: rest => (16, rest)
  | '0' :: 'o' :: rest => (8, rest)
  | '0' :: 'b' :: rest => (2, rest)
  | rest => (10, rest)

theorem stringStartsWith_pair {d e : Char} (h : ∀ rest, t ≠ d :: e :: rest) :
    stringStartsWith t [d, e] = false := by
  rw [stringStartsWith, Bool.eq_false_iff]
  intro hpre
  obtain ⟨rest, rfl⟩ := List.isPrefixOf_iff_prefix.mp hpre
  exact h rest rfl

theorem radix_cases (body : Text) :
    (∃ rest, body = '0' :: 'x' :: rest) ∨ (∃ rest, body = '0' :: 'o' :: rest) ∨
      (∃ rest, body = '0' :: 'b' :: rest) ∨
      radix body = (10, body) ∧ stringStartsWith body ['0', 'x'] = false ∧
        stringStartsWith body ['0', 'o'] = false ∧ stringStartsWith body ['0', 'b'] = false := by
  unfold radix
  split
  · exact .inl ⟨_, rfl⟩
  · exact .inr (.inl ⟨_, rfl⟩)
  · exact .inr (.inr (.inl ⟨_, rfl⟩))
  · rename_i hx ho hb
    exact .inr (.inr (.inr ⟨rfl, stringStartsWith_pair hx, stringStartsWith_pair ho,
      stringStartsWith_pair hb⟩))

theorem exists_radix (body : Text) :
    ∃ pre, Radix pre (radix body).1 ∧ body = pre ++ (radix body).2 := by
  rcases radix_cases body with ⟨rest, rfl⟩ | ⟨rest, rfl⟩ | ⟨rest, rfl⟩ | ⟨h, -⟩
  · exact ⟨_, .hexadecimal, rfl⟩
  · exact ⟨_, .octal, rfl⟩
  · exact ⟨_, .binary, rfl⟩
  · rw [h]
    exact ⟨_, .decimal, rfl⟩

theorem Radix.radix_append (hr : Radix pre base) (h : pre = [] → radix t = (10, t)) :
    radix (pre ++ t) = (base, t) := by
  cases hr with
  | decimal => exact h rfl
  | hexadecimal => rfl
  | octal => rfl
  | binary => rfl

theorem radix_of_isDigits (hd : IsDigits 10 ds) : radix ds = (10, ds) := by
  rcases radix_cases ds with ⟨rest, rfl⟩ | ⟨rest, rfl⟩ | ⟨rest, rfl⟩ | ⟨h, -⟩
  · exact absurd (hd.isSome 'x' (by simp)) (by decide)
  · exact absurd (hd.isSome 'o' (by simp)) (by decide)
  · exact absurd (hd.isSome 'b' (by simp)) (by decide)
  · exact h

theorem radix_of_isspace (h : ∃ c ∈ t.head?, isspace c) : radix t = (10, t) := by
  obtain ⟨c, hc, hspace⟩ := h
  rcases radix_cases t with ⟨rest, rfl⟩ | ⟨rest, rfl⟩ | ⟨rest, rfl⟩ | ⟨h, -⟩
  · obtain rfl := Option.some.inj hc
    exact absurd hspace (by decide)
  · obtain rfl := Option.some.inj hc
    exact absurd hspace (by decide)
  · obtain rfl := Option.some.inj hc
    exact absurd hspace (by decide)
  · exact h

theorem stringParseXint_unsigned (hu : Unsigned body) :
    stringParseXint body = stringParseInt (radix body).2 (radix body).1 := by
  rcases radix_cases body with ⟨rest, rfl⟩ | ⟨rest, rfl⟩ | ⟨rest, rfl⟩ | ⟨h, hx, ho, hb⟩
  · rfl
  · rfl
  · rfl
  · cases body with
    | nil => rfl
    | cons c t =>
      obtain ⟨hm, hp⟩ := hu c rfl
      rw [stringParseXint, if_neg hm, if_neg hp, hx, ho, hb, h]
      rfl

theorem stringIsIntOfBase_binary : stringIsIntOfBase ('0' :: 'b' :: t) 10 = false := by
  have hzero : digit 10 '0' = some 0 := rfl
  have hb : digit 10 'b' = none := rfl
  have hdrop : ('0' :: 'b' :: t).dropWhile isspace = '0' :: 'b' :: t := rfl
  have hsign : sign ('0' :: 'b' :: t) = (false, '0' :: 'b' :: t) := rfl
  simp [stringIsIntOfBase, strtol, hdrop, hsign, digits, hzero, hb]

theorem stringIsXint_unsigned (hu : Unsigned body) :
    stringIsXint body =
      (decide ((radix body).1 ≠ 2) && stringIsIntOfBase (radix body).2 (radix body).1) := by
  rcases radix_cases body with ⟨rest, rfl⟩ | ⟨rest, rfl⟩ | ⟨rest, rfl⟩ | ⟨h, hx, ho, -⟩
  · rfl
  · rfl
  · exact stringIsIntOfBase_binary
  · cases body with
    | nil => rfl
    | cons c t =>
      have hs : ¬(c = '-' ∨ c = '+') := by
        rintro (rfl | rfl)
        · exact (hu _ rfl).1 rfl
        · exact (hu _ rfl).2 rfl
      rw [stringIsXint, if_neg hs, hx, ho, h]
      rfl

theorem stringStartsWith_sign {d : Char} (h : ∀ c ∈ body.head?, c ≠ d) :
    stringStartsWith body [d] = false := by
  cases body with
  | nil => rfl
  | cons c body => rw [stringStartsWith, List.isPrefixOf, beq_eq_false_iff_ne.mpr (h c rfl).symm,
      Bool.false_and]

theorem stringIsXint_append (hs : Sign sgn negative) (hu : Unsigned body) :
    stringIsXint (sgn ++ body) = stringIsXint body := by
  have hm := stringStartsWith_sign fun c hc => (hu c hc).1
  have hp := stringStartsWith_sign fun c hc => (hu c hc).2
  cases hs with
  | none => rfl
  | plus => simp [stringIsXint, hm, hp]
  | minus => simp [stringIsXint, hm, hp]

theorem unsigned_of_stringIsXint (hs : Sign sgn negative) (hn : sgn ≠ [])
    (h : stringIsXint (sgn ++ body) = true) : Unsigned body := by
  have hnot : ¬(stringStartsWith body ['-'] = true ∨ stringStartsWith body ['+'] = true) := by
    intro htwice
    cases hs with
    | none => exact hn rfl
    | plus => simp [stringIsXint, htwice] at h
    | minus => simp [stringIsXint, htwice] at h
  intro c hc
  cases body with
  | nil => cases hc
  | cons d body =>
    obtain rfl := Option.some.inj hc
    constructor
    · rintro rfl
      exact hnot (.inl rfl)
    · rintro rfl
      exact hnot (.inr rfl)

theorem stringParseXint_append (hs : Sign sgn negative) :
    stringParseXint (sgn ++ body) =
      if negative then -stringParseXint body else stringParseXint body := by
  cases hs with
  | none => rfl
  | plus => rfl
  | minus => rfl

theorem stringIsXint_iff : stringIsXint s = true ↔ Unsigned (sign s).2 ∧
    (radix (sign s).2).1 ≠ 2 ∧
      stringIsIntOfBase (radix (sign s).2).2 (radix (sign s).2).1 = true := by
  obtain ⟨sgn, hs, hsign, hu⟩ := exists_sign s
  have hunsigned : stringIsXint s = true → Unsigned (sign s).2 := by
    intro h
    by_cases hn : sgn = []
    · exact hu hn
    · rw [hsign] at h
      exact unsigned_of_stringIsXint hs hn h
  constructor
  · intro h
    have hbody := hunsigned h
    rw [hsign, stringIsXint_append hs hbody, stringIsXint_unsigned hbody, Bool.and_eq_true,
      decide_eq_true_eq] at h
    exact ⟨hbody, h⟩
  · rintro ⟨hbody, h⟩
    rw [hsign, stringIsXint_append hs hbody, stringIsXint_unsigned hbody, Bool.and_eq_true,
      decide_eq_true_eq]
    exact h

theorem Radix.unsigned_append (hr : Radix pre base) (h : pre = [] → Unsigned t) :
    Unsigned (pre ++ t) := by
  cases hr with
  | decimal => exact h rfl
  | hexadecimal => rintro c ⟨⟩; decide
  | octal => rintro c ⟨⟩; decide
  | binary => rintro c ⟨⟩; decide

theorem literal_iff : Literal s z ↔ IsDigits (radix (sign s).2).1 (radix (sign s).2).2 ∧
    z = signed (sign s).1 (numeral (radix (sign s).2).1 0 (radix (sign s).2).2) := by
  constructor
  · rintro ⟨hs, hr, hd⟩
    rename_i sgn pre ds negative base
    have hu : Unsigned (pre ++ ds) := hr.unsigned_append fun _ => hd.unsigned
    have hradix : radix (pre ++ ds) = (base, ds) := by
      refine hr.radix_append ?_
      rintro rfl
      cases hr
      exact radix_of_isDigits hd
    rw [sign_append hs hu, hradix]
    exact ⟨hd, rfl⟩
  · rintro ⟨hd, rfl⟩
    obtain ⟨sgn, hs, hsign, -⟩ := exists_sign s
    obtain ⟨pre, hr, hpre⟩ := exists_radix (sign s).2
    have h := Literal.intro hs hr hd
    rwa [← hpre, ← hsign] at h

theorem binary_iff : Binary s ↔
    (radix (sign s).2).1 = 2 ∧ IsDigits 2 (radix (sign s).2).2 := by
  constructor
  · rintro ⟨hs, hd⟩
    rename_i sgn ds negative
    have hu : Unsigned (['0', 'b'] ++ ds) := Radix.binary.unsigned_append nofun
    rw [sign_append hs hu]
    exact ⟨rfl, hd⟩
  · rintro ⟨hb, hd⟩
    obtain ⟨sgn, hs, hsign, -⟩ := exists_sign s
    obtain ⟨pre, hr, hpre⟩ := exists_radix (sign s).2
    rw [hb] at hr
    cases hr
    have h := Binary.intro hs hd
    rwa [← hpre, ← hsign] at h

/-- Padding of base ten that stands in front of an unsigned text starts with a blank. -/
theorem Padding.isspace_head (hp : Padding 10 pad negative) (hn : pad ≠ [])
    (hu : Unsigned (pad ++ t)) : ∀ c ∈ pad.head?, isspace c := by
  obtain ⟨hb, hs, hh⟩ := hp
  rename_i blanks sgn hex
  have hhex : hex = [] := hh.resolve_right fun h => absurd h.1 (by decide)
  subst hhex
  cases blanks with
  | nil =>
    cases hs with
    | none => exact (hn rfl).elim
    | plus => exact ((hu '+' rfl).2 rfl).elim
    | minus => exact ((hu '-' rfl).1 rfl).elim
  | cons c blanks =>
    rintro d ⟨⟩
    exact hb c List.mem_cons_self

theorem padded_iff : Padded s ↔ Unsigned (sign s).2 ∧ (radix (sign s).2).1 ≠ 2 ∧
    ∃ pad negative ds, Padding (radix (sign s).2).1 pad negative ∧ pad ≠ [] ∧
      IsDigits (radix (sign s).2).1 ds ∧ (radix (sign s).2).2 = pad ++ ds := by
  constructor
  · rintro ⟨hs, hr, hb, hp, hn, hblank, hd⟩
    rename_i sgn pre pad ds negative negative' base
    obtain ⟨c, pad', rfl⟩ := List.exists_cons_of_ne_nil hn
    have hu : Unsigned (pre ++ (c :: pad' ++ ds)) := by
      refine hr.unsigned_append fun hpre => ?_
      rintro d ⟨⟩
      have hc := hblank hpre c rfl
      constructor <;> rintro rfl <;> exact absurd hc (by decide)
    have hradix : radix (pre ++ (c :: pad' ++ ds)) = (base, c :: pad' ++ ds) := by
      refine hr.radix_append ?_
      rintro hpre
      exact radix_of_isspace ⟨c, rfl, hblank hpre c rfl⟩
    rw [sign_append hs hu, hradix]
    exact ⟨hu, hb, _, _, _, hp, hn, hd, rfl⟩
  · rintro ⟨hu, hb, pad, negative, ds, hp, hn, hd, ht⟩
    obtain ⟨sgn, hs, hsign, -⟩ := exists_sign s
    obtain ⟨pre, hr, hpre⟩ := exists_radix (sign s).2
    rw [ht] at hpre
    have hblank : pre = [] → ∀ c ∈ pad.head?, isspace c := by
      rintro rfl
      generalize hbase : (radix (sign s).2).1 = base at *
      cases hr
      rw [hpre] at hu
      exact hp.isspace_head hn hu
    have h := Padded.intro hs hr hb hp hn hblank hd
    rwa [← hpre, ← hsign] at h

theorem Padding.eq_nil (hp : Padding base pad negative) (hd : ∀ c ∈ pad, (digit base c).isSome) :
    pad = [] := by
  obtain ⟨hb, hs, hh⟩ := hp
  rename_i blanks sgn hex
  have hblanks : blanks = [] := by
    refine List.eq_nil_iff_forall_not_mem.mpr fun c hc => ?_
    have hsome := hd c (List.mem_append_left _ hc)
    rw [digit_of_isspace (hb c hc)] at hsome
    cases hsome
  have hsgn : sgn = [] := by
    cases hs with
    | none => rfl
    | plus => exact ((not_sign_of_digit (hd '+' (by simp))).2 rfl).elim
    | minus => exact ((not_sign_of_digit (hd '-' (by simp))).1 rfl).elim
  rcases hh with rfl | ⟨rfl, rfl | rfl⟩
  · rw [hblanks, hsgn]
    rfl
  · exact absurd (hd 'x' (by simp)) (by decide)
  · exact absurd (hd 'X' (by simp)) (by decide)

theorem Padded.not_literal (h : Padded s) : ¬Literal s z := by
  intro hl
  obtain ⟨-, -, pad, negative, ds, hp, hn, -, ht⟩ := padded_iff.mp h
  have hd := (literal_iff.mp hl).1.isSome
  rw [ht] at hd
  exact hn (hp.eq_nil fun c hc => hd c (List.mem_append_left ds hc))

theorem Padding.nil : Padding base [] false := by
  have hb : ∀ c ∈ ([] : Text), isspace c := nofun
  exact .intro hb .none (.inl rfl)

/-- The recogniser takes the literals of the other bases, and the padded texts. -/
theorem stringIsXint_iff_literal :
    stringIsXint s = true ↔ (∃ z, Literal s z) ∧ ¬Binary s ∨ Padded s := by
  simp only [stringIsXint_iff, literal_iff, binary_iff, padded_iff, stringIsIntOfBase_iff]
  constructor
  · rintro ⟨hu, hb, pad, negative, ds, hp, hd, ht⟩
    by_cases hn : pad = []
    · subst hn
      rw [List.nil_append] at ht
      rw [ht]
      exact .inl ⟨⟨_, hd, rfl⟩, fun h => hb h.1⟩
    · exact .inr ⟨hu, hb, pad, negative, ds, hp, hn, hd, ht⟩
  · rintro (⟨⟨z, hd, -⟩, hb⟩ | ⟨hu, hb, pad, negative, ds, hp, -, hd, ht⟩)
    · have hbase : (radix (sign s).2).1 ≠ 2 := by
        intro h2
        rw [h2] at hd hb
        exact hb ⟨rfl, hd⟩
      obtain ⟨pre, hr, hpre⟩ := exists_radix (sign s).2
      have hu : Unsigned (sign s).2 := by
        rw [hpre]
        exact hr.unsigned_append fun _ => hd.unsigned
      exact ⟨hu, hbase, [], false, _, .nil, hd, rfl⟩
    · exact ⟨hu, hb, pad, negative, ds, hp, hd, ht⟩

theorem stringParseXint_literal (h : Literal s z) :
    stringParseXint s =
      if (sign s).1 then -.ofInt 64 (saturate (-z)) else .ofInt 64 (saturate z) := by
  obtain ⟨hd, hz⟩ := literal_iff.mp h
  obtain ⟨sgn, hs, hsign, -⟩ := exists_sign s
  obtain ⟨pre, hr, hpre⟩ := exists_radix (sign s).2
  have hu : Unsigned (sign s).2 := by
    rw [hpre]
    exact hr.unsigned_append fun _ => hd.unsigned
  have hread := strtol_append Padding.nil hd
  have hparse : stringParseXint (sign s).2 =
      .ofInt 64 (saturate (numeral (radix (sign s).2).1 0 (radix (sign s).2).2)) := by
    rw [stringParseXint_unsigned hu, stringParseInt, ← List.nil_append (radix (sign s).2).2, hread]
    rfl
  rw [hsign, stringParseXint_append hs, ← hsign, hparse]
  cases hneg : (sign s).1 with
  | false =>
    simp [hz, hneg, signed]
  | true =>
    simp [hz, hneg, signed]

theorem saturate_of_le (h : -2 ^ 63 ≤ z) (h' : z < 2 ^ 63) : saturate z = z := by
  unfold saturate
  omega

theorem sign_of_neg (h : Literal s z) (hz : z < 0) : (sign s).1 = true := by
  obtain ⟨-, rfl⟩ := literal_iff.mp h
  by_contra hpos
  rw [Bool.not_eq_true] at hpos
  rw [hpos] at hz
  simp only [signed, Bool.false_eq_true, if_false] at hz
  omega

/-- A negative literal is read without its sign, so one value fewer fits. -/
theorem stringParseXint_of_lt (h : Literal s z) (hlt : -2 ^ 63 < z) (hlt' : z < 2 ^ 63) :
    stringParseXint s = .ofInt 64 z := by
  rw [stringParseXint_literal h]
  split
  · rw [saturate_of_le (by omega) (by omega), ← BitVec.ofInt_neg, neg_neg]
  · rw [saturate_of_le hlt.le hlt']

theorem stringParseXint_min (h : Literal s (-2 ^ 63)) :
    stringParseXint s ≠ .ofInt 64 (-2 ^ 63) := by
  rw [stringParseXint_literal h, if_pos (sign_of_neg h (by decide))]
  decide

theorem Binary.literal (h : Binary s) : ∃ z, Literal s z := by
  obtain ⟨hs, hd⟩ := h
  exact ⟨_, .intro hs .binary hd⟩

/-- The recogniser takes the literals, and the decoder reads those that fit in 64 bits. -/
structure Agrees (s : Text) : Prop where
  stringIsXint : stringIsXint s = true ↔ ∃ z, Literal s z
  stringParseXint : ∀ z, Literal s z → -2 ^ 63 ≤ z → z < 2 ^ 63 →
    stringParseXint s = .ofInt 64 z

/--
The recogniser leaves out base two and lets `strtol` take padding, and the decoder has no
room for the least number.
-/
theorem agrees_iff : Agrees s ↔ ¬Binary s ∧ ¬Padded s ∧ ¬Literal s (-2 ^ 63) := by
  constructor
  · rintro ⟨haccept, hvalue⟩
    refine ⟨?_, ?_, ?_⟩
    · intro hb
      rcases stringIsXint_iff_literal.mp (haccept.mpr hb.literal) with ⟨-, hnot⟩ | hp
      · exact hnot hb
      · obtain ⟨z, hz⟩ := hb.literal
        exact hp.not_literal hz
    · intro hp
      obtain ⟨z, hz⟩ := haccept.mp (stringIsXint_iff_literal.mpr (.inr hp))
      exact hp.not_literal hz
    · intro hmin
      exact stringParseXint_min hmin (hvalue _ hmin le_rfl (by decide))
  · rintro ⟨hb, hp, hmin⟩
    constructor
    · rw [stringIsXint_iff_literal]
      constructor
      · rintro (⟨hz, -⟩ | hpad)
        · exact hz
        · exact (hp hpad).elim
      · exact fun hz => .inl ⟨hz, hb⟩
    · intro z hz hle hlt
      have hne : z ≠ -2 ^ 63 := by
        rintro rfl
        exact hmin hz
      exact stringParseXint_of_lt hz (by omega) hlt

theorem not_agrees : ¬Agrees ['0', 'b', '1', '0', '1'] := by
  intro h
  have hd : IsDigits 2 ['1', '0', '1'] := ⟨nofun, List.all_eq_true.mp rfl⟩
  have haccept : stringIsXint ['0', 'b', '1', '0', '1'] = true :=
    h.stringIsXint.mpr ⟨_, .intro .none .binary hd⟩
  exact absurd haccept (by decide)

end

end InetLisp.IntLiteral
