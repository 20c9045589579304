import InetLisp.Packages.Text

/-! # Staying inside a string

The iterator does not look at the bytes between the first bytes of characters. When the string
ends before the character that it stands at, it steps over the terminating NUL, unless the
character is blank and lacks its last byte only: it is then decoded to the code point zero.
-/

namespace InetLisp.Utf8

structure CString where
  bytes : List Byte
  nul_notMem : 0 ∉ bytes

/-- The loop finishes, or it stops with an error about the string. -/
def Reported {α : Type} (r : Except Error α) : Prop :=
  (∃ a, r = .ok a) ∨ ∃ byte, r = .error (.invalidUtf8 byte)

/-- No byte beyond the terminating NUL is read. -/
structure StaysInside (string : CString) : Prop where
  stringLength : ∃ fuel r, stringLength fuel string.bytes = some r ∧ Reported r
  fromString : ∃ fuel r, Text.fromString fuel string.bytes = some r ∧ Reported r

/-- As many bytes as the first one announces -/
def Complete (bytes : List Byte) : Prop :=
  ∃ a tail, bytes = a :: tail ∧ charLength a = .ok bytes.length

/-- The bits of the payload are zero, in a character with more than one byte. -/
def Blank (bytes : List Byte) : Prop :=
  ∃ a tail, bytes = a :: tail ∧ (a = 0xC0 ∨ a = 0xE0 ∨ a = 0xF0) ∧ ∀ b ∈ tail, b &&& 0x3F = 0

/-- From a string over complete characters that are not blank to the rest of it -/
inductive Walks : List Byte → List Byte → Prop where
  | refl (string : List Byte) : Walks string string
  | step {bytes rest t : List Byte} (hc : Complete bytes) (hb : ¬ Blank bytes)
      (h : Walks rest t) : Walks (bytes ++ rest) t

/-- The end of the string cuts off a character, other than the last byte of a blank one. -/
def CutOff (t : List Byte) : Prop :=
  ∃ a tail n, t = a :: tail ∧ charLength a = .ok n ∧ t.length < n ∧
    ¬ (t.length + 1 = n ∧ Blank t)

variable {string bytes rest t tail : List Byte} {a : Byte} {codePoints : List CodePoint}
  {r : Except Error Unit} {e : Error} {n v : ℕ}

theorem length_pos (h : charLength a = .ok n) : 0 < n ∧ n ≤ 4 := by
  rw [charLength_eq] at h
  split_ifs at h <;> cases h <;> decide

theorem exists_carries (h : charLength a = .ok (a :: tail).length) :
    ∃ codePoint : CodePoint, Carries (a :: tail) codePoint.toNat := by
  suffices ∃ v, v < 2 ^ 32 ∧ Carries (a :: tail) v by
    obtain ⟨v, hlt, hv⟩ := this
    refine ⟨BitVec.ofNat 32 v, ?_⟩
    rwa [BitVec.toNat_ofNat, Nat.mod_eq_of_lt hlt]
  have ha := a.isLt
  have hn := length_pos h
  rw [charLength_eq] at h
  match tail, h with
  | [], h =>
    split_ifs at h with h₁ <;> cases h
    exact ⟨a.toNat, by omega, h₁, rfl⟩
  | [b], h =>
    split_ifs at h with h₁ h₂ <;> cases h
    exact ⟨_, by omega, h₂, rfl⟩
  | [b, c], h =>
    split_ifs at h with h₁ h₂ h₃ <;> cases h
    exact ⟨_, by omega, h₃, rfl⟩
  | [b, c, d], h =>
    split_ifs at h with h₁ h₂ h₃ h₄ <;> cases h
    exact ⟨_, by omega, h₄, rfl⟩
  | b :: c :: d :: e :: tail, _ =>
    have hle := hn.2
    simp only [List.length_cons] at hle
    omega

theorem and_eq_zero_iff (b : Byte) : b &&& 0x3F = 0 ↔ b.toNat % 64 = 0 := by
  rw [← BitVec.toNat_inj, BitVec.toNat_and]
  change b.toNat &&& 2 ^ 6 - 1 = 0 ↔ _
  rw [Nat.and_two_pow_sub_one_eq_mod]

theorem blank_cons_iff : Blank (a :: tail) ↔
    (a.toNat = 192 ∨ a.toNat = 224 ∨ a.toNat = 240) ∧ ∀ b ∈ tail, b.toNat % 64 = 0 := by
  simp only [Blank, List.cons.injEq, ← and_eq_zero_iff, ← BitVec.toNat_inj (y := (0xC0 : Byte)),
    ← BitVec.toNat_inj (y := (0xE0 : Byte)), ← BitVec.toNat_inj (y := (0xF0 : Byte))]
  constructor
  · rintro ⟨_, _, ⟨rfl, rfl⟩, h⟩
    exact h
  · intro h
    exact ⟨_, _, ⟨rfl, rfl⟩, h⟩

theorem Carries.eq_zero_iff (h : Carries (a :: tail) v) (ha : a ≠ 0) :
    v = 0 ↔ Blank (a :: tail) := by
  have hne : a.toNat ≠ 0 := fun hz => ha (BitVec.toNat_inj.mp hz)
  rw [blank_cons_iff]
  match tail, h with
  | [], ⟨h₁, hv⟩ =>
    simp
    omega
  | [b], ⟨h₁, hv⟩ =>
    simp
    omega
  | [b, c], ⟨h₁, hv⟩ =>
    simp
    omega
  | [b, c, d], ⟨h₁, hv⟩ =>
    simp
    omega

theorem blank_snoc_iff : Blank (a :: tail ++ [0]) ↔ Blank (a :: tail) := by
  rw [List.cons_append, blank_cons_iff, blank_cons_iff]
  simp [or_imp, forall_and]

/-- Every string is read in one way or another. -/
theorem exists_reads (string : List Byte) : ∃ codePoints r, Reads string codePoints r := by
  induction hl : string.length using Nat.strong_induction_on generalizing string with
  | _ l ih =>
    subst hl
    cases string with
    | nil => exact ⟨_, _, .nil⟩
    | cons a tail =>
      cases hn : charLength a with
      | error e => exact ⟨_, _, .invalid hn⟩
      | ok n =>
        have hpos := (length_pos hn).1
        rcases Nat.lt_trichotomy n ((a :: tail).length + 1) with hlt | heq | hgt
        · obtain ⟨m, rfl⟩ := Nat.exists_eq_succ_of_ne_zero hpos.ne'
          rw [List.length_cons] at hlt
          have hsplit : a :: tail = (a :: tail.take m) ++ tail.drop m := by
            rw [List.cons_append, List.take_append_drop]
          have hlen : (a :: tail.take m).length = m + 1 := by
            rw [List.length_cons, List.length_take, Nat.min_eq_left (by omega)]
          have hcomplete : charLength a = .ok (a :: tail.take m).length := by rwa [hlen]
          obtain ⟨codePoint, hc⟩ := exists_carries hcomplete
          rw [hsplit]
          by_cases hz : codePoint = 0
          · subst hz
            exact ⟨_, _, .zero hc _⟩
          · obtain ⟨codePoints, r, hr⟩ := ih _ (by
              rw [List.length_drop, List.length_cons]
              omega) (tail.drop m) rfl
            exact ⟨_, _, .char hc hz hr⟩
        · have hlen : (a :: (tail ++ [0])).length = n := by simp [heq]
          obtain ⟨codePoint, hc⟩ := exists_carries (a := a) (hlen ▸ hn)
          by_cases hz : codePoint = 0
          · subst hz
            exact ⟨_, _, .cutZero hc⟩
          · exact ⟨_, _, .cut hc hz⟩
        · exact ⟨_, _, .cutShort hn hgt⟩

theorem Complete.carries (h : Complete bytes) (hb : ¬ Blank bytes) (hz : 0 ∉ bytes) :
    ∃ codePoint : CodePoint, Carries bytes codePoint.toNat ∧ codePoint ≠ 0 := by
  obtain ⟨a, tail, rfl, hn⟩ := h
  obtain ⟨codePoint, hc⟩ := exists_carries hn
  have ha : a ≠ 0 := fun h => hz (h ▸ List.mem_cons_self)
  refine ⟨codePoint, hc, ?_⟩
  rintro rfl
  exact hb ((hc.eq_zero_iff ha).mp rfl)

/-- The iterator gets to the character that is cut off, and reads beyond the NUL. -/
theorem Walks.reads (h : Walks string t) (ht : CutOff t) (hz : 0 ∉ string) :
    ∃ codePoints, Reads string codePoints (.error .outOfBounds) := by
  induction h with
  | refl string =>
    obtain ⟨a, tail, n, rfl, hn, hlt, hnot⟩ := ht
    have ha : a ≠ 0 := fun h => hz (h ▸ List.mem_cons_self)
    rcases Nat.eq_or_lt_of_le hlt with heq | hgt
    · have hlen : (a :: (tail ++ [0])).length = n := by simpa using heq
      obtain ⟨codePoint, hc⟩ := exists_carries (a := a) (hlen ▸ hn)
      refine ⟨_, .cut hc ?_⟩
      rintro rfl
      exact hnot ⟨heq, blank_snoc_iff.mp ((hc.eq_zero_iff ha).mp rfl)⟩
    · exact ⟨_, .cutShort hn hgt⟩
  | step hc hb _ ih =>
    rw [List.mem_append, not_or] at hz
    obtain ⟨codePoint, hcarries, hne⟩ := hc.carries hb hz.1
    obtain ⟨codePoints, hr⟩ := ih ht hz.2
    exact ⟨_, .char hcarries hne hr⟩

theorem Reads.cases (h : Reads string codePoints r) (hz : 0 ∉ string) :
    r = .ok () ∨ (∃ byte, r = .error (.invalidUtf8 byte)) ∨
      r = .error .outOfBounds ∧ ∃ t, Walks string t ∧ CutOff t := by
  induction h with
  | nil => exact .inl rfl
  | @invalid a tail e h =>
    rw [charLength_eq] at h
    split_ifs at h
    cases h
    exact .inr (.inl ⟨a, rfl⟩)
  | @char bytes rest codePoint codePoints r h hne hr ih =>
    rw [List.mem_append, not_or] at hz
    rcases ih hz.2 with hr | hr | ⟨hr, t, hw, ht⟩
    · exact .inl hr
    · exact .inr (.inl hr)
    · have hc : Complete bytes := h.exists_cons
      refine .inr (.inr ⟨hr, t, .step hc ?_ hw, ht⟩)
      obtain ⟨a, tail, rfl, -⟩ := hc
      have ha : a ≠ 0 := fun h => hz.1 (h ▸ List.mem_cons_self)
      exact fun hb => hne (BitVec.toNat_inj.mp ((h.eq_zero_iff ha).mpr hb))
  | zero h rest => exact .inl rfl
  | cutZero h => exact .inl rfl
  | @cut bytes codePoint h hne =>
    refine .inr (.inr ⟨rfl, bytes, .refl _, ?_⟩)
    cases bytes with
    | nil =>
      have hzero : codePoint = 0 := BitVec.eq_of_toNat_eq h.2
      exact absurd hzero hne
    | cons a tail =>
      have ha : a ≠ 0 := fun h => hz (h ▸ List.mem_cons_self)
      obtain ⟨_, _, he, hn⟩ := h.exists_cons
      cases he
      refine ⟨a, tail, _, rfl, hn, by simp, ?_⟩
      rintro ⟨-, hb⟩
      exact hne (BitVec.toNat_inj.mp ((h.eq_zero_iff ha).mpr (blank_snoc_iff.mpr hb)))
  | @cutShort a tail n h hn =>
    refine .inr (.inr ⟨rfl, _, .refl _, a, tail, n, rfl, h, by omega, ?_⟩)
    rintro ⟨hlen, -⟩
    omega

/-- The iterator stays inside a string exactly when it gets to no character that is cut off. -/
theorem staysInside_iff (string : CString) :
    StaysInside string ↔ ¬ ∃ t, Walks string.bytes t ∧ CutOff t := by
  constructor
  · rintro ⟨⟨n, x, hx, hreported⟩, -⟩ ⟨t, hw, ht⟩
    obtain ⟨codePoints, hr⟩ := hw.reads ht string.nul_notMem
    obtain ⟨m, hm⟩ := hr.stringLength
    obtain rfl := scan_unique hm hx
    rcases hreported with ⟨_, h⟩ | ⟨_, h⟩ <;> cases h
  · intro hcut
    obtain ⟨codePoints, r, hr⟩ := exists_reads string.bytes
    obtain ⟨m, hm⟩ := hr.stringLength
    rcases hr.cases string.nul_notMem with rfl | ⟨byte, rfl⟩ | ⟨-, hbad⟩
    · obtain ⟨n, text, hn, -⟩ := hr.fromString
      exact ⟨⟨m, _, hm, .inl ⟨_, rfl⟩⟩, n, _, hn, .inl ⟨_, rfl⟩⟩
    · obtain ⟨n, hn⟩ := hr.fromString_of_error
      exact ⟨⟨m, _, hm, .inr ⟨byte, rfl⟩⟩, n, _, hn, .inr ⟨byte, rfl⟩⟩
    · exact (hcut hbad).elim

/-- `a`, and two of the three bytes of a character -/
def truncated : CString := ⟨[0x61, 0xE4, 0xB8], by decide⟩

theorem not_staysInside_truncated : ¬ StaysInside truncated := by
  rintro ⟨⟨n, x, hx, hreported⟩, -⟩
  have hthree : stringLength 3 truncated.bytes = some (.error .outOfBounds) := rfl
  obtain rfl := scan_unique hthree hx
  rcases hreported with ⟨_, h⟩ | ⟨_, h⟩ <;> cases h

end InetLisp.Utf8
