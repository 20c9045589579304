import InetLisp.Packages.Text
import Mathlib.Data.List.Chain

/-! # Strings read as texts

The encoder does not mask its continuation bytes: the seventh bit of what it shifts there
stays. A valid string therefore survives as a text exactly when these bits are zero. A string
that ends in the middle of a character makes the iterator step over the terminating NUL.
-/

namespace InetLisp.Utf8

/-! ### Valid strings -/

/-- A character in UTF-8 -/
def charBytes (c : Char) : List Byte := (String.utf8EncodeChar c).map UInt8.toBitVec

def ValidUtf8 (string : List Byte) : Prop := ∃ chars : List Char, string = chars.flatMap charBytes

/-- `text_to_string` gives back the string from which `text_from_string` has read the text. -/
def RoundTrips (string : List Byte) : Prop :=
  ∃ fuel text, Text.fromString fuel string = some (.ok text) ∧ text.toString = .ok string

/-- Before a continuation byte stands an even one. -/
def EvenBefore (a b : Byte) : Prop := b.toNat / 64 = 2 → a.toNat % 2 = 0

instance : DecidableRel EvenBefore := fun _ _ => inferInstanceAs (Decidable (_ → _))

variable {string bytes rest t : List Byte} {c : Char} {codePoints : List CodePoint}
  {r : Except Error Unit} {v : ℕ}

theorem toNat_le (c : Char) : c.val.toNat < 1114112 := by
  rcases c.valid with h | ⟨-, h⟩
  · exact Nat.lt_trans h (by decide)
  · exact h

theorem charBytes_cases (c : Char) :
    (c.val.toNat < 128 ∧ (charBytes c).map BitVec.toNat = [c.val.toNat]) ∨
    (128 ≤ c.val.toNat ∧ c.val.toNat < 2048 ∧ (charBytes c).map BitVec.toNat =
      [192 + c.val.toNat / 64, 128 + c.val.toNat % 64]) ∨
    (2048 ≤ c.val.toNat ∧ c.val.toNat < 65536 ∧ (charBytes c).map BitVec.toNat =
      [224 + c.val.toNat / 4096, 128 + c.val.toNat / 64 % 64, 128 + c.val.toNat % 64]) ∨
    (65536 ≤ c.val.toNat ∧ c.val.toNat < 1114112 ∧ (charBytes c).map BitVec.toNat =
      [240 + c.val.toNat / 262144, 128 + c.val.toNat / 4096 % 64, 128 + c.val.toNat / 64 % 64,
        128 + c.val.toNat % 64]) := by
  have hmax := toNat_le c
  have hbyte (n : ℕ) : (UInt8.ofNat n).toBitVec.toNat = n % 256 := rfl
  unfold charBytes String.utf8EncodeChar
  generalize c.val.toNat = n at hmax
  dsimp only
  split_ifs
  · refine .inl ⟨by omega, ?_⟩
    simp only [List.map_cons, List.map_nil, hbyte]
    congr 1
    omega
  · refine .inr (.inl ⟨by omega, by omega, ?_⟩)
    simp only [List.map_cons, List.map_nil, hbyte]
    congr 1
    · omega
    · congr 1
      omega
  · refine .inr (.inr (.inl ⟨by omega, by omega, ?_⟩))
    simp only [List.map_cons, List.map_nil, hbyte]
    congr 1
    · omega
    · congr 1
      · omega
      · congr 1
        omega
  · refine .inr (.inr (.inr ⟨by omega, by omega, ?_⟩))
    simp only [List.map_cons, List.map_nil, hbyte]
    congr 1
    · omega
    · congr 1
      · omega
      · congr 1
        · omega
        · congr 1
          omega

theorem carries_charBytes (c : Char) : Carries (charBytes c) c.val.toNat := by
  rcases charBytes_cases c with ⟨hlt, he⟩ | ⟨-, hlt, he⟩ | ⟨-, hlt, he⟩ | ⟨-, hlt, he⟩
  · rw [Carries, he]
    exact ⟨hlt, rfl⟩
  all_goals
    rw [Carries, he]
    constructor <;> omega

/-- The encoder writes the same lead byte, and keeps seven bits in the other ones. -/
theorem encoded_charBytes_cases (c : Char) :
    (∃ a, (charBytes c).map BitVec.toNat = [a] ∧ (encoded c.val.toBitVec).map BitVec.toNat = [a]) ∨
    (∃ a v, a / 64 = 3 ∧ a % 2 = v / 64 % 2 ∧
      (charBytes c).map BitVec.toNat = [a, 128 + v % 64] ∧
      (encoded c.val.toBitVec).map BitVec.toNat = [a, 128 + v % 128]) ∨
    (∃ a v, a / 64 = 3 ∧ a % 2 = v / 4096 % 2 ∧
      (charBytes c).map BitVec.toNat = [a, 128 + v / 64 % 64, 128 + v % 64] ∧
      (encoded c.val.toBitVec).map BitVec.toNat = [a, 128 + v / 64 % 128, 128 + v % 128]) ∨
    (∃ a v, a / 64 = 3 ∧ a % 2 = v / 262144 % 2 ∧
      (charBytes c).map BitVec.toNat =
        [a, 128 + v / 4096 % 64, 128 + v / 64 % 64, 128 + v % 64] ∧
      (encoded c.val.toBitVec).map BitVec.toNat =
        [a, 128 + v / 4096 % 128, 128 + v / 64 % 128, 128 + v % 128]) := by
  have hle : c.val.toBitVec ≤ 0x10FFFF := by
    have := toNat_le c
    rw [BitVec.le_def]
    exact Nat.le_of_lt_succ this
  have hcode := encoded_cases hle
  rw [show c.val.toBitVec.toNat = c.val.toNat from rfl] at hcode
  rcases charBytes_cases c with ⟨_, he⟩ | ⟨_, _, he⟩ | ⟨_, _, he⟩ | ⟨_, _, he⟩ <;>
    rcases hcode with ⟨_, hc⟩ | ⟨_, _, hc⟩ | ⟨_, _, hc⟩ | ⟨_, _, hc⟩ <;> try omega
  · exact .inl ⟨_, he, hc⟩
  · exact .inr (.inl ⟨_, c.val.toNat, by omega, by omega, he, hc⟩)
  · exact .inr (.inr (.inl ⟨_, c.val.toNat, by omega, by omega, he, hc⟩))
  · exact .inr (.inr (.inr ⟨_, c.val.toNat, by omega, by omega, he, hc⟩))

theorem length_encoded (c : Char) : (encoded c.val.toBitVec).length = (charBytes c).length := by
  have hlen (bytes : List Byte) : (bytes.map BitVec.toNat).length = bytes.length :=
    List.length_map BitVec.toNat
  rw [← hlen, ← hlen (charBytes c)]
  rcases encoded_charBytes_cases c with ⟨_, hb, he⟩ | ⟨_, _, -, -, hb, he⟩ | ⟨_, _, -, -, hb, he⟩ |
    ⟨_, _, -, -, hb, he⟩ <;>
  · simp only [hb, he, List.length_cons, List.length_nil]

/-- The encoder writes a character as it should exactly when no seventh bit is left over. -/
theorem encoded_eq_iff (c : Char) :
    encoded c.val.toBitVec = charBytes c ↔ (charBytes c).IsChain EvenBefore := by
  have hinj : encoded c.val.toBitVec = charBytes c ↔
      (encoded c.val.toBitVec).map BitVec.toNat = (charBytes c).map BitVec.toNat :=
    (List.map_injective_iff.mpr fun _ _ => BitVec.eq_of_toNat_eq).eq_iff.symm
  have hchain : (charBytes c).IsChain EvenBefore ↔ ((charBytes c).map BitVec.toNat).IsChain
      fun a b => b / 64 = 2 → a % 2 = 0 := by
    rw [List.isChain_map]
    rfl
  rw [hinj, hchain]
  rcases encoded_charBytes_cases c with ⟨a, hb, he⟩ | ⟨a, v, -, ha, hb, he⟩ |
    ⟨a, v, -, ha, hb, he⟩ | ⟨a, v, -, ha, hb, he⟩
  · rw [hb, he]
    simp
  all_goals
    rw [hb, he]
    simp only [List.cons.injEq, true_and, and_true, List.isChain_cons_cons, List.isChain_singleton]
    omega

theorem head_charBytes (c : Char) : ∃ a tail, charBytes c = a :: tail ∧ a.toNat / 64 ≠ 2 := by
  obtain ⟨a, tail, he, -⟩ := (carries_charBytes c).exists_cons
  refine ⟨a, tail, he, ?_⟩
  rcases charBytes_cases c with ⟨_, h⟩ | ⟨_, _, h⟩ | ⟨_, _, h⟩ | ⟨_, _, h⟩ <;>
  · rw [he, List.map_cons, List.cons.injEq] at h
    omega

theorem isChain_flatMap_charBytes (chars : List Char) :
    (chars.flatMap charBytes).IsChain EvenBefore ↔
      ∀ c ∈ chars, (charBytes c).IsChain EvenBefore := by
  have hne : [] ∉ chars.map charBytes := by
    intro hm
    obtain ⟨c, -, hc⟩ := List.mem_map.mp hm
    obtain ⟨a, tail, he, -⟩ := head_charBytes c
    cases he.symm.trans hc
  rw [List.flatMap_def, List.isChain_flatten hne, List.forall_mem_map, and_iff_left]
  rw [List.isChain_map]
  refine (List.pairwise_of_forall fun c d => ?_).isChain
  intro x _ y hy heven
  obtain ⟨a, tail, he, hne⟩ := head_charBytes d
  rw [he] at hy
  cases hy
  exact absurd heven hne

theorem reads_charBytes {chars : List Char} (h : ∀ c ∈ chars, c.val.toBitVec ≠ 0) :
    Reads (chars.flatMap charBytes) (chars.map fun c => c.val.toBitVec) (.ok ()) := by
  apply reads_flatten
  rw [List.forall₂_map_left_iff, List.forall₂_map_right_iff, List.forall₂_same]
  exact fun c hc => ⟨carries_charBytes c, h c hc⟩

theorem Text.fromString_unique {m n : ℕ} {x y : Except Error Text}
    (h : fromString n string = some x) (h' : fromString m string = some y) : x = y := by
  unfold fromString at h h'
  cases hn : stringLength n string with
  | none => simp [hn] at h
  | some l =>
    cases hm : stringLength m string with
    | none => simp [hm] at h'
    | some l' =>
      obtain rfl : l = l' := scan_unique hn hm
      rw [hn] at h
      rw [hm] at h'
      cases l with
      | error e =>
        cases h
        cases h'
        rfl
      | ok length =>
        obtain ⟨x', hx, rfl⟩ := Option.map_eq_some_iff.mp h
        obtain ⟨y', hy, rfl⟩ := Option.map_eq_some_iff.mp h'
        rw [scan_unique hx hy]

/-- A valid string survives as a text exactly when every byte before a continuation byte is
even. -/
theorem roundTrips_iff (hv : ValidUtf8 string) (hn : 0 ∉ string) :
    RoundTrips string ↔ string.IsChain EvenBefore := by
  obtain ⟨chars, rfl⟩ := hv
  have hne : ∀ c ∈ chars, c.val.toBitVec ≠ 0 := by
    intro c hc hz
    have hzero : c.val.toNat = 0 := congrArg BitVec.toNat hz
    have hbytes : charBytes c = [0] := by
      rw [charBytes, String.utf8EncodeChar, hzero]
      rfl
    exact hn (List.mem_flatMap.mpr ⟨c, hc, by rw [hbytes]; exact List.mem_singleton_self 0⟩)
  obtain ⟨fuel, text, hfrom, hcontent⟩ := (reads_charBytes hne).fromString
  have hto : text.toString = .ok (chars.flatMap fun c => encoded c.val.toBitVec) := by
    rw [toString_eq, hcontent, List.flatMap_map]
    intro codePoint hm
    rw [hcontent] at hm
    obtain ⟨c, hc, rfl⟩ := List.mem_map.mp hm
    refine ⟨hne c hc, ?_⟩
    rw [BitVec.le_def]
    exact Nat.le_of_lt_succ (toNat_le c)
  have htrip : RoundTrips (chars.flatMap charBytes) ↔
      (chars.flatMap fun c => encoded c.val.toBitVec) = chars.flatMap charBytes := by
    constructor
    · rintro ⟨fuel', text', hfrom', hto'⟩
      cases Text.fromString_unique hfrom hfrom'
      exact Except.ok.inj (hto.symm.trans hto')
    · intro h
      exact ⟨fuel, text, hfrom, hto.trans (congrArg Except.ok h)⟩
  have hlen : (chars.map fun c => encoded c.val.toBitVec).map List.length =
      (chars.map charBytes).map List.length := by
    simp only [List.map_map, Function.comp_def, length_encoded]
  have hflat : (chars.flatMap fun c => encoded c.val.toBitVec) = chars.flatMap charBytes ↔
      ∀ c ∈ chars, encoded c.val.toBitVec = charBytes c := by
    rw [List.flatMap_def, List.flatMap_def, ← List.map_inj_left, List.eq_iff_flatten_eq,
      and_iff_left hlen]
  rw [htrip, hflat, isChain_flatMap_charBytes]
  exact forall₂_congr fun c _ => encoded_eq_iff c

/-- `a`, and a character with three bytes -/
def mixed : List Byte := [0x61, 0xE4, 0xB8, 0xAD]

theorem roundTrips_mixed : ValidUtf8 mixed ∧ 0 ∉ mixed ∧ RoundTrips mixed := by
  have hv : ValidUtf8 mixed := ⟨['a', Char.ofNat 0x4E2D], by decide⟩
  exact ⟨hv, by decide, (roundTrips_iff hv (by decide)).mpr (by decide)⟩

/-- The character U+00C0 -/
theorem not_roundTrips_agrave : ValidUtf8 [0xC3, 0x80] ∧ 0 ∉ ([0xC3, 0x80] : List Byte) ∧
    ¬ RoundTrips [0xC3, 0x80] := by
  refine ⟨⟨[Char.ofNat 0xC0], by decide⟩, by decide, ?_⟩
  rintro ⟨fuel, text, hfrom, hto⟩
  have htwo : Text.fromString 2 [0xC3, 0x80] = some (.ok ⟨1, [0xC0, 0, 0, 0], by decide⟩) := rfl
  cases Text.fromString_unique htwo hfrom
  exact absurd hto (by decide)

end InetLisp.Utf8
