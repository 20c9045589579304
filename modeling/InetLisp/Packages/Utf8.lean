import Mathlib.Data.BitVec
import Mathlib.Data.List.Basic

/-! # UTF-8

The first byte of a character announces how many bytes it has. The payload of a character
are the bits that the masks of the decoder keep.
-/

namespace InetLisp.Utf8

abbrev Byte := BitVec 8

abbrev CodePoint := BitVec 32

inductive Error where
  | invalidUtf8 (byte : Byte)
  | invalidByteLength (byteLength : ℕ)
  | codePointTooLarge (codePoint : CodePoint)
  /-- A read or a write that is not inside the memory of the string. -/
  | outOfBounds
  deriving DecidableEq, Repr

variable {α : Type}

def fetch (memory : List α) (i : ℕ) : Except Error α :=
  match memory[i]? with
  | some a => .ok a
  | none => .error .outOfBounds

def store (memory : List α) (i : ℕ) (a : α) : Except Error (List α) :=
  if i < memory.length then .ok (memory.set i a) else .error .outOfBounds

/-- A byte of a string; the string ends with a NUL in memory. -/
def load (string : List Byte) (i : ℕ) : Except Error Byte := fetch (string ++ [0]) i

def charLength (byte : Byte) : Except Error ℕ :=
  if byte >>> 7 = 0x00#8 then .ok 1
  else if byte >>> 5 = 0x06#8 then .ok 2
  else if byte >>> 4 = 0x0E#8 then .ok 3
  else if byte >>> 3 = 0x1E#8 then .ok 4
  else .error (.invalidUtf8 byte)

/-- The masked bits of a byte, shifted to their place -/
def payload (mask byte : Byte) (shift : ℕ) : CodePoint := (mask &&& byte).setWidth 32 <<< shift

/-- `utf8_decode`, of the string that starts at the cursor -/
def decode (string : List Byte) (cursor : ℕ) : Except Error CodePoint := do
  let byte₁ ← load string cursor
  let byteLength ← charLength byte₁
  match byteLength with
  | 1 => return byte₁.setWidth 32
  | 2 =>
    let byte₂ ← load string (cursor + 1)
    return payload 0x1F byte₁ 6 + payload 0x3F byte₂ 0
  | 3 =>
    let byte₂ ← load string (cursor + 1)
    let byte₃ ← load string (cursor + 2)
    return payload 0x0F byte₁ 12 + payload 0x3F byte₂ 6 + payload 0x3F byte₃ 0
  | 4 =>
    let byte₂ ← load string (cursor + 1)
    let byte₃ ← load string (cursor + 2)
    let byte₄ ← load string (cursor + 3)
    return payload 0x07 byte₁ 18 + payload 0x3F byte₂ 12 + payload 0x3F byte₃ 6 +
      payload 0x3F byte₄ 0
  | n => throw (.invalidByteLength n)

/-- A pattern and the bits of a code point, in a byte -/
def leadByte (pattern : Byte) (codePoint : CodePoint) : Byte :=
  (pattern.setWidth 32 ||| codePoint).setWidth 8

/-- A continuation byte. The byte is promoted to an `int` before it is shifted, so that the
shifts to the left and back leave it as it is. -/
def continuationByte (codePoint : CodePoint) : Byte :=
  (0x80#32 ||| (codePoint.setWidth 8).setWidth 32 <<< 2 >>> 2).setWidth 8

/-- `utf8_encode_into`, from an offset on -/
def encodeInto (codePoint : CodePoint) (dest : List Byte) (offset : ℕ) :
    Except Error (List Byte) :=
  if codePoint ≤ 0x007F then do
    let byte₁ := codePoint.setWidth 8
    store dest offset byte₁
  else if codePoint ≤ 0x07FF then do
    let byte₁ := leadByte 0xC0 (codePoint >>> 6)
    let byte₂ := continuationByte codePoint
    let dest ← store dest offset byte₁
    store dest (offset + 1) byte₂
  else if codePoint ≤ 0xFFFF then do
    let byte₁ := leadByte 0xE0 (codePoint >>> 12)
    let byte₂ := continuationByte (codePoint >>> 6)
    let byte₃ := continuationByte codePoint
    let dest ← store dest offset byte₁
    let dest ← store dest (offset + 1) byte₂
    store dest (offset + 2) byte₃
  else if codePoint ≤ 0x10FFFF then do
    let byte₁ := leadByte 0xF0 (codePoint >>> 18)
    let byte₂ := continuationByte (codePoint >>> 12)
    let byte₃ := continuationByte (codePoint >>> 6)
    let byte₄ := continuationByte codePoint
    let dest ← store dest offset byte₁
    let dest ← store dest (offset + 1) byte₂
    let dest ← store dest (offset + 2) byte₃
    store dest (offset + 3) byte₄
  else throw (.codePointTooLarge codePoint)

/-- `string_copy` of a buffer: the bytes before its first NUL -/
def stringCopy (dest : List Byte) : List Byte := dest.takeWhile (· ≠ 0)

def encode (codePoint : CodePoint) : Except Error (List Byte) := do
  let dest ← encodeInto codePoint (List.replicate 5 0) 0
  return stringCopy dest

/-- The bytes of one character, with its payload; the upper bits of the bytes after the first
do not matter. -/
def Carries (bytes : List Byte) (v : ℕ) : Prop :=
  match bytes.map BitVec.toNat with
  | [a] => a < 128 ∧ v = a
  | [a, b] => a / 32 = 6 ∧ v = a % 32 * 64 + b % 64
  | [a, b, c] => a / 16 = 14 ∧ v = a % 16 * 4096 + b % 64 * 64 + c % 64
  | [a, b, c, d] => a / 8 = 30 ∧ v = a % 8 * 262144 + b % 64 * 4096 + c % 64 * 64 + d % 64
  | _ => False

variable {string rest bytes : List Byte} {a b : Byte} {codePoint : CodePoint} {cursor i n v : ℕ}

theorem charLength_eq (byte : Byte) : charLength byte =
    if byte.toNat < 128 then .ok 1
    else if byte.toNat / 32 = 6 then .ok 2
    else if byte.toNat / 16 = 14 then .ok 3
    else if byte.toNat / 8 = 30 then .ok 4
    else .error (.invalidUtf8 byte) := by
  have hshift (k m : ℕ) (hm : m < 256) :
      byte >>> k = BitVec.ofNat 8 m ↔ byte.toNat / 2 ^ k = m := by
    rw [← BitVec.toNat_inj, BitVec.toNat_ushiftRight, Nat.shiftRight_eq_div_pow, BitVec.toNat_ofNat,
      Nat.mod_eq_of_lt hm]
  have hzero : byte.toNat / 128 = 0 ↔ byte.toNat < 128 := by omega
  unfold charLength
  simp only [hshift 7 0 (by decide), hshift 5 6 (by decide), hshift 4 14 (by decide),
    hshift 3 30 (by decide), Nat.reducePow, hzero]

theorem toNat_payload {mask byte : Byte} {k shift : ℕ} (hm : mask.toNat = 2 ^ k - 1) (hk : k ≤ 8)
    (hs : k + shift ≤ 32) : (payload mask byte shift).toNat = byte.toNat % 2 ^ k * 2 ^ shift := by
  have hand : (mask &&& byte).toNat = byte.toNat % 2 ^ k := by
    rw [BitVec.toNat_and, hm, Nat.and_comm, Nat.and_two_pow_sub_one_eq_mod]
  have hlt : byte.toNat % 2 ^ k < 2 ^ k := Nat.mod_lt _ (Nat.two_pow_pos k)
  have hk32 : 2 ^ k ≤ 2 ^ 32 := Nat.pow_le_pow_right (by decide) (by omega)
  have hfit : byte.toNat % 2 ^ k * 2 ^ shift < 2 ^ 32 := by
    calc byte.toNat % 2 ^ k * 2 ^ shift
      _ < 2 ^ k * 2 ^ shift := Nat.mul_lt_mul_of_pos_right hlt (Nat.two_pow_pos shift)
      _ = 2 ^ (k + shift) := (Nat.pow_add 2 k shift).symm
      _ ≤ 2 ^ 32 := Nat.pow_le_pow_right (by decide) hs
  rw [payload, BitVec.toNat_shiftLeft, BitVec.toNat_setWidth, hand, Nat.shiftLeft_eq,
    Nat.mod_eq_of_lt (hlt.trans_le hk32), Nat.mod_eq_of_lt hfit]

theorem Carries.exists_cons (h : Carries bytes v) :
    ∃ a tail, bytes = a :: tail ∧ charLength a = .ok bytes.length := by
  match bytes, h with
  | [a], ⟨ha, _⟩ => exact ⟨a, _, rfl, by rw [charLength_eq, if_pos ha]; rfl⟩
  | [a, b], ⟨ha, _⟩ =>
    refine ⟨a, _, rfl, ?_⟩
    rw [charLength_eq, if_neg (by omega), if_pos ha]
    rfl
  | [a, b, c], ⟨ha, _⟩ =>
    refine ⟨a, _, rfl, ?_⟩
    rw [charLength_eq, if_neg (by omega), if_neg (by omega), if_pos ha]
    rfl
  | [a, b, c, d], ⟨ha, _⟩ =>
    refine ⟨a, _, rfl, ?_⟩
    rw [charLength_eq, if_neg (by omega), if_neg (by omega), if_neg (by omega), if_pos ha]
    rfl

/-- The memory of a string has these bytes at the cursor. -/
def Lies (string : List Byte) (cursor : ℕ) (bytes : List Byte) : Prop :=
  bytes <+: (string ++ [0]).drop cursor

theorem Lies.append (pre bytes rest : List Byte) :
    Lies (pre ++ (bytes ++ rest)) pre.length bytes := by
  rw [Lies, List.append_assoc, List.drop_left, List.append_assoc]
  exact List.prefix_append bytes _

theorem Lies.snoc (pre bytes : List Byte) : Lies (pre ++ bytes) pre.length (bytes ++ [0]) := by
  rw [Lies, List.append_assoc, List.drop_left]

theorem Lies.load (h : Lies string cursor bytes) (i : ℕ) (hi : i < bytes.length) :
    load string (cursor + i) = .ok bytes[i] := by
  obtain ⟨rest, hrest⟩ := h
  rw [Utf8.load, fetch, ← List.getElem?_drop, ← hrest, List.getElem?_append_left hi,
    List.getElem?_eq_getElem hi]

theorem load_of_length_lt (h : string.length < i) : load string i = .error .outOfBounds := by
  rw [load, fetch, List.getElem?_eq_none]
  rw [List.length_append, List.length_singleton]
  exact h

/-- The decoder reads the payload. -/
theorem Carries.decode (h : Carries bytes codePoint.toNat) (hl : Lies string cursor bytes) :
    decode string cursor = .ok codePoint := by
  obtain ⟨a, tail, he, hlen⟩ := h.exists_cons
  have htail {byte : Byte} {shift : ℕ} (hs : 6 + shift ≤ 32) :
      (payload 0x3F byte shift).toNat = byte.toNat % 64 * 2 ^ shift :=
    toNat_payload (k := 6) rfl (by decide) hs
  match bytes, h with
  | [a], ⟨ha, hv⟩ =>
    cases he
    have h₁ : load string cursor = .ok a := hl.load 0 (by simp)
    have hbyte : a.setWidth 32 = codePoint := by
      rw [← BitVec.toNat_inj, BitVec.toNat_setWidth, hv]
      omega
    simp only [Utf8.decode, h₁, hlen, List.length_singleton, bind, Except.bind, pure, Except.pure,
      hbyte]
  | [a, b], ⟨ha, hv⟩ =>
    cases he
    have h₁ : load string cursor = .ok a := hl.load 0 (by simp)
    have h₂ : load string (cursor + 1) = .ok b := hl.load 1 (by simp)
    have hsum : payload 0x1F a 6 + payload 0x3F b 0 = codePoint := by
      have hlead : (payload 0x1F a 6).toNat = a.toNat % 32 * 2 ^ 6 :=
        toNat_payload (k := 5) rfl (by decide) (by decide)
      rw [← BitVec.toNat_inj, BitVec.toNat_add, hlead, htail (by decide), hv]
      omega
    simp only [Utf8.decode, h₁, h₂, hlen, List.length_cons, List.length_nil, Nat.zero_add,
      Nat.reduceAdd, bind, Except.bind, pure, Except.pure, hsum]
  | [a, b, c], ⟨ha, hv⟩ =>
    cases he
    have h₁ : load string cursor = .ok a := hl.load 0 (by simp)
    have h₂ : load string (cursor + 1) = .ok b := hl.load 1 (by simp)
    have h₃ : load string (cursor + 2) = .ok c := hl.load 2 (by simp)
    have hsum : payload 0x0F a 12 + payload 0x3F b 6 + payload 0x3F c 0 = codePoint := by
      have hlead : (payload 0x0F a 12).toNat = a.toNat % 16 * 2 ^ 12 :=
        toNat_payload (k := 4) rfl (by decide) (by decide)
      rw [← BitVec.toNat_inj, BitVec.toNat_add, BitVec.toNat_add, hlead, htail (by decide),
        htail (by decide), hv]
      omega
    simp only [Utf8.decode, h₁, h₂, h₃, hlen, List.length_cons, List.length_nil, Nat.zero_add,
      Nat.reduceAdd, bind, Except.bind, pure, Except.pure, hsum]
  | [a, b, c, d], ⟨ha, hv⟩ =>
    cases he
    have h₁ : load string cursor = .ok a := hl.load 0 (by simp)
    have h₂ : load string (cursor + 1) = .ok b := hl.load 1 (by simp)
    have h₃ : load string (cursor + 2) = .ok c := hl.load 2 (by simp)
    have h₄ : load string (cursor + 3) = .ok d := hl.load 3 (by simp)
    have hsum : payload 0x07 a 18 + payload 0x3F b 12 + payload 0x3F c 6 + payload 0x3F d 0 =
        codePoint := by
      have hlead : (payload 0x07 a 18).toNat = a.toNat % 8 * 2 ^ 18 :=
        toNat_payload (k := 3) rfl (by decide) (by decide)
      rw [← BitVec.toNat_inj, BitVec.toNat_add, BitVec.toNat_add, BitVec.toNat_add, hlead,
        htail (by decide), htail (by decide), htail (by decide), hv]
      omega
    simp only [Utf8.decode, h₁, h₂, h₃, h₄, hlen, List.length_cons, List.length_nil, Nat.zero_add,
      Nat.reduceAdd, bind, Except.bind, pure, Except.pure, hsum]

/-- What `utf8_encode_into` stores -/
def encoded (codePoint : CodePoint) : List Byte :=
  if codePoint ≤ 0x007F then [codePoint.setWidth 8]
  else if codePoint ≤ 0x07FF then [leadByte 0xC0 (codePoint >>> 6), continuationByte codePoint]
  else if codePoint ≤ 0xFFFF then
    [leadByte 0xE0 (codePoint >>> 12), continuationByte (codePoint >>> 6),
      continuationByte codePoint]
  else
    [leadByte 0xF0 (codePoint >>> 18), continuationByte (codePoint >>> 12),
      continuationByte (codePoint >>> 6), continuationByte codePoint]

theorem store_append (pre : List Byte) (k : ℕ) (byte : Byte) (hi : i = pre.length) :
    store (pre ++ List.replicate (k + 1) 0) i byte =
      .ok (pre ++ [byte] ++ List.replicate k 0) := by
  subst hi
  rw [store, if_pos (by simp), List.set_append_right _ _ le_rfl, Nat.sub_self,
    List.replicate_succ, List.set_cons_zero, List.append_assoc, List.singleton_append]

/-- Behind what is written there is room for four bytes. -/
theorem encodeInto_append (h : codePoint ≤ 0x10FFFF) (pre : List Byte) {k : ℕ} (hk : 4 ≤ k) :
    encodeInto codePoint (pre ++ List.replicate k 0) pre.length =
      .ok (pre ++ encoded codePoint ++ List.replicate (k - (encoded codePoint).length) 0) := by
  obtain ⟨k, rfl⟩ := Nat.exists_eq_add_of_le' hk
  have hstore (l : List Byte) (m : ℕ) (byte : Byte) :
      store (pre ++ l ++ List.replicate (m + 1) 0) (pre.length + l.length) byte =
        .ok (pre ++ (l ++ [byte]) ++ List.replicate m 0) := by
    rw [store_append _ m byte List.length_append.symm, List.append_assoc pre]
  have h₁ (byte : Byte) : store (pre ++ List.replicate (k + 4) 0) pre.length byte =
      .ok (pre ++ [byte] ++ List.replicate (k + 3) 0) := store_append pre (k + 3) byte rfl
  have h₂ (a byte : Byte) : store (pre ++ [a] ++ List.replicate (k + 3) 0) (pre.length + 1) byte =
      .ok (pre ++ [a, byte] ++ List.replicate (k + 2) 0) := hstore [a] (k + 2) byte
  have h₃ (a b byte : Byte) :
      store (pre ++ [a, b] ++ List.replicate (k + 2) 0) (pre.length + 2) byte =
        .ok (pre ++ [a, b, byte] ++ List.replicate (k + 1) 0) := hstore [a, b] (k + 1) byte
  have h₄ (a b c byte : Byte) :
      store (pre ++ [a, b, c] ++ List.replicate (k + 1) 0) (pre.length + 3) byte =
        .ok (pre ++ [a, b, c, byte] ++ List.replicate k 0) := hstore [a, b, c] k byte
  unfold encodeInto encoded
  split
  · exact h₁ _
  · split
    · simp only [h₁, h₂, bind, Except.bind]
      rfl
    · split
      · simp only [h₁, h₂, h₃, bind, Except.bind]
        rfl
      · simp only [h₁, h₂, h₃, h₄, bind, Except.bind]
        rfl

theorem toNat_continuationByte (codePoint : CodePoint) :
    (continuationByte codePoint).toNat = 128 + codePoint.toNat % 128 := by
  have hbyte : ∀ byte : Byte, ((0x80#32 ||| byte.setWidth 32 <<< 2 >>> 2).setWidth 8).toNat =
      128 + byte.toNat % 128 := by decide
  rw [continuationByte, hbyte, BitVec.toNat_setWidth]
  omega

theorem toNat_ushiftRight (codePoint : CodePoint) (k : ℕ) :
    (codePoint >>> k).toNat = codePoint.toNat / 2 ^ k := by
  rw [BitVec.toNat_ushiftRight, Nat.shiftRight_eq_div_pow]

theorem toNat_leadByte {pattern : Byte} {k m p shift : ℕ} (hp : pattern.toNat = p)
    (hm : p = 2 ^ k * m) (hfit : p + 2 ^ k ≤ 256) (hc : codePoint.toNat / 2 ^ shift < 2 ^ k) :
    (leadByte pattern (codePoint >>> shift)).toNat = p + codePoint.toNat / 2 ^ shift := by
  rw [leadByte, BitVec.toNat_setWidth, BitVec.toNat_or, BitVec.toNat_setWidth, toNat_ushiftRight,
    Nat.mod_eq_of_lt (pattern.isLt.trans (by decide)), hp, hm, ← Nat.two_pow_add_eq_or_of_lt hc,
    ← hm, Nat.mod_eq_of_lt (by omega)]

theorem encoded_cases (h : codePoint ≤ 0x10FFFF) :
    (codePoint.toNat < 128 ∧ (encoded codePoint).map BitVec.toNat = [codePoint.toNat]) ∨
    (128 ≤ codePoint.toNat ∧ codePoint.toNat < 2048 ∧ (encoded codePoint).map BitVec.toNat =
      [192 + codePoint.toNat / 64, 128 + codePoint.toNat % 128]) ∨
    (2048 ≤ codePoint.toNat ∧ codePoint.toNat < 65536 ∧ (encoded codePoint).map BitVec.toNat =
      [224 + codePoint.toNat / 4096, 128 + codePoint.toNat / 64 % 128,
        128 + codePoint.toNat % 128]) ∨
    (65536 ≤ codePoint.toNat ∧ codePoint.toNat < 1114112 ∧ (encoded codePoint).map BitVec.toNat =
      [240 + codePoint.toNat / 262144, 128 + codePoint.toNat / 4096 % 128,
        128 + codePoint.toNat / 64 % 128, 128 + codePoint.toNat % 128]) := by
  have hle (m : ℕ) (hm : m < 2 ^ 32) : codePoint ≤ BitVec.ofNat 32 m ↔ codePoint.toNat ≤ m := by
    rw [BitVec.le_def, BitVec.toNat_ofNat, Nat.mod_eq_of_lt hm]
  have hmax := (hle 1114111 (by decide)).mp h
  have h₁ := hle 127 (by decide)
  have h₂ := hle 2047 (by decide)
  have h₃ := hle 65535 (by decide)
  unfold encoded
  split
  · rename_i hc
    have := h₁.mp hc
    refine .inl ⟨by omega, ?_⟩
    rw [List.map_singleton, BitVec.toNat_setWidth, Nat.mod_eq_of_lt (by omega)]
  · rename_i hn₁
    have := mt h₁.mpr hn₁
    split
    · rename_i hc
      have := h₂.mp hc
      have hlead : (leadByte 0xC0 (codePoint >>> 6)).toNat = 192 + codePoint.toNat / 2 ^ 6 :=
        toNat_leadByte (k := 5) (m := 6) rfl rfl (by decide) (by omega)
      refine .inr (.inl ⟨by omega, by omega, ?_⟩)
      simp only [List.map_cons, List.map_nil, hlead, toNat_continuationByte]
      rfl
    · rename_i hn₂
      have := mt h₂.mpr hn₂
      split
      · rename_i hc
        have := h₃.mp hc
        have hlead : (leadByte 0xE0 (codePoint >>> 12)).toNat = 224 + codePoint.toNat / 2 ^ 12 :=
          toNat_leadByte (k := 4) (m := 14) rfl rfl (by decide) (by omega)
        refine .inr (.inr (.inl ⟨by omega, by omega, ?_⟩))
        simp only [List.map_cons, List.map_nil, hlead, toNat_continuationByte, toNat_ushiftRight]
        rfl
      · rename_i hn₃
        have := mt h₃.mpr hn₃
        have hlead : (leadByte 0xF0 (codePoint >>> 18)).toNat = 240 + codePoint.toNat / 2 ^ 18 :=
          toNat_leadByte (k := 3) (m := 30) rfl rfl (by decide) (by omega)
        refine .inr (.inr (.inr ⟨by omega, by omega, ?_⟩))
        simp only [List.map_cons, List.map_nil, hlead, toNat_continuationByte, toNat_ushiftRight]
        rfl

theorem carries_encoded (h : codePoint ≤ 0x10FFFF) :
    Carries (encoded codePoint) codePoint.toNat := by
  rcases encoded_cases h with ⟨hlt, he⟩ | ⟨-, hlt, he⟩ | ⟨-, hlt, he⟩ | ⟨-, hlt, he⟩
  · rw [Carries, he]
    exact ⟨hlt, rfl⟩
  all_goals
    rw [Carries, he]
    constructor <;> omega

theorem nul_notMem_encoded (h : codePoint ≤ 0x10FFFF) (hne : codePoint ≠ 0) :
    0 ∉ encoded codePoint := by
  have hpos : codePoint.toNat ≠ 0 := fun hz => hne (BitVec.toNat_inj.mp hz)
  intro hm
  have hmem : 0 ∈ (encoded codePoint).map BitVec.toNat := List.mem_map_of_mem hm
  rcases encoded_cases h with ⟨-, he⟩ | ⟨-, -, he⟩ | ⟨-, -, he⟩ | ⟨-, -, he⟩ <;>
  · rw [he] at hmem
    simp at hmem
    omega

theorem length_encoded_le (h : codePoint ≤ 0x10FFFF) : (encoded codePoint).length ≤ 4 := by
  have hlen : ((encoded codePoint).map BitVec.toNat).length = (encoded codePoint).length :=
    List.length_map BitVec.toNat
  rcases encoded_cases h with ⟨-, he⟩ | ⟨-, -, he⟩ | ⟨-, -, he⟩ | ⟨-, -, he⟩ <;>
  · rw [← hlen, he]
    simp

theorem stringCopy_append (h : 0 ∉ bytes) (k : ℕ) :
    stringCopy (bytes ++ List.replicate k 0) = bytes := by
  have hall : ∀ byte ∈ bytes, (byte ≠ 0 : Bool) = true := by
    intro byte hm
    have hne : byte ≠ 0 := by
      rintro rfl
      exact h hm
    simpa using hne
  rw [stringCopy, List.takeWhile_append_of_pos hall, List.takeWhile_replicate]
  simp

theorem encode_eq (h : codePoint ≤ 0x10FFFF) (hne : codePoint ≠ 0) :
    encode codePoint = .ok (encoded codePoint) := by
  have hinto := encodeInto_append h [] (k := 5) (by decide)
  rw [List.nil_append, List.nil_append, List.length_nil] at hinto
  simp only [encode, hinto, bind, Except.bind, pure, Except.pure,
    stringCopy_append (nul_notMem_encoded h hne)]

end InetLisp.Utf8
