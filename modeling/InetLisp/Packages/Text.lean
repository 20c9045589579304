import InetLisp.Packages.Utf8Iter

/-! # Texts

A text is an array of code points. It is read from a string by the iterator, after the code
points were counted, and written back character by character.
-/

namespace InetLisp.Utf8

open Lib

/-- `text_t`; the array has room for the code points. -/
structure Text where
  length : ℕ
  codePoints : List CodePoint
  le : length ≤ codePoints.length

namespace Text

/-- `text_new` allocates `sizeof(text_t)` bytes for each code point of four bytes. -/
def new (length : ℕ) : Text := ⟨length, List.replicate (4 * length) 0, by simp; omega⟩

def get (self : Text) (index : ℕ) : Except Error CodePoint := fetch self.codePoints index

/-- `text->code_points[index] = code_point` -/
def set (self : Text) (index : ℕ) (codePoint : CodePoint) : Except Error Text :=
  if index < self.codePoints.length then
    .ok ⟨self.length, self.codePoints.set index codePoint, by simpa using self.le⟩
  else .error .outOfBounds

/-- The body of the loop of `text_from_string`, with its index -/
def storeNext : ℕ × Text → CodePoint → Except Error (ℕ × Text)
  | (index, text), codePoint => (text.set index codePoint).map fun text => (index + 1, text)

/-- `text_from_string`, with so many rounds of its loops at most -/
def fromString (fuel : ℕ) (string : List Byte) : Option (Except Error Text) :=
  match stringLength fuel string with
  | none => none
  | some (.error e) => some (.error e)
  | some (.ok length) =>
    (scan storeNext fuel string (0, new length)).map (·.map Prod.snd)

def equal (left right : Text) : Bool :=
  left.length == right.length &&
    left.codePoints.take left.length == right.codePoints.take left.length

/-- One round of the loop of `text_to_string` -/
def write (self : Text) : List Byte × ℕ → ℕ → Except Error (List Byte × ℕ)
  | (dest, cursor), i => do
    let codePoint ← self.get i
    let dest ← encodeInto codePoint dest cursor
    let byte ← fetch dest cursor
    let byteLength ← charLength byte
    return (dest, cursor + byteLength)

def toString (self : Text) : Except Error (List Byte) := do
  let (dest, _) ← (List.range self.length).foldlM self.write
    (List.replicate (self.length * 4 + 1) 0, 0)
  return stringCopy dest

def content (self : Text) : List CodePoint := self.codePoints.take self.length

end Text

variable {string bytes : List Byte} {codePoint : CodePoint} {codePoints : List CodePoint}
  {r : Except Error Unit} {text left right : Text}

theorem Text.length_content (text : Text) : text.content.length = text.length := by
  rw [content, List.length_take, Nat.min_eq_left text.le]

theorem Text.equal_iff : left.equal right = true ↔ left.content = right.content := by
  rw [equal, Bool.and_eq_true, beq_iff_eq, beq_iff_eq]
  constructor
  · rintro ⟨hl, hc⟩
    rw [content, content, ← hl]
    exact hc
  · intro h
    have hl : left.length = right.length := by
      rw [← left.length_content, ← right.length_content, h]
    refine ⟨hl, ?_⟩
    rw [content, content, ← hl] at h
    exact h

theorem foldlM_length (codePoints : List CodePoint) (n : ℕ) :
    codePoints.foldlM (m := Except Error) (fun length _ => .ok (length + 1)) n =
      .ok (n + codePoints.length) := by
  induction codePoints generalizing n with
  | nil => rfl
  | cons c l ih =>
    rw [List.foldlM_cons, List.length_cons, ← Nat.add_assoc, Nat.add_right_comm]
    exact ih (n + 1)

theorem foldlM_storeNext (text : Text) (pre rest : List CodePoint)
    (hc : text.codePoints = pre ++ rest) (hl : codePoints.length ≤ rest.length) :
    ∃ text' : Text, codePoints.foldlM Text.storeNext (pre.length, text) =
        .ok (pre.length + codePoints.length, text') ∧
      text'.length = text.length ∧
      text'.codePoints = pre ++ codePoints ++ rest.drop codePoints.length := by
  induction codePoints generalizing text pre rest with
  | nil => exact ⟨text, rfl, rfl, by simpa using hc⟩
  | cons c l ih =>
    cases rest with
    | nil => simp at hl
    | cons d rest =>
      have hlt : pre.length < text.codePoints.length := by simp [hc]
      have hnext : Text.storeNext (pre.length, text) c = .ok (pre.length + 1,
          ⟨text.length, text.codePoints.set pre.length c, by simpa using text.le⟩) := by
        rw [Text.storeNext, Text.set, if_pos hlt]
        rfl
      obtain ⟨text', hf, hlen, hcp⟩ :=
        ih ⟨text.length, text.codePoints.set pre.length c, by simpa using text.le⟩ (pre ++ [c]) rest
          (by simp [hc]) (by simpa using hl)
      refine ⟨text', ?_, hlen, ?_⟩
      · rw [List.length_append, List.length_singleton] at hf
        rw [List.foldlM_cons, hnext, List.length_cons, Nat.add_comm l.length, ← Nat.add_assoc]
        exact hf
      · rw [hcp]
        simp

theorem scan_mono {α : Type} {f : α → CodePoint → Except Error α} {acc : α} {m n : ℕ}
    {x : Except Error α} (h : scan f n string acc = some x) (hn : n ≤ m) :
    scan f m string acc = some x := by
  unfold scan at h ⊢
  split at h
  · exact h
  · obtain ⟨x', hx, rfl⟩ := Option.map_eq_some_iff.mp h
    rw [loop_mono hx hn]
    rfl

theorem result_of_error {α : Type} {f : α → CodePoint → Except Error α} {acc b : α} {e : Error}
    (h : codePoints.foldlM f acc = .ok b) : result f acc codePoints (.error e) = .error e := by
  simp only [result, h, bind, Except.bind]

theorem result_of_ok {α : Type} {f : α → CodePoint → Except Error α} {acc b : α}
    (h : codePoints.foldlM f acc = .ok b) : result f acc codePoints (.ok ()) = .ok b := by
  simp only [result, h, bind, Except.bind]
  rfl

theorem Reads.stringLength (h : Reads string codePoints r) :
    ∃ fuel, stringLength fuel string = some (r.map fun _ => codePoints.length) := by
  obtain ⟨fuel, hf⟩ := h.scan (fun length _ => .ok (length + 1)) 0
  refine ⟨fuel, hf.trans ?_⟩
  have hlen := foldlM_length codePoints 0
  rw [Nat.zero_add] at hlen
  cases r with
  | error e => rw [result_of_error hlen]; rfl
  | ok _ => rw [result_of_ok hlen]; rfl

/-- A reading without an error gives its code points as a text. -/
theorem Reads.fromString (h : Reads string codePoints (.ok ())) :
    ∃ fuel text, Text.fromString fuel string = some (.ok text) ∧ text.content = codePoints := by
  obtain ⟨m, hm⟩ := h.stringLength
  obtain ⟨n, hn⟩ := h.scan Text.storeNext (0, Text.new codePoints.length)
  have hroom : codePoints.length ≤
      (List.replicate (4 * codePoints.length) (0 : CodePoint)).length := by
    rw [List.length_replicate]
    omega
  obtain ⟨text, hf, hlen, hcp⟩ :=
    foldlM_storeNext (Text.new codePoints.length) [] (List.replicate _ 0) rfl hroom
  rw [List.length_nil] at hf
  refine ⟨max m n, text, ?_, ?_⟩
  · have hm' : Utf8.stringLength (max m n) string = some (.ok codePoints.length) :=
      scan_mono hm (le_max_left m n)
    rw [result_of_ok hf] at hn
    simp only [Text.fromString, hm', scan_mono hn (le_max_right m n)]
    rfl
  · rw [Text.content, hlen, hcp]
    exact List.take_left

theorem Reads.fromString_of_error {e : Error} (h : Reads string codePoints (.error e)) :
    ∃ fuel, Text.fromString fuel string = some (.error e) := by
  obtain ⟨fuel, hf⟩ := h.stringLength
  refine ⟨fuel, ?_⟩
  rw [Text.fromString, hf]
  rfl

/-- The code points that can be encoded without a NUL. -/
def Encodable (codePoint : CodePoint) : Prop := codePoint ≠ 0 ∧ codePoint ≤ 0x10FFFF

theorem length_flatMap_encoded_le (h : ∀ c ∈ codePoints, Encodable c) :
    (codePoints.flatMap encoded).length ≤ 4 * codePoints.length := by
  induction codePoints with
  | nil => exact Nat.zero_le _
  | cons c l ih =>
    have hc := length_encoded_le (h c List.mem_cons_self).2
    have hl := ih fun d hd => h d (List.mem_cons_of_mem c hd)
    rw [List.flatMap_cons, List.length_append, List.length_cons]
    omega

theorem write_eq (pre : List Byte) {i k : ℕ} (hi : text.codePoints[i]? = some codePoint)
    (hc : Encodable codePoint) (hk : 4 ≤ k) :
    text.write (pre ++ List.replicate k 0, pre.length) i =
      .ok (pre ++ encoded codePoint ++ List.replicate (k - (encoded codePoint).length) 0,
        (pre ++ encoded codePoint).length) := by
  obtain ⟨a, tail, he, hlen⟩ := (carries_encoded hc.2).exists_cons
  have hget : text.get i = .ok codePoint := by rw [Text.get, fetch, hi]
  have hfetch : fetch (pre ++ encoded codePoint ++
      List.replicate (k - (encoded codePoint).length) 0) pre.length = .ok a := by
    rw [fetch, he]
    simp
  simp only [Text.write, hget, encodeInto_append hc.2 pre hk, hfetch, hlen, bind, Except.bind, pure,
    Except.pure, List.length_append]

theorem foldlM_write (h : ∀ c ∈ text.content, Encodable c) {n : ℕ} (hn : n ≤ text.length) :
    (List.range n).foldlM text.write (List.replicate (text.length * 4 + 1) 0, 0) =
      .ok ((text.content.take n).flatMap encoded ++ List.replicate
        (text.length * 4 + 1 - ((text.content.take n).flatMap encoded).length) 0,
        ((text.content.take n).flatMap encoded).length) := by
  induction n with
  | zero => rfl
  | succ n ih =>
    have hlt : n < text.content.length := by rw [text.length_content]; omega
    have hmem := List.getElem_mem hlt
    have hi : text.codePoints[n]? = some text.content[n] := by
      rw [← List.getElem?_eq_getElem hlt, Text.content, List.getElem?_take_of_lt (by omega)]
    have htake : ∀ c ∈ text.content.take n, Encodable c := fun c hc => h c (List.mem_of_mem_take hc)
    have hle := length_flatMap_encoded_le htake
    rw [List.length_take, Nat.min_eq_left (by omega)] at hle
    have hwrite := write_eq ((text.content.take n).flatMap encoded) hi (h _ hmem)
      (k := text.length * 4 + 1 - ((text.content.take n).flatMap encoded).length) (by omega)
    rw [List.range_succ, List.foldlM_append, ih (by omega)]
    simp only [bind, Except.bind, List.foldlM_cons, List.foldlM_nil, hwrite, pure, Except.pure]
    rw [List.take_succ_eq_append_getElem hlt, List.flatMap_append, List.flatMap_singleton,
      List.length_append, Nat.sub_sub]

theorem toString_eq (h : ∀ c ∈ text.content, Encodable c) :
    text.toString = .ok (text.content.flatMap encoded) := by
  have hwrite := foldlM_write h le_rfl
  rw [← text.length_content, List.take_length, text.length_content] at hwrite
  have hnul : 0 ∉ text.content.flatMap encoded := by
    intro hm
    obtain ⟨c, hc, hz⟩ := List.mem_flatMap.mp hm
    exact nul_notMem_encoded (h c hc).2 (h c hc).1 hz
  simp only [Text.toString, hwrite, bind, Except.bind, pure, Except.pure, stringCopy_append hnul]

theorem reads_flatten {chars : List (List Byte)}
    (h : List.Forall₂ (fun bytes (c : CodePoint) => Carries bytes c.toNat ∧ c ≠ 0) chars
      codePoints) : Reads chars.flatten codePoints (.ok ()) := by
  induction h with
  | nil => exact .nil
  | cons hc _ ih => exact .char hc.1 hc.2 ih

theorem reads_flatMap_encoded (h : ∀ c ∈ codePoints, Encodable c) :
    Reads (codePoints.flatMap encoded) codePoints (.ok ()) := by
  apply reads_flatten
  rw [List.forall₂_map_left_iff, List.forall₂_same]
  exact fun c hc => ⟨carries_encoded (h c hc).2, (h c hc).1⟩

/-- A character of a text in a string: as many bytes as the first one announces, none of them
a NUL, and they are decoded to the code point wherever they lie. -/
structure Encodes (bytes : List Byte) (codePoint : CodePoint) : Prop where
  complete : ∃ a tail, bytes = a :: tail ∧ charLength a = .ok bytes.length
  nul_notMem : 0 ∉ bytes
  decode : ∀ pre rest : List Byte,
    (⟨pre.length, pre ++ (bytes ++ rest)⟩ : Iter).current = .ok codePoint

theorem encodes_encoded (h : Encodable codePoint) : Encodes (encoded codePoint) codePoint where
  complete := (carries_encoded h.2).exists_cons
  nul_notMem := nul_notMem_encoded h.2 h.1
  decode pre rest := (carries_encoded h.2).current (Lies.append pre _ rest)

/-- A text of code points that can be encoded is read back from its string. -/
theorem fromString_toString (text : Text) (h : ∀ c ∈ text.content, Encodable c) :
    ∃ chars : List (List Byte), text.toString = .ok chars.flatten ∧
      List.Forall₂ Encodes chars text.content ∧
      ∃ fuel text', Text.fromString fuel chars.flatten = some (.ok text') ∧
        text'.equal text = true := by
  obtain ⟨fuel, text', hf, hcontent⟩ := (reads_flatMap_encoded h).fromString
  refine ⟨text.content.map encoded, toString_eq h, ?_, fuel, text', hf, Text.equal_iff.mpr hcontent⟩
  rw [List.forall₂_map_left_iff, List.forall₂_same]
  exact fun c hc => encodes_encoded (h c hc)

def widths : Text := ⟨4, [0x41, 0xE9, 0x4E2D, 0x1F600], by decide⟩

theorem fromString_toString_widths : ∃ chars : List (List Byte),
    widths.toString = .ok chars.flatten ∧
    ∃ fuel text', Text.fromString fuel chars.flatten = some (.ok text') ∧
      text'.equal widths = true := by
  have hcontent : widths.content = [0x41, 0xE9, 0x4E2D, 0x1F600] := rfl
  have hall : ∀ c ∈ ([0x41, 0xE9, 0x4E2D, 0x1F600] : List CodePoint), Encodable c := by
    simp [Encodable]
  obtain ⟨chars, hs, -, hf⟩ := fromString_toString widths (hcontent ▸ hall)
  exact ⟨chars, hs, hf⟩

end InetLisp.Utf8
