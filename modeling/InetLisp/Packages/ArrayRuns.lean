import InetLisp.Lib.Outcome
import InetLisp.Lib.Slots
import InetLisp.Packages.Array

/-! # Runs of a growable array

What an array holds after a run can be told from the calls alone, the last of which comes
first here. A call that grows an array has room in the new block if it grows by a step that
is not zero, and if the bytes of the block can be counted.
-/

namespace InetLisp.GrowableArray

open Lib

variable {α : Type*} {allocates : ℕ → Bool} {self t : GrowableArray α} {calls : List (Call α)}
  {values : Block α} {value : Option α} {c : Call α} {size index i j n : ℕ}

/-! ### What the calls tell -/

def lengthOf : List (Call α) → ℕ
  | [] => 0
  | .push _ :: calls => lengthOf calls + 1
  | .set index _ :: calls => max (index + 1) (lengthOf calls)
  | .pop :: calls => lengthOf calls - 1
  | .purge :: _ => 0
  | _ :: calls => lengthOf calls

/-- The value last written at the index; `NULL` if there is none since it was popped or purged. -/
def lastWritten (i : ℕ) : List (Call α) → Option α
  | [] => none
  | .push value :: calls => if i = lengthOf calls then value else lastWritten i calls
  | .set index value :: calls => if i = index then value else lastWritten i calls
  | .pop :: calls => if i + 1 = lengthOf calls then none else lastWritten i calls
  | .purge :: _ => none
  | _ :: calls => lastWritten i calls

/-- The index has been written since the array was popped to no more than that length. -/
def Stands (i : ℕ) : List (Call α) → Prop
  | [] => False
  | .push _ :: calls => i = lengthOf calls ∨ Stands i calls
  | .set index _ :: calls => i = index ∨ Stands i calls
  | .pop :: calls => i < lengthOf calls - 1 ∧ Stands i calls
  | .purge :: _ => False
  | _ :: calls => Stands i calls

/-- The last slot below the length has not been skipped. -/
def TopStands (calls : List (Call α)) : Prop :=
  lengthOf calls = 0 ∨ Stands (lengthOf calls - 1) calls

/-- Since the last purge, no pop has come down to a slot that `array_set` has skipped. -/
def NoneUncovered : List (Call α) → Prop
  | [] => True
  | .pop :: calls => TopStands (.pop :: calls) ∧ NoneUncovered calls
  | .purge :: _ => True
  | _ :: calls => NoneUncovered calls

theorem lt_of_stands (h : Stands i calls) : i < lengthOf calls := by
  induction calls with
  | nil => exact h.elim
  | cons c calls ih =>
    cases c with
    | push value =>
      rcases h with rfl | h
      · exact Nat.lt_succ_self _
      · exact Nat.lt_succ_of_lt (ih h)
    | set index value =>
      rcases h with rfl | h
      · exact lt_max_of_lt_left (Nat.lt_succ_self _)
      · exact lt_max_of_lt_right (ih h)
    | pop => exact h.1
    | purge => exact h.elim
    | _ => exact ih h

theorem topStands_of_noneUncovered (h : NoneUncovered calls) : TopStands calls := by
  induction calls with
  | nil => exact .inl rfl
  | cons c calls ih =>
    cases c with
    | push value => exact .inr (.inl rfl)
    | set index value =>
      refine .inr ?_
      simp only [lengthOf, Stands]
      rcases le_or_gt (lengthOf calls) (index + 1) with hle | hgt
      · rw [max_eq_left hle]
        exact .inl rfl
      · rw [max_eq_right hgt.le]
        exact .inr ((ih h).resolve_left (by omega))
    | pop => exact h.1
    | purge => exact .inl rfl
    | _ => exact ih h

theorem lastWritten_of_le (h : lengthOf calls ≤ i) : lastWritten i calls = none := by
  induction calls with
  | nil => rfl
  | cons c calls ih =>
    cases c with
    | push value =>
      rw [lengthOf] at h
      rw [lastWritten, if_neg (by omega), ih (by omega)]
    | set index value =>
      rw [lengthOf] at h
      rw [lastWritten, if_neg (by omega), ih (by omega)]
    | pop =>
      rw [lengthOf] at h
      rw [lastWritten]
      split
      · rfl
      · exact ih (by omega)
    | purge => rfl
    | _ => exact ih h

/-! ### Blocks -/

theorem bytes_div (h : size < 2 ^ 61) : bytes size / 8 = size := by
  unfold bytes
  omega

theorem load_of_lt (h : index < values.length) :
    load values index = .ok (Slots.get values index) := by
  simp [load, Slots.get, h]

theorem store_of_lt (h : index < values.length) :
    store values index value = .ok (values.set index value) := if_pos h

theorem get_set (h : index < values.length) :
    Slots.get (values.set index value) i = if i = index then value else Slots.get values i := by
  unfold Slots.get
  split
  · subst i
    simp [h]
  · rw [List.getElem?_set_ne (Ne.symm ‹_›)]

theorem get_of_le (h : values.length ≤ i) : Slots.get values i = none := by
  simp [Slots.get, h]

theorem memoryClear_spec {start count : ℕ} (h : start + count ≤ values.length) :
    ∃ block, memoryClear values start count = .ok block ∧ block.length = values.length ∧
      ∀ i, Slots.get block i =
        if start ≤ i ∧ i < start + count then none else Slots.get values i := by
  refine ⟨_, if_pos h, by simp; omega, fun i => ?_⟩
  have htake : (values.take start).length = start := List.length_take_of_le (by omega)
  unfold Slots.get
  rcases lt_or_ge i start with hlt | hge
  · rw [if_neg (by omega), List.append_assoc, List.getElem?_append_left (by omega),
      List.getElem?_take_of_lt hlt]
  · rw [List.append_assoc, List.getElem?_append_right (by omega), htake]
    rcases lt_or_ge i (start + count) with hlt | hge'
    · rw [if_pos ⟨hge, hlt⟩, List.getElem?_append_left (by simp; omega),
        List.getElem?_replicate_of_lt (by omega)]
      rfl
    · rw [if_neg (by omega), List.getElem?_append_right (by simp; omega), List.length_replicate,
        List.getElem?_drop]
      congr 2
      omega

theorem get_takeD (h : values.length ≤ n) :
    Slots.get (values.takeD n none) i = Slots.get values i := by
  induction n generalizing values i with
  | zero =>
    obtain rfl := List.length_eq_zero_iff.mp (Nat.le_zero.mp h)
    rfl
  | succ n ih =>
    cases values with
    | nil =>
      cases i with
      | zero => rfl
      | succ i => exact ih (Nat.zero_le n)
    | cons value values =>
      cases i with
      | zero => rfl
      | succ i => exact ih (Nat.le_of_succ_le_succ h)

/-- `reallocate_pointers` clears what `realloc` adds to the block. -/
theorem reallocatePointers_spec (hlen : values.length = size) (hle : size ≤ n) (hn : n < 2 ^ 61) :
    Outcome (· = .assertion)
      (fun block => block.length = n ∧ ∀ i, Slots.get block i = Slots.get values i)
      (reallocatePointers allocates values size n) := by
  unfold reallocatePointers
  split
  · rw [bytes_div hn, bytes_div (hle.trans_lt hn), bytes_div (by omega)]
    have hroom : size + (n - size) ≤ (values.takeD n none).length := by
      rw [List.takeD_length]
      omega
    obtain ⟨block, hb, hlength, hget⟩ := memoryClear_spec hroom
    rw [hb]
    refine ⟨hlength.trans (List.takeD_length _ _ _), fun i => ?_⟩
    rw [hget, get_takeD (by omega)]
    split
    · rw [get_of_le (by omega)]
    · rfl
  · exact rfl

/-! ### The array -/

/-- The slots of the block are counted by the size, and it is not larger than `size_t` can tell. -/
structure Ok (array : GrowableArray α) : Prop where
  block : array.values.length = array.size
  bounded : array.size < 2 ^ 61
  cursor_le : array.cursor ≤ array.size

theorem Ok.new (h : size < 2 ^ 61) : Outcome (· = .assertion)
    (fun t : GrowableArray α => t.Ok ∧ t.cursor = 0 ∧ ∀ i, Slots.get t.values i = none)
    (arrayNew allocates size) := by
  unfold arrayNew allocatePointers
  split
  · rw [bytes_div h]
    refine ⟨⟨List.length_replicate, h, Nat.zero_le _⟩, rfl, fun i => ?_⟩
    simp only [Slots.get, List.getElem?_replicate]
    split <;> rfl
  · exact rfl

namespace Ok

theorem resize (h : self.Ok) (hn : n < 2 ^ 61) : Outcome (· = .assertion)
    (fun t => t.Ok ∧ t.size = n ∧ t.cursor = self.cursor ∧
      ∀ i, Slots.get t.values i = Slots.get self.values i) (self.arrayResize allocates n) := by
  unfold arrayResize
  split
  · exact rfl
  · have hle : self.size ≤ n := not_lt.mp ‹_›
    split
    · exact ⟨h, Eq.symm ‹_›, rfl, fun _ => rfl⟩
    · refine (reallocatePointers_spec h.block hle hn).bind fun block hb => ?_
      exact ⟨⟨hb.1, hn, h.cursor_le.trans hle⟩, rfl, rfl, hb.2⟩

/-- Before a slot is written, the array is made larger if it has none for the index. -/
theorem reserve (h : self.Ok) (index : ℕ) {full : Prop} [Decidable full]
    (hfull : ¬ full → index < self.size) (hn : full → index < n ∧ n < 2 ^ 61) :
    Outcome (· = .assertion) (fun t => t.Ok ∧ index < t.size ∧ t.cursor = self.cursor ∧
      ∀ i, Slots.get t.values i = Slots.get self.values i)
    (if full then self.arrayResize allocates n else .ok self) := by
  split
  · obtain ⟨hindex, hn⟩ := hn ‹_›
    refine (h.resize hn).mono ?_
    rintro t ⟨ht, rfl, hc, hget⟩
    exact ⟨ht, hindex, hc, hget⟩
  · exact ⟨h, hfull ‹_›, rfl, fun _ => rfl⟩

theorem store (h : self.Ok) (hi : index < self.size) (value : Option α) (cursor : ℕ)
    (hc : cursor ≤ self.size) : ∃ values, GrowableArray.store self.values index value = .ok values ∧
      ({ self with values, cursor } : GrowableArray α).Ok ∧
      ∀ i, Slots.get values i = if i = index then value else Slots.get self.values i := by
  have hlt : index < self.values.length := h.block ▸ hi
  refine ⟨_, store_of_lt hlt, ⟨?_, h.bounded, hc⟩, fun i => get_set hlt⟩
  rw [List.length_set, h.block]

theorem push (h : self.Ok) (hroom : self.cursor = self.size →
    0 < self.growStep ∧ self.size + self.growStep < 2 ^ 61) (value : Option α) :
    Outcome (· = .assertion) (fun t => t.Ok ∧ t.cursor = self.cursor + 1 ∧ ∀ i,
      Slots.get t.values i = if i = self.cursor then value else Slots.get self.values i)
      (self.arrayPush allocates value) := by
  have hle := h.cursor_le
  unfold arrayPush
  refine (h.reserve self.cursor ?_ ?_).bind ?_
  · intro hf
    have hne : self.cursor ≠ self.size := by simpa [arrayIsFull] using hf
    omega
  · intro hf
    have heq : self.cursor = self.size := by simpa [arrayIsFull] using hf
    obtain ⟨hpos, hlt⟩ := hroom heq
    unfold sizeAdd
    omega
  · rintro t ⟨ht, hi, hc, hget⟩
    rw [← hc] at hi
    obtain ⟨values, hs, hok, hvalues⟩ := ht.store hi value (t.cursor + 1) (Nat.succ_le_of_lt hi)
    rw [hs]
    refine ⟨hok, congrArg (· + 1) hc, fun i => ?_⟩
    rw [hvalues, hget, hc]

theorem set (h : self.Ok) (hroom : self.size ≤ index →
    0 < self.growStep ∧ index + self.growStep < 2 ^ 61) (value : Option α) :
    Outcome (· = .assertion) (fun t => t.Ok ∧ t.cursor = max (index + 1) self.cursor ∧ ∀ i,
      Slots.get t.values i = if i = index then value else Slots.get self.values i)
      (self.arraySet allocates index value) := by
  unfold arraySet
  refine (h.reserve index not_le.mp ?_).bind ?_
  · intro hf
    obtain ⟨hpos, hlt⟩ := hroom hf
    unfold sizeAdd
    omega
  · rintro t ⟨ht, hi, hc, hget⟩
    have hmax : (if t.cursor ≤ index then index + 1 else t.cursor) =
        max (index + 1) self.cursor := by
      rw [hc]
      split <;> omega
    have hcursor := ht.cursor_le
    obtain ⟨values, hs, hok, hvalues⟩ := ht.store hi value
      (if t.cursor ≤ index then index + 1 else t.cursor) (by split <;> omega)
    rw [hs]
    refine ⟨hok, hmax, fun i => ?_⟩
    rw [hvalues, hget]

theorem pop (h : self.Ok) : Outcome (· = .assertion)
    (fun p => p.1.Ok ∧ p.1.cursor = self.cursor - 1 ∧ 0 < self.cursor ∧
      p.2 = Slots.get self.values (self.cursor - 1) ∧ ∀ i,
      Slots.get p.1.values i = if i + 1 = self.cursor then none else Slots.get self.values i)
      self.arrayPop := by
  have hle := h.cursor_le
  unfold arrayPop
  split
  · exact rfl
  · have hi : self.cursor - 1 < self.size := by omega
    obtain ⟨values, hs, hok, hvalues⟩ := h.store hi none (self.cursor - 1) (by omega)
    simp only [load_of_lt (h.block ▸ hi), hs, Outcome.ok_bind]
    refine ⟨hok, rfl, by omega, rfl, fun i => ?_⟩
    rw [hvalues]
    exact if_congr (by omega) rfl rfl

theorem get (h : self.Ok) : self.arrayGet index = .ok (Slots.get self.values index) := by
  unfold arrayGet
  split
  · rw [get_of_le (h.block ▸ ‹_›)]
  · exact load_of_lt (h.block ▸ not_le.mp ‹_›)

theorem pick (h : self.Ok) {backIndex : ℕ} (hb : backIndex < self.cursor) :
    self.arrayPick backIndex = .ok (Slots.get self.values (self.cursor - 1 - backIndex)) := by
  rw [arrayPick, if_pos hb, h.get]

theorem purgeSlot (h : self.Ok) (hi : i < self.size) : Outcome (· = .assertion)
    (fun t => t.Ok ∧ t.size = self.size ∧
      ∀ j, Slots.get t.values j = if j = i then none else Slots.get self.values j)
      (self.purgeSlot allocates i) := by
  have hle := h.cursor_le
  unfold GrowableArray.purgeSlot
  rw [h.get, Outcome.ok_bind]
  cases hv : Slots.get self.values i with
  | none =>
    refine ⟨h, rfl, fun j => ?_⟩
    split
    · rw [‹j = i›, hv]
    · rfl
  | some value =>
    obtain ⟨values, hs, hok, hvalues⟩ := h.store hi none
      (if self.cursor ≤ i then i + 1 else self.cursor) (by split <;> omega)
    simp only [arraySet, if_neg (not_le.mpr hi), Outcome.ok_bind, hs]
    exact ⟨⟨hok.block, hok.bounded, hok.cursor_le⟩, rfl, hvalues⟩

theorem purgeSlots (h : self.Ok) (hn : n ≤ self.size) : Outcome (· = .assertion)
    (fun t => t.Ok ∧ t.size = self.size ∧
      ∀ j, Slots.get t.values j = if j < n then none else Slots.get self.values j)
      ((List.range n).foldlM (GrowableArray.purgeSlot allocates) self) := by
  induction n with
  | zero => exact ⟨h, rfl, fun j => (if_neg (Nat.not_lt_zero j)).symm⟩
  | succ n ih =>
    rw [List.range_succ, List.foldlM_append]
    refine (ih (Nat.le_of_succ_le hn)).bind ?_
    rintro t ⟨ht, hsize, hget⟩
    rw [List.foldlM_cons]
    refine (ht.purgeSlot (hsize ▸ hn)).bind ?_
    rintro u ⟨hu, hsize', hget'⟩
    refine ⟨hu, hsize'.trans hsize, fun j => ?_⟩
    rw [hget', hget]
    split_ifs <;> first | rfl | omega

theorem purge (h : self.Ok) : Outcome (· = .assertion)
    (fun t => t.Ok ∧ t.cursor = 0 ∧ ∀ i, Slots.get t.values i = none)
      (self.arrayPurge allocates) := by
  have hblock := h.block
  unfold arrayPurge
  split
  · refine (h.purgeSlots le_rfl).bind ?_
    rintro t ⟨ht, hsize, hget⟩
    refine ⟨⟨ht.block, ht.bounded, Nat.zero_le _⟩, rfl, fun i => ?_⟩
    rw [hget]
    split
    · rfl
    · exact get_of_le (by omega)
  · rw [bytes_div h.bounded]
    have hroom : 0 + self.size ≤ self.values.length := by omega
    obtain ⟨block, hb, hlength, hget⟩ := memoryClear_spec hroom
    rw [hb]
    refine ⟨⟨hlength.trans h.block, h.bounded, Nat.zero_le _⟩, rfl, fun i => ?_⟩
    refine (hget i).trans ?_
    split
    · rfl
    · exact get_of_le (by omega)

end Ok

/-! ### Runs -/

/-- The call does not grow the array by a step of zero, nor to more slots than have bytes that
`size_t` can count. -/
def HasRoom (self : GrowableArray α) : Call α → Prop
  | .resize largerSize => largerSize < 2 ^ 61
  | .push _ => self.cursor = self.size → 0 < self.growStep ∧ self.size + self.growStep < 2 ^ 61
  | .set index _ => self.size ≤ index → 0 < self.growStep ∧ index + self.growStep < 2 ^ 61
  | _ => True

/-- What the calls tell about the array -/
structure Holds (calls : List (Call α)) (array : GrowableArray α) : Prop where
  ok : array.Ok
  length : array.cursor = lengthOf calls
  get : ∀ i, Slots.get array.values i = lastWritten i calls

theorem Holds.call (h : Holds calls self) (hc : self.HasRoom c) :
    Outcome (· = .assertion) (fun p => Holds (c :: calls) p.1) (self.call allocates c) := by
  cases c with
  | setDestroyFn destroyFn => exact ⟨⟨h.ok.block, h.ok.bounded, h.ok.cursor_le⟩, h.length, h.get⟩
  | setGrowStep growStep => exact ⟨⟨h.ok.block, h.ok.bounded, h.ok.cursor_le⟩, h.length, h.get⟩
  | resize largerSize =>
    refine (h.ok.resize hc).bind ?_
    rintro t ⟨ht, -, hcursor, hget⟩
    exact ⟨ht, hcursor.trans h.length, fun i => (hget i).trans (h.get i)⟩
  | pop =>
    refine h.ok.pop.mono ?_
    rintro p ⟨hp, hcursor, -, -, hget⟩
    refine ⟨hp, by rw [hcursor, h.length]; rfl, fun i => ?_⟩
    rw [hget, h.get, h.length]
    rfl
  | push value =>
    refine (h.ok.push hc value).bind ?_
    rintro t ⟨ht, hcursor, hget⟩
    refine ⟨ht, by rw [hcursor, h.length]; rfl, fun i => ?_⟩
    rw [hget, h.get, h.length]
    rfl
  | get index =>
    refine Outcome.bind (P := fun _ => True) ?_ fun _ _ => ⟨h.ok, h.length, h.get⟩
    rw [h.ok.get]
    trivial
  | pick backIndex =>
    refine Outcome.bind (P := fun _ => True) ?_ fun _ _ => ⟨h.ok, h.length, h.get⟩
    by_cases hb : backIndex < self.cursor
    · rw [h.ok.pick hb]
      trivial
    · rw [arrayPick, if_neg hb]
      exact rfl
  | set index value =>
    refine (h.ok.set hc value).bind ?_
    rintro t ⟨ht, hcursor, hget⟩
    refine ⟨ht, by rw [hcursor, h.length]; rfl, fun i => ?_⟩
    rw [hget, h.get]
    rfl
  | purge =>
    refine h.ok.purge.bind ?_
    rintro t ⟨ht, hcursor, hget⟩
    exact ⟨ht, hcursor, hget⟩

/-- The array after calls that meet a condition, none of which has failed. The last call comes
first. -/
inductive Runs (allocates : ℕ → Bool) (C : GrowableArray α → Call α → Prop) (size : ℕ) :
    List (Call α) → GrowableArray α → Prop
  | new {array : GrowableArray α} (h : arrayNew allocates size = .ok array) :
      Runs allocates C size [] array
  | call {calls : List (Call α)} {array next : GrowableArray α} {c : Call α} {value : Option α}
      (h : Runs allocates C size calls array) (hc : C array c)
      (hn : array.call allocates c = .ok (next, value)) : Runs allocates C size (c :: calls) next

theorem Runs.holds (hsize : size < 2 ^ 61) (h : Runs allocates HasRoom size calls self) :
    Holds calls self := by
  induction h with
  | new h =>
    obtain ⟨hok, hcursor, hget⟩ := (Ok.new hsize).of_ok h
    exact ⟨hok, hcursor, hget⟩
  | call _ hc hn ih => exact (ih.call hc).of_ok hn

/-- What is said about the block of an array after the calls, where the condition `C` is the one
on the next call. -/
structure InBlock (allocates : ℕ → Bool) (C : GrowableArray α → Call α → Prop)
    (calls : List (Call α)) (array : GrowableArray α) : Prop where
  /-- Every read or write of a slot is one of the block, which has the slots below the size. -/
  inside : array.values.length = array.size ∧ ∀ c, C array c → ∀ index,
    array.call allocates c ≠ .error (.outside index)
  get : ∀ i, array.arrayGet i = .ok (lastWritten i calls)
  null : ∀ i, array.cursor ≤ i → i < array.size → array.values[i]? = some none

/-- The length is one more than the largest index that stands. -/
def LengthStands (calls : List (Call α)) (array : GrowableArray α) : Prop :=
  ∀ i, i < array.arrayLength ↔ ∃ j, i ≤ j ∧ Stands j calls

theorem Holds.inBlock (h : Holds calls self) : InBlock allocates HasRoom calls self where
  inside := by
    refine ⟨h.ok.block, fun c hc index he => ?_⟩
    cases (h.call hc).of_error he
  get i := by rw [h.ok.get, h.get]
  null i hc hi := by
    have hnone : Slots.get self.values i = none := by
      rw [h.get]
      exact lastWritten_of_le (h.length ▸ hc)
    have hlt : i < self.values.length := h.ok.block ▸ hi
    simpa [Slots.get, hlt] using hnone

theorem Holds.lengthStands (h : Holds calls self) (htop : TopStands calls) :
    LengthStands calls self := by
  intro i
  rw [arrayLength, h.length]
  constructor
  · intro hi
    exact ⟨_, Nat.le_sub_one_of_lt hi, htop.resolve_left (by omega)⟩
  · rintro ⟨j, hij, hj⟩
    exact hij.trans_lt (lt_of_stands hj)

/-- As long as no call grows the array by a step of zero, nor to more slots than `size_t` can count
the bytes of, every access is one of the block, and the slots hold what was written last. -/
theorem runs_inBlock (hsize : size < 2 ^ 61) (h : Runs allocates HasRoom size calls self) :
    InBlock allocates HasRoom calls self ∧ self.arrayLength = lengthOf calls ∧
      (NoneUncovered calls → LengthStands calls self) := by
  have hh := h.holds hsize
  exact ⟨hh.inBlock, hh.length, fun hn => hh.lengthStands (topStands_of_noneUncovered hn)⟩

/-- Three slots, of which the fourth and the fifth are added -/
theorem runs_inBlock_three : ∃ array : GrowableArray ℕ,
    InBlock (fun _ => true) HasRoom [.pop, .set 3 (some 7), .set 4 (some 5)] array ∧
      array.arrayLength = 4 ∧ LengthStands [.pop, .set 3 (some 7), .set 4 (some 5)] array := by
  have h : Runs (fun _ => true) HasRoom 3 [.pop, .set 3 (some 7), .set 4 (some 5)]
      (⟨7, 3, 4, [none, none, none, some 7, none, none, none], false, []⟩ : GrowableArray ℕ) := by
    refine .call (.call (.call (.new rfl) ?_ rfl) ?_ rfl) trivial rfl
    · exact fun _ => ⟨by decide, by decide⟩
    · exact fun h => absurd h (by decide)
  obtain ⟨hb, hl, hs⟩ := runs_inBlock (by decide) h
  exact ⟨_, hb, hl, hs ⟨.inr ⟨by decide, .inl rfl⟩, trivial⟩⟩

def Always (_ : GrowableArray α) (_ : Call α) : Prop := True

/-- A push grows a full array by nothing; the sum of an index and the step is no more than the size;
the bytes of the block are counted as none; a pop comes down to a slot that has been skipped. -/
theorem not_inBlock :
    (∃ array : GrowableArray ℕ,
      Runs (fun _ => true) Always 1 [.push (some 5), .setGrowStep 0] array ∧
        ¬ InBlock (fun _ => true) Always [.push (some 5), .setGrowStep 0] array) ∧
    (∃ array : GrowableArray ℕ, Runs (fun _ => true) Always 1 [.setGrowStep 2] array ∧
      ¬ InBlock (fun _ => true) Always [.setGrowStep 2] array) ∧
    (∃ array : GrowableArray ℕ, Runs (fun _ => true) Always (2 ^ 61) [] array ∧
      ¬ InBlock (fun _ => true) Always [] array) ∧
    ∃ array : GrowableArray ℕ,
      Runs (fun _ => true) Always 3 [.set 1 (some 7), .pop, .set 4 (some 5)] array ∧
        ¬ LengthStands [.set 1 (some 7), .pop, .set 4 (some 5)] array := by
  refine ⟨⟨_, .call (.call (.new rfl) trivial rfl) trivial rfl, ?_⟩,
    ⟨_, .call (.new rfl) trivial rfl, ?_⟩, ⟨_, .new rfl, ?_⟩,
    ⟨_, .call (.call (.call (.new rfl) trivial rfl) trivial rfl) trivial rfl, ?_⟩⟩
  · exact fun h => h.inside.2 (.push (some 6)) trivial 1 rfl
  · exact fun h => h.inside.2 (.set (2 ^ 64 - 1) (some 6)) trivial (2 ^ 64 - 1) rfl
  · exact fun h => h.inside.2 (.push (some 6)) trivial 0 rfl
  · intro h
    obtain ⟨j, hj, hs⟩ := (h 3).mp (by decide)
    rcases hs with rfl | ⟨hlt, rfl | hs⟩
    · exact absurd hj (by decide)
    · exact absurd hlt (by decide)
    · exact hs

end InetLisp.GrowableArray
