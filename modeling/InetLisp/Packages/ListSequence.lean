import InetLisp.Packages.List
import Mathlib.Data.List.InsertIdx
import Mathlib.Data.List.Nodup

/-! # Lists as sequences

A sequence of values with an index is what a list stands for. Each call changes the list as it
changes the sequence, and the nodes of the list are all that it leaves in memory.
-/

namespace InetLisp

open Lib.Linked

universe u

variable {P A : Type u}

/-- Values, the index of the one at the cursor, and those that were destroyed. -/
structure Sequence (A : Type*) where
  values : List (Option A)
  cursor : Option ℕ
  destroyed : List (Option A)

namespace Sequence

def new : Sequence A := ⟨[], none, []⟩

/-- The value at the cursor; beside the values there is `NULL`. -/
def current (self : Sequence A) : Option A := (self.cursor.bind (self.values[·]?)).join

/-- The index of the first value; without values the cursor is nowhere. -/
def start (self : Sequence A) : Option ℕ := if self.values = [] then none else some 0

def stop (self : Sequence A) : Option ℕ :=
  if self.values = [] then none else some (self.values.length - 1)

/-- The cursor after the value at an index is taken out -/
def without (cursor : Option ℕ) (index : ℕ) : Option ℕ :=
  match cursor with
  | none => none
  | some i => if i = index then none else if index < i then some (i - 1) else some i

def moveTo (self : Sequence A) (cursor : Option ℕ) : Sequence A × Returned A :=
  ({ self with cursor }, .value { self with cursor }.current)

variable {self : Sequence A} {values destroyed : List (Option A)}

theorem moveTo_some {i : ℕ} (h : i < self.values.length) :
    self.moveTo (some i) = ({ self with cursor := some i }, .value self.values[i]) := by
  simp only [moveTo, current, Option.bind_some, List.getElem?_eq_getElem h, Option.join_some]

variable [DecidableEq A]

def call (callbacks : Callbacks A) (self : Sequence A) : Call P A → Sequence A × Returned A
  | .push _ value => ({ self with values := self.values ++ [value] }, .void)
  | .pop =>
    ({ self with
      values := self.values.dropLast
      cursor := without self.cursor (self.values.length - 1) }, .value self.values.getLast?.join)
  | .unshift _ value =>
    ({ self with values := value :: self.values, cursor := self.cursor.map (· + 1) }, .void)
  | .shift =>
    ({ self with values := self.values.tail, cursor := without self.cursor 0 },
      .value self.values.head?.join)
  | .remove value => match self.values.findIdx? (callbacks.equal · value) with
    | none => (self, .bool false)
    | some index =>
      ({ values := self.values.eraseIdx index
         cursor := without self.cursor index
         destroyed := self.destroyed ++
          if callbacks.destroyFn then self.values[index]?.toList else [] }, .bool true)
  | .find value => match self.values.findIdx? (callbacks.equal · value) with
    | none => ({ self with cursor := self.start }, .value none)
    | some index => self.moveTo (some index)
  | .purge =>
    ({ values := [], cursor := none, destroyed := self.destroyed ++
      if callbacks.destroyFn then self.values else [] }, .void)
  | .first => self.moveTo self.start
  | .next => self.moveTo (match self.cursor with
    | none => self.start
    | some i => if i + 1 < self.values.length then some (i + 1) else none)
  | .prev => self.moveTo (match self.cursor with
    | none => self.stop
    | some 0 => none
    | some (i + 1) => some i)
  | .last => self.moveTo self.stop

def run (callbacks : Callbacks A) : Sequence A → List (Call P A) → Sequence A × List (Returned A)
  | self, [] => (self, [])
  | self, c :: calls =>
    let (self, returned) := self.call callbacks c
    let (self, rest) := run callbacks self calls
    (self, returned :: rest)

variable {callbacks : Callbacks A}

theorem run_cons {c : Call P A} {calls : List (Call P A)} {self' : Sequence A}
    {returned : Returned A} (h : self.call callbacks c = (self', returned)) :
    self.run callbacks (c :: calls) =
      ((self'.run callbacks calls).1, returned :: (self'.run callbacks calls).2) := by
  rw [run, h]

theorem run_next_of_some (P : Type u) {i : ℕ} (k : ℕ) (hk : values.length = i + k + 1) :
    run callbacks ⟨values, some i, destroyed⟩ (List.replicate (k + 1) (Call.next : Call P A)) =
      (⟨values, none, destroyed⟩, (values.drop (i + 1)).map .value ++ [.value none]) := by
  induction k generalizing i with
  | zero =>
    have hge : ¬ i + 1 < values.length := by omega
    have hcall : call callbacks ⟨values, some i, destroyed⟩ (Call.next : Call P A) =
        (⟨values, none, destroyed⟩, .value none) := by
      simp only [call, if_neg hge]
      rfl
    rw [List.replicate_succ, run_cons hcall, List.drop_eq_nil_of_le (by omega)]
    rfl
  | succ k ih =>
    have hlt : i + 1 < values.length := by omega
    have hcall : call callbacks ⟨values, some i, destroyed⟩ (Call.next : Call P A) =
        (⟨values, some (i + 1), destroyed⟩, .value values[i + 1]) := by
      simp only [call, if_pos hlt]
      exact moveTo_some hlt
    rw [List.replicate_succ, run_cons hcall, ih (by omega), List.drop_eq_getElem_cons hlt]
    rfl

/-- From beside the values, the next ones are all of them, and then the cursor is there again. -/
theorem run_next (P : Type u) (h : self.cursor = none) :
    self.run callbacks (List.replicate (self.values.length + 1) (Call.next : Call P A)) =
      (self, self.values.map .value ++ [.value none]) := by
  obtain ⟨values, cursor, destroyed⟩ := self
  obtain rfl : cursor = none := h
  cases values with
  | nil => rfl
  | cons value values =>
    have hcall : call callbacks ⟨value :: values, none, destroyed⟩ (Call.next : Call P A) =
        (⟨value :: values, some 0, destroyed⟩, .value value) := rfl
    have hlen : (value :: values).length = 0 + values.length + 1 := by
      rw [List.length_cons, Nat.zero_add]
    rw [List.replicate_succ, run_cons hcall, List.length_cons, run_next_of_some P _ hlen]
    rfl

theorem run_prev_of_some (P : Type u) {i : ℕ} (hi : i < values.length) :
    run callbacks ⟨values, some i, destroyed⟩ (List.replicate (i + 1) (Call.prev : Call P A)) =
      (⟨values, none, destroyed⟩, (values.take i).reverse.map .value ++ [.value none]) := by
  induction i with
  | zero => rfl
  | succ i ih =>
    have hlt : i < values.length := Nat.lt_of_succ_lt hi
    have hcall : call callbacks ⟨values, some (i + 1), destroyed⟩ (Call.prev : Call P A) =
        (⟨values, some i, destroyed⟩, .value values[i]) := moveTo_some hlt
    rw [List.replicate_succ, run_cons hcall, ih hlt, List.take_add_one,
      List.getElem?_eq_getElem hlt, Option.toList_some, List.reverse_append]
    rfl

theorem run_prev (P : Type u) (h : self.cursor = none) :
    self.run callbacks (List.replicate (self.values.length + 1) (Call.prev : Call P A)) =
      (self, self.values.reverse.map .value ++ [.value none]) := by
  obtain ⟨values, cursor, destroyed⟩ := self
  obtain rfl : cursor = none := h
  rcases List.eq_nil_or_concat values with rfl | ⟨values, value, rfl⟩
  · rfl
  · rw [List.concat_eq_append]
    have hlt : values.length < (values ++ [value]).length := by
      rw [List.length_append]
      exact Nat.lt_succ_self _
    have hstop : stop ⟨values ++ [value], none, destroyed⟩ = some values.length := by
      simp [stop]
    have hcall : call callbacks ⟨values ++ [value], none, destroyed⟩ (Call.prev : Call P A) =
        (⟨values ++ [value], some values.length, destroyed⟩, .value value) := by
      simp only [call, hstop]
      refine (moveTo_some hlt).trans ?_
      rw [List.getElem_concat_length rfl]
    rw [List.replicate_succ, run_cons hcall, List.length_append, List.length_singleton,
      run_prev_of_some P hlt, List.take_left, List.reverse_append]
    rfl

/-- From beside the values, the cursor passes all of them in either direction and is there again. -/
def StepsThrough (callbacks : Callbacks A) (P : Type u) (self : Sequence A) : Prop :=
  self.cursor = none →
    self.run callbacks (List.replicate (self.values.length + 1) (Call.next : Call P A)) =
      (self, self.values.map .value ++ [.value none]) ∧
    self.run callbacks (List.replicate (self.values.length + 1) (Call.prev : Call P A)) =
      (self, self.values.reverse.map .value ++ [.value none])

end Sequence

variable {callbacks : Callbacks A} {heap₀ : Heap P (Option A)} {self : LinkedList P A}
  {ref : Sequence A} {l : List (P × Option A)} {node p : P} {value v : Option A} {k : ℕ}

namespace LinkedList

def nodeAt (l : List (P × Option A)) (index : Option ℕ) : Option P :=
  index.bind fun i => l[i]?.map Prod.fst

/-- The nodes of the list carry the values of the sequence; beside them, the memory is as it was
at first. -/
structure Holds (heap₀ : Heap P (Option A)) (list : LinkedList P A) (ref : Sequence A)
    (l : List (P × Option A)) : Prop where
  nodup : (l.map Prod.fst).Nodup
  segment : Segment list.heap none l none
  first : list.first = headOr l none
  last : list.last = lastOr none l
  length : list.length = l.length
  values : ref.values = l.map Prod.snd
  cursor : list.cursor = nodeAt l ref.cursor
  bound : ∀ i, ref.cursor = some i → i < l.length
  destroyed : list.destroyed = ref.destroyed
  frame : ∀ p ∉ l.map Prod.fst, list.heap p = heap₀ p
  free : ∀ p ∈ l.map Prod.fst, heap₀ p = none

theorem Holds.new (heap₀ : Heap P (Option A)) : Holds heap₀ (new heap₀) Sequence.new [] :=
  ⟨List.nodup_nil, trivial, rfl, rfl, rfl, rfl, rfl, nofun, rfl, fun _ _ => rfl, nofun⟩

theorem nodeAt_some (h : l[k]? = some (p, v)) : nodeAt l (some k) = some p := by
  rw [nodeAt, Option.bind_some, h]
  rfl

theorem nodeAt_append {cursor : Option ℕ} (hb : ∀ i, cursor = some i → i < l.length)
    (a : P × Option A) : nodeAt (l ++ [a]) cursor = nodeAt l cursor := by
  cases cursor with
  | none => rfl
  | some i => rw [nodeAt, Option.bind_some, List.getElem?_append_left (hb i rfl), nodeAt,
      Option.bind_some]

theorem nodeAt_cons (a : P × Option A) (l : List (P × Option A)) (cursor : Option ℕ) :
    nodeAt (a :: l) (cursor.map (· + 1)) = nodeAt l cursor := by
  cases cursor <;> rfl

theorem Holds.start (h : Holds heap₀ self ref l) : self.first = nodeAt l ref.start := by
  rw [h.first, headOr_eq, Sequence.start, h.values]
  cases l <;> rfl

theorem Holds.stop (h : Holds heap₀ self ref l) : self.last = nodeAt l ref.stop := by
  rw [h.last, lastOr_eq, Sequence.stop, h.values, List.length_map]
  cases l <;> rfl

theorem Holds.moveTo (h : Holds heap₀ self ref l) {index : Option ℕ}
    (hb : ∀ i, index = some i → i < l.length) : ∃ self' value,
      self.moveTo (nodeAt l index) = some (self', value) ∧ (ref.moveTo index).2 = .value value ∧
        Holds heap₀ self' (ref.moveTo index).1 l := by
  have hh (self' : LinkedList P A) (hs : self' = { self with cursor := nodeAt l index }) :
      Holds heap₀ self' (ref.moveTo index).1 l := by
    subst hs
    exact { h with cursor := rfl, bound := hb }
  cases index with
  | none => exact ⟨_, none, rfl, rfl, hh _ rfl⟩
  | some i =>
    obtain ⟨⟨p, v⟩, hi⟩ : ∃ a, l[i]? = some a := ⟨_, List.getElem?_eq_getElem (hb i rfl)⟩
    refine ⟨_, v, ?_, ?_, hh _ rfl⟩
    · simp only [LinkedList.moveTo, listCurrent, nodeAt_some hi, h.segment.getElem? hi,
        Option.map_some, bind, Option.bind, pure]
    · simp only [Sequence.moveTo, Sequence.current, h.values, Option.bind_some, List.getElem?_map,
        hi, Option.map_some, Option.join_some]

theorem Holds.nil (h : Holds heap₀ self ref []) : ∃ heap destroyed,
    self = ⟨none, none, none, 0, heap, destroyed⟩ ∧ ref = ⟨[], none, destroyed⟩ := by
  obtain ⟨first, last, cursor, length, heap, destroyed⟩ := self
  obtain ⟨values, index, destroyed'⟩ := ref
  obtain rfl : index = none := by
    cases index with
    | none => rfl
    | some i => exact absurd (h.bound i rfl) (Nat.not_lt_zero i)
  obtain rfl : first = none := h.first
  obtain rfl : last = none := h.last
  obtain rfl : cursor = none := h.cursor
  obtain rfl : length = 0 := h.length
  obtain rfl : values = [] := h.values
  obtain rfl : destroyed = destroyed' := h.destroyed
  exact ⟨heap, destroyed, rfl, rfl⟩

theorem Holds.start_lt (h : Holds heap₀ self ref l) {i : ℕ} (hi : ref.start = some i) :
    i < l.length := by
  rw [Sequence.start, h.values] at hi
  split at hi
  · cases hi
  · rename_i hne
    cases hi
    exact List.length_pos_iff.mpr fun hl => hne (hl ▸ rfl)

theorem Holds.stop_lt (h : Holds heap₀ self ref l) {i : ℕ} (hi : ref.stop = some i) :
    i < l.length := by
  rw [Sequence.stop, h.values, List.length_map] at hi
  split at hi
  · cases hi
  · rename_i hne
    cases hi
    have hpos : 0 < l.length := List.length_pos_iff.mpr fun hl => hne (hl ▸ rfl)
    omega

theorem Holds.cursor_some (h : Holds heap₀ self ref l) {i : ℕ} (hi : ref.cursor = some i) :
    ∃ p v, l[i]? = some (p, v) ∧ self.cursor = some p ∧
      self.heap p = some ⟨lastOr none (l.take i), l[i + 1]?.map Prod.fst, v⟩ := by
  obtain ⟨⟨p, v⟩, hl⟩ : ∃ a, l[i]? = some a := ⟨_, List.getElem?_eq_getElem (h.bound i hi)⟩
  have hc := h.cursor
  rw [hi, nodeAt_some hl] at hc
  exact ⟨p, v, hl, hc, h.segment.getElem? hl⟩

theorem Holds.cursor_none (h : Holds heap₀ self ref l) (hi : ref.cursor = none) :
    self.cursor = none := by
  rw [h.cursor, hi]
  rfl

theorem without_lt {cursor : Option ℕ} (hb : ∀ i, cursor = some i → i < l.length) {i : ℕ}
    (hi : Sequence.without cursor k = some i) : i < (l.eraseIdx k).length := by
  unfold Sequence.without at hi
  split at hi
  · cases hi
  · rename_i j
    have hj := hb j rfl
    split at hi
    · cases hi
    · split at hi
      · cases hi
        rw [List.length_eraseIdx_of_lt (by omega)]
        omega
      · cases hi
        rw [List.length_eraseIdx]
        split <;> omega

theorem Holds.exists_node (h : Holds heap₀ self ref l) {P : Option A → Bool}
    (hk : ref.values.findIdx? P = some k) : ∃ p v, l[k]? = some (p, v) := by
  rw [h.values, List.findIdx?_eq_some_iff_getElem] at hk
  obtain ⟨hlt, -⟩ := hk
  rw [List.length_map] at hlt
  exact ⟨_, _, List.getElem?_eq_getElem hlt⟩

theorem Holds.not_mem (h : Holds heap₀ self ref l) (hn : self.heap node = none) :
    node ∉ l.map Prod.fst := by
  intro hm
  obtain ⟨⟨p, v⟩, ha, rfl⟩ := List.mem_map.mp hm
  obtain ⟨i, hi⟩ := List.getElem?_of_mem ha
  have hp := h.segment.getElem? hi
  rw [hn] at hp
  cases hp

theorem Holds.link {self' : LinkedList P A} {ref' : Sequence A} {l' : List (P × Option A)}
    (h : Holds heap₀ self ref l) (hn : self.heap node = none)
    (hl : (l'.map Prod.fst).Perm (node :: l.map Prod.fst))
    (segment : Segment self'.heap none l' none) (first : self'.first = headOr l' none)
    (last : self'.last = lastOr none l') (length : self'.length = self.length + 1)
    (values : ref'.values = l'.map Prod.snd) (cursor : self'.cursor = nodeAt l' ref'.cursor)
    (bound : ∀ i, ref'.cursor = some i → i < l'.length)
    (destroyed : self'.destroyed = ref'.destroyed)
    (hf : ∀ q, q ≠ node → q ∉ l.map Prod.fst → self'.heap q = self.heap q) :
    Holds heap₀ self' ref' l' := by
  have hnot := h.not_mem hn
  refine ⟨hl.nodup_iff.mpr (List.nodup_cons.mpr ⟨hnot, h.nodup⟩), segment, first, last, ?_, values,
    cursor, bound, destroyed, fun q hq => ?_, fun q hq => ?_⟩
  · have hlen := hl.length_eq
    rw [List.length_map, List.length_cons, List.length_map] at hlen
    rw [length, h.length, hlen]
  · rw [hl.mem_iff, List.mem_cons, not_or] at hq
    rw [hf q hq.1 hq.2, h.frame q hq.2]
  · rcases List.mem_cons.mp (hl.mem_iff.mp hq) with rfl | hq
    · rw [← h.frame q hnot, hn]
    · exact h.free q hq

/-- Both chains of the list spell the values of the sequence, and its cursor is `NULL` or the node
at the index; the memory beside the nodes is as it was at first. -/
structure Spells (heap₀ : Heap P (Option A)) (list : LinkedList P A) (ref : Sequence A)
    (nodes : List (P × Option A)) : Prop where
  next : Follows list.heap Cell.next list.first nodes
  prev : Follows list.heap Cell.prev list.last nodes.reverse
  values : nodes.map Prod.snd = ref.values
  length : list.length = ref.values.length
  cursor : list.cursor = none ∧ ref.cursor = none ∨
    ∃ i p v, ref.cursor = some i ∧ nodes[i]? = some (p, v) ∧ list.cursor = some p
  destroyed : list.destroyed = ref.destroyed
  frame : ∀ p ∉ nodes.map Prod.fst, list.heap p = heap₀ p

theorem Holds.spells (h : Holds heap₀ self ref l) : Spells heap₀ self ref l := by
  refine ⟨h.first ▸ h.segment.follows_next, h.last ▸ h.segment.follows_prev, h.values.symm, ?_, ?_,
    h.destroyed, h.frame⟩
  · rw [h.length, h.values, List.length_map]
  · cases hi : ref.cursor with
    | none => exact .inl ⟨h.cursor_none hi, rfl⟩
    | some i =>
      obtain ⟨p, v, hl, hc, -⟩ := h.cursor_some hi
      exact .inr ⟨i, p, v, rfl, hl, hc⟩

section Search

variable [DecidableEq A]

theorem search_segment {heap : Heap P (Option A)} {x : Option P}
    (h : Segment heap x l none) :
    search callbacks heap value l.length (headOr l none) =
      some (nodeAt l ((l.map Prod.snd).findIdx? (callbacks.equal · value))) := by
  induction l generalizing x with
  | nil => rfl
  | cons a l ih =>
    obtain ⟨p, v⟩ := a
    change search callbacks heap value (l.length + 1) (some p) = _
    simp only [search, h.1, bind, Option.bind, List.map_cons, List.findIdx?_cons]
    split
    · rfl
    · rw [ih h.2]
      cases (l.map Prod.snd).findIdx? (callbacks.equal · value) <;> rfl

theorem Holds.search (h : Holds heap₀ self ref l) (callbacks : Callbacks A) (value : Option A) :
    search callbacks self.heap value self.length self.first =
      some (nodeAt l (ref.values.findIdx? (callbacks.equal · value))) := by
  rw [h.length, h.first, h.values]
  exact search_segment h.segment

end Search

variable [DecidableEq P]

/-- The cursor leaves the node that is taken out, and it stays at any other. -/
theorem nodeAt_without (hd : (l.map Prod.fst).Nodup) (hk : l[k]? = some (p, v))
    {cursor : Option ℕ} (hb : ∀ i, cursor = some i → i < l.length) :
    (if nodeAt l cursor = some p then none else nodeAt l cursor) =
      nodeAt (l.eraseIdx k) (Sequence.without cursor k) := by
  cases cursor with
  | none => rfl
  | some i =>
    by_cases hik : i = k
    · subst hik
      rw [nodeAt_some hk, if_pos rfl, Sequence.without, if_pos rfl]
      rfl
    · obtain ⟨⟨q, w⟩, hi⟩ : ∃ a, l[i]? = some a := ⟨_, List.getElem?_eq_getElem (hb i rfl)⟩
      have hne : q ≠ p := by
        rintro rfl
        have hlt : k < (l.map Prod.fst).length := by
          rw [List.length_map]
          exact (List.getElem?_eq_some_iff.mp hk).1
        refine hik ((List.getElem?_inj hlt hd).mp ?_).symm
        rw [List.getElem?_map, List.getElem?_map, hk, hi]
        rfl
      rw [nodeAt_some hi, if_neg fun he => hne (Option.some.inj he), Sequence.without, if_neg hik]
      symm
      split
      · rename_i hlt
        obtain ⟨i, rfl⟩ := Nat.exists_eq_add_of_lt hlt
        refine nodeAt_some (v := w) ?_
        rwa [List.getElem?_eraseIdx_of_ge (by omega)]
      · refine nodeAt_some (v := w) ?_
        rwa [List.getElem?_eraseIdx_of_lt (by omega)]

theorem Holds.segment_alloc (h : Holds heap₀ self ref l) (hn : self.heap node = none)
    (value : Option A) :
    Segment (Function.update self.heap node (some ⟨none, none, value⟩)) none l none := by
  refine h.segment.congr fun q hq => Function.update_of_ne ?_ _ _
  rintro rfl
  exact h.not_mem hn hq

theorem purgeFrom_segment {heap : Heap P (Option A)} {x : Option P} (h : Segment heap x l none)
    (hd : (l.map Prod.fst).Nodup) (callbacks : Callbacks A) (destroyed : List (Option A)) :
    ∃ heap', purgeFrom callbacks l.length (headOr l none) heap destroyed =
        some (heap', destroyed ++ if callbacks.destroyFn then l.map Prod.snd else []) ∧
      (∀ p ∈ l.map Prod.fst, heap' p = none) ∧ ∀ p ∉ l.map Prod.fst, heap' p = heap p := by
  induction l generalizing heap x destroyed with
  | nil =>
    refine ⟨heap, ?_, nofun, fun _ _ => rfl⟩
    rw [List.map_nil, ite_self, List.append_nil]
    rfl
  | cons a l ih =>
    obtain ⟨p, v⟩ := a
    rw [List.map_cons, List.nodup_cons] at hd
    have hs : Segment (Function.update heap p none) (some p) l none := by
      refine h.2.congr fun q hq => Function.update_of_ne ?_ _ _
      rintro rfl
      exact hd.1 hq
    obtain ⟨heap', hpurge, hfree, hf⟩ :=
      ih hs hd.2 (if callbacks.destroyFn then destroyed ++ [v] else destroyed)
    refine ⟨heap', ?_, ?_, fun q hq => ?_⟩
    · change purgeFrom callbacks (l.length + 1) (some p) heap destroyed = _
      simp only [purgeFrom, h.1, bind, Option.bind, hpurge, List.map_cons]
      split <;> simp
    · rintro q (_ | ⟨_, hq⟩)
      · exact (hf p hd.1).trans (Function.update_self ..)
      · exact hfree q hq
    · rw [List.map_cons, List.mem_cons, not_or] at hq
      exact (hf q hq.2).trans (Function.update_of_ne hq.1 _ _)

/-- A list from which a node is taken out that is linked no more -/
def wipe (self : LinkedList P A) (node : P) (cell : Cell P (Option A))
    (heap : Heap P (Option A)) (destroyed : List (Option A)) : LinkedList P A where
  first := if self.first = some node then cell.next else self.first
  last := if self.last = some node then cell.prev else self.last
  cursor := if self.cursor = some node then none else self.cursor
  length := self.length - 1
  heap := Function.update heap node none
  destroyed := destroyed

theorem Holds.unlink (h : Holds heap₀ self ref l) (hk : l[k]? = some (p, v))
    (destroyed : List (Option A)) : ∃ cell heap₁ heap₂, self.heap p = some cell ∧
      cell.value = v ∧ cell.prev = lastOr none (l.take k) ∧
      cell.next = headOr (l.drop (k + 1)) none ∧
      setPrev self.heap cell.next cell.prev = some heap₁ ∧ heap₁ p = some cell ∧
      setNext heap₁ cell.prev cell.next = some heap₂ ∧ heap₂ p = some cell ∧
      Holds heap₀ (self.wipe p cell heap₂ destroyed)
        ⟨ref.values.eraseIdx k, Sequence.without ref.cursor k, destroyed⟩ (l.eraseIdx k) := by
  obtain ⟨hlt, he⟩ := List.getElem?_eq_some_iff.mp hk
  have hl : l.take k ++ (p, v) :: l.drop (k + 1) = l := by
    rw [← he, ← List.drop_eq_getElem_cons hlt, List.take_append_drop]
  have herase : l.eraseIdx k = l.take k ++ l.drop (k + 1) := List.eraseIdx_eq_take_drop_succ l k
  have hsub : ((l.eraseIdx k).map Prod.fst).Sublist (l.map Prod.fst) :=
    (List.eraseIdx_sublist l k).map Prod.fst
  have hmem (q : P) : q ∈ l.map Prod.fst ↔ q = p ∨ q ∈ (l.eraseIdx k).map Prod.fst := by
    have hmap : l.map Prod.fst = (l.take k ++ (p, v) :: l.drop (k + 1)).map Prod.fst := by rw [hl]
    rw [hmap, herase, List.map_append, List.map_append, List.map_cons, List.mem_append,
      List.mem_append, List.mem_cons]
    exact or_left_comm
  have hnodup := h.nodup
  rw [← hl] at hnodup
  obtain ⟨heap₁, heap₂, hp, h₁, hp₁, h₂, hp₂, hs, hf⟩ := (hl.symm ▸ h.segment).unlink hnodup
  rw [← herase] at hs hf
  rw [List.map_append, List.map_cons, List.nodup_append, List.nodup_cons] at hnodup
  obtain ⟨-, ⟨hpb, -⟩, hab⟩ := hnodup
  have hpa : p ∉ (l.take k).map Prod.fst := fun hm => hab p hm p List.mem_cons_self rfl
  refine ⟨_, heap₁, heap₂, hp, rfl, rfl, rfl, h₁, hp₁.trans hp, h₂, hp₂.trans hp, ?_⟩
  refine ⟨h.nodup.sublist hsub, hs, ?_, ?_, ?_, ?_, ?_, fun i => without_lt h.bound, rfl,
    fun q hq => ?_, fun q hq => h.free q (hsub.subset hq)⟩
  · have hunlink := headOr_unlink hpa v (l.drop (k + 1)) none
    rwa [hl, ← herase, ← h.first] at hunlink
  · have hunlink := lastOr_unlink hpb none (l.take k) v
    rwa [hl, ← herase, ← h.last] at hunlink
  · rw [List.length_eraseIdx_of_lt hlt, ← h.length]
    rfl
  · rw [h.values, List.eraseIdx_map]
  · have hcursor := nodeAt_without h.nodup hk h.bound
    rwa [← h.cursor] at hcursor
  · by_cases hqp : q = p
    · rw [hqp, h.free p ((hmem p).mpr (.inl rfl))]
      exact Function.update_self ..
    · have hql : q ∉ l.map Prod.fst := fun hm => ((hmem q).mp hm).elim hqp hq
      exact (Function.update_of_ne hqp _ _).trans ((hf q hq).trans (h.frame q hql))

variable [DecidableEq A]

/-- The list and the sequence return the same, and the new ones belong together. -/
def Agree (callbacks : Callbacks A) (heap₀ : Heap P (Option A)) (self : LinkedList P A)
    (ref : Sequence A) (c : Call P A) : Prop :=
  ∃ self' l', self.call callbacks c = some (self', (ref.call callbacks c).2) ∧
    Holds heap₀ self' (ref.call callbacks c).1 l'

theorem Holds.agree_moveTo (h : Holds heap₀ self ref l) {c : Call P A} (index : Option ℕ)
    (hb : ∀ i, index = some i → i < l.length)
    (hc : self.call callbacks c =
      (self.moveTo (nodeAt l index)).map fun (self, value) => (self, .value value))
    (hr : ref.call callbacks c = ref.moveTo index) : Agree callbacks heap₀ self ref c := by
  obtain ⟨self', value, hm, hv, hh⟩ := h.moveTo hb
  refine ⟨self', l, ?_, hr ▸ hh⟩
  rw [hc, hm, hr, hv]
  rfl

theorem Holds.agree_first (h : Holds heap₀ self ref l) : Agree callbacks heap₀ self ref .first :=
  h.agree_moveTo ref.start (fun _ => h.start_lt) (by rw [← h.start]; rfl) rfl

theorem Holds.agree_last (h : Holds heap₀ self ref l) : Agree callbacks heap₀ self ref .last :=
  h.agree_moveTo ref.stop (fun _ => h.stop_lt) (by rw [← h.stop]; rfl) rfl

theorem Holds.agree_next (h : Holds heap₀ self ref l) : Agree callbacks heap₀ self ref .next := by
  cases hi : ref.cursor with
  | none =>
    refine h.agree_moveTo ref.start (fun _ => h.start_lt) ?_ ?_
    · rw [← h.start, LinkedList.call, listNext, h.cursor_none hi]
    · rw [Sequence.call, hi]
  | some i =>
    obtain ⟨p, v, hl, hc, hp⟩ := h.cursor_some hi
    refine h.agree_moveTo (if i + 1 < l.length then some (i + 1) else none) ?_ ?_ ?_
    · intro j hj
      split at hj
      · cases hj
        assumption
      · cases hj
    · have hn : l[i + 1]?.map Prod.fst =
          nodeAt l (if i + 1 < l.length then some (i + 1) else none) := by
        split
        · rfl
        · rename_i hge
          rw [List.getElem?_eq_none (Nat.le_of_not_lt hge)]
          rfl
      rw [← hn, LinkedList.call, listNext, hc]
      simp only [hp, bind, Option.bind]
    · rw [Sequence.call, hi, h.values, List.length_map]

theorem Holds.agree_prev (h : Holds heap₀ self ref l) : Agree callbacks heap₀ self ref .prev := by
  cases hi : ref.cursor with
  | none =>
    refine h.agree_moveTo ref.stop (fun _ => h.stop_lt) ?_ ?_
    · rw [← h.stop, LinkedList.call, listPrev, h.cursor_none hi]
    · rw [Sequence.call, hi]
  | some i =>
    obtain ⟨p, v, hl, hc, hp⟩ := h.cursor_some hi
    cases i with
    | zero =>
      refine h.agree_moveTo none ?_ ?_ ?_
      · rintro _ ⟨⟩
      · rw [LinkedList.call, listPrev, hc]
        simp only [hp, bind, Option.bind]
        rfl
      · rw [Sequence.call, hi]
    | succ i =>
      have hlt := h.bound _ hi
      refine h.agree_moveTo (some i) ?_ ?_ ?_
      · rintro _ ⟨⟩
        exact Nat.lt_of_succ_lt hlt
      · have hn : lastOr none (l.take (i + 1)) = nodeAt l (some i) := by
          rw [lastOr_eq, List.length_take, Nat.min_eq_left (Nat.le_of_lt hlt), Nat.add_sub_cancel,
            List.getElem?_take_of_lt (Nat.lt_succ_self i)]
          rfl
        rw [← hn, LinkedList.call, listPrev, hc]
        simp only [hp, bind, Option.bind]
      · rw [Sequence.call, hi]

theorem Holds.agree_remove (h : Holds heap₀ self ref l) (value : Option A) :
    Agree callbacks heap₀ self ref (.remove value) := by
  have hsearch := h.search callbacks value
  cases hk : ref.values.findIdx? (callbacks.equal · value) with
  | none =>
    rw [hk] at hsearch
    refine ⟨self, l, ?_, ?_⟩
    · simp only [LinkedList.call, Sequence.call, listRemove, hsearch, hk]
      rfl
    · simpa only [Sequence.call, hk] using h
  | some k =>
    obtain ⟨p, v, hl⟩ := h.exists_node hk
    rw [hk, nodeAt_some hl] at hsearch
    obtain ⟨cell, heap₁, heap₂, hp, hv, -, -, h₁, hp₁, h₂, hp₂, hh⟩ := h.unlink hl
      (self.destroyed ++ if callbacks.destroyFn then [v] else [])
    have hd : (if callbacks.destroyFn then self.destroyed ++ [v] else self.destroyed) =
        self.destroyed ++ if callbacks.destroyFn then [v] else [] := by
      split
      · rfl
      · rw [List.append_nil]
    have hvalue : ref.values[k]? = some v := by
      rw [h.values, List.getElem?_map, hl]
      rfl
    refine ⟨self.wipe p cell heap₂ (self.destroyed ++ if callbacks.destroyFn then [v] else []),
      l.eraseIdx k, ?_, ?_⟩
    · simp only [LinkedList.call, Sequence.call, listRemove, hsearch, hk, hp, h₁, hp₁, h₂, hp₂, hv,
        bind, Option.bind, hd]
      rfl
    · simpa only [Sequence.call, hk, hvalue, Option.toList_some, ← h.destroyed] using hh

theorem Holds.agree_find (h : Holds heap₀ self ref l) (value : Option A) :
    Agree callbacks heap₀ self ref (.find value) := by
  have hsearch := h.search callbacks value
  cases hk : ref.values.findIdx? (callbacks.equal · value) with
  | none =>
    rw [hk] at hsearch
    refine ⟨{ self with cursor := self.first }, l, ?_, ?_⟩
    · simp only [LinkedList.call, Sequence.call, listFind, hsearch, hk]
      rfl
    · simp only [Sequence.call, hk]
      exact { h with cursor := h.start, bound := fun _ => h.start_lt }
  | some k =>
    obtain ⟨p, v, hl⟩ := h.exists_node hk
    rw [hk, nodeAt_some hl] at hsearch
    have hvalue : ref.values[k]? = some v := by
      rw [h.values, List.getElem?_map, hl]
      rfl
    refine ⟨{ self with cursor := some p }, l, ?_, ?_⟩
    · simp only [LinkedList.call, Sequence.call, listFind, hsearch, hk, h.segment.getElem? hl, bind,
        Option.bind, Sequence.moveTo, Sequence.current, hvalue, Option.join_some]
      rfl
    · simp only [Sequence.call, hk]
      refine { h with cursor := (nodeAt_some hl).symm, bound := ?_ }
      rintro _ ⟨⟩
      exact (List.getElem?_eq_some_iff.mp hl).1

theorem Holds.agree_pop (h : Holds heap₀ self ref l) : Agree callbacks heap₀ self ref .pop := by
  have hlast := h.last
  rcases List.eq_nil_or_concat l with rfl | ⟨m, ⟨p, v⟩, rfl⟩
  · obtain ⟨heap, destroyed, rfl, rfl⟩ := h.nil
    exact ⟨_, [], rfl, h⟩
  · rw [List.concat_eq_append] at *
    rw [lastOr_concat] at hlast
    have hl : (m ++ [(p, v)])[m.length]? = some (p, v) := by simp
    have hlen : ref.values.length - 1 = m.length := by simp [h.values]
    obtain ⟨cell, heap₁, heap₂, hp, hv, -, hnext, h₁, -, h₂, -, hh⟩ := h.unlink hl self.destroyed
    have hnone : cell.next = none := by simp [hnext, headOr]
    rw [hnone] at h₁ h₂
    cases h₁
    refine ⟨self.wipe p cell heap₂ self.destroyed, (m ++ [(p, v)]).eraseIdx m.length, ?_, ?_⟩
    · simp only [LinkedList.call, Sequence.call, listPop, hlast, hp, h₂, bind, Option.bind, wipe,
        hv, hnone, if_true, h.values]
      simp
    · have hdrop : ref.values.dropLast = ref.values.eraseIdx m.length := by
        rw [← hlen, List.eraseIdx_length_sub_one]
      simp only [Sequence.call, hlen, hdrop, ← h.destroyed]
      exact hh

theorem Holds.agree_shift (h : Holds heap₀ self ref l) :
    Agree callbacks heap₀ self ref .shift := by
  have hfirst := h.first
  cases l with
  | nil =>
    obtain ⟨heap, destroyed, rfl, rfl⟩ := h.nil
    exact ⟨_, [], rfl, h⟩
  | cons a m =>
    obtain ⟨p, v⟩ := a
    have hl : ((p, v) :: m)[0]? = some (p, v) := rfl
    obtain ⟨cell, heap₁, heap₂, hp, hv, hprev, -, h₁, -, h₂, -, hh⟩ := h.unlink hl self.destroyed
    have hnone : cell.prev = none := hprev
    rw [hnone] at h₁ h₂
    cases h₂
    refine ⟨self.wipe p cell heap₁ self.destroyed, m, ?_, ?_⟩
    · simp only [LinkedList.call, Sequence.call, listShift, hfirst, headOr, hp, h₁, bind,
        Option.bind, wipe, hv, hnone, if_true, h.values]
      simp
    · simp only [Sequence.call, ← h.destroyed, ← List.eraseIdx_zero]
      exact hh

theorem Holds.agree_push (h : Holds heap₀ self ref l) (hn : self.heap node = none)
    (value : Option A) : Agree callbacks heap₀ self ref (.push node value) := by
  have hnot := h.not_mem hn
  obtain ⟨heap₂, h₂, hs₂, hf₂⟩ := (h.segment_alloc hn value).setNext h.nodup (some node)
  have hnode : heap₂ node = some ⟨none, none, value⟩ :=
    (hf₂ node hnot).trans (Function.update_self ..)
  let heap := Function.update heap₂ node (some ⟨lastOr none l, none, value⟩)
  have h₃ : setPrev heap₂ (some node) (lastOr none l) = some heap := setPrev_some hnode _
  have h₄ : setNext heap (some node) none = some heap := by
    rw [setNext_some (Function.update_self ..), Function.update_idem]
  let list : LinkedList P A := { self with
    first := headOr (l ++ [(node, value)]) none
    last := some node
    length := self.length + 1
    heap }
  have hpush : self.listPush node value = some list := by
    have hfirst := h.first
    rw [← h.last] at h₂ h₃
    rcases List.eq_nil_or_concat l with rfl | ⟨m, ⟨p, v⟩, hl⟩
    · have hlast : self.last = none := h.last
      rw [hlast] at h₂ h₃
      cases h₂
      simp only [listPush, hlast, h₃, h₄, bind, Option.bind]
      rfl
    · rw [List.concat_eq_append] at hl
      subst hl
      have hlast := h.last
      rw [lastOr_concat] at hlast
      have hkeep : headOr (m ++ [(p, v)] ++ [(node, value)]) none = self.first := by
        rw [hfirst, headOr_append (m ++ _), headOr_append m, headOr_append m]
        rfl
      rw [hlast] at h₂ h₃
      simp only [listPush, hlast, h₂, h₃, h₄, bind, Option.bind, list, hkeep]
      rfl
  refine ⟨list, l ++ [(node, value)], ?_, h.link hn ?_ ?_ rfl ?_ rfl ?_ ?_ ?_ h.destroyed ?_⟩
  · rw [LinkedList.call, hpush]
    rfl
  · rw [List.map_append]
    exact List.perm_append_comm
  · refine segment_append.mpr ⟨hs₂.congr fun q hq => Function.update_of_ne ?_ _ _, ?_⟩
    · rintro rfl
      exact hnot hq
    · exact segment_singleton.mpr (Function.update_self ..)
  · exact (lastOr_concat ..).symm
  · simp only [Sequence.call, h.values, List.map_append]
    rfl
  · exact h.cursor.trans (nodeAt_append h.bound _).symm
  · intro i hi
    rw [List.length_append]
    exact Nat.lt_add_right _ (h.bound i hi)
  · intro q hq hm
    refine (Function.update_of_ne hq _ _).trans ((hf₂ q hm).trans ?_)
    exact Function.update_of_ne hq _ _

theorem Holds.agree_unshift (h : Holds heap₀ self ref l) (hn : self.heap node = none)
    (value : Option A) : Agree callbacks heap₀ self ref (.unshift node value) := by
  have hnot := h.not_mem hn
  obtain ⟨heap₂, h₂, hs₂, hf₂⟩ := (h.segment_alloc hn value).setPrev h.nodup (some node)
  have hnode : heap₂ node = some ⟨none, none, value⟩ :=
    (hf₂ node hnot).trans (Function.update_self ..)
  let heap := Function.update heap₂ node (some ⟨none, headOr l none, value⟩)
  have h₃ : setNext heap₂ (some node) (headOr l none) = some heap := setNext_some hnode _
  have h₄ : setPrev heap (some node) none = some heap := by
    rw [setPrev_some (Function.update_self ..), Function.update_idem]
  let list : LinkedList P A := { self with
    first := some node
    last := lastOr none ((node, value) :: l)
    length := self.length + 1
    heap }
  have hunshift : self.listUnshift node value = some list := by
    rw [← h.first] at h₂ h₃
    cases l with
    | nil =>
      have hfirst : self.first = none := h.first
      rw [hfirst] at h₂ h₃
      cases h₂
      simp only [listUnshift, hfirst, h₃, h₄, bind, Option.bind]
      rfl
    | cons a m =>
      have hfirst : self.first = some a.1 := h.first
      have hkeep : lastOr none ((node, value) :: a :: m) = self.last := h.last.symm
      rw [hfirst] at h₂ h₃
      simp only [listUnshift, hfirst, h₂, h₃, h₄, bind, Option.bind, list, hkeep]
      rfl
  refine ⟨list, (node, value) :: l, ?_, h.link hn ?_ ?_ rfl rfl rfl ?_ ?_ ?_ h.destroyed ?_⟩
  · rw [LinkedList.call, hunshift]
    rfl
  · exact .refl _
  · refine ⟨Function.update_self .., hs₂.congr fun q hq => Function.update_of_ne ?_ _ _⟩
    rintro rfl
    exact hnot hq
  · simp only [Sequence.call, h.values, List.map_cons]
  · exact h.cursor.trans (nodeAt_cons _ _ _).symm
  · intro i hi
    simp only [Sequence.call, Option.map_eq_some_iff] at hi
    obtain ⟨j, hj, rfl⟩ := hi
    exact Nat.succ_lt_succ (h.bound j hj)
  · intro q hq hm
    refine (Function.update_of_ne hq _ _).trans ((hf₂ q hm).trans ?_)
    exact Function.update_of_ne hq _ _

theorem Holds.agree_purge (h : Holds heap₀ self ref l) :
    Agree callbacks heap₀ self ref .purge := by
  obtain ⟨heap, hpurge, hfree, hf⟩ := purgeFrom_segment h.segment h.nodup callbacks self.destroyed
  rw [← h.length, ← h.first, ← h.values] at hpurge
  refine ⟨⟨none, none, none, 0, heap,
    self.destroyed ++ if callbacks.destroyFn then ref.values else []⟩, [], ?_, ?_⟩
  · simp only [LinkedList.call, listPurge, hpurge, bind, Option.bind]
    rfl
  · refine { Holds.new heap₀ with destroyed := congrArg (· ++ _) h.destroyed, frame := ?_ }
    intro q _
    by_cases hq : q ∈ l.map Prod.fst
    · rw [h.free q hq]
      exact hfree q hq
    · exact (hf q hq).trans (h.frame q hq)

theorem Holds.agree (h : Holds heap₀ self ref l) {c : Call P A}
    (hn : ∀ node, c.node = some node → self.heap node = none) :
    Agree callbacks heap₀ self ref c := by
  cases c with
  | push node value => exact h.agree_push (hn node rfl) value
  | pop => exact h.agree_pop
  | unshift node value => exact h.agree_unshift (hn node rfl) value
  | shift => exact h.agree_shift
  | remove value => exact h.agree_remove value
  | find value => exact h.agree_find value
  | purge => exact h.agree_purge
  | first => exact h.agree_first
  | next => exact h.agree_next
  | prev => exact h.agree_prev
  | last => exact h.agree_last

theorem Holds.run (h : Holds heap₀ self ref l) {calls : List (Call P A)}
    (ha : Allocates callbacks self calls) : ∃ self' l',
      self.run callbacks calls = some (self', (ref.run callbacks calls).2) ∧
        Holds heap₀ self' (ref.run callbacks calls).1 l' := by
  induction calls generalizing self ref l with
  | nil => exact ⟨self, l, rfl, h⟩
  | cons c calls ih =>
    have hagree : Agree callbacks heap₀ self ref c := h.agree ha.1
    obtain ⟨list, m, hc, hm⟩ := hagree
    obtain ⟨self', l', hr, hl⟩ := ih hm (ha.2 _ _ hc)
    refine ⟨self', l', ?_, hl⟩
    simp only [LinkedList.run, hc, hr, bind, Option.bind]
    rfl

theorem allocates_cons {self' : LinkedList P A} {returned : Returned A} {c : Call P A}
    {calls : List (Call P A)} (hn : ∀ node, c.node = some node → self.heap node = none)
    (hc : self.call callbacks c = some (self', returned)) (h : Allocates callbacks self' calls) :
    Allocates callbacks self (c :: calls) := by
  refine ⟨hn, fun list r hr => ?_⟩
  cases hc.symm.trans hr
  exact h

/-- As long as the nodes that are allocated are free, no call follows a pointer that is `NULL` or to
a node that is freed; the list stays a sequence with a cursor, and returns what the sequence
returns. -/
theorem run_new (callbacks : Callbacks A) (heap₀ : Heap P (Option A)) (calls : List (Call P A))
    (h : Allocates callbacks (new heap₀) calls) : ∃ list nodes,
      (new heap₀).run callbacks calls = some (list, (Sequence.new.run callbacks calls).2) ∧
        Spells heap₀ list (Sequence.new.run callbacks calls).1 nodes ∧
        (Sequence.new.run callbacks calls).1.StepsThrough callbacks P := by
  obtain ⟨list, nodes, hr, hl⟩ := (Holds.new heap₀).run h
  exact ⟨list, nodes, hr, hl.spells, fun hc => ⟨Sequence.run_next P hc, Sequence.run_prev P hc⟩⟩

theorem run_new_calls : ∃ (list : LinkedList ℕ ℕ) (nodes : List (ℕ × Option ℕ)),
    (new fun _ => none).run ⟨true, none⟩ [.push 0 (some 5), .unshift 1 (some 7), .find (some 5),
      .prev, .remove (some 7), .push 1 none, .next, .pop] = some (list,
      [.void, .void, .value (some 5), .value (some 7), .bool true, .void, .value (some 5),
        .value none]) ∧
    Spells (fun _ => none) list ⟨[some 5], some 0, [some 7]⟩ nodes := by
  have h : Allocates ⟨true, none⟩ (new fun _ => none : LinkedList ℕ ℕ) [.push 0 (some 5),
      .unshift 1 (some 7), .find (some 5), .prev, .remove (some 7), .push 1 none, .next, .pop] := by
    refine allocates_cons (by rintro _ ⟨⟩; rfl) rfl ?_
    refine allocates_cons (by rintro _ ⟨⟩; rfl) rfl ?_
    refine allocates_cons nofun rfl (allocates_cons nofun rfl (allocates_cons nofun rfl ?_))
    refine allocates_cons (by rintro _ ⟨⟩; rfl) rfl ?_
    exact allocates_cons nofun rfl (allocates_cons nofun rfl trivial)
  obtain ⟨list, nodes, hr, hs, -⟩ := run_new _ _ _ h
  exact ⟨list, nodes, hr, hs⟩

end LinkedList

end InetLisp
