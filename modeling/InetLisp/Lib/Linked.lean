import Mathlib.Data.List.Induction
import Mathlib.Logic.Function.Basic

/-! # Doubly linked cells

A heap holds cells that point to both sides. In a segment each cell points to the next one and
is pointed back at; what its two ends point to is given, so that segments are joined and
taken apart at the ends.
-/

namespace Lib.Linked

structure Cell (P V : Type*) where
  prev : Option P
  next : Option P
  value : V

abbrev Heap (P V : Type*) := P → Option (Cell P V)

variable {P V : Type*} {heap heap' : Heap P V} {l m : List (P × V)} {x y z : Option P} {p : P}
  {v : V}

def headOr : List (P × V) → Option P → Option P
  | [], z => z
  | (p, _) :: _, _ => some p

def lastOr : Option P → List (P × V) → Option P
  | x, [] => x
  | _, (p, _) :: l => lastOr (some p) l

/-- The cells of the list, between what they point to at both ends -/
def Segment (heap : Heap P V) : Option P → List (P × V) → Option P → Prop
  | _, [], _ => True
  | x, (p, v) :: l, z => heap p = some ⟨x, headOr l z, v⟩ ∧ Segment heap (some p) l z

/-- The cells that are met on the way from one to the next -/
inductive Follows (heap : Heap P V) (follow : Cell P V → Option P) :
    Option P → List (P × V) → Prop
  | nil : Follows heap follow none []
  | cons {p : P} {cell : Cell P V} {l : List (P × V)} (hp : heap p = some cell)
      (hl : Follows heap follow (follow cell) l) :
      Follows heap follow (some p) ((p, cell.value) :: l)

theorem headOr_append (l m : List (P × V)) (z : Option P) :
    headOr (l ++ m) z = headOr l (headOr m z) := by
  cases l <;> rfl

theorem lastOr_append (x : Option P) (l m : List (P × V)) :
    lastOr x (l ++ m) = lastOr (lastOr x l) m := by
  induction l generalizing x with
  | nil => rfl
  | cons a l ih => exact ih _

theorem headOr_eq (l : List (P × V)) : headOr l none = l[0]?.map Prod.fst := by
  cases l <;> rfl

theorem lastOr_concat (x : Option P) (l : List (P × V)) (p : P) (v : V) :
    lastOr x (l ++ [(p, v)]) = some p := by
  rw [lastOr_append]
  rfl

theorem lastOr_eq (l : List (P × V)) : lastOr none l = l[l.length - 1]?.map Prod.fst := by
  rcases List.eq_nil_or_concat l with rfl | ⟨l, ⟨p, v⟩, rfl⟩
  · rfl
  · rw [List.concat_eq_append, lastOr_concat]
    simp

theorem headOr_unlink (hp : p ∉ l.map Prod.fst) (v : V) (m : List (P × V)) (z : Option P)
    [DecidableEq P] :
    (if headOr (l ++ (p, v) :: m) z = some p then headOr m z else headOr (l ++ (p, v) :: m) z) =
      headOr (l ++ m) z := by
  cases l with
  | nil => exact if_pos rfl
  | cons a l =>
    obtain ⟨q, w⟩ := a
    refine if_neg fun he => hp ?_
    cases he
    exact List.mem_cons_self

theorem lastOr_unlink (hp : p ∉ m.map Prod.fst) (x : Option P) (l : List (P × V)) (v : V)
    [DecidableEq P] :
    (if lastOr x (l ++ (p, v) :: m) = some p then lastOr x l else lastOr x (l ++ (p, v) :: m)) =
      lastOr x (l ++ m) := by
  rcases List.eq_nil_or_concat m with rfl | ⟨m, ⟨q, w⟩, rfl⟩
  · rw [lastOr_concat, if_pos rfl, List.append_nil]
  · rw [List.concat_eq_append] at *
    rw [← List.cons_append, ← List.append_assoc, ← List.append_assoc, lastOr_concat, lastOr_concat]
    refine if_neg fun he => hp ?_
    cases he
    rw [List.map_append]
    exact List.mem_append_right _ List.mem_cons_self

theorem segment_append : Segment heap x (l ++ m) z ↔
    Segment heap x l (headOr m z) ∧ Segment heap (lastOr x l) m z := by
  induction l generalizing x with
  | nil => exact (and_iff_right trivial).symm
  | cons a l ih =>
    obtain ⟨p, v⟩ := a
    rw [List.cons_append, Segment, Segment, ih, headOr_append, and_assoc]
    rfl

theorem segment_singleton : Segment heap x [(p, v)] z ↔ heap p = some ⟨x, z, v⟩ :=
  and_iff_left trivial

/-- Only the cells of a segment matter. -/
theorem Segment.congr (h : Segment heap x l z) (he : ∀ p ∈ l.map Prod.fst, heap' p = heap p) :
    Segment heap' x l z := by
  induction l generalizing x with
  | nil => trivial
  | cons a l ih =>
    obtain ⟨p, v⟩ := a
    refine ⟨(he p List.mem_cons_self).trans h.1, ih h.2 fun q hq => ?_⟩
    exact he q (List.mem_cons_of_mem p hq)

theorem Segment.follows_next (h : Segment heap x l none) :
    Follows heap Cell.next (headOr l none) l := by
  induction l generalizing x with
  | nil => exact .nil
  | cons a l ih => exact .cons h.1 (ih h.2)

theorem Segment.follows_prev (h : Segment heap none l z) :
    Follows heap Cell.prev (lastOr none l) l.reverse := by
  induction l using List.reverseRecOn generalizing z with
  | nil => exact .nil
  | append_singleton l a ih =>
    obtain ⟨p, v⟩ := a
    obtain ⟨hl, hp⟩ := segment_append.mp h
    rw [lastOr_concat, List.reverse_append]
    exact .cons (segment_singleton.mp hp) (ih hl)

theorem Segment.getElem? (h : Segment heap none l none) {i : ℕ} (hi : l[i]? = some (p, v)) :
    heap p = some ⟨lastOr none (l.take i), l[i + 1]?.map Prod.fst, v⟩ := by
  obtain ⟨hlt, he⟩ := List.getElem?_eq_some_iff.mp hi
  have hl : l = l.take i ++ (p, v) :: l.drop (i + 1) := by
    rw [← he, ← List.drop_eq_getElem_cons hlt, List.take_append_drop]
  rw [hl] at h
  obtain ⟨-, hp, -⟩ := segment_append.mp h
  rw [hp, headOr_eq, List.getElem?_drop]

section Update

variable [DecidableEq P]

def setNext (heap : Heap P V) (x z : Option P) : Option (Heap P V) :=
  match x with
  | none => some heap
  | some p => (heap p).map fun cell => Function.update heap p (some { cell with next := z })

def setPrev (heap : Heap P V) (z x : Option P) : Option (Heap P V) :=
  match z with
  | none => some heap
  | some p => (heap p).map fun cell => Function.update heap p (some { cell with prev := x })

theorem setNext_some {cell : Cell P V} (h : heap p = some cell) (z : Option P) :
    setNext heap (some p) z = some (Function.update heap p (some { cell with next := z })) :=
  congrArg (Option.map _) h

theorem setPrev_some {cell : Cell P V} (h : heap p = some cell) (x : Option P) :
    setPrev heap (some p) x = some (Function.update heap p (some { cell with prev := x })) :=
  congrArg (Option.map _) h

theorem Segment.setNext (h : Segment heap none l z) (hd : (l.map Prod.fst).Nodup)
    (z' : Option P) : ∃ heap', setNext heap (lastOr none l) z' = some heap' ∧
      Segment heap' none l z' ∧ ∀ p ∉ l.map Prod.fst, heap' p = heap p := by
  rcases List.eq_nil_or_concat l with rfl | ⟨l, ⟨p, v⟩, rfl⟩
  · exact ⟨heap, rfl, trivial, fun _ _ => rfl⟩
  · rw [List.concat_eq_append] at *
    obtain ⟨hl, hp⟩ := segment_append.mp h
    rw [segment_singleton] at hp
    rw [List.map_append, List.nodup_append] at hd
    refine ⟨Function.update heap p (some ⟨lastOr none l, z', v⟩), ?_, segment_append.mpr ⟨?_, ?_⟩,
      fun q hq => ?_⟩
    · rw [lastOr_concat, Linked.setNext, hp]
      rfl
    · refine hl.congr fun q hq => Function.update_of_ne ?_ _ _
      exact hd.2.2 q hq p List.mem_cons_self
    · rw [segment_singleton]
      exact Function.update_self ..
    · refine Function.update_of_ne (fun he => hq ?_) _ _
      rw [he, List.map_append]
      exact List.mem_append_right _ List.mem_cons_self

theorem Segment.setPrev (h : Segment heap x l none) (hd : (l.map Prod.fst).Nodup)
    (x' : Option P) : ∃ heap', setPrev heap (headOr l none) x' = some heap' ∧
      Segment heap' x' l none ∧ ∀ p ∉ l.map Prod.fst, heap' p = heap p := by
  cases l with
  | nil => exact ⟨heap, rfl, trivial, fun _ _ => rfl⟩
  | cons a l =>
    obtain ⟨p, v⟩ := a
    rw [List.map_cons, List.nodup_cons] at hd
    refine ⟨Function.update heap p (some ⟨x', headOr l none, v⟩), ?_, ⟨Function.update_self .., ?_⟩,
      fun q hq => ?_⟩
    · rw [headOr, Linked.setPrev, h.1]
      rfl
    · refine h.2.congr fun q hq => Function.update_of_ne ?_ _ _
      rintro rfl
      exact hd.1 hq
    · exact Function.update_of_ne (fun he => hq (List.mem_cons.mpr (.inl he))) _ _

/-- A cell is taken out: what is before it and what is after it are made to point to each other,
and nothing else changes. -/
theorem Segment.unlink (h : Segment heap none (l ++ (p, v) :: m) none)
    (hd : ((l ++ (p, v) :: m).map Prod.fst).Nodup) : ∃ heap₁ heap₂,
      heap p = some ⟨lastOr none l, headOr m none, v⟩ ∧
      Linked.setPrev heap (headOr m none) (lastOr none l) = some heap₁ ∧ heap₁ p = heap p ∧
      Linked.setNext heap₁ (lastOr none l) (headOr m none) = some heap₂ ∧ heap₂ p = heap p ∧
      Segment (Function.update heap₂ p none) none (l ++ m) none ∧
      ∀ q ∉ (l ++ m).map Prod.fst, heap₂ q = heap q := by
  rw [List.map_append, List.map_cons, List.nodup_append, List.nodup_cons] at hd
  obtain ⟨hdl, ⟨hpm, hdm⟩, hlm⟩ := hd
  have hpl : p ∉ l.map Prod.fst := fun hm => hlm p hm p List.mem_cons_self rfl
  obtain ⟨hsl, hp, hsm⟩ := segment_append.mp h
  obtain ⟨heap₁, h₁, hsm₁, hf₁⟩ := hsm.setPrev hdm (lastOr none l)
  have hsl₁ : Segment heap₁ none l (some p) := by
    refine hsl.congr fun q hq => hf₁ q fun hm => ?_
    exact hlm q hq q (List.mem_cons_of_mem p hm) rfl
  obtain ⟨heap₂, h₂, hsl₂, hf₂⟩ := hsl₁.setNext hdl (headOr m none)
  have hsm₂ : Segment heap₂ (lastOr none l) m none := by
    refine hsm₁.congr fun q hq => hf₂ q fun hm => ?_
    exact hlm q hm q (List.mem_cons_of_mem p hq) rfl
  refine ⟨heap₁, heap₂, hp, h₁, hf₁ p hpm, h₂, (hf₂ p hpl).trans (hf₁ p hpm), ?_, fun q hq => ?_⟩
  · refine segment_append.mpr ⟨hsl₂.congr fun q hq => ?_, hsm₂.congr fun q hq => ?_⟩
    · refine Function.update_of_ne ?_ _ _
      rintro rfl
      exact hpl hq
    · refine Function.update_of_ne ?_ _ _
      rintro rfl
      exact hpm hq
  · rw [List.map_append, List.mem_append, not_or] at hq
    rw [hf₂ q hq.1, hf₁ q hq.2]

end Update

end Lib.Linked
