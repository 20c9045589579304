import Mathlib.Data.Finset.Card
import Mathlib.Order.Interval.Finset.Nat

/-! # Tickets from a counter

Every member of a finite set takes one ticket from a counter that starts at zero.
The tickets are distinct, so the member that gets the last one knows that all others
have theirs.
-/

namespace Lib

variable {ι : Type*} {S : Finset ι} {ticket : ι → Option ℕ} {count m : ℕ} {i j : ι}

/-- Some members of the set have taken the tickets up to the counter. -/
structure Dispensed (S : Finset ι) (ticket : ι → Option ℕ) (count : ℕ) : Prop where
  mem : ∀ {i m}, ticket i = some m → i ∈ S
  bound : ∀ {i m}, ticket i = some m → 0 < m ∧ m ≤ count
  inj : ∀ {i j m}, ticket i = some m → ticket j = some m → i = j
  surj : ∀ {m}, 0 < m → m ≤ count → ∃ i, ticket i = some m

namespace Dispensed

theorem zero : Dispensed S (fun _ => none) 0 where
  mem := nofun
  bound := nofun
  inj := nofun
  surj h h' := by omega

theorem take [DecidableEq ι] (h : Dispensed S ticket count) (hi : i ∈ S) (hn : ticket i = none) :
    Dispensed S (Function.update ticket i (some (count + 1))) (count + 1) := by
  have hold : ∀ {j m}, Function.update ticket i (some (count + 1)) j = some m →
      (j = i ∧ m = count + 1) ∨ (j ≠ i ∧ ticket j = some m) := by
    intro j m hj
    by_cases he : j = i
    · subst he
      rw [Function.update_self] at hj
      exact .inl ⟨rfl, (Option.some.inj hj).symm⟩
    · rw [Function.update_of_ne he] at hj
      exact .inr ⟨he, hj⟩
  constructor
  · intro j m hj
    rcases hold hj with ⟨rfl, -⟩ | ⟨-, hj⟩
    · exact hi
    · exact h.mem hj
  · intro j m hj
    rcases hold hj with ⟨-, rfl⟩ | ⟨-, hj⟩
    · omega
    · have := h.bound hj
      omega
  · intro j l m hj hl
    rcases hold hj with ⟨hji, hm⟩ | ⟨-, hj⟩
    · rcases hold hl with ⟨hli, -⟩ | ⟨-, hl⟩
      · exact hji.trans hli.symm
      · have := (h.bound hl).2
        omega
    · rcases hold hl with ⟨-, hm⟩ | ⟨-, hl⟩
      · have := (h.bound hj).2
        omega
      · exact h.inj hj hl
  · intro m hm hle
    by_cases he : m = count + 1
    · subst he
      exact ⟨i, Function.update_self ..⟩
    · obtain ⟨j, hj⟩ := h.surj hm (by omega)
      refine ⟨j, ?_⟩
      rw [Function.update_of_ne, hj]
      rintro rfl
      rw [hn] at hj
      cases hj

theorem card_eq (h : Dispensed S ticket count) :
    (S.filter fun i => (ticket i).isSome).card = count := by
  have hmem : ∀ {i}, i ∈ S.filter (fun i => (ticket i).isSome) → ∃ m, ticket i = some m :=
    fun hi => Option.isSome_iff_exists.mp (Finset.mem_filter.mp hi).2
  have himage : (S.filter fun i => (ticket i).isSome).image (fun i => (ticket i).getD 0) =
      Finset.Icc 1 count := by
    ext m
    rw [Finset.mem_image, Finset.mem_Icc]
    constructor
    · rintro ⟨i, hi, rfl⟩
      obtain ⟨m, hm⟩ := hmem hi
      rw [hm]
      exact h.bound hm
    · rintro ⟨hm, hle⟩
      obtain ⟨i, hi⟩ := h.surj hm hle
      exact ⟨i, Finset.mem_filter.mpr ⟨h.mem hi, by rw [hi]; rfl⟩, by rw [hi]; rfl⟩
  have hcard := congrArg Finset.card himage
  rw [Nat.card_Icc, Nat.add_sub_cancel] at hcard
  rw [← hcard]
  refine (Finset.card_image_of_injOn ?_).symm
  intro i hi j hj he
  obtain ⟨m, hm⟩ := hmem hi
  obtain ⟨l, hl⟩ := hmem hj
  dsimp only at he
  rw [hm, hl] at he
  obtain rfl : m = l := he
  exact h.inj hm hl

theorem count_le (h : Dispensed S ticket count) : count ≤ S.card :=
  h.card_eq ▸ Finset.card_filter_le S _

theorem count_eq_iff (h : Dispensed S ticket count) :
    count = S.card ↔ ∀ i ∈ S, (ticket i).isSome := by
  rw [← h.card_eq, Finset.card_filter_eq_iff]

theorem all_of_last (h : Dispensed S ticket count) (hi : ticket i = some S.card) :
    ∀ i ∈ S, (ticket i).isSome :=
  h.count_eq_iff.mp (le_antisymm h.count_le (h.bound hi).2)

/-- Once all have their tickets, exactly one has the last one. -/
theorem existsUnique_last (h : Dispensed S ticket count) (hS : S.Nonempty)
    (ha : ∀ i ∈ S, (ticket i).isSome) : ∃! i, ticket i = some S.card := by
  obtain ⟨i, hi⟩ := h.surj hS.card_pos (h.count_eq_iff.mpr ha).ge
  exact ⟨i, hi, fun j hj => h.inj hj hi⟩

end Dispensed

end Lib
