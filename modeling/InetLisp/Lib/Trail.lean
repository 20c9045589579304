import Mathlib.Data.Sym.Sym2
import Mathlib.Data.Multiset.Bind
import Mathlib.Algebra.Order.BigOperators.Group.Finset

/-! # Trails in a multigraph

A trail uses every edge of a multiset at most once and passes through internal
vertices only. Contracting an internal vertex that lies on exactly two edges
preserves the trails between the other vertices.
-/

namespace Lib

/-- Distinct edges lead from the first vertex to the second; the vertices between satisfy `P`. -/
inductive Trail {α : Type*} (P : α → Prop) : Multiset (Sym2 α) → α → α → Prop where
  | edge {E : Multiset (Sym2 α)} {x y : α} : Trail P (s(x, y) ::ₘ E) x y
  | step {E : Multiset (Sym2 α)} {x w y : α} (hw : P w) (h : Trail P E w y) :
      Trail P (s(x, w) ::ₘ E) x y

namespace Trail

variable {α : Type*} {P : α → Prop} {E F : Multiset (Sym2 α)} {u v w x y z : α}

theorem of_mem (h : s(x, y) ∈ E) : Trail P E x y := by
  obtain ⟨F, rfl⟩ := Multiset.exists_cons_of_mem h
  exact .edge

theorem first (h : Trail P E x y) :
    ∃ z F, E = s(x, z) ::ₘ F ∧ (z = y ∨ P z ∧ Trail P F z y) := by
  cases h with
  | edge => exact ⟨y, _, rfl, .inl rfl⟩
  | step hw h => exact ⟨_, _, rfl, .inr ⟨hw, h⟩⟩

theorem eq_of_single (hE : ∀ e ∈ E, w ∉ e) (h : s(w, v) ::ₘ E = s(w, u) ::ₘ F) :
    v = u ∧ E = F := by
  rcases Multiset.cons_eq_cons.mp h with ⟨he, hF⟩ | ⟨_, G, hG, _⟩
  · exact ⟨Sym2.congr_right.mp he, hF⟩
  · exact (hE _ (hG ▸ Multiset.mem_cons_self _ _) (Sym2.mem_mk_left _ _)).elim

/-- A trail that leaves `w` by its only edge leaves `u` by the contracted one. -/
theorem leave (hE : ∀ e ∈ E, w ∉ e) (h : Trail P (s(w, v) ::ₘ E) w y) :
    Trail P (s(u, v) ::ₘ E) u y := by
  obtain ⟨z, F, hF, hz⟩ := h.first
  obtain ⟨rfl, rfl⟩ := eq_of_single hE hF
  rcases hz with rfl | ⟨hv, ht⟩
  · exact .edge
  · exact .step hv ht

theorem contract (hE : ∀ e ∈ E, w ∉ e) (hx : x ≠ w) (hy : y ≠ w)
    (h : Trail P (s(w, u) ::ₘ s(w, v) ::ₘ E) x y) : Trail P (s(u, v) ::ₘ E) x y := by
  generalize hF : s(w, u) ::ₘ s(w, v) ::ₘ E = F at h
  induction h generalizing E with
  | @edge F x y =>
    have hm : s(x, y) ∈ s(w, u) ::ₘ s(w, v) ::ₘ E := hF ▸ Multiset.mem_cons_self _ _
    have hne : ∀ z, s(x, y) ≠ s(w, z) := fun z he => by
      have : w ∈ s(x, y) := he ▸ Sym2.mem_mk_left _ _
      rcases Sym2.mem_iff.mp this with rfl | rfl <;> contradiction
    simp only [Multiset.mem_cons, hne, false_or] at hm
    exact .of_mem (Multiset.mem_cons_of_mem hm)
  | @step F x w' y hw' ht ih =>
    have hm : s(x, w') ∈ s(w, u) ::ₘ s(w, v) ::ₘ E := hF ▸ Multiset.mem_cons_self _ _
    by_cases hw : w' = w
    · subst w'
      have hn : s(x, w) ∉ E := fun hm => hE _ hm (Sym2.mem_mk_right _ _)
      simp only [Multiset.mem_cons, hn, or_false] at hm
      rcases hm with he | he
      · obtain rfl : x = u := by simpa [hx, Sym2.eq_iff] using he
        rw [he, Multiset.cons_inj_right] at hF
        exact leave hE (hF ▸ ht)
      · obtain rfl : x = v := by simpa [hx, Sym2.eq_iff] using he
        rw [he, Multiset.cons_swap, Multiset.cons_inj_right] at hF
        rw [Sym2.eq_swap]
        exact leave hE (hF ▸ ht)
    · have hne : ∀ z, s(x, w') ≠ s(w, z) := fun z he => by
        have : w ∈ s(x, w') := he ▸ Sym2.mem_mk_left _ _
        rcases Sym2.mem_iff.mp this with rfl | rfl <;> contradiction
      simp only [Multiset.mem_cons, hne, false_or] at hm
      obtain ⟨G, rfl⟩ := Multiset.exists_cons_of_mem hm
      rw [Multiset.cons_swap s(w, v), Multiset.cons_swap s(w, u), Multiset.cons_inj_right] at hF
      rw [Multiset.cons_swap]
      exact .step hw' (ih (fun e he => hE e (Multiset.mem_cons_of_mem he)) hw hy hF)

theorem expand (hw : P w) (h : Trail P (s(u, v) ::ₘ E) x y) :
    Trail P (s(w, u) ::ₘ s(w, v) ::ₘ E) x y := by
  generalize hF : s(u, v) ::ₘ E = F at h
  induction h generalizing E with
  | @edge F x y =>
    rcases Multiset.cons_eq_cons.mp hF with ⟨he, rfl⟩ | ⟨_, G, rfl, _⟩
    · rcases Sym2.eq_iff.mp he with ⟨rfl, rfl⟩ | ⟨rfl, rfl⟩
      · rw [Sym2.eq_swap]; exact .step hw .edge
      · rw [Multiset.cons_swap, Sym2.eq_swap]; exact .step hw .edge
    · exact .of_mem (by simp)
  | @step F x w' y hw' ht ih =>
    rcases Multiset.cons_eq_cons.mp hF with ⟨he, rfl⟩ | ⟨_, G, rfl, rfl⟩
    · rcases Sym2.eq_iff.mp he with ⟨rfl, rfl⟩ | ⟨rfl, rfl⟩
      · rw [Sym2.eq_swap]; exact .step hw (.step hw' ht)
      · rw [Multiset.cons_swap, Sym2.eq_swap]; exact .step hw (.step hw' ht)
    · rw [Multiset.cons_swap s(w, v), Multiset.cons_swap s(w, u)]
      exact .step hw' (ih rfl)

theorem snoc (hz : P z) (h : Trail P E x z) : Trail P (s(z, y) ::ₘ E) x y := by
  induction h with
  | edge => rw [Multiset.cons_swap]; exact .step hz .edge
  | step hw _ ih => rw [Multiset.cons_swap]; exact .step hw (ih hz)

theorem symm (h : Trail P E x y) : Trail P E y x := by
  induction h with
  | edge => rw [Sym2.eq_swap]; exact .edge
  | step hw _ ih => rw [Sym2.eq_swap]; exact ih.snoc hw

theorem mono (h : Trail P E x y) (hle : E ≤ F) : Trail P F x y := by
  obtain ⟨G, rfl⟩ := Multiset.le_iff_exists_add.mp hle
  induction h with
  | edge => rw [Multiset.cons_add]; exact .edge
  | step hw _ ih => rw [Multiset.cons_add]; exact .step hw (ih (Multiset.le_add_right _ _))

/-- Contraction of an internal vertex on exactly two edges. -/
theorem contract_iff (hw : P w) (hE : ∀ e ∈ E, w ∉ e) (hx : x ≠ w) (hy : y ≠ w) :
    Trail P (s(w, u) ::ₘ s(w, v) ::ₘ E) x y ↔ Trail P (s(u, v) ::ₘ E) x y :=
  ⟨contract hE hx hy, expand hw⟩

end Trail

section Degree

variable {α : Type*} [DecidableEq α] {E F : Multiset (Sym2 α)} {u v w x y : α}

def degree (v : α) (E : Multiset (Sym2 α)) : ℕ := (E.map fun e => e.toMultiset.count v).sum

@[simp] theorem degree_zero : degree v (0 : Multiset (Sym2 α)) = 0 := rfl

@[simp] theorem degree_add : degree v (E + F) = degree v E + degree v F := by simp [degree]

@[simp] theorem degree_cons :
    degree v (s(x, y) ::ₘ E) = (if v = x then 1 else 0) + (if v = y then 1 else 0) + degree v E := by
  have h : s(x, y).toMultiset.count v = (if v = x then 1 else 0) + if v = y then 1 else 0 := by
    change Multiset.count v (x ::ₘ {y}) = _
    rw [Multiset.count_cons, Multiset.count_singleton, add_comm]
  simp [degree, h]

@[simp] theorem degree_singleton :
    degree v ({s(x, y)} : Multiset (Sym2 α)) = (if v = x then 1 else 0) + if v = y then 1 else 0 := by
  rw [← Multiset.cons_zero, degree_cons, degree_zero, add_zero]

theorem degree_pos (he : s(x, y) ∈ E) (hv : v = x ∨ v = y) : 0 < degree v E := by
  obtain ⟨F, rfl⟩ := Multiset.exists_cons_of_mem he
  rcases hv with rfl | rfl <;> simp

theorem degree_eq_zero (h : degree v E = 0) : ∀ e ∈ E, v ∉ e := by
  intro e he hv
  induction e with
  | _ x y => exact (degree_pos he (Sym2.mem_iff.mp hv)).ne' h

theorem degree_le (h : E ≤ F) : degree v E ≤ degree v F := by
  obtain ⟨G, rfl⟩ := Multiset.le_iff_exists_add.mp h
  simp

theorem Trail.degree_right {P : α → Prop} (h : Trail P E x y) : 0 < degree y E := by
  induction h with
  | edge => exact degree_pos (Multiset.mem_cons_self _ _) (.inr rfl)
  | step _ _ ih =>
    rw [degree_cons]
    omega

theorem Trail.degree_self {P : α → Prop} (h : Trail P E x x) : 2 ≤ degree x E := by
  cases h with
  | edge =>
    rw [degree_cons, if_pos rfl]
    omega
  | step _ h =>
    have := h.degree_right
    rw [degree_cons, if_pos rfl]
    omega

end Degree

end Lib
