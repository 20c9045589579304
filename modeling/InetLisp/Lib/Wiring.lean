import Mathlib.Logic.Relation
import Mathlib.Order.ConditionallyCompleteLattice.Basic

/-! # Wirings

A wiring ties ends together. Ways follow ties in both directions; an atom is an end that no way
goes on from. What can be seen of a wiring from some of its ends are the ways between them, and
between them and the atoms. An end between two others can be left out without being seen.
-/

namespace Lib

/-- Which ends are tied together. -/
abbrev Wiring (E : Type*) := E → E → Prop

namespace Wiring

open Relation

variable {E : Type*} {atom : E → Prop} {r r' s s' : Wiring E} {S T : Set E} {a b w x y z : E}

def tie (a b : E) : Wiring E := fun x y => x = a ∧ y = b ∨ x = b ∧ y = a

/-- A tie that is followed, in one of its directions. -/
def Step (atom : E → Prop) (r : Wiring E) (x y : E) : Prop := ¬ atom x ∧ (r x y ∨ r y x)

/-- A way from one end to another. -/
def Leads (atom : E → Prop) (r : Wiring E) : E → E → Prop := ReflTransGen (Step atom r)

/-- Seen from these ends, the wirings are the same. -/
def Agree (atom : E → Prop) (S : Set E) (r r' : Wiring E) : Prop :=
  ∀ x ∈ S, ∀ y, y ∈ S ∨ atom y → (Leads atom r x y ↔ Leads atom r' x y)

/-- Nothing is tied to the end. -/
def Isolated (r : Wiring E) (w : E) : Prop := ∀ y, ¬ r w y ∧ ¬ r y w

theorem tie_comm (a b : E) : tie a b = tie b a := by
  ext x y
  exact or_comm

theorem tie_mk : tie a b a b := .inl ⟨rfl, rfl⟩

theorem Step.mono (h : r ≤ r') (hs : Step atom r x y) : Step atom r' x y :=
  ⟨hs.1, hs.2.imp (h x y) (h y x)⟩

theorem Step.tie (ha : ¬ atom a) : Step atom (tie a b) a b := ⟨ha, .inl tie_mk⟩

namespace Leads

theorem refl : Leads atom r x x := ReflTransGen.refl

theorem trans (h : Leads atom r x y) (h' : Leads atom r y z) : Leads atom r x z :=
  ReflTransGen.trans h h'

theorem mono (h : r ≤ r') (hl : Leads atom r x y) : Leads atom r' x y :=
  ReflTransGen.mono (fun _ _ => Step.mono h) x y hl

theorem of_steps (h : ∀ x y, Step atom r x y → Leads atom r' x y) (hl : Leads atom r x y) :
    Leads atom r' x y := by
  induction hl with
  | refl => exact refl
  | tail _ hs ih => exact ih.trans (h _ _ hs)

theorem symm (hy : ¬ atom y) (h : Leads atom r x y) : Leads atom r y x := by
  induction h with
  | refl => exact refl
  | tail _ hs ih => exact .head ⟨hy, hs.2.symm⟩ (ih hs.1)

theorem eq_of_atom (hx : atom x) (h : Leads atom r x y) : y = x := by
  rcases h.cases_head with rfl | ⟨_, hs, -⟩
  · rfl
  · exact (hs.1 hx).elim

/-- Ways stay among ends that all ties stay among. -/
theorem mem_of_closed (hT : ∀ a ∈ T, ∀ b, r a b ∨ r b a → b ∈ T) (hx : x ∈ T)
    (h : Leads atom r x y) : y ∈ T := by
  induction h with
  | refl => exact hx
  | tail _ hs ih => exact hT _ ih _ hs.2

/-- Ties that meet no end on a way from here lead nowhere else. -/
theorem of_sup (hs : ∀ a, Leads atom r x a → ∀ b, ¬ s a b ∧ ¬ s b a)
    (h : Leads atom (r ⊔ s) x y) : Leads atom r x y := by
  induction h with
  | refl => exact refl
  | @tail a b _ hstep ih =>
    obtain ⟨ha, (hr | hr) | (hr | hr)⟩ := hstep
    · exact ih.tail ⟨ha, .inl hr⟩
    · exact ((hs a ih b).1 hr).elim
    · exact ih.tail ⟨ha, .inr hr⟩
    · exact ((hs a ih b).2 hr).elim

end Leads

namespace Isolated

theorem sup (h : Isolated r w) (h' : Isolated s w) : Isolated (r ⊔ s) w :=
  fun y => ⟨not_or.mpr ⟨(h y).1, (h' y).1⟩, not_or.mpr ⟨(h y).2, (h' y).2⟩⟩

theorem mono (h : Isolated r' w) (hr : r ≤ r') : Isolated r w :=
  fun y => ⟨fun hy => (h y).1 (hr _ _ hy), fun hy => (h y).2 (hr _ _ hy)⟩

theorem tie (ha : w ≠ a) (hb : w ≠ b) : Isolated (tie a b) w := by
  intro y
  constructor
  · rintro (⟨rfl, -⟩ | ⟨rfl, -⟩) <;> contradiction
  · rintro (⟨-, rfl⟩ | ⟨-, rfl⟩) <;> contradiction

theorem not_step (h : Isolated r w) : ¬ Step atom r w y := fun hs => hs.2.elim (h y).1 (h y).2

theorem not_step_to (h : Isolated r w) : ¬ Step atom r y w := fun hs => hs.2.elim (h y).2 (h y).1

theorem eq_of_leads (h : Isolated r w) (hl : Leads atom r w y) : y = w := by
  rcases hl.cases_head with rfl | ⟨_, hs, -⟩
  · rfl
  · exact (h.not_step hs).elim

theorem eq_of_leads_to (h : Isolated r w) (hl : Leads atom r y w) : y = w := by
  rcases hl.cases_tail with rfl | ⟨_, -, hs⟩
  · rfl
  · exact (h.not_step_to hs).elim

end Isolated

namespace Agree

theorem refl (r : Wiring E) : Agree atom S r r := fun _ _ _ _ => Iff.rfl

theorem of_eq (h : r = r') : Agree atom S r r' := h ▸ refl r

theorem symm (h : Agree atom S r r') : Agree atom S r' r := fun x hx y hy => (h x hx y hy).symm

theorem trans (h : Agree atom S r s) (h' : Agree atom S s r') : Agree atom S r r' :=
  fun x hx y hy => (h x hx y hy).trans (h' x hx y hy)

theorem mono (h : Agree atom T r r') (hS : S ⊆ T) : Agree atom S r r' :=
  fun x hx y hy => h x (hS hx) y (hy.imp_left fun h => hS h)

theorem of_steps (h : ∀ x y, Step atom r x y → Leads atom r' x y)
    (h' : ∀ x y, Step atom r' x y → Leads atom r x y) : Agree atom S r r' :=
  fun _ _ _ _ => ⟨.of_steps h, .of_steps h'⟩

theorem leads_sup (h : Agree atom S r r') (hs : ∀ x y, s x y →
    (x ∈ S ∨ atom x) ∧ (y ∈ S ∨ atom y)) (hx : x ∈ S) (hy : y ∈ S ∨ atom y)
    (hl : Leads atom (r ⊔ s) x y) : Leads atom (r' ⊔ s) x y := by
  -- Up to the last end that can be seen, the way is one of the other wiring.
  have hway : (∃ z ∈ S, Leads atom (r' ⊔ s) x z ∧ Leads atom r z y) ∨
      atom y ∧ Leads atom (r' ⊔ s) x y := by
    clear hy
    induction hl with
    | refl => exact .inl ⟨x, hx, .refl, .refl⟩
    | @tail y y' _ hs' ih =>
      obtain ⟨z, hz, hxz, hzy⟩ := ih.resolve_right fun h => hs'.1 h.1
      by_cases hr : Step atom r y y'
      · exact .inl ⟨z, hz, hxz, hzy.tail hr⟩
      · have hsy : s y y' ∨ s y' y := by
          by_contra hn
          rw [not_or] at hn
          exact hr ⟨hs'.1, hs'.2.imp (fun h => h.resolve_right hn.1) fun h => h.resolve_right hn.2⟩
        have hvis : (y ∈ S ∨ atom y) ∧ (y' ∈ S ∨ atom y') := by
          rcases hsy with hsy | hsy
          · exact hs _ _ hsy
          · exact (hs _ _ hsy).symm
        have hyS : y ∈ S := hvis.1.resolve_right hs'.1
        have hxy : Leads atom (r' ⊔ s) x y :=
          hxz.trans (((h z hz y (.inl hyS)).mp hzy).mono le_sup_left)
        have hxy' : Leads atom (r' ⊔ s) x y' :=
          hxy.tail ⟨hs'.1, hsy.imp .inr .inr⟩
        rcases hvis.2 with hy' | hy'
        · exact .inl ⟨y', hy', hxy', .refl⟩
        · exact .inr ⟨hy', hxy'⟩
  rcases hway with ⟨z, hz, hxz, hzy⟩ | ⟨-, hxy⟩
  · exact hxz.trans (((h z hz y hy).mp hzy).mono le_sup_left)
  · exact hxy

theorem sup (h : Agree atom S r r') (hs : ∀ x y, s x y →
    (x ∈ S ∨ atom x) ∧ (y ∈ S ∨ atom y)) : Agree atom S (r ⊔ s) (r' ⊔ s) :=
  fun _ hx _ hy => ⟨h.leads_sup hs hx hy, h.symm.leads_sup hs hx hy⟩

theorem sup_tie (h : Agree atom S r r') (ha : a ∈ S ∨ atom a) (hb : b ∈ S ∨ atom b) :
    Agree atom S (r ⊔ tie a b) (r' ⊔ tie a b) := by
  apply h.sup
  rintro x y (⟨rfl, rfl⟩ | ⟨rfl, rfl⟩)
  · exact ⟨ha, hb⟩
  · exact ⟨hb, ha⟩

theorem union (h : Agree atom S r r') (hT : ∀ x ∈ T, Isolated r x ∧ Isolated r' x) :
    Agree atom (S ∪ T) r r' := by
  intro x hx y hy
  by_cases hxT : x ∈ T
  · obtain ⟨hr, hr'⟩ := hT x hxT
    constructor
    · intro hl
      rw [hr.eq_of_leads hl]
      exact .refl
    · intro hl
      rw [hr'.eq_of_leads hl]
      exact .refl
  · by_cases hyT : y ∈ T
    · obtain ⟨hr, hr'⟩ := hT y hyT
      constructor
      · intro hl
        rw [hr.eq_of_leads_to hl]
        exact .refl
      · intro hl
        rw [hr'.eq_of_leads_to hl]
        exact .refl
    · exact h x (hx.resolve_right hxT) y (hy.imp_left fun h => h.resolve_right hyT)

theorem tie_self : Agree atom S (r ⊔ tie a a) r := by
  apply of_steps
  · rintro x y ⟨hx, hs⟩
    by_cases hr : r x y ∨ r y x
    · exact .single ⟨hx, hr⟩
    · rw [not_or] at hr
      rcases hs with hs | hs
      · rcases hs.resolve_left hr.1 with ⟨rfl, rfl⟩ | ⟨rfl, rfl⟩ <;> exact .refl
      · rcases hs.resolve_left hr.2 with ⟨rfl, rfl⟩ | ⟨rfl, rfl⟩ <;> exact .refl
  · exact fun x y hs => .single (hs.mono le_sup_left)

/-- A tie may slide along another one. -/
theorem slide (ha : ¬ atom a) (hb : ¬ atom b) (hr : tie a b ≤ r) :
    Agree atom S (r ⊔ tie a x) (r ⊔ tie b x) := by
  have hway : ∀ {a b}, ¬ atom a → ¬ atom b → tie a b ≤ r → ∀ y z,
      Step atom (r ⊔ tie a x) y z → Leads atom (r ⊔ tie b x) y z := by
    rintro a b ha hb hr y z ⟨hy, hs⟩
    have hab : Step atom (r ⊔ tie b x) a b := ⟨ha, .inl (.inl (hr _ _ tie_mk))⟩
    have hba : Step atom (r ⊔ tie b x) b a := ⟨hb, .inr (.inl (hr _ _ tie_mk))⟩
    by_cases hyz : r y z ∨ r z y
    · exact .single ⟨hy, hyz.imp .inl .inl⟩
    · rw [not_or] at hyz
      have ht : tie a x y z := by
        rcases hs with hs | hs
        · exact hs.resolve_left hyz.1
        · exact (hs.resolve_left hyz.2).symm.imp And.symm And.symm
      rcases ht with ⟨rfl, rfl⟩ | ⟨rfl, rfl⟩
      · exact .head hab (.single ⟨hb, .inl (.inr tie_mk)⟩)
      · exact .head ⟨hy, .inr (.inr tie_mk)⟩ (.single hba)
  exact of_steps (hway ha hb hr) (hway hb ha (tie_comm a b ▸ hr))

theorem step_ties (h : Step atom (r ⊔ tie w a ⊔ tie w b) x y) :
    Step atom r x y ∨ x = w ∧ (y = a ∨ y = b) ∨ y = w ∧ (x = a ∨ x = b) := by
  obtain ⟨hx, hs⟩ := h
  rcases hs with ((hs | ⟨rfl, rfl⟩ | ⟨rfl, rfl⟩) | ⟨rfl, rfl⟩ | ⟨rfl, rfl⟩) |
    ((hs | ⟨rfl, rfl⟩ | ⟨rfl, rfl⟩) | ⟨rfl, rfl⟩ | ⟨rfl, rfl⟩)
  · exact .inl ⟨hx, .inl hs⟩
  · exact .inr (.inl ⟨rfl, .inl rfl⟩)
  · exact .inr (.inr ⟨rfl, .inl rfl⟩)
  · exact .inr (.inl ⟨rfl, .inr rfl⟩)
  · exact .inr (.inr ⟨rfl, .inr rfl⟩)
  · exact .inl ⟨hx, .inr hs⟩
  · exact .inr (.inr ⟨rfl, .inl rfl⟩)
  · exact .inr (.inl ⟨rfl, .inl rfl⟩)
  · exact .inr (.inr ⟨rfl, .inr rfl⟩)
  · exact .inr (.inl ⟨rfl, .inr rfl⟩)

/-- A way that has come to `w` has come from one of its two neighbors. -/
theorem leads_ties (hr : Isolated r w) (ha : w ≠ a) (hb : w ≠ b) (hx : x ≠ w)
    (h : Leads atom (r ⊔ tie w a ⊔ tie w b) x y) :
    y ≠ w ∧ Leads atom (r ⊔ tie a b) x y ∨ y = w ∧
      (¬ atom a ∧ Leads atom (r ⊔ tie a b) x a ∨ ¬ atom b ∧ Leads atom (r ⊔ tie a b) x b) := by
  induction h with
  | refl => exact .inl ⟨hx, .refl⟩
  | @tail y y' _ hs ih =>
    rcases step_ties hs with hs' | ⟨rfl, hy'⟩ | ⟨rfl, hy'⟩
    · have hyw : y ≠ w := by
        rintro rfl
        exact hr.not_step hs'
      have hyw' : y' ≠ w := by
        rintro rfl
        exact hr.not_step_to hs'
      exact .inl ⟨hyw', (ih.resolve_right fun h => hyw h.1).2.tail (hs'.mono le_sup_left)⟩
    · have ih := (ih.resolve_left fun h => h.1 rfl).2
      rcases ih with ⟨hna, ih⟩ | ⟨hnb, ih⟩ <;> rcases hy' with rfl | rfl
      · exact .inl ⟨ha.symm, ih⟩
      · exact .inl ⟨hb.symm, ih.tail ⟨hna, .inl (.inr tie_mk)⟩⟩
      · exact .inl ⟨ha.symm, ih.tail ⟨hnb, .inr (.inr tie_mk)⟩⟩
      · exact .inl ⟨hb.symm, ih⟩
    · have hyw : y ≠ y' := by
        rintro rfl
        rcases hy' with rfl | rfl <;> contradiction
      have ih := (ih.resolve_right fun h => hyw h.1).2
      rcases hy' with rfl | rfl
      · exact .inr ⟨rfl, .inl ⟨hs.1, ih⟩⟩
      · exact .inr ⟨rfl, .inr ⟨hs.1, ih⟩⟩

/-- An end between two others is left out. -/
theorem contract (hw : ¬ atom w) (hr : Isolated r w) (hS : w ∉ S) (ha : w ≠ a) (hb : w ≠ b) :
    Agree atom S (r ⊔ tie w a ⊔ tie w b) (r ⊔ tie a b) := by
  intro x hx y hy
  have hxw : x ≠ w := fun he => hS (he ▸ hx)
  have hyw : y ≠ w := by
    rintro rfl
    exact hy.elim hS hw
  constructor
  · intro hl
    exact ((leads_ties hr ha hb hxw hl).resolve_right fun h => hyw h.1).2
  · apply Leads.of_steps
    rintro y z ⟨hy, (hs | ⟨rfl, rfl⟩ | ⟨rfl, rfl⟩) | hs | ⟨rfl, rfl⟩ | ⟨rfl, rfl⟩⟩
    · exact .single ⟨hy, .inl (.inl (.inl hs))⟩
    · exact .head ⟨hy, .inr (.inl (.inr tie_mk))⟩ (.single ⟨hw, .inl (.inr tie_mk)⟩)
    · exact .head ⟨hy, .inr (.inr tie_mk)⟩ (.single ⟨hw, .inl (.inl (.inr tie_mk))⟩)
    · exact .single ⟨hy, .inr (.inl (.inl hs))⟩
    · exact .head ⟨hy, .inr (.inr tie_mk)⟩ (.single ⟨hw, .inl (.inl (.inr tie_mk))⟩)
    · exact .head ⟨hy, .inr (.inl (.inr tie_mk))⟩ (.single ⟨hw, .inl (.inr tie_mk)⟩)

theorem leaf (hw : ¬ atom w) (hr : Isolated r w) (hS : w ∉ S) (ha : w ≠ a) :
    Agree atom S (r ⊔ tie w a) r := by
  have h := contract hw hr hS ha ha
  rw [sup_assoc, sup_idem] at h
  exact h.trans tie_self

/-- Ties among ends that nothing else is tied to are not seen from elsewhere. -/
theorem island (hs : ∀ x y, s x y → x ∈ T ∧ y ∈ T) (hr : ∀ x ∈ T, Isolated r x)
    (hS : ∀ x ∈ S, x ∉ T) : Agree atom S (r ⊔ s) r := by
  intro x hx y hy
  clear hy
  constructor
  · intro hl
    have hway : y ∉ T ∧ Leads atom r x y := by
      induction hl with
      | refl => exact ⟨hS x hx, .refl⟩
      | @tail y y' _ hstep ih =>
        obtain ⟨hy, hxy⟩ := ih
        have hr' : Step atom r y y' := by
          refine ⟨hstep.1, hstep.2.imp ?_ ?_⟩
          · exact fun h => h.resolve_right fun h => hy (hs _ _ h).1
          · exact fun h => h.resolve_right fun h => hy (hs _ _ h).2
        exact ⟨fun hy' => (hr y' hy').not_step_to hr', hxy.tail hr'⟩
    exact hway.2
  · exact fun hl => hl.mono le_sup_left

theorem tufts (hs : ∀ x y, s x y → x ∈ T ∧ y ∉ T ∨ y ∈ T ∧ x ∉ T)
    (hone : ∀ x ∈ T, ∀ y y', s x y ∨ s y x → s x y' ∨ s y' x → y = y')
    (hr : ∀ x ∈ T, Isolated r x) (hS : ∀ x ∈ S, x ∉ T) (hT : ∀ x ∈ T, ¬ atom x) :
    Agree atom S (r ⊔ s) r := by
  intro x hx y hy
  have hyT : y ∉ T := fun h => hy.elim (fun hy => hS y hy h) (hT y h)
  constructor
  · intro hl
    clear hy
    -- A way that has come to such an end can only go back.
    have hway : y ∉ T ∧ Leads atom r x y ∨
        y ∈ T ∧ ∃ z, z ∉ T ∧ (s y z ∨ s z y) ∧ Leads atom r x z := by
      clear hyT
      induction hl with
      | refl => exact .inl ⟨hS x hx, .refl⟩
      | @tail y y' _ hstep ih =>
        by_cases hy' : Step atom r y y'
        · have hyT : y ∉ T := fun h => (hr y h).not_step hy'
          have hyT' : y' ∉ T := fun h => (hr y' h).not_step_to hy'
          exact .inl ⟨hyT', (ih.resolve_right fun h => hyT h.1).2.tail hy'⟩
        · have hsy : s y y' ∨ s y' y := by
            by_contra hn
            rw [not_or] at hn
            exact hy' ⟨hstep.1, hstep.2.imp (fun h => h.resolve_right hn.1)
              fun h => h.resolve_right hn.2⟩
          rcases ih with ⟨hyT, ih⟩ | ⟨hyT, z, hz, hzy, ih⟩
          · have hyT' : y' ∈ T := by
              rcases hsy with h | h
              · exact ((hs _ _ h).resolve_left fun h => hyT h.1).1
              · exact ((hs _ _ h).resolve_right fun h => hyT h.1).1
            exact .inr ⟨hyT', y, hyT, hsy.symm, ih⟩
          · cases hone y hyT _ _ hzy hsy
            exact .inl ⟨hz, ih⟩
    exact (hway.resolve_right fun h => hyT h.1).2
  · exact fun hl => hl.mono le_sup_left

end Agree

section Map

variable {F : Type*} {φ ψ : E → F} {atom' : F → Prop}

/-- The wiring with other names for its ends. -/
def map (φ : E → F) (r : Wiring E) : Wiring F := fun u v => ∃ x y, r x y ∧ φ x = u ∧ φ y = v

theorem map_sup : (r ⊔ s).map φ = r.map φ ⊔ s.map φ := by
  ext u v
  constructor
  · rintro ⟨x, y, hr | hs, he⟩
    · exact .inl ⟨x, y, hr, he⟩
    · exact .inr ⟨x, y, hs, he⟩
  · rintro (⟨x, y, hr, he⟩ | ⟨x, y, hs, he⟩)
    · exact ⟨x, y, .inl hr, he⟩
    · exact ⟨x, y, .inr hs, he⟩

theorem map_congr (h : ∀ x y, r x y → φ x = ψ x ∧ φ y = ψ y) : r.map φ = r.map ψ := by
  ext u v
  constructor
  · rintro ⟨x, y, hr, rfl, rfl⟩
    exact ⟨x, y, hr, (h x y hr).1.symm, (h x y hr).2.symm⟩
  · rintro ⟨x, y, hr, rfl, rfl⟩
    exact ⟨x, y, hr, h x y hr⟩

theorem map_map {G : Type*} {χ : F → G} : (r.map φ).map χ = r.map (χ ∘ φ) := by
  ext u v
  constructor
  · rintro ⟨-, -, ⟨x, y, hr, rfl, rfl⟩, rfl, rfl⟩
    exact ⟨x, y, hr, rfl, rfl⟩
  · rintro ⟨x, y, hr, rfl, rfl⟩
    exact ⟨_, _, ⟨x, y, hr, rfl, rfl⟩, rfl, rfl⟩

/-- Other names that are kept apart do not change the ways. -/
theorem leads_map (hφ : Set.InjOn φ T) (hr : ∀ x y, r x y → x ∈ T ∧ y ∈ T)
    (ha : ∀ x, atom' (φ x) ↔ atom x) (hx : x ∈ T) (hy : y ∈ T) :
    Leads atom' (r.map φ) (φ x) (φ y) ↔ Leads atom r x y := by
  have hstep : ∀ a ∈ T, ∀ v, Step atom' (r.map φ) (φ a) v ↔ ∃ b ∈ T, Step atom r a b ∧ φ b = v := by
    intro a hat v
    constructor
    · rintro ⟨hn, ⟨a', b, hab, he, rfl⟩ | ⟨b, a', hba, rfl, he⟩⟩
      · obtain ⟨ha', hb⟩ := hr a' b hab
        cases hφ ha' hat he
        exact ⟨b, hb, ⟨fun h => hn ((ha _).mpr h), .inl hab⟩, rfl⟩
      · obtain ⟨hb, ha'⟩ := hr b a' hba
        cases hφ ha' hat he
        exact ⟨b, hb, ⟨fun h => hn ((ha _).mpr h), .inr hba⟩, rfl⟩
    · rintro ⟨b, -, ⟨hn, hab | hba⟩, rfl⟩
      · exact ⟨fun h => hn ((ha a).mp h), .inl ⟨a, b, hab, rfl, rfl⟩⟩
      · exact ⟨fun h => hn ((ha a).mp h), .inr ⟨b, a, hba, rfl, rfl⟩⟩
  constructor
  · intro h
    have hex : ∀ v, Leads atom' (r.map φ) (φ x) v → ∃ b ∈ T, Leads atom r x b ∧ φ b = v := by
      intro v h
      induction h with
      | refl => exact ⟨x, hx, .refl, rfl⟩
      | tail _ hs ih =>
        obtain ⟨b, hb, hxb, rfl⟩ := ih
        obtain ⟨c, hc, hbc, rfl⟩ := (hstep b hb _).mp hs
        exact ⟨c, hc, hxb.tail hbc, rfl⟩
    obtain ⟨b, hb, hxb, he⟩ := hex _ h
    rwa [hφ hb hy he] at hxb
  · intro h
    have hmap : ∀ b, Leads atom r x b → b ∈ T ∧ Leads atom' (r.map φ) (φ x) (φ b) := by
      intro b h
      induction h with
      | refl => exact ⟨hx, .refl⟩
      | @tail b c _ hs ih =>
        have hc : c ∈ T := hs.2.elim (fun h => (hr b c h).2) fun h => (hr c b h).1
        exact ⟨hc, ih.2.tail ((hstep b ih.1 _).mpr ⟨c, hc, hs, rfl⟩)⟩
    exact (hmap y h).2

end Map

end Wiring

end Lib
