import InetLisp.Lib.Wiring
import Mathlib.Data.List.Perm.Subperm
import Mathlib.Data.Sym.Sym2

/-! # Agents that meet

Agents have ends of their own, some of them principal. When a way leads from a principal end of one
agent to one of another, the two can meet: both are gone then, others are born, and ties are added
between what is seen of the rest. Which meetings take place does not depend on their order: what has
led to the principal end of an agent that is gone is sealed, and leads nowhere else ever after.
-/

namespace Lib

open Wiring

/-- Meetings of agents `A` with ends `E`; each `X` is one that is possible between two agents. -/
structure Meetings (E A X : Type*) where
  atom : E → Prop
  ports : A → Set E
  principal : A → Set E
  /-- Ends that are always seen. -/
  outer : Set E
  base : Wiring E
  start : Set A
  possible : X → Prop
  left : X → A
  right : X → A
  births : X → Set A
  ties : X → Wiring E

namespace Meetings

variable {E A X : Type*} {M : Meetings E A X} {F G : List X} {a b : A} {e e' : X} {x y z : E}

/-- Ends belong to one agent, and two agents can meet in one way. -/
structure Lawful (M : Meetings E A X) : Prop where
  port : ∀ a, ∀ x ∈ M.principal a, x ∈ M.ports a
  notAtom : ∀ a, ∀ x ∈ M.ports a, ¬ M.atom x
  notOuter : ∀ a, ∀ x ∈ M.ports a, x ∉ M.outer
  owner : ∀ a b, ∀ x ∈ M.ports a, x ∈ M.ports b → a = b
  ne : ∀ e, M.possible e → M.left e ≠ M.right e
  unique : ∀ e e', M.possible e → M.possible e' →
    s(M.left e, M.right e) = s(M.left e', M.right e') → e = e'

/-- The agents that have been there after some meetings. -/
def born (M : Meetings E A X) (F : List X) : Set A := {a | a ∈ M.start ∨ ∃ e ∈ F, a ∈ M.births e}

def gone (M : Meetings E A X) (F : List X) : Set A := {a | ∃ e ∈ F, a = M.left e ∨ a = M.right e}

/-- The ends of agents that are there, and those outside. -/
def visible (M : Meetings E A X) (F : List X) : Set E :=
  {x | x ∈ M.outer ∨ ∃ a ∈ M.born F, a ∉ M.gone F ∧ x ∈ M.ports a}

/-- All ties that have ever been made. -/
def wiring (M : Meetings E A X) (F : List X) : Wiring E :=
  fun x y => M.base x y ∨ ∃ e ∈ F, M.ties e x y

/-- The end is no part of what has been there. -/
def Fresh (M : Meetings E A X) (F : List X) (x : E) : Prop :=
  Isolated (M.wiring F) x ∧ x ∉ M.outer ∧ ∀ a ∈ M.born F, x ∉ M.ports a

/-- The principal ends of the two agents of a meeting. -/
def pair (M : Meetings E A X) (e : X) : Set E := M.principal (M.left e) ∪ M.principal (M.right e)

/-- The two agents can meet now. -/
structure Fires (M : Meetings E A X) (F : List X) (e : X) : Prop where
  possible : M.possible e
  left : M.left e ∈ M.born F ∧ M.left e ∉ M.gone F
  right : M.right e ∈ M.born F ∧ M.right e ∉ M.gone F
  meet : ∃ x ∈ M.principal (M.left e), ∃ y ∈ M.principal (M.right e),
    Wiring.Leads M.atom (M.wiring F) x y
  /-- A way from one of the principal ends leads nowhere else. -/
  only : ∀ x ∈ M.pair e, ∀ y, Wiring.Leads M.atom (M.wiring F) x y → y ∈ M.visible F ∨ M.atom y →
    y ∈ M.pair e
  ties : ∀ x y, M.ties e x y → ∀ z, z = x ∨ z = y →
    M.atom z ∨ M.Fresh F z ∨ z ∈ M.visible F ∧ z ∉ M.pair e
  births : ∀ a ∈ M.births e, ∀ x ∈ M.ports a, M.Fresh F x

/-- The meetings of a run, the last one first. -/
inductive Run (M : Meetings E A X) : List X → Prop
  | nil : Run M []
  | cons {F : List X} {e : X} (h : Run M F) (he : M.Fires F e) : Run M (e :: F)

theorem wiring_cons : M.wiring (e :: F) = M.wiring F ⊔ M.ties e := by
  ext x y
  change (_ ∨ ∃ e' ∈ e :: F, _) ↔ (_ ∨ ∃ e' ∈ F, _) ∨ _
  simp only [List.mem_cons, or_and_right, exists_or, exists_eq_left, or_assoc]
  exact or_congr_right or_comm

theorem mem_born_cons : a ∈ M.born (e :: F) ↔ a ∈ M.born F ∨ a ∈ M.births e := by
  change (_ ∨ ∃ e' ∈ e :: F, _) ↔ (_ ∨ ∃ e' ∈ F, _) ∨ _
  simp only [List.mem_cons, or_and_right, exists_or, exists_eq_left, or_assoc]
  exact or_congr_right or_comm

theorem mem_gone_cons : a ∈ M.gone (e :: F) ↔ (a = M.left e ∨ a = M.right e) ∨ a ∈ M.gone F := by
  change (∃ e' ∈ e :: F, _) ↔ _ ∨ ∃ e' ∈ F, _
  simp only [List.mem_cons, or_and_right, exists_or, exists_eq_left]

theorem born_mono (h : F ⊆ G) : M.born F ⊆ M.born G :=
  fun _ => Or.imp_right fun ⟨e, he, ha⟩ => ⟨e, h he, ha⟩

theorem gone_mono (h : F ⊆ G) : M.gone F ⊆ M.gone G := fun _ ⟨e, he, ha⟩ => ⟨e, h he, ha⟩

theorem wiring_mono (h : F ⊆ G) : M.wiring F ≤ M.wiring G :=
  fun _ _ => Or.imp_right fun ⟨e, he, ht⟩ => ⟨e, h he, ht⟩

theorem Lawful.mem_ports_of_pair (hM : M.Lawful) (hx : x ∈ M.pair e) :
    x ∈ M.ports (M.left e) ∨ x ∈ M.ports (M.right e) :=
  Or.imp (hM.port _ x) (hM.port _ x) hx

theorem Fires.visible_cons (hM : M.Lawful) (h : M.Fires F e) (hx : x ∈ M.visible (e :: F)) :
    M.Fresh F x ∨ x ∈ M.visible F ∧ x ∉ M.pair e := by
  rcases hx with hx | ⟨a, ha, hg, hx⟩
  · refine .inr ⟨.inl hx, fun hp => ?_⟩
    rcases hM.mem_ports_of_pair hp with hp | hp
    · exact hM.notOuter _ x hp hx
    · exact hM.notOuter _ x hp hx
  · rw [mem_gone_cons, not_or, not_or] at hg
    rcases mem_born_cons.mp ha with ha | ha
    · refine .inr ⟨.inr ⟨a, ha, hg.2, hx⟩, fun hp => ?_⟩
      rcases hM.mem_ports_of_pair hp with hp | hp
      · exact hg.1.1 (hM.owner _ _ x hx hp)
      · exact hg.1.2 (hM.owner _ _ x hx hp)
    · exact .inl (h.births a ha x hx)

/-- A meeting does not touch what leads from a principal end to nothing that is seen, but for the
principal ends of the meeting. -/
theorem Fires.untouched (hM : M.Lawful) (h : M.Fires F e) (ha : a ∈ M.born F)
    (hx : x ∈ M.principal a) (hsee : ∀ y, Wiring.Leads M.atom (M.wiring F) x y →
      y ∈ M.visible F ∨ M.atom y → y ∈ M.pair e)
    (hl : Wiring.Leads M.atom (M.wiring (e :: F)) x y) :
    Wiring.Leads M.atom (M.wiring F) x y ∧ y ∉ M.visible (e :: F) ∧ ¬ M.atom y := by
  have hclear : ∀ z, Wiring.Leads M.atom (M.wiring F) x z →
      ¬ (M.atom z ∨ M.Fresh F z ∨ z ∈ M.visible F ∧ z ∉ M.pair e) := by
    rintro z hz (hatom | hfresh | ⟨hvis, hp⟩)
    · rcases hM.mem_ports_of_pair (hsee z hz (.inr hatom)) with hp | hp
      · exact hM.notAtom _ z hp hatom
      · exact hM.notAtom _ z hp hatom
    · cases hfresh.1.eq_of_leads_to hz
      exact hfresh.2.2 a ha (hM.port a x hx)
    · exact hp (hsee z hz (.inl hvis))
  rw [wiring_cons] at hl
  have hl' : Wiring.Leads M.atom (M.wiring F) x y := by
    apply Leads.of_sup _ hl
    intro z hz b
    constructor
    · exact fun ht => hclear z hz (h.ties z b ht z (.inl rfl))
    · exact fun ht => hclear z hz (h.ties b z ht z (.inr rfl))
  refine ⟨hl', ?_, ?_⟩
  · exact fun hv => hclear y hl' (.inr (h.visible_cons hM hv))
  · exact fun hatom => hclear y hl' (.inl hatom)

/-- What holds of the agents that are gone. -/
structure Sealed (M : Meetings E A X) (F : List X) : Prop where
  possible : ∀ e ∈ F, M.possible e
  nodup : F.Nodup
  born : ∀ a ∈ M.gone F, a ∈ M.born F
  /-- Their principal ends lead to nothing that is seen. -/
  away : ∀ a ∈ M.gone F, ∀ x ∈ M.principal a, ∀ y, Wiring.Leads M.atom (M.wiring F) x y →
    y ∉ M.visible F ∧ ¬ M.atom y
  /-- Those that lead to each other have met. -/
  together : ∀ a ∈ M.gone F, ∀ b ∈ M.gone F, ∀ x ∈ M.principal a, ∀ y ∈ M.principal b,
    Wiring.Leads M.atom (M.wiring F) x y → a = b ∨ ∃ e ∈ F, s(a, b) = s(M.left e, M.right e)

theorem Sealed.nil : M.Sealed [] where
  possible := by simp
  nodup := .nil
  born := by simp [gone]
  away := by simp [gone]
  together := by simp [gone]

theorem Sealed.cons (hM : M.Lawful) (h : M.Sealed F) (he : M.Fires F e) : M.Sealed (e :: F) := by
  have hold : ∀ {a x y}, a ∈ M.gone F → x ∈ M.principal a →
      Wiring.Leads M.atom (M.wiring (e :: F)) x y →
        Wiring.Leads M.atom (M.wiring F) x y ∧ y ∉ M.visible (e :: F) ∧ ¬ M.atom y := by
    intro a x y ha hx hl
    apply he.untouched hM (h.born a ha) hx _ hl
    intro z hz hsee
    obtain ⟨h₁, h₂⟩ := h.away a ha x hx z hz
    exact (hsee.elim h₁ h₂).elim
  have hnew : ∀ {a x y}, a = M.left e ∨ a = M.right e → x ∈ M.principal a →
      Wiring.Leads M.atom (M.wiring (e :: F)) x y →
        Wiring.Leads M.atom (M.wiring F) x y ∧ y ∉ M.visible (e :: F) ∧ ¬ M.atom y := by
    rintro a x y (rfl | rfl) hx hl
    · exact he.untouched hM he.left.1 hx (he.only x (.inl hx)) hl
    · exact he.untouched hM he.right.1 hx (he.only x (.inr hx)) hl
  -- An agent of this meeting was seen until now, so nothing that was gone has led to it.
  have hmixed : ∀ {a b x y}, a ∈ M.gone F → b = M.left e ∨ b = M.right e → x ∈ M.principal a →
      y ∈ M.principal b → ¬ Wiring.Leads M.atom (M.wiring F) x y := by
    intro a b x y ha hb hx hy hl
    apply (h.away a ha x hx y hl).1
    rcases hb with rfl | rfl
    · exact .inr ⟨_, he.left.1, he.left.2, hM.port _ y hy⟩
    · exact .inr ⟨_, he.right.1, he.right.2, hM.port _ y hy⟩
  constructor
  · intro e' he'
    rcases List.mem_cons.mp he' with rfl | he'
    · exact he.possible
    · exact h.possible e' he'
  · exact List.nodup_cons.mpr ⟨fun hm => he.left.2 ⟨e, hm, .inl rfl⟩, h.nodup⟩
  · intro a ha
    rw [mem_born_cons]
    rcases mem_gone_cons.mp ha with (rfl | rfl) | ha
    · exact .inl he.left.1
    · exact .inl he.right.1
    · exact .inl (h.born a ha)
  · intro a ha x hx y hl
    rcases mem_gone_cons.mp ha with ha | ha
    · exact (hnew ha hx hl).2
    · exact (hold ha hx hl).2
  · intro a ha b hb x hx y hy hl
    rcases mem_gone_cons.mp ha with ha | ha
    · have hl₁ := (hnew ha hx hl).1
      rcases mem_gone_cons.mp hb with hb | hb
      · rcases ha with rfl | rfl
        · rcases hb with rfl | rfl
          · exact .inl rfl
          · exact .inr ⟨e, List.mem_cons_self .., rfl⟩
        · rcases hb with rfl | rfl
          · exact .inr ⟨e, List.mem_cons_self .., Sym2.eq_swap⟩
          · exact .inl rfl
      · exact (hmixed hb ha hy hx (hl₁.symm (hM.notAtom b y (hM.port b y hy)))).elim
    · have hl₁ := (hold ha hx hl).1
      rcases mem_gone_cons.mp hb with hb | hb
      · exact (hmixed ha hb hx hy hl₁).elim
      · rcases h.together a ha b hb x hx y hy hl₁ with he' | ⟨e', he', hs⟩
        · exact .inl he'
        · exact .inr ⟨e', List.mem_cons_of_mem _ he', hs⟩

theorem Run.sealed (hM : M.Lawful) (h : M.Run F) : M.Sealed F := by
  induction h with
  | nil => exact .nil
  | cons _ he ih => exact ih.cons hM he

/-- No two agents that are there can meet. -/
def Complete (M : Meetings E A X) (F : List X) : Prop :=
  ∀ e, M.possible e → M.left e ∈ M.born F → M.left e ∉ M.gone F → M.right e ∈ M.born F →
    M.right e ∉ M.gone F → ∀ x ∈ M.principal (M.left e), ∀ y ∈ M.principal (M.right e),
      ¬ Wiring.Leads M.atom (M.wiring F) x y

/-- All meetings of any run take place in each complete one. -/
theorem Run.subset (hM : M.Lawful) (h : M.Run F) (hc : M.Complete F) (h' : M.Run G) : G ⊆ F := by
  have hF := h.sealed hM
  induction h' with
  | nil => exact List.nil_subset F
  | @cons G e hG he ih =>
    apply List.cons_subset.mpr ⟨_, ih⟩
    have hp := he.possible
    have hl := born_mono ih he.left.1
    have hr := born_mono ih he.right.1
    obtain ⟨x, hx, y, hy, hway⟩ := he.meet
    have hway := hway.mono (wiring_mono ih)
    by_cases hgl : M.left e ∈ M.gone F
    · by_cases hgr : M.right e ∈ M.gone F
      · rcases hF.together _ hgl _ hgr x hx y hy hway with heq | ⟨e', he', hs⟩
        · exact (hM.ne e hp heq).elim
        · rwa [hM.unique e e' hp (hF.possible e' he') hs]
      · exact ((hF.away _ hgl x hx y hway).1 (.inr ⟨_, hr, hgr, hM.port _ y hy⟩)).elim
    · by_cases hgr : M.right e ∈ M.gone F
      · have hback := hway.symm (hM.notAtom _ y (hM.port _ y hy))
        exact ((hF.away _ hgr y hy x hback).1 (.inr ⟨_, hl, hgl, hM.port _ x hx⟩)).elim
      · exact (hc e hp hl hgl hr hgr x hx y hy hway).elim

/-- No run is longer than a complete one. -/
theorem Run.length_le (hM : M.Lawful) (h : M.Run F) (hc : M.Complete F) (h' : M.Run G) :
    G.length ≤ F.length :=
  ((h'.sealed hM).nodup.subperm (h.subset hM hc h')).length_le

end Meetings

end Lib
