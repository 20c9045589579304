import InetLisp.Core.Principals
import InetLisp.Core.Rewrite

/-! # Principal ports that meet

Two principal ports are an active pair if a way leads from one to the other, and only then; what
else there is, no way leads to it from there.
-/

namespace InetLisp

open Lib Wiring Net.Parts

variable {P : Program} {missed : Set Redex} {net : Net} {outside : Multiset Value}
  {tasks : Multiset Task} {n i m j p q c d : ℕ} {v : Value} {x y : End} {left right : NodeCtor}
  {o : Option ℕ}

/-- A chain of fuzed wires that ends at the principal wire. -/
inductive Net.Resolves (net : Net) (p : ℕ) : Value → Prop
  | here : Resolves net p (.principalWire p)
  | step {w : ℕ} {v : Value} (hw : net.wires[w]? = some ⟨some v, false⟩) (h : Resolves net p v) :
      Resolves net p (.wire w)

/-- What is tied to a chain that ends at the principal wire of a port. -/
def Net.strand (net : Net) (p n i : ℕ) : Set End :=
  {x | x = .port n i ∨ (∃ v, net.Resolves p v ∧ x = .value v) ∨
    ∃ m j w, net.Resolves p (.wire w) ∧ net.Refers (.port m j) (.wire w) ∧ x = .port m j}

namespace Inv

theorem mem_pairEnds_of_leads (h : Inv P missed net outside tasks {})
    (hp : net.principalWires[p]? = some ⟨n, i, some q, false⟩)
    (hq : net.principalWires[q]? = some ⟨m, j, some p, false⟩) (hx : x ∈ pairEnds p q n i m j)
    (hl : Leads End.IsAtom net.Tied x y) : y ∈ pairEnds p q n i m j := by
  have hclosed : ∀ {p q n i m j : ℕ}, net.principalWires[p]? = some ⟨n, i, some q, false⟩ →
      net.Refers (.port n i) (.principalWire p) →
        ∀ a, a = .port n i ∨ a = .value (.principalWire p) →
          ∀ b, net.Tied a b ∨ net.Tied b a → b ∈ pairEnds p q n i m j := by
    intro p q n i m j hp hport a ha b hab
    have hab' : (∃ v, b = .value v ∧ net.Refers a v) ∨ ∃ v, a = .value v ∧ net.Refers b v :=
      hab.elim id Or.symm
    rcases hab' with ⟨v, rfl, hr⟩ | ⟨v, rfl, hr⟩
    · rcases ha with rfl | rfl
      · cases hport.unique hr
        exact .inr (.inr (.inl rfl))
      · cases (Net.Refers.oppsite hp).unique hr
        exact .inr (.inr (.inr rfl))
    · rcases ha with ha | ha <;> cases ha
      rcases h.refers_of_oppsite hp hr with rfl | rfl
      · exact .inl rfl
      · exact .inr (.inr (.inr rfl))
  have hswap : pairEnds q p m j n i = pairEnds p q n i m j := by
    ext z
    simp only [pairEnds, Set.mem_insert_iff, Set.mem_singleton_iff]
    tauto
  apply Leads.mem_of_closed _ hx hl
  intro a ha b hab
  rcases ha with rfl | rfl | rfl | rfl
  · exact hclosed hp (h.refers_owner hp) _ (.inl rfl) b hab
  · exact hswap ▸ hclosed hq (h.refers_owner hq) _ (.inl rfl) b hab
  · exact hclosed hp (h.refers_owner hp) _ (.inr rfl) b hab
  · exact hswap ▸ hclosed hq (h.refers_owner hq) _ (.inr rfl) b hab

theorem mem_strand_of_leads (h : Inv P missed net outside tasks {})
    (hp : net.principalWires[p]? = some ⟨n, i, none, false⟩)
    (hl : Leads End.IsAtom net.Tied (.port n i) y) : y ∈ net.strand p n i := by
  apply Leads.mem_of_closed _ (.inl rfl) hl
  intro a ha b hab
  have hab' : (∃ v, b = .value v ∧ net.Refers a v) ∨ ∃ v, a = .value v ∧ net.Refers b v :=
    hab.elim id Or.symm
  rcases ha with rfl | ⟨v, hv, rfl⟩ | ⟨m, j, w, hw, hr, rfl⟩
  · rcases hab' with ⟨v, rfl, hr⟩ | ⟨v, he, -⟩
    · cases (h.refers_owner hp).unique hr
      exact .inr (.inl ⟨_, .here, rfl⟩)
    · cases he
  · rcases hab' with ⟨u, rfl, hr⟩ | ⟨u, he, hr⟩
    · cases hv with
      | here =>
        obtain ⟨n', i', q, hp', -⟩ := Net.refers_principalWire.mp hr
        cases hp.symm.trans hp'
      | step hw hv =>
        cases (Net.Refers.wire hw).unique hr
        exact .inr (.inl ⟨_, hv, rfl⟩)
    · cases he
      cases hr with
      | @port m c j k l _ hm hj =>
        cases hv with
        | here =>
          obtain ⟨o, hp'⟩ := h.shape.port m c l k j p hm hj (Set.notMem_empty _)
          cases hp.symm.trans hp'
          exact .inl rfl
        | step hw hv => exact .inr (.inr ⟨m, j, _, .step hw hv, .port hm hj, rfl⟩)
      | @wire w _ hw => exact .inr (.inl ⟨_, .step hw hv, rfl⟩)
      | @oppsite r n' i' r' hr =>
        cases hv with
        | here =>
          obtain ⟨-, hd | ⟨n'', i'', hp'⟩⟩ := h.shape.oppsite r n' i' p hr
          · exact hd.elim
          · cases hp.symm.trans hp'
  · rcases hab' with ⟨u, rfl, hr'⟩ | ⟨u, he, -⟩
    · cases hr.unique hr'
      exact .inr (.inl ⟨_, hw, rfl⟩)
    · cases he

/-- Principal ports of two nodes that lead to each other belong to principal wires that are each
other's oppsite. -/
theorem exists_oppsites (h : Inv P missed net outside tasks {}) (hX : net.Principals P ∅)
    (hn : CtorOf net.nodes n c) (hm : CtorOf net.nodes m d) (hc : P.nodeCtor c = some left)
    (hd : P.nodeCtor d = some right) (hpl : left.primitive = none) (hpr : right.primitive = none)
    (hi : left.IsPrincipal i) (hj : right.IsPrincipal j) (hnm : n ≠ m)
    (hl : Leads End.IsAtom net.Tied (.port n i) (.port m j)) :
    ∃ p q, Oppsites net.principalWires net.nodes p q c d := by
  obtain ⟨l, k, hnl⟩ := hn
  obtain ⟨l', k', hml⟩ := hm
  obtain ⟨p, hp⟩ := hX n c l k left i hnl hc hpl hi (Set.notMem_empty _)
  obtain ⟨q, hq⟩ := hX m d l' k' right j hml hd hpr hj (Set.notMem_empty _)
  obtain ⟨o, hpo⟩ := h.shape.port n c l k i p hnl hp (Set.notMem_empty _)
  have hport : net.Refers (.port m j) (.principalWire q) := .port hml hq
  cases o with
  | none =>
    rcases h.mem_strand_of_leads hpo hl with he | ⟨v, -, he⟩ | ⟨m', j', w, -, hr, he⟩
    · exact (hnm (End.port.inj he).1.symm).elim
    · cases he
    · cases he
      cases hport.unique hr
  | some r =>
    obtain ⟨-, hdang | ⟨m', j', hro⟩⟩ := h.shape.oppsite p n i r hpo
    · exact hdang.elim
    · rcases h.mem_pairEnds_of_leads hpo hro (.inl rfl) hl with he | he | he | he
      · exact (hnm (End.port.inj he).1.symm).elim
      · cases he
        cases hport.unique (h.refers_owner hro)
        exact ⟨p, q, n, i, m, j, hpo, hro, ⟨l, k, hnl⟩, ⟨l', k', hml⟩⟩
      · cases he
      · cases he

end Inv

end InetLisp
