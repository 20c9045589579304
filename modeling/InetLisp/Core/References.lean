import InetLisp.Core.Invariant

/-! # What refers to a wire

The ledger of a net counts the ends that wires have given up besides the places that refer to
them. Where nothing is dangling, the oppsites of principal wires are fewer than those ends, so
a wire has no more than two references, and none of them leads to a wire that is destroyed.
-/

namespace InetLisp

open Lib

def Wire.references : Wire → Multiset Value
  | ⟨some v, false⟩ => {v}
  | _ => 0

def Wire.ends (w : ℕ) : Wire → Multiset Value
  | ⟨none, false⟩ => 0
  | ⟨some _, false⟩ => {.wire w}
  | ⟨_, true⟩ => {.wire w} + {.wire w}

def PrincipalWire.references : PrincipalWire → Multiset Value
  | ⟨_, _, some q, false⟩ => {.principalWire q}
  | _ => 0

/-- The fuzed values of wires, and the values in ports that have not been taken out. -/
noncomputable def Net.values (net : Net) (taken : Set (ℕ × ℕ)) : Multiset Value :=
  Cells.sum (fun _ => Wire.references) net.wires + Cells.sum (Node.ledger taken) net.nodes

def Net.oppsites (net : Net) : Multiset Value :=
  Cells.sum (fun _ => PrincipalWire.references) net.principalWires

/-- Whatever refers to a wire or a principal wire. -/
noncomputable def Net.references (net : Net) (taken : Set (ℕ × ℕ)) : Multiset Value :=
  net.values taken + net.oppsites

/-- A wire that is allocated and not destroyed, or no wire. -/
def Value.Alive (net : Net) : Value → Prop
  | .wire w => ∃ o, net.wires[w]? = some ⟨o, false⟩
  | .principalWire p => ∃ (n i : ℕ) (o : Option ℕ), net.principalWires[p]? = some ⟨n, i, o, false⟩
  | _ => True

theorem Wire.ledger_eq (w : ℕ) (c : Wire) : c.ledger w = c.ends w + c.references := by
  obtain ⟨_ | v, _ | _⟩ := c <;> rfl

variable {P : Program} {missed : Set Redex} {net : Net} {outside : Multiset Value}
  {tasks : Multiset Task} {G : Open} {v : Value} {w p q : ℕ}

theorem PrincipalWire.mem_references {l : List PrincipalWire}
    (h : v ∈ Cells.sum (fun _ => PrincipalWire.references) l) :
    ∃ q n i p : ℕ, l[q]? = some ⟨n, i, some p, false⟩ ∧ v = .principalWire p := by
  obtain ⟨q, ⟨n, i, o, b⟩, hq, hv⟩ := Cells.mem_sum h
  rcases o with _ | p
  · cases hv
  · cases b with
    | true => cases hv
    | false => exact ⟨q, n, i, p, hq, Multiset.mem_singleton.mp hv⟩

theorem Net.mem_values {taken : Set (ℕ × ℕ)} {n i : ℕ} {node : Node}
    (hn : net.nodes[n]? = some node) (hi : node.valueArray.get i = some v)
    (ht : (n, i) ∉ taken) : v ∈ net.values taken := by
  obtain ⟨r, hr⟩ := Cells.exists_sum_eq (Node.ledger taken) hn
  refine Multiset.mem_add.mpr (.inr ?_)
  rw [hr]
  exact Multiset.mem_add.mpr (.inl (Slots.mem_contentExcept ht hi))

theorem Net.ledger_eq (taken : Set (ℕ × ℕ)) : net.ledger taken = Cells.sum Wire.ends net.wires +
    Cells.sum PrincipalWire.ledger net.principalWires + net.values taken := by
  have h : Cells.sum Wire.ledger net.wires = Cells.sum Wire.ends net.wires +
      Cells.sum (fun _ => Wire.references) net.wires := by
    rw [← Cells.sum_add]
    exact Cells.sum_congr Wire.ledger fun w c _ => c.ledger_eq w
  rw [ledger, h, values]
  abel

namespace Inv

/-- A principal wire is the oppsite of one other at most, and has given up an end for it. -/
theorem count_oppsites_le (h : Inv P missed net outside tasks G) (hd : G.dangling = ∅) :
    net.oppsites.count (.principalWire p) ≤
      (Cells.sum PrincipalWire.ledger net.principalWires).count (.principalWire p) := by
  have hback : ∀ {q n i : ℕ}, net.principalWires[q]? = some ⟨n, i, some p, false⟩ →
      ∃ m j : ℕ, net.principalWires[p]? = some ⟨m, j, some q, false⟩ := by
    intro q n i hq
    have hdangling : q ∉ G.dangling := by simp [hd]
    exact (h.shape.oppsite q n i p hq).2.resolve_left hdangling
  by_cases hm : .principalWire p ∈ net.oppsites
  · obtain ⟨q, n, i, _, hq, ⟨⟩⟩ := PrincipalWire.mem_references hm
    obtain ⟨m, j, hp⟩ := hback hq
    have hrest : .principalWire p ∉ Cells.sum (fun _ => PrincipalWire.references)
        (net.principalWires.set q ⟨n, i, none, false⟩) := by
      intro hm
      obtain ⟨q', n', i', _, hq', ⟨⟩⟩ := PrincipalWire.mem_references hm
      rw [Cells.getElem?_set hq] at hq'
      split at hq'
      · cases hq'
      · obtain ⟨m', j', hp'⟩ := hback hq'
        cases hp.symm.trans hp'
        contradiction
    have hone : net.oppsites.count (.principalWire p) = 1 := by
      rw [Net.oppsites, Cells.sum_eq_add _ (b := ⟨n, i, none, false⟩) hq rfl, Multiset.count_add,
        Multiset.count_eq_zero.mpr hrest]
      exact Multiset.count_singleton_self _
    rw [hone]
    obtain ⟨r, hr⟩ := Cells.exists_sum_eq PrincipalWire.ledger hp
    rw [hr, PrincipalWire.ledger_oppsite, Multiset.count_add, Multiset.count_singleton_self]
    exact Nat.le_add_right 1 _
  · rw [Multiset.count_eq_zero.mpr hm]
    exact Nat.zero_le _

/-- Nothing has more than two references. -/
theorem count_references_le (h : Inv P missed net outside tasks G) (hd : G.dangling = ∅)
    (hv : ¬ v.IsNonWire) : (outside + net.references G.taken).count v ≤ 2 := by
  refine le_trans ?_ (h.linear.count_le v hv)
  have hopp : net.oppsites.count v ≤
      (Cells.sum PrincipalWire.ledger net.principalWires).count v := by
    cases v with
    | principalWire p => exact h.count_oppsites_le hd
    | wire w =>
      have hm : .wire w ∉ net.oppsites := by
        intro hm
        obtain ⟨_, _, _, _, _, ⟨⟩⟩ := PrincipalWire.mem_references hm
      rw [Multiset.count_eq_zero.mpr hm]
      exact Nat.zero_le _
    | _ => exact (hv trivial).elim
  rw [Net.references, Net.ledger_eq]
  simp only [Multiset.count_add]
  omega

theorem alive_of_mem (h : Inv P missed net outside tasks G) (hd : G.dangling = ∅)
    (hv : v ∈ outside + net.references G.taken) : v.Alive net := by
  rw [Net.references, ← add_assoc] at hv
  rcases Multiset.mem_add.mp hv with hv | hv
  · have htotal : outside + net.ledger G.taken = Cells.sum Wire.ends net.wires +
        (Cells.sum PrincipalWire.ledger net.principalWires + (outside + net.values G.taken)) := by
      rw [Net.ledger_eq]
      abel
    have hlt := h.linear.allocated v (by
      rw [htotal]
      exact Multiset.mem_add.mpr (.inr (Multiset.mem_add.mpr (.inr hv))))
    have hle : {v} ≤ outside + net.values G.taken := Multiset.singleton_le.mpr hv
    -- A wire that is destroyed has given up both ends, so this one would be a third.
    cases v with
    | wire w =>
      have hlt : w < net.wires.length := hlt
      obtain ⟨⟨o, b⟩, hw⟩ : ∃ c, net.wires[w]? = some c := ⟨_, List.getElem?_eq_getElem hlt⟩
      cases b with
      | false => exact ⟨o, hw⟩
      | true =>
        refine (h.linear.not_three (v := .wire w) id ?_).elim
        obtain ⟨r, hr⟩ := Cells.exists_sum_eq Wire.ends hw
        have hends : Wire.ends w ⟨o, true⟩ = {.wire w} + {.wire w} := by cases o <;> rfl
        rw [htotal, hr, hends]
        exact add_le_add (Multiset.le_add_right _ _) (hle.trans (Multiset.le_add_left _ _))
    | principalWire p =>
      have hlt : p < net.principalWires.length := hlt
      obtain ⟨⟨n, i, o, b⟩, hp⟩ : ∃ d, net.principalWires[p]? = some d :=
        ⟨_, List.getElem?_eq_getElem hlt⟩
      cases b with
      | false => exact ⟨n, i, o, hp⟩
      | true =>
        refine (h.linear.not_three (v := .principalWire p) id ?_).elim
        obtain ⟨r, hr⟩ := Cells.exists_sum_eq PrincipalWire.ledger hp
        rw [htotal, hr, PrincipalWire.ledger_destroyed]
        refine le_trans ?_ (Multiset.le_add_left _ _)
        exact add_le_add (Multiset.le_add_right _ _) hle
    | _ => trivial
  · obtain ⟨q, n, i, p, hq, rfl⟩ := PrincipalWire.mem_references hv
    have hdangling : q ∉ G.dangling := by simp [hd]
    obtain ⟨m, j, hp⟩ := (h.shape.oppsite q n i p hq).2.resolve_left hdangling
    exact ⟨m, j, _, hp⟩

end Inv

end InetLisp
