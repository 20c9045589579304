import InetLisp.Core.Worker

/-! # The ledger

What refers to a wire or a principal wire: ports, fuzed values and whatever lies
outside of the net. A fuzed wire has given up one of its two ends and a destroyed
one both; a principal wire gives up the end at its oppsite. References and ends
that are given up are kept in one multiset, which most steps leave as it is.
-/

namespace InetLisp

open Lib

/-- Wires and principal wires have been allocated. -/
def Value.In (net : Net) : Value → Prop
  | .wire w => w < net.wires.length
  | .principalWire p => p < net.principalWires.length
  | _ => True

/-- The fuzed value of a wire, and the ends that the wire has given up. -/
def Wire.ledger (w : ℕ) : Wire → Multiset Value
  | ⟨none, false⟩ => 0
  | ⟨some v, false⟩ => {.wire w} + {v}
  | ⟨_, true⟩ => {.wire w} + {.wire w}

/-- The ends that a principal wire has given up. -/
def PrincipalWire.ledger (p : ℕ) : PrincipalWire → Multiset Value
  | ⟨_, _, none, false⟩ => 0
  | ⟨_, _, some _, false⟩ => {.principalWire p}
  | ⟨_, _, _, true⟩ => {.principalWire p} + {.principalWire p}

/-- The values in the ports of a node, less those that have been taken out. -/
noncomputable def Node.ledger (taken : Set (ℕ × ℕ)) (n : ℕ) (node : Node) : Multiset Value :=
  Slots.contentExcept {i | (n, i) ∈ taken} node.valueArray

noncomputable def Net.ledger (net : Net) (taken : Set (ℕ × ℕ)) : Multiset Value :=
  Cells.sum Wire.ledger net.wires + Cells.sum PrincipalWire.ledger net.principalWires +
    Cells.sum (Node.ledger taken) net.nodes

/-- Every wire and principal wire has two ends. -/
structure Linear (net : Net) (total : Multiset Value) : Prop where
  count_le : ∀ v, ¬ v.IsNonWire → total.count v ≤ 2
  allocated : ∀ v ∈ total, v.In net

section Wire

variable {w : ℕ} {v : Value} {o : Option Value}

@[simp] theorem Wire.ledger_new : Wire.ledger w ⟨none, false⟩ = 0 := rfl

@[simp] theorem Wire.ledger_fuzed : Wire.ledger w ⟨some v, false⟩ = {.wire w} + {v} := rfl

@[simp] theorem Wire.ledger_destroyed : Wire.ledger w ⟨o, true⟩ = {.wire w} + {.wire w} := by
  cases o <;> rfl

end Wire

section PrincipalWire

variable {p n i q : ℕ} {o : Option ℕ}

@[simp] theorem PrincipalWire.ledger_new : PrincipalWire.ledger p ⟨n, i, none, false⟩ = 0 := rfl

@[simp] theorem PrincipalWire.ledger_oppsite :
    PrincipalWire.ledger p ⟨n, i, some q, false⟩ = {.principalWire p} := rfl

@[simp] theorem PrincipalWire.ledger_destroyed :
    PrincipalWire.ledger p ⟨n, i, o, true⟩ = {.principalWire p} + {.principalWire p} := by
  cases o <;> rfl

end PrincipalWire

namespace Net

variable {net : Net} {taken : Set (ℕ × ℕ)} {w p n i k : ℕ} {c c' : Wire} {d d' : PrincipalWire}
  {node node' : Node} {v : Value} {l : Slots Value} {o : Option ℕ}

theorem ledger_setWire (taken : Set (ℕ × ℕ)) (c' : Wire) (h : net.wires[w]? = some c) :
    (net.setWire w c').ledger taken + Wire.ledger w c =
      net.ledger taken + Wire.ledger w c' := by
  have := Cells.sum_set Wire.ledger (b := c') h
  simp only [ledger, setWire]
  rw [add_right_comm, add_right_comm _ _ (Wire.ledger w c), this]
  abel

theorem ledger_setPrincipalWire (taken : Set (ℕ × ℕ)) (d' : PrincipalWire)
    (h : net.principalWires[p]? = some d) :
    (net.setPrincipalWire p d').ledger taken + PrincipalWire.ledger p d =
      net.ledger taken + PrincipalWire.ledger p d' := by
  have := Cells.sum_set PrincipalWire.ledger (b := d') h
  simp only [ledger, setPrincipalWire]
  rw [add_right_comm, add_assoc _ _ (PrincipalWire.ledger p d), this]
  abel

theorem ledger_setNode (taken : Set (ℕ × ℕ)) (node' : Node) (h : net.nodes[n]? = some node) :
    (net.setNode n node').ledger taken + Node.ledger taken n node =
      net.ledger taken + Node.ledger taken n node' := by
  have := Cells.sum_set (Node.ledger taken) (b := node') h
  simp only [ledger, setNode]
  rw [add_assoc, this]
  abel

theorem ledger_setSlot (taken : Set (ℕ × ℕ)) (v : Value) (k' : ℕ)
    (h : net.nodes[n]? = some ⟨o, l, k⟩) (hi : (n, i) ∉ taken) :
    (net.setNode n ⟨o, l.set i (some v), k'⟩).ledger taken + Slots.single (l.get i) =
      net.ledger taken + {v} := by
  have hs := ledger_setNode taken ⟨o, l.set i (some v), k'⟩ h
  have hc := Slots.contentExcept_set (l := l) (v := some v) (X := {j | (n, j) ∈ taken}) hi
  simp only [Node.ledger] at hs
  have : Slots.contentExcept {j | (n, j) ∈ taken} l + ((net.setNode n
      ⟨o, l.set i (some v), k'⟩).ledger taken + Slots.single (l.get i)) =
      Slots.contentExcept {j | (n, j) ∈ taken} l + (net.ledger taken + {v}) := by
    calc _ = ((net.setNode n ⟨o, l.set i (some v), k'⟩).ledger taken +
          Slots.contentExcept {j | (n, j) ∈ taken} l) + Slots.single (l.get i) := by abel
      _ = net.ledger taken + (Slots.contentExcept {j | (n, j) ∈ taken} (l.set i (some v)) +
          Slots.single (l.get i)) := by rw [hs]; abel
      _ = _ := by rw [hc, Slots.single_some]; abel
  exact add_left_cancel this

/-- Taking a port moves its value out of the ledger. -/
theorem ledger_insert (h : net.nodes[n]? = some node) (hi : (n, i) ∉ taken) :
    net.ledger (insert (n, i) taken) + Slots.single (node.valueArray.get i) = net.ledger taken := by
  have hn : ∀ X m, Node.ledger X m ⟨none, [], 0⟩ = 0 := fun _ _ => rfl
  have hrest : Cells.sum (Node.ledger (insert (n, i) taken)) (net.nodes.set n ⟨none, [], 0⟩) =
      Cells.sum (Node.ledger taken) (net.nodes.set n ⟨none, [], 0⟩) := by
    apply Cells.sum_congr
    intro m a hm
    rw [Cells.getElem?_set h] at hm
    split at hm
    · cases hm
      rw [hn, hn]
    · apply Slots.contentExcept_congr
      intro j _ _
      have hne : (m, j) ≠ (n, i) := fun he => ‹n ≠ m› (Prod.ext_iff.mp he).1.symm
      exact Set.mem_insert_iff.trans (or_iff_right hne)
  have hset : {j | (n, j) ∈ insert (n, i) taken} = insert i {j | (n, j) ∈ taken} := by
    ext j
    simp
  have hc := Slots.contentExcept_insert (l := node.valueArray) (X := {j | (n, j) ∈ taken}) hi
  unfold ledger
  rw [Cells.sum_eq_add _ h (hn _ n), Cells.sum_eq_add (Node.ledger taken) h (hn _ n), hrest]
  simp only [Node.ledger]
  rw [hset, ← hc]
  abel

@[simp] theorem ledger_newWire : net.newWire.2.ledger taken = net.ledger taken := by
  simp [ledger, newWire]

@[simp] theorem ledger_newPrincipalWire :
    (net.newPrincipalWire n i).2.ledger taken = net.ledger taken := by
  simp [ledger, newPrincipalWire]

@[simp] theorem ledger_newNode {c : ℕ} : (net.newNode c).2.ledger taken = net.ledger taken := by
  simp [ledger, newNode, Node.ledger]

end Net

end InetLisp
