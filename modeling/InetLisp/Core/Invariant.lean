import InetLisp.Core.Redex

/-! # The invariant of a net

Every wire and principal wire has two ends, ports and principal wires fit, and the
pending tasks are the redexes. Each step of a worker keeps the invariant: what it
takes from outside of the net it puts into the net, or the other way round.
-/

namespace InetLisp

open Lib

/-- The errors of a step that keeps the invariant: the program stops, and is told why. -/
def Error.Expected (e : Error) : Prop := e.Reported ∧ e ≠ .foundTask

/-- `outside` is what refers to the net, on stacks, in frames and in definitions. -/
structure Inv (P : Program) (missed : Set Redex) (net : Net) (outside : Multiset Value)
    (tasks : Multiset Task) (G : Open) : Prop where
  linear : Linear net (outside + net.ledger G.taken)
  shape : Shape P net.principalWires net.nodes G
  pending : Pending P missed net.principalWires net.nodes tasks

namespace Linear

variable {net net' : Net} {total total' : Multiset Value} {v : Value}

theorem mono (h : Linear net total) (ht : total' ≤ total)
    (hw : net.wires.length ≤ net'.wires.length)
    (hp : net.principalWires.length ≤ net'.principalWires.length) : Linear net' total' where
  count_le v hv := (Multiset.count_le_of_le v ht).trans (h.count_le v hv)
  allocated v hv := by
    have := h.allocated v (Multiset.mem_of_le ht hv)
    cases v with
    | wire w => exact lt_of_lt_of_le this hw
    | principalWire p => exact lt_of_lt_of_le this hp
    | _ => trivial

theorem congr (h : Linear net total) (ht : total' = total)
    (hw : net.wires.length ≤ net'.wires.length)
    (hp : net.principalWires.length ≤ net'.principalWires.length) : Linear net' total' :=
  h.mono ht.le hw hp

theorem add (net' : Net) (v : Value) (h : Linear net total) (hv : ¬ v.In net) (hv' : v.In net')
    (hw : net.wires.length ≤ net'.wires.length)
    (hp : net.principalWires.length ≤ net'.principalWires.length) :
    Linear net' ({v} + {v} + total) where
  count_le u hu := by
    have hzero : total.count v = 0 := Multiset.count_eq_zero.mpr fun hm => hv (h.allocated v hm)
    rw [Multiset.count_add, Multiset.count_add, Multiset.count_singleton]
    split
    · subst u
      omega
    · have := h.count_le u hu
      omega
  allocated u hu := by
    rcases Multiset.mem_add.mp hu with hu | hu
    · have : u = v := by simpa using hu
      exact this ▸ hv'
    · exact (h.mono le_rfl hw hp).allocated u hu

theorem not_three (h : Linear net total) (hv : ¬ v.IsNonWire)
    (ht : ({v} + {v} + {v} : Multiset Value) ≤ total) : False := by
  have := (Multiset.count_le_of_le v ht).trans (h.count_le v hv)
  simp at this

end Linear

namespace Net

variable {net : Net} {taken : Set (ℕ × ℕ)} {w p n i : ℕ} {c : Wire} {d : PrincipalWire}
  {node : Node} {v : Value}

theorem wire_le_ledger (taken : Set (ℕ × ℕ)) (h : net.wires[w]? = some c) :
    Wire.ledger w c ≤ net.ledger taken := by
  obtain ⟨r, hr⟩ := Cells.exists_sum_eq Wire.ledger h
  unfold ledger
  rw [hr, add_assoc, add_assoc]
  exact Multiset.le_add_right _ _

theorem principal_le_ledger (taken : Set (ℕ × ℕ)) (h : net.principalWires[p]? = some d)
    (hn : net.nodes[n]? = some node) (hi : node.valueArray.get i = some v) (ht : (n, i) ∉ taken) :
    PrincipalWire.ledger p d + {v} ≤ net.ledger taken := by
  obtain ⟨r, hr⟩ := Cells.exists_sum_eq PrincipalWire.ledger h
  obtain ⟨r', hr'⟩ := Cells.exists_sum_eq (Node.ledger taken) hn
  have hv : {v} ≤ Node.ledger taken n node :=
    Multiset.singleton_le.mpr (Slots.mem_contentExcept ht hi)
  obtain ⟨r'', hr''⟩ := Multiset.le_iff_exists_add.mp hv
  unfold ledger
  rw [hr, hr', hr'']
  refine Multiset.le_iff_exists_add.mpr ⟨Cells.sum Wire.ledger net.wires + r + r'' + r', ?_⟩
  abel

theorem destroyed_le_ledger (taken : Set (ℕ × ℕ)) (h : net.principalWires[p]? = some d) :
    PrincipalWire.ledger p d ≤ net.ledger taken := by
  obtain ⟨r, hr⟩ := Cells.exists_sum_eq PrincipalWire.ledger h
  unfold ledger
  rw [hr]
  refine Multiset.le_iff_exists_add.mpr
    ⟨Cells.sum Wire.ledger net.wires + r + Cells.sum (Node.ledger taken) net.nodes, ?_⟩
  abel

end Net

namespace Inv

variable {P : Program} {missed : Set Redex} {net : Net} {outside : Multiset Value}
  {tasks : Multiset Task} {G : Open} {p r w n i : ℕ} {v : Value}

theorem wire_of_mem (h : Inv P missed net outside tasks G) (hw : .wire w ∈ outside) :
    ∃ o, net.wires[w]? = some ⟨o, false⟩ := by
  have hlt : w < net.wires.length := h.linear.allocated _ (Multiset.mem_add.mpr (.inl hw))
  rcases hc : net.wires[w]? with _ | ⟨o, _ | _⟩
  · exact absurd (List.getElem?_eq_none_iff.mp hc) hlt.not_ge
  · exact ⟨o, rfl⟩
  · refine (h.linear.not_three (v := .wire w) id ?_).elim
    have := Net.wire_le_ledger G.taken hc
    rw [Wire.ledger_destroyed] at this
    rw [add_comm]
    exact add_le_add (Multiset.singleton_le.mpr hw) this

theorem principal_of_mem (h : Inv P missed net outside tasks G)
    (hp : .principalWire p ∈ outside) :
    ∃ n i, net.principalWires[p]? = some ⟨n, i, none, false⟩ := by
  have hlt : p < net.principalWires.length :=
    h.linear.allocated _ (Multiset.mem_add.mpr (.inl hp))
  have hle := Multiset.singleton_le.mpr hp
  rcases hc : net.principalWires[p]? with _ | ⟨n, i, o, _ | _⟩
  · exact absurd (List.getElem?_eq_none_iff.mp hc) hlt.not_ge
  · cases o with
    | none => exact ⟨n, i, rfl⟩
    | some q =>
      obtain ⟨ht, c, l, k, ctor, hn, hi, -⟩ := h.shape.owner p n i _ hc
      refine (h.linear.not_three (v := .principalWire p) id ?_).elim
      have := Net.principal_le_ledger G.taken hc hn hi ht
      rw [PrincipalWire.ledger_oppsite] at this
      rw [add_assoc]
      exact add_le_add hle this
  · refine (h.linear.not_three (v := .principalWire p) id ?_).elim
    have := Net.destroyed_le_ledger G.taken hc
    rw [PrincipalWire.ledger_destroyed] at this
    rw [add_comm]
    exact add_le_add hle this

theorem principal_ne (h : Inv P missed net (.principalWire p ::ₘ .principalWire r ::ₘ outside) tasks G) :
    p ≠ r := by
  rintro rfl
  obtain ⟨n, i, hp⟩ := h.principal_of_mem (Multiset.mem_cons_self _ _)
  obtain ⟨ht, c, l, k, ctor, hn, hi, -⟩ := h.shape.owner p n i _ hp
  have hle := Net.principal_le_ledger G.taken hp hn hi ht
  apply h.linear.not_three (v := .principalWire p) id
  refine add_le_add ?_ ((Multiset.le_add_left _ _).trans hle)
  rw [← Multiset.singleton_add, ← Multiset.singleton_add, ← add_assoc]
  exact Multiset.le_add_right _ _

/-- What is not used any more can be forgotten. -/
theorem mono {outside' : Multiset Value} (h : Inv P missed net outside tasks G)
    (ho : outside' ≤ outside) : Inv P missed net outside' tasks G where
  linear := h.linear.mono (add_le_add ho le_rfl) le_rfl le_rfl
  shape := h.shape
  pending := h.pending

section Ports

variable {c k : ℕ} {l : Slots Value} {ctor : NodeCtor}

theorem newWire (h : Inv P missed net outside tasks G) :
    Inv P missed net.newWire.2
      (.wire net.newWire.1 ::ₘ .wire net.newWire.1 ::ₘ outside) tasks G where
  linear := by
    have hlen : net.newWire.2.wires.length = net.wires.length + 1 := by simp [Net.newWire]
    have := h.linear.add net.newWire.2 (.wire net.newWire.1)
      (lt_irrefl net.wires.length) (by change _ < _; rw [hlen]; exact Nat.lt_succ_self _)
      (by rw [hlen]; exact Nat.le_succ _) le_rfl
    refine this.congr ?_ le_rfl le_rfl
    rw [Net.ledger_newWire, ← Multiset.singleton_add, ← Multiset.singleton_add]
    abel
  shape := h.shape
  pending := h.pending

theorem setPort (h : Inv P missed net (v ::ₘ outside) tasks G)
    (hn : net.nodes[n]? = some ⟨some c, l, k⟩) (hc : P.nodeCtor c = some ctor)
    (hu : (n, i) ∈ G.unset) (ht : (n, i) ∉ G.taken) (hi : ¬ ctor.IsPrincipal i)
    (hv : ∀ p, v ≠ .principalWire p) :
    Inv P missed (net.setNode n ⟨some c, l.set i (some v), k⟩) outside tasks
      { G with unset := G.unset \ {(n, i)} } where
  linear := by
    have hs := Net.ledger_setSlot G.taken v k hn ht
    rw [h.shape.get_none hn hu, Slots.single_none, add_zero] at hs
    refine h.linear.congr ?_ le_rfl le_rfl
    dsimp only
    rw [hs, ← Multiset.singleton_add]
    abel
  shape := h.shape.setPort hn hc hu hi hv
  pending := h.pending.congr fun t => Shape.setPort_valid hn hc hi

theorem setPrincipalPort (h : Inv P missed net outside tasks G)
    (hn : net.nodes[n]? = some ⟨some c, l, k⟩) (hc : P.nodeCtor c = some ctor)
    (hu : (n, i) ∈ G.unset) (ht : (n, i) ∉ G.taken) (hi : ctor.IsPrincipal i) :
    Inv P missed ((net.newPrincipalWire n i).2.setNode n
        ⟨some c, l.set i (some (.principalWire (net.newPrincipalWire n i).1)), k⟩)
      (.principalWire (net.newPrincipalWire n i).1 ::ₘ outside) tasks
      { G with unset := G.unset \ {(n, i)} } where
  linear := by
    have hlen : (net.newPrincipalWire n i).2.principalWires.length =
        net.principalWires.length + 1 := by simp [Net.newPrincipalWire]
    have := h.linear.add (net.newPrincipalWire n i).2
      (.principalWire (net.newPrincipalWire n i).1)
      (lt_irrefl net.principalWires.length)
      (by change _ < _; rw [hlen]; exact Nat.lt_succ_self _)
      le_rfl (by rw [hlen]; exact Nat.le_succ _)
    have hn' : (net.newPrincipalWire n i).2.nodes[n]? = some ⟨some c, l, k⟩ := hn
    have hs := Net.ledger_setSlot G.taken (.principalWire (net.newPrincipalWire n i).1) k hn' ht
    rw [h.shape.get_none hn hu, Slots.single_none, add_zero] at hs
    refine this.congr ?_ le_rfl le_rfl
    dsimp only
    rw [hs, Net.ledger_newPrincipalWire, ← Multiset.singleton_add]
    abel
  shape := h.shape.setPrincipalPort hn hc hu ht hi
  pending := h.pending.congr fun t => h.shape.setPrincipalPort_valid hn hc hu

end Ports

end Inv

end InetLisp
