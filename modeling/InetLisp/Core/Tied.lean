import InetLisp.Core.Build
import InetLisp.Core.Grow
import InetLisp.Core.References
import InetLisp.Lib.Wiring

/-! # What a net ties together

Ports, wires and principal wires refer to values. Read without direction, these references are a
wiring, of which the wires are the inner ends. Connecting two values adds a tie between them, up
to wires that are used up by it.
-/

namespace InetLisp

open Lib Wiring

/-- An end of a connection: a port, a side of a link that a body makes, or a value. -/
inductive End where
  | port (n i : ℕ)
  | link (k : ℕ) (second : Bool)
  | value (v : Value)
  deriving DecidableEq, Repr

namespace End

def IsAtom : End → Prop
  | .value v => v.IsNonWire
  | _ => False

instance : DecidablePred IsAtom := fun e => by
  cases e <;> unfold IsAtom <;> infer_instance

/-- The end was there before and is not used up. -/
def Stays (net net' : Net) : End → Prop
  | .value v => v.In net ∧ v.Alive net'
  | _ => True

@[simp] theorem not_isAtom_port {n i : ℕ} : ¬ (port n i).IsAtom := id

@[simp] theorem not_isAtom_link {k : ℕ} {b : Bool} : ¬ (link k b).IsAtom := id

@[simp] theorem not_isAtom_wire {w : ℕ} : ¬ (value (.wire w)).IsAtom := id

@[simp] theorem not_isAtom_principalWire {p : ℕ} : ¬ (value (.principalWire p)).IsAtom := id

end End

theorem Value.In.mono {net net' : Net} {v : Value} (h : v.In net)
    (hw : net.wires.length ≤ net'.wires.length)
    (hp : net.principalWires.length ≤ net'.principalWires.length) : v.In net' := by
  cases v with
  | wire w => exact lt_of_lt_of_le h hw
  | principalWire p => exact lt_of_lt_of_le h hp
  | _ => trivial

theorem End.Stays.mono {net net₁ net' : Net} {x : End} (h : x.Stays net net')
    (hw : net.wires.length ≤ net₁.wires.length)
    (hp : net.principalWires.length ≤ net₁.principalWires.length) : x.Stays net₁ net' := by
  cases x with
  | value v => exact ⟨h.1.mono hw hp, h.2⟩
  | _ => trivial

/-- The end is a place that holds the value. -/
inductive Net.Refers (net : Net) : End → Value → Prop where
  | port {n c i k : ℕ} {l : Slots Value} {v : Value} (hn : net.nodes[n]? = some ⟨some c, l, k⟩)
      (hi : l.get i = some v) : Refers net (.port n i) v
  | wire {w : ℕ} {v : Value} (hw : net.wires[w]? = some ⟨some v, false⟩) :
      Refers net (.value (.wire w)) v
  | oppsite {p n i q : ℕ} (hp : net.principalWires[p]? = some ⟨n, i, some q, false⟩) :
      Refers net (.value (.principalWire p)) (.principalWire q)

/-- The one end refers to the other. -/
def Net.Tied (net : Net) : Wiring End := fun x y =>
  (∃ v, y = .value v ∧ net.Refers x v) ∨ ∃ v, x = .value v ∧ net.Refers y v

/-- The ends of the one net that stay in the other see a new tie, and no port loses a value that
is not used up. -/
structure Net.Joins (net net' : Net) (a b : End) : Prop where
  agree : ∀ S : Set End, (∀ x ∈ S, x.Stays net net') →
    Agree End.IsAtom S (net.Tied ⊔ tie a b) net'.Tied
  ports : ∀ (n i : ℕ) (v : Value), net.Refers (.port n i) v → v.Alive net' →
    net'.Refers (.port n i) v

namespace Net

variable {net net' : Net} {n c i k k' w p q m j : ℕ} {l : Slots Value} {v u : Value} {a b x y : End}

theorem Refers.tied (h : net.Refers x v) : net.Tied x (.value v) := .inl ⟨v, rfl, h⟩

theorem isolated_value (h : ∀ x, ¬ net.Refers x v) (h' : ∀ u, ¬ net.Refers (.value v) u) :
    Isolated net.Tied (.value v) := by
  intro y
  constructor
  · rintro (⟨u, -, hr⟩ | ⟨u, he, hr⟩)
    · exact h' u hr
    · cases he
      exact h y hr
  · rintro (⟨u, he, hr⟩ | ⟨u, -, hr⟩)
    · cases he
      exact h y hr
    · exact h' u hr

theorem isolated_port (h : ∀ u, ¬ net.Refers (.port n i) u) : Isolated net.Tied (.port n i) := by
  intro y
  constructor
  · rintro (⟨u, -, hr⟩ | ⟨u, he, hr⟩)
    · exact h u hr
    · cases he
  · rintro (⟨u, he, hr⟩ | ⟨u, -, hr⟩)
    · cases he
    · exact h u hr

theorem isolated_link {s : Bool} : Isolated net.Tied (.link k s) := by
  have h : ∀ u, ¬ net.Refers (.link k s) u := fun u hr => by cases hr
  intro y
  constructor
  · rintro (⟨u, -, hr⟩ | ⟨u, he, hr⟩)
    · exact h u hr
    · cases he
  · rintro (⟨u, he, hr⟩ | ⟨u, -, hr⟩)
    · cases he
    · exact h u hr

/-- One more place that holds a value is one more tie. -/
theorem tied_eq_sup (h : ∀ x u, net'.Refers x u ↔ net.Refers x u ∨ x = a ∧ u = v) :
    net'.Tied = net.Tied ⊔ tie a (.value v) := by
  ext x y
  change _ ↔ net.Tied x y ∨ tie a (.value v) x y
  constructor
  · rintro (⟨u, rfl, hr⟩ | ⟨u, rfl, hr⟩)
    · rcases (h _ _).mp hr with hr | ⟨rfl, rfl⟩
      · exact .inl (.inl ⟨u, rfl, hr⟩)
      · exact .inr tie_mk
    · rcases (h _ _).mp hr with hr | ⟨rfl, rfl⟩
      · exact .inl (.inr ⟨u, rfl, hr⟩)
      · exact .inr (.inr ⟨rfl, rfl⟩)
  · rintro ((⟨u, rfl, hr⟩ | ⟨u, rfl, hr⟩) | ⟨rfl, rfl⟩ | ⟨rfl, rfl⟩)
    · exact .inl ⟨u, rfl, (h _ _).mpr (.inl hr)⟩
    · exact .inr ⟨u, rfl, (h _ _).mpr (.inl hr)⟩
    · exact .inl ⟨v, rfl, (h _ _).mpr (.inr ⟨rfl, rfl⟩)⟩
    · exact .inr ⟨v, rfl, (h _ _).mpr (.inr ⟨rfl, rfl⟩)⟩

theorem tied_congr (h : ∀ x u, net'.Refers x u ↔ net.Refers x u) : net'.Tied = net.Tied := by
  ext x y
  simp only [Tied, h]

theorem refers_port : net.Refers (.port n i) v ↔
    ∃ c l k, net.nodes[n]? = some ⟨some c, l, k⟩ ∧ l.get i = some v := by
  constructor
  · rintro ⟨hn, hi⟩
    exact ⟨_, _, _, hn, hi⟩
  · rintro ⟨c, l, k, hn, hi⟩
    exact .port hn hi

theorem refers_wire : net.Refers (.value (.wire w)) v ↔
    net.wires[w]? = some ⟨some v, false⟩ := by
  constructor
  · rintro ⟨⟩
    assumption
  · exact .wire

theorem refers_principalWire : net.Refers (.value (.principalWire p)) v ↔
    ∃ n i q, net.principalWires[p]? = some ⟨n, i, some q, false⟩ ∧ v = .principalWire q := by
  constructor
  · rintro ⟨⟩
    exact ⟨_, _, _, ‹_›, rfl⟩
  · rintro ⟨n, i, q, hp, rfl⟩
    exact .oppsite hp

theorem not_refers_link {s : Bool} : ¬ net.Refers (.link k s) v := nofun

theorem not_refers_nonWire (hu : u.IsNonWire) : ¬ net.Refers (.value u) v := by
  rintro (_ | _ | _) <;> exact hu

theorem refers_congr {Q : End → Value → Prop}
    (hport : ∀ n i u, net'.Refers (.port n i) u ↔ net.Refers (.port n i) u ∨ Q (.port n i) u)
    (hwire : ∀ w u, net'.Refers (.value (.wire w)) u ↔
      net.Refers (.value (.wire w)) u ∨ Q (.value (.wire w)) u)
    (hprincipal : ∀ p u, net'.Refers (.value (.principalWire p)) u ↔
      net.Refers (.value (.principalWire p)) u ∨ Q (.value (.principalWire p)) u)
    (hlink : ∀ k s u, ¬ Q (.link k s) u) (hatom : ∀ v u, v.IsNonWire → ¬ Q (.value v) u)
    (x : End) (u : Value) : net'.Refers x u ↔ net.Refers x u ∨ Q x u := by
  rcases x with ⟨n, i⟩ | ⟨k, s⟩ | v
  · exact hport n i u
  · simp [not_refers_link, hlink]
  · rcases v.kind with ⟨w, rfl⟩ | ⟨p, rfl⟩ | hv
    · exact hwire w u
    · exact hprincipal p u
    · simp [not_refers_nonWire hv, hatom v u hv]

theorem tied_of_places (hport : ∀ n i u, net'.Refers (.port n i) u ↔ net.Refers (.port n i) u)
    (hwire : ∀ w u, net'.Refers (.value (.wire w)) u ↔ net.Refers (.value (.wire w)) u)
    (hprincipal : ∀ p u, net'.Refers (.value (.principalWire p)) u ↔
      net.Refers (.value (.principalWire p)) u) : net'.Tied = net.Tied := by
  apply tied_congr
  intro x u
  rcases x with ⟨n, i⟩ | ⟨k, s⟩ | v
  · exact hport n i u
  · simp only [not_refers_link]
  · rcases v.kind with ⟨w, rfl⟩ | ⟨p, rfl⟩ | hv
    · exact hwire w u
    · exact hprincipal p u
    · simp only [not_refers_nonWire hv]

@[simp] theorem tied_newWire : net.newWire.2.Tied = net.Tied := by
  apply tied_of_places
  · simp [refers_port, newWire]
  · intro w u
    rw [refers_wire, refers_wire, newWire, Cells.getElem?_snoc]
    split
    · rename_i he
      simp [← he]
    · rfl
  · simp [refers_principalWire, newWire]

@[simp] theorem tied_newPrincipalWire : (net.newPrincipalWire n i).2.Tied = net.Tied := by
  apply tied_of_places
  · simp [refers_port, newPrincipalWire]
  · simp [refers_wire, newPrincipalWire]
  · intro p u
    simp only [refers_principalWire, newPrincipalWire, Cells.getElem?_snoc]
    split
    · rename_i he
      simp [← he]
    · rfl

@[simp] theorem tied_newNode : (net.newNode c).2.Tied = net.Tied := by
  apply tied_of_places
  · intro n i u
    simp only [refers_port, newNode, Cells.getElem?_snoc]
    split
    · rename_i he
      simp [← he]
    · rfl
  · simp [refers_wire, newNode]
  · simp [refers_principalWire, newNode]

theorem tied_fuze (hw : net.wires[w]? = some ⟨none, false⟩) :
    (net.setWire w ⟨some v, false⟩).Tied = net.Tied ⊔ tie (.value (.wire w)) (.value v) := by
  apply tied_eq_sup
  apply refers_congr
  · simp [refers_port, setWire]
  · intro m u
    rw [refers_wire, refers_wire, setWire, Cells.getElem?_set hw]
    split
    · rename_i he
      subst he
      simp [hw, eq_comm]
    · rename_i he
      simp [Ne.symm he]
  · simp [refers_principalWire, setWire]
  · simp
  · rintro v u hv ⟨he, -⟩
    cases he
    exact hv

theorem tied_wireDestroy (hw : net.wires[w]? = some ⟨some v, false⟩) :
    net.Tied = (net.setWire w ⟨some v, true⟩).Tied ⊔ tie (.value (.wire w)) (.value v) := by
  apply tied_eq_sup
  apply refers_congr
  · simp [refers_port, setWire]
  · intro m u
    rw [refers_wire, refers_wire, setWire, Cells.getElem?_set hw]
    split
    · rename_i he
      subst he
      simp [hw, eq_comm]
    · rename_i he
      simp [Ne.symm he]
  · simp [refers_principalWire, setWire]
  · simp
  · rintro v u hv ⟨he, -⟩
    cases he
    exact hv

theorem refers_of_wireDestroy {o : Option Value} (h : (net.setWire w ⟨o, true⟩).Refers x u) :
    net.Refers x u ∧ x ≠ .value (.wire w) := by
  rcases x with ⟨n, i⟩ | ⟨k, s⟩ | v
  · rw [refers_port] at h ⊢
    exact ⟨h, by rintro ⟨⟩⟩
  · exact (not_refers_link h).elim
  · rcases v.kind with ⟨m, rfl⟩ | ⟨p, rfl⟩ | hv
    · simp only [refers_wire, setWire, List.getElem?_set] at h
      split at h
      · split at h <;> cases h
      · refine ⟨.wire h, ?_⟩
        rintro ⟨⟩
        contradiction
    · rw [refers_principalWire] at h ⊢
      exact ⟨h, by rintro ⟨⟩⟩
    · exact (not_refers_nonWire hv h).elim

theorem tied_setOppsite (hp : net.principalWires[p]? = some ⟨n, i, none, false⟩) :
    (net.setPrincipalWire p ⟨n, i, some q, false⟩).Tied =
      net.Tied ⊔ tie (.value (.principalWire p)) (.value (.principalWire q)) := by
  apply tied_eq_sup
  apply refers_congr
  · simp [refers_port, setPrincipalWire]
  · simp [refers_wire, setPrincipalWire]
  · intro r u
    simp only [refers_principalWire, setPrincipalWire, Cells.getElem?_set hp]
    split
    · rename_i he
      subst he
      simp [hp]
    · rename_i he
      simp [Ne.symm he]
  · simp
  · rintro v u hv ⟨he, -⟩
    cases he
    exact hv

theorem tied_destroy (hp : net.principalWires[p]? = some ⟨n, i, none, false⟩) :
    (net.setPrincipalWire p ⟨n, i, none, true⟩).Tied = net.Tied := by
  apply tied_of_places
  · simp [refers_port, setPrincipalWire]
  · simp [refers_wire, setPrincipalWire]
  · intro r u
    simp only [refers_principalWire, setPrincipalWire, Cells.getElem?_set hp]
    split
    · rename_i he
      subst he
      simp [hp]
    · rfl

/-- The net without the value of a port. -/
def clear (net : Net) (n i : ℕ) : Net :=
  match net.nodes[n]? with
  | some ⟨c, l, k⟩ => net.setNode n ⟨c, l.set i none, k⟩
  | none => net

@[simp] theorem wires_clear : (net.clear n i).wires = net.wires := by
  unfold clear
  split <;> rfl

@[simp] theorem principalWires_clear : (net.clear n i).principalWires = net.principalWires := by
  unfold clear
  split <;> rfl

theorem refers_clear : (net.clear n i).Refers (.port m j) u ↔
    net.Refers (.port m j) u ∧ (m, j) ≠ (n, i) := by
  unfold clear
  split
  · rename_i c l k hn
    simp only [refers_port, setNode, Cells.getElem?_set hn]
    split
    · rename_i he
      subst he
      simp only [hn, Option.some.injEq, Node.mk.injEq]
      constructor
      · rintro ⟨c, l', k', ⟨rfl, rfl, rfl⟩, hj⟩
        rw [Slots.get_set] at hj
        split at hj
        · cases hj
        · rename_i hij
          exact ⟨⟨c, l, k, ⟨rfl, rfl, rfl⟩, hj⟩, fun he => hij (Prod.mk.inj he).2.symm⟩
      · rintro ⟨⟨c, l, k, ⟨rfl, rfl, rfl⟩, hj⟩, hne⟩
        refine ⟨c, _, k, ⟨rfl, rfl, rfl⟩, ?_⟩
        rw [Slots.get_set_ne, hj]
        rintro rfl
        exact hne rfl
    · rename_i he
      exact (and_iff_left fun h => he (Prod.mk.inj h).1.symm).symm
  · rename_i hn
    refine (and_iff_left_of_imp ?_).symm
    rintro hr he
    obtain ⟨c, l, k, hm, -⟩ := refers_port.mp hr
    cases he
    cases hn.symm.trans hm

theorem refers_of_clear (h : (net.clear n i).Refers x u) : net.Refers x u ∧ x ≠ .port n i := by
  rcases x with ⟨m, j⟩ | ⟨k, s⟩ | v
  · rw [refers_clear] at h
    exact ⟨h.1, fun he => h.2 (by cases he; rfl)⟩
  · exact (not_refers_link h).elim
  · refine ⟨?_, nofun⟩
    rcases v.kind with ⟨w, rfl⟩ | ⟨p, rfl⟩ | hv
    · rwa [refers_wire, wires_clear, ← refers_wire] at h
    · rwa [refers_principalWire, principalWires_clear, ← refers_principalWire] at h
    · exact (not_refers_nonWire hv h).elim

theorem Refers.setNode_of_ne {o : Option Value} (hn : net.nodes[n]? = some ⟨some c, l, k⟩)
    (h : net.Refers (.port m j) u) (hne : (m, j) ≠ (n, i)) :
    (net.setNode n ⟨some c, l.set i o, k'⟩).Refers (.port m j) u := by
  obtain ⟨c', l', k'', hm, hj⟩ := refers_port.mp h
  rw [refers_port, setNode, Cells.getElem?_set hn]
  split
  · rename_i he
    subst he
    cases hn.symm.trans hm
    refine ⟨c, _, _, rfl, ?_⟩
    rw [Slots.get_set_ne, hj]
    rintro rfl
    exact hne rfl
  · exact ⟨c', l', k'', hm, hj⟩

theorem tied_setPort (hn : net.nodes[n]? = some ⟨some c, l, k⟩) :
    (net.setNode n ⟨some c, l.set i (some v), k'⟩).Tied =
      (net.clear n i).Tied ⊔ tie (.port n i) (.value v) := by
  apply tied_eq_sup
  apply refers_congr
  · intro m j u
    rw [refers_clear]
    simp only [refers_port, setNode, Cells.getElem?_set hn]
    split
    · rename_i he
      subst he
      simp only [hn, Option.some.injEq, Node.mk.injEq, End.port.injEq, true_and]
      constructor
      · rintro ⟨c, l', k', ⟨rfl, rfl, rfl⟩, hj⟩
        rw [Slots.get_set] at hj
        split at hj
        · rename_i hij
          exact .inr ⟨hij.symm, (Option.some.inj hj).symm⟩
        · rename_i hij
          exact .inl ⟨⟨c, l, k, ⟨rfl, rfl, rfl⟩, hj⟩, fun he => hij (Prod.mk.inj he).2.symm⟩
      · rintro (⟨⟨c, l, k, ⟨rfl, rfl, rfl⟩, hj⟩, hne⟩ | ⟨rfl, rfl⟩)
        · refine ⟨c, _, _, ⟨rfl, rfl, rfl⟩, ?_⟩
          rw [Slots.get_set_ne, hj]
          rintro rfl
          exact hne rfl
        · exact ⟨c, _, _, ⟨rfl, rfl, rfl⟩, Slots.get_set_self⟩
    · rename_i he
      simp [Ne.symm he]
  · simp [refers_wire, setNode]
  · simp [refers_principalWire, setNode]
  · simp
  · rintro v u hv ⟨he, -⟩
    cases he

theorem tied_clear (h : ∀ u, ¬ net.Refers (.port n i) u) : (net.clear n i).Tied = net.Tied := by
  apply tied_of_places
  · intro m j u
    rw [refers_clear]
    refine and_iff_left_of_imp ?_
    rintro hr he
    cases he
    exact h u hr
  · simp [refers_wire]
  · simp [refers_principalWire]

theorem tied_eq_clear (h : net.Refers (.port n i) v) :
    net.Tied = (net.clear n i).Tied ⊔ tie (.port n i) (.value v) := by
  obtain ⟨c, l, k, hn, hi⟩ := refers_port.mp h
  have hset : (net.setNode n ⟨some c, l.set i (some v), k⟩).Tied = _ := tied_setPort hn
  rw [← hset]
  apply tied_of_places
  · intro m j u
    simp only [refers_port, setNode, Cells.getElem?_set hn]
    split
    · rename_i he
      subst he
      have hget : Slots.get (l.set i (some v)) j = l.get j := by
        rw [Slots.get_set]
        split
        · rename_i hij
          rw [← hij, hi]
        · rfl
      simp [hn, ← hget]
    · rfl
  · simp [refers_wire, setNode]
  · simp [refers_principalWire, setNode]

end Net

end InetLisp
