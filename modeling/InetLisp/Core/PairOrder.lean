import InetLisp.Core.HandleTask

/-! # The order in which the nodes of a pair are taken apart

Taking a node apart destroys the principal wires in its ports and puts what its other ports
hold on the value stack. For two nodes both orders leave the same net behind, and the values of
the two in the other order.
-/

namespace InetLisp

open Lib

def Value.principalWires (values : List Value) : List ℕ :=
  values.filterMap fun v => match v with
    | .principalWire p => some p
    | _ => none

def Value.others (values : List Value) : List Value :=
  values.filter fun v => match v with
    | .principalWire _ => false
    | _ => true

namespace Net

def destroyAll (net : Net) : List ℕ → Except Error Net
  | [] => .ok net
  | p :: l => do
    let net ← net.destroyPrincipalWire p
    net.destroyAll l

structure PortValues (P : Program) (net : Net) (n : ℕ) (values : List Value) : Prop where
  arity : ∃ ctor, P.getNodeCtor net n = .ok ctor ∧ ctor.arity = values.length
  value : ∀ i v, values[i]? = some v → net.getValue n i = .ok v

def Holds (P : Program) (net : Net) (p : ℕ) : Prop :=
  ∀ o values, net.getPrincipalWire p = .ok o → net.PortValues P o.node values →
    .principalWire p ∈ values

variable {P : Program} {net net' : Net} {p q n m : ℕ} {l l' : List ℕ} {o : PrincipalWire}
  {values : List Value}

theorem destroyPrincipalWire_comm :
    (net.destroyPrincipalWire p >>= fun net => net.destroyPrincipalWire q) =
      net.destroyPrincipalWire q >>= fun net => net.destroyPrincipalWire p := by
  rcases eq_or_ne p q with rfl | hne
  · rfl
  · simp only [destroyPrincipalWire]
    rcases hp : net.principalWires[p]? with _ | ⟨n, i, o, _ | _⟩ <;>
    rcases hq : net.principalWires[q]? with _ | ⟨m, j, o', _ | _⟩ <;>
    simp [setPrincipalWire, hne, hne.symm, hp, hq, List.set_comm _ _ hne]

theorem destroyAll_append :
    net.destroyAll (l ++ l') = net.destroyAll l >>= fun net => net.destroyAll l' := by
  induction l generalizing net with
  | nil => rfl
  | cons p l ih =>
    calc
      _ = net.destroyPrincipalWire p >>= fun net =>
          net.destroyAll l >>= fun net => net.destroyAll l' := by
        simp only [List.cons_append, destroyAll, ih]
      _ = _ := (bind_assoc _ _ _).symm

theorem destroyAll_comm_destroyPrincipalWire :
    (net.destroyAll l >>= fun net => net.destroyPrincipalWire p) =
      net.destroyPrincipalWire p >>= fun net => net.destroyAll l := by
  induction l generalizing net with
  | nil => exact (bind_pure _).symm
  | cons q l ih =>
    calc
      _ = net.destroyPrincipalWire q >>= fun net =>
          net.destroyAll l >>= fun net => net.destroyPrincipalWire p := bind_assoc _ _ _
      _ = net.destroyPrincipalWire q >>= fun net =>
          net.destroyPrincipalWire p >>= fun net => net.destroyAll l := by simp only [ih]
      _ = (net.destroyPrincipalWire q >>= fun net => net.destroyPrincipalWire p) >>=
          fun net => net.destroyAll l := (bind_assoc _ _ _).symm
      _ = (net.destroyPrincipalWire p >>= fun net => net.destroyPrincipalWire q) >>=
          fun net => net.destroyAll l := by rw [destroyPrincipalWire_comm]
      _ = _ := bind_assoc _ _ _

theorem destroyAll_comm :
    (net.destroyAll l >>= fun net => net.destroyAll l') =
      net.destroyAll l' >>= fun net => net.destroyAll l := by
  induction l generalizing net with
  | nil => exact (bind_pure _).symm
  | cons p l ih =>
    calc
      _ = net.destroyPrincipalWire p >>= fun net =>
          net.destroyAll l >>= fun net => net.destroyAll l' := bind_assoc _ _ _
      _ = net.destroyPrincipalWire p >>= fun net =>
          net.destroyAll l' >>= fun net => net.destroyAll l := by simp only [ih]
      _ = (net.destroyPrincipalWire p >>= fun net => net.destroyAll l') >>=
          fun net => net.destroyAll l := (bind_assoc _ _ _).symm
      _ = (net.destroyAll l' >>= fun net => net.destroyPrincipalWire p) >>=
          fun net => net.destroyAll l := by rw [destroyAll_comm_destroyPrincipalWire]
      _ = _ := bind_assoc _ _ _

theorem getPrincipalWire_of_destroyAll (h : net.destroyAll l = .ok net')
    (hp : net'.getPrincipalWire p = .ok o) : net.getPrincipalWire p = .ok o := by
  induction l generalizing net with
  | nil =>
    cases h
    exact hp
  | cons q l ih =>
    obtain ⟨net₁, h₁, h⟩ := Outcome.of_bind_eq_ok h
    exact getPrincipalWire_of_destroy h₁ (ih h)

theorem exists_of_destroyAll (h : net.destroyAll l = .ok net') (hp : p ∈ l) :
    ∃ o, net.getPrincipalWire p = .ok o := by
  induction l generalizing net with
  | nil => cases hp
  | cons q l ih =>
    obtain ⟨net₁, h₁, h⟩ := Outcome.of_bind_eq_ok h
    rcases List.mem_cons.mp hp with rfl | hp
    · unfold destroyPrincipalWire at h₁
      split at h₁
      · rename_i hq
        exact ⟨_, getPrincipalWire_eq_ok.mpr ⟨hq, rfl⟩⟩
      · cases h₁
    · obtain ⟨o, ho⟩ := ih h hp
      exact ⟨o, getPrincipalWire_of_destroy h₁ ho⟩

theorem nodes_of_destroyAll (h : net.destroyAll l = .ok net') : net'.nodes = net.nodes := by
  induction l generalizing net with
  | nil =>
    cases h
    rfl
  | cons q l ih =>
    obtain ⟨net₁, h₁, h⟩ := Outcome.of_bind_eq_ok h
    rw [ih h]
    unfold destroyPrincipalWire at h₁
    split at h₁ <;> cases h₁
    rfl

theorem destroyAll_setNode {x : Node} :
    (net.setNode n x).destroyAll l = (net.destroyAll l).map (·.setNode n x) := by
  induction l generalizing net with
  | nil => rfl
  | cons q l ih =>
    have hq : (net.setNode n x).destroyPrincipalWire q =
        (net.destroyPrincipalWire q).map (·.setNode n x) := by
      unfold destroyPrincipalWire setNode
      dsimp only
      split <;> rfl
    rw [destroyAll, destroyAll, hq]
    cases net.destroyPrincipalWire q with
    | error e => rfl
    | ok net₁ => exact ih

theorem destroyAll_of_setNode {x : Node} {net₂ : Net}
    (h : (net.setNode n x).destroyAll l = .ok net₂) :
    ∃ net', net.destroyAll l = .ok net' ∧ net₂ = net'.setNode n x := by
  rw [destroyAll_setNode] at h
  cases hd : net.destroyAll l with
  | error e =>
    rw [hd] at h
    cases h
  | ok net' =>
    rw [hd] at h
    cases h
    exact ⟨net', rfl, rfl⟩

theorem destroyAll_swap {net₁ net₂ : Net} (h₁ : net.destroyAll l = .ok net₁)
    (h₂ : net₁.destroyAll l' = .ok net₂) :
    ∃ net', net.destroyAll l' = .ok net' ∧ net'.destroyAll l = .ok net₂ := by
  apply Outcome.of_bind_eq_ok
  rw [← destroyAll_comm, h₁]
  exact h₂

theorem PortValues.congr (h : net.PortValues P n values) (hn : net'.nodes[n]? = net.nodes[n]?) :
    net'.PortValues P n values := by
  obtain ⟨⟨ctor, hc, ha⟩, hv⟩ := h
  refine ⟨⟨ctor, ?_, ha⟩, fun i v hi => ?_⟩
  · unfold Program.getNodeCtor getCtor at hc ⊢
    rw [hn, hc]
  · have := hv i v hi
    unfold getValue at this ⊢
    rw [hn, this]

end Net

namespace Store

variable {P : Program} {s s' : Store} {n i k : ℕ} {net : Net} {v : Value} {values : List Value}

/-- The store after taking values out of ports. -/
def take (s : Store) (net : Net) (values : List Value) : Store :=
  { s with toNet := net, valueStack := (Value.others values).reverse ++ s.valueStack }

theorem take_cons {net' : Net} :
    (s.take net [v]).take net' values = s.take net' (v :: values) := by
  have ho : Value.others (v :: values) = Value.others [v] ++ Value.others values :=
    List.filter_append [v] values
  simp only [take, ho, List.reverse_append, List.append_assoc]

theorem disconnectPort_eq_ok : s.disconnectPort v = .ok s' ↔
    ∃ net, s.destroyAll (Value.principalWires [v]) = .ok net ∧ s' = s.take net [v] := by
  cases v with
  | principalWire p =>
    have hd : s.destroyAll (Value.principalWires [.principalWire p]) =
        s.destroyPrincipalWire p := bind_pure _
    rw [disconnectPort, hd]
    cases s.destroyPrincipalWire p with
    | error e => simp
    | ok net => simp [take, Value.others, setNet, pure, Except.pure, eq_comm]
  | _ =>
    simp [disconnectPort, Value.principalWires, Net.destroyAll, take, Value.others, push, eq_comm]

theorem getValue_take {l : List ℕ} (h : s.destroyAll l = .ok net) :
    (s.take net values).getValue n i = s.getValue n i := by
  unfold Net.getValue
  rw [take, Net.nodes_of_destroyAll h]

theorem disconnectPorts_eq_ok : disconnectPorts n k i s = .ok s' ↔ ∃ values net,
    values.length = k ∧ (∀ j v, values[j]? = some v → s.getValue n (i + j) = .ok v) ∧
      s.destroyAll (Value.principalWires values) = .ok net ∧ s' = s.take net values := by
  induction k generalizing s i with
  | zero =>
    constructor
    · intro h
      cases h
      exact ⟨[], _, rfl, by simp, rfl, rfl⟩
    · rintro ⟨values, net, hl, -, hd, rfl⟩
      obtain rfl := List.length_eq_zero_iff.mp hl
      cases hd
      rfl
  | succ k ih =>
    have hp (v : Value) (values : List Value) : Value.principalWires (v :: values) =
        Value.principalWires [v] ++ Value.principalWires values :=
      List.filterMap_append (l := [v])
    constructor
    · intro h
      obtain ⟨v, hv, h⟩ := Outcome.of_bind_eq_ok h
      obtain ⟨s₁, h₁, h⟩ := Outcome.of_bind_eq_ok h
      obtain ⟨net₁, hd₁, rfl⟩ := disconnectPort_eq_ok.mp h₁
      obtain ⟨values, net, hl, hvs, hd, rfl⟩ := ih.mp h
      refine ⟨v :: values, net, by rw [List.length_cons, hl], ?_, ?_, take_cons⟩
      · intro j u hu
        cases j with
        | zero =>
          cases hu
          exact hv
        | succ j =>
          have hu := hvs j u hu
          rw [getValue_take hd₁, Nat.add_right_comm] at hu
          exact hu
      · rw [hp, Net.destroyAll_append, hd₁]
        exact hd
    · rintro ⟨values, net, hl, hvs, hd, rfl⟩
      obtain ⟨v, values, rfl⟩ := List.exists_cons_of_length_eq_add_one hl
      rw [hp, Net.destroyAll_append] at hd
      obtain ⟨net₁, hd₁, hd⟩ := Outcome.of_bind_eq_ok hd
      have hv : s.getValue n i = .ok v := hvs 0 v rfl
      rw [disconnectPorts, hv, Outcome.ok_bind, disconnectPort_eq_ok.mpr ⟨net₁, hd₁, rfl⟩,
        Outcome.ok_bind]
      refine ih.mpr ⟨values, net, Nat.succ.inj hl, fun j u hu => ?_, hd, take_cons.symm⟩
      rw [getValue_take hd₁, Nat.add_right_comm]
      exact hvs (j + 1) u hu

theorem disconnectNode_eq_ok : s.disconnectNode P n = .ok s' ↔ ∃ values net,
    s.PortValues P n values ∧ s.destroyAll (Value.principalWires values) = .ok net ∧
      s' = s.take (net.setNode n ⟨none, [], 0⟩) values := by
  constructor
  · intro h
    obtain ⟨ctor, hc, h⟩ := Outcome.of_bind_eq_ok h
    obtain ⟨s₁, h₁, h⟩ := Outcome.of_bind_eq_ok h
    obtain ⟨net', h₂, h⟩ := Outcome.of_bind_eq_ok h
    cases h
    obtain ⟨values, net, hl, hv, hd, rfl⟩ := disconnectPorts_eq_ok.mp h₁
    refine ⟨values, net, ⟨⟨ctor, hc, hl.symm⟩, fun i v hi => ?_⟩, hd, ?_⟩
    · rw [← hv i v hi, Nat.zero_add]
    · unfold Net.recycleNode at h₂
      split at h₂ <;> cases h₂
      rfl
  · rintro ⟨values, net, ⟨⟨ctor, hc, hl⟩, hv⟩, hd, rfl⟩
    have hp : disconnectPorts n ctor.arity 0 s = .ok (s.take net values) := by
      refine disconnectPorts_eq_ok.mpr ⟨values, net, hl.symm, fun i v hi => ?_, hd, rfl⟩
      rw [Nat.zero_add]
      exact hv i v hi
    have hr : (s.take net values).recycleNode n = .ok (net.setNode n ⟨none, [], 0⟩) := by
      obtain ⟨c, hc, -⟩ := Outcome.of_bind_eq_ok hc
      unfold Net.getCtor at hc
      unfold Net.recycleNode
      rw [take, Net.nodes_of_destroyAll hd]
      dsimp only
      split at hc
      · rfl
      · cases hc
    rw [disconnectNode, hc, Outcome.ok_bind, hp, Outcome.ok_bind, hr]
    rfl

end Store

namespace Worker

variable {P : Program} {w : Worker} {left right : ℕ} {rule : Rule}

/-- With the principal wires in the other order, the rule is entered with the same net, and with
the values of the free ports of the two nodes in the other order on the value stack. -/
def Swaps (P : Program) (w : Worker) (left right : ℕ) (rule : Rule) : Prop :=
  ∀ w₁, w.enterRule P left right rule = .ok w₁ → ∃ l r lv rv,
    w.getPrincipalWire left = .ok l ∧ w.PortValues P l.node lv ∧
    w.getPrincipalWire right = .ok r ∧ w.PortValues P r.node rv ∧
    w₁.valueStack =
      (Value.others rv).reverse ++ ((Value.others lv).reverse ++ w.valueStack) ∧
    w.enterRule P right left rule = .ok { w₁ with
      valueStack := (Value.others lv).reverse ++ ((Value.others rv).reverse ++ w.valueStack) }

theorem swaps_of_holds (hl : w.Holds P left) : w.Swaps P left right rule := by
  intro w₁ h
  obtain ⟨l, hleft, h⟩ := Outcome.of_bind_eq_ok h
  obtain ⟨s₁, h₁, h⟩ := Outcome.of_bind_eq_ok h
  obtain ⟨r, hright, h⟩ := Outcome.of_bind_eq_ok h
  obtain ⟨s₂, h₂, h⟩ := Outcome.of_bind_eq_ok h
  cases h
  have hne : l.node ≠ r.node := by
    intro he
    have hn := (Store.disconnectNode_spec h₁).2.1
    rw [he] at hn
    exact Store.nodes_of_disconnectNode h₂ hn
  obtain ⟨lv, net₁, hlv, hd₁, rfl⟩ := Store.disconnectNode_eq_ok.mp h₁
  obtain ⟨rv, net₂, hrv, hd₂, rfl⟩ := Store.disconnectNode_eq_ok.mp h₂
  -- What the second node needs is there from the start.
  have hright' : w.getPrincipalWire right = .ok r := Net.getPrincipalWire_of_destroyAll hd₁ hright
  have hrv' : w.PortValues P r.node rv := by
    apply hrv.congr
    change w.nodes[r.node]? = (net₁.nodes.set l.node ⟨none, [], 0⟩)[r.node]?
    rw [List.getElem?_set_ne hne, Net.nodes_of_destroyAll hd₁]
  obtain ⟨net₃, hd₃, rfl⟩ := Net.destroyAll_of_setNode hd₂
  obtain ⟨net₁', hd₁', hd₃'⟩ := Net.destroyAll_swap hd₁ hd₃
  -- The first wire is still there after the second node, as it is in a port of its own.
  have hmem : left ∈ Value.principalWires lv :=
    List.mem_filterMap.mpr ⟨_, hl l lv hleft hlv, rfl⟩
  obtain ⟨o, ho⟩ := Net.exists_of_destroyAll hd₃' hmem
  obtain rfl := Except.ok.inj (hleft.symm.trans (Net.getPrincipalWire_of_destroyAll hd₁' ho))
  have hr₁ : w.disconnectNode P r.node =
      .ok (w.toStore.take (net₁'.setNode r.node ⟨none, [], 0⟩) rv) :=
    Store.disconnectNode_eq_ok.mpr ⟨rv, net₁', hrv', hd₁', rfl⟩
  have hl₁ : (w.toStore.take (net₁'.setNode r.node ⟨none, [], 0⟩) rv).getPrincipalWire left =
      .ok l := ho
  have hl₂ : (w.toStore.take (net₁'.setNode r.node ⟨none, [], 0⟩) rv).disconnectNode P l.node =
      .ok ((w.toStore.take (net₁'.setNode r.node ⟨none, [], 0⟩) rv).take
        ((net₃.setNode r.node ⟨none, [], 0⟩).setNode l.node ⟨none, [], 0⟩) lv) := by
    refine Store.disconnectNode_eq_ok.mpr ⟨lv, net₃.setNode r.node ⟨none, [], 0⟩, ?_, ?_, rfl⟩
    · apply hlv.congr
      change (net₁'.nodes.set r.node ⟨none, [], 0⟩)[l.node]? = w.nodes[l.node]?
      rw [List.getElem?_set_ne hne.symm, Net.nodes_of_destroyAll hd₁']
    · change (net₁'.setNode r.node ⟨none, [], 0⟩).destroyAll _ = _
      rw [Net.destroyAll_setNode, hd₃']
      rfl
  have hset : (net₃.setNode r.node ⟨none, [], 0⟩).setNode l.node ⟨none, [], 0⟩ =
      (net₃.setNode l.node ⟨none, [], 0⟩).setNode r.node ⟨none, [], 0⟩ := by
    simp only [Net.setNode]
    rw [List.set_comm _ _ hne]
  refine ⟨l, r, lv, rv, hleft, hlv, hright', hrv', rfl, ?_⟩
  rw [enterRule, hright', Outcome.ok_bind, hr₁, Outcome.ok_bind, hl₁, Outcome.ok_bind, hl₂, hset]
  rfl

end Worker

end InetLisp
