import InetLisp.Core.Grow

/-! # The apply node of a wire

A wire that is not fuzed yet gets an apply node: its arguments are put into the argument
ports from the last to the first, and at last the wire is fuzed with the target port. Of a
chain of fuzed wires the wire that was applied is put into the node, which `defuze` has
freed, and not the one at the end.
-/

namespace InetLisp

open Lib

/-- A value is the other one, or a wire that is fuzed with it. -/
def Net.Carries (net : Net) (v arg : Value) : Prop :=
  v = arg ∨ ∃ w, v = .wire w ∧ net.wires[w]? = some ⟨some arg, false⟩

/-- Wires that are new, but for one that was changed. -/
structure Net.Spares (m : ℕ) (net net' : Net) : Prop where
  wire : ∀ x o, x ≠ m → net.wires[x]? = some o → net'.wires[x]? = some o
  destroyed : ∀ x, net'.Destroyed x → net.Destroyed x

namespace Net.Spares

variable {net net' net'' : Net} {m : ℕ} {v arg : Value}

theorem trans (h : Spares m net net') (h' : Spares m net' net'') : Spares m net net'' :=
  ⟨fun x o hx ho => h'.wire x o hx (h.wire x o hx ho),
    fun x hx => h.destroyed x (h'.destroyed x hx)⟩

theorem of_wires (h : net'.wires = net.wires) : Spares m net net' := by
  constructor
  · intro x o _ ho
    rw [h, ho]
  · rintro x ⟨o, ho⟩
    exact ⟨o, h ▸ ho⟩

theorem snoc {o : Option Value} (h : net'.wires = net.wires ++ [⟨o, false⟩]) :
    Spares m net net' := by
  constructor
  · intro x o' _ hx
    rw [h, List.getElem?_append_left (Cells.lt_length hx), hx]
  · rintro x ⟨o', hx⟩
    rw [h, Cells.getElem?_snoc] at hx
    split at hx
    · cases hx
    · exact ⟨o', hx⟩

theorem set {o o' : Option Value} (hm : net.wires[m]? = some ⟨o, false⟩)
    (h : net'.wires = net.wires.set m ⟨o', false⟩) : Spares m net net' := by
  constructor
  · intro x u hx hu
    rw [h, Cells.getElem?_set hm, if_neg (Ne.symm hx), hu]
  · rintro x ⟨u, hu⟩
    rw [h, Cells.getElem?_set hm] at hu
    split at hu
    · cases hu
    · exact ⟨u, hu⟩

theorem carries (h : Spares m net net') (hm : net.wires[m]? = some ⟨none, false⟩)
    (hv : net.Carries v arg) : net'.Carries v arg := by
  rcases hv with rfl | ⟨w, rfl, hw⟩
  · exact .inl rfl
  · refine .inr ⟨w, rfl, h.wire w _ ?_ hw⟩
    rintro rfl
    cases hm.symm.trans hw

end Net.Spares

namespace Store

variable {P : Program} {s s' : Store} {net net' : Net} {n i c m count arity wire last : ℕ}
  {ctor : NodeCtor} {info : PortInfo} {values : Slots Value} {v : Value} {args rest : List Value}

theorem setValue_eq (hn : net.nodes[n]? = some ⟨some c, values, count⟩) :
    net.setValue n i v = .ok (net.setNode n ⟨some c, values.set i (some v), count⟩) := by
  rw [Net.setValue, hn]

theorem getNodeCtor_eq (hn : net.nodes[n]? = some ⟨some c, values, count⟩)
    (hc : P.nodeCtor c = some ctor) : P.getNodeCtor net n = .ok ctor := by
  simp [Program.getNodeCtor, Net.getCtor, hn, hc]

theorem connect_wire (h : net.wires[m]? = some ⟨none, false⟩) :
    InetLisp.connect P net (.wire m) v = .ok (net.setWire m ⟨some v, false⟩, none) := by
  simp [InetLisp.connect, connectFuel, fuze, h]

theorem connect_principalWire {p : ℕ} (h : net.wires[m]? = some ⟨none, false⟩) :
    InetLisp.connect P net (.principalWire p) (.wire m) =
      .ok (net.setWire m ⟨some (.principalWire p), false⟩, none) := by
  simp [InetLisp.connect, connectFuel, fuze, h]

theorem exists_reconnectInput_arg (hn : net.nodes[n]? = some ⟨some c, values, count⟩)
    (hc : P.nodeCtor c = some ctor) (hi : ctor.portInfos[i]? = some info)
    (hp : info.isPrincipal = false) :
    ∃ net' u, reconnectInput P net n i v = .ok (net', none) ∧
      net'.nodes = net.nodes.set n ⟨some c, values.set i (some u), count⟩ ∧
      net'.principalWires = net.principalWires ∧ (∀ m, net.Spares m net') ∧ net'.Carries u v := by
  unfold reconnectInput
  rw [getNodeCtor_eq hn hc, Outcome.ok_bind, hi]
  dsimp only
  rw [hp, if_neg Bool.false_ne_true]
  split
  · rename_i q
    have hset : net.newWire.2.setValue n i (.wire net.newWire.1) = .ok (net.newWire.2.setNode n
        ⟨some c, values.set i (some (.wire net.newWire.1)), count⟩) := setValue_eq hn
    have hw : (net.newWire.2.setNode n ⟨some c, values.set i (some (.wire net.newWire.1)),
        count⟩).wires[net.newWire.1]? = some ⟨none, false⟩ := by
      simp [Net.newWire, Net.setNode]
    rw [hset, Outcome.ok_bind, connect_wire hw]
    refine ⟨_, .wire net.newWire.1, rfl, rfl, rfl, fun m => ?_, .inr ⟨_, rfl, ?_⟩⟩
    · apply Net.Spares.snoc (o := some (.principalWire q))
      simp [Net.newWire, Net.setNode, Net.setWire]
    · simp [Net.newWire, Net.setNode, Net.setWire]
  · rw [setValue_eq hn]
    exact ⟨_, v, rfl, rfl, rfl, fun _ => .of_wires rfl, .inl rfl⟩

/-- What `worker_reconnect_node` has done to the node of an apply ctor. -/
structure Fed (n c m count : ℕ) (args : List Value) (values' : Slots Value)
    (net net' : Net) : Prop where
  nodes : net'.nodes = net.nodes.set n ⟨some c, values', count⟩
  target : values'.get 0 = some (.principalWire net.principalWires.length)
  principalWires : net'.principalWires = net.principalWires ++ [⟨n, 0, none, false⟩]
  fuzed : net'.wires[m]? = some ⟨some (.principalWire net.principalWires.length), false⟩
  arg : ∀ i arg, args.reverse[i]? = some arg →
    ∃ u, values'.get (i + 1) = some u ∧ net'.Carries u arg
  spares : net.Spares m net'

theorem exists_reconnectInputs_target (hn : s.nodes[n]? = some ⟨some c, values, count⟩)
    (hc : P.nodeCtor c = some ctor) (hp : ctor.IsPrincipal 0)
    (hm : s.wires[m]? = some ⟨none, false⟩) (hs : s.valueStack = .wire m :: rest) :
    ∃ s' values', reconnectInputs P n 1 s none = .ok (s', none) ∧ s'.valueStack = rest ∧
      (∀ i, 0 < i → values'.get i = values.get i) ∧
        Fed n c m count [] values' s.toNet s'.toNet := by
  obtain ⟨info, hi, hpr⟩ := hp
  let p := s.principalWires.length
  let values' := values.set 0 (some (.principalWire p))
  let net := (s.toNet.newPrincipalWire n 0).2.setNode n ⟨some c, values', count⟩
  have hpop : s.pop = .ok (.wire m, { s with valueStack := rest }) := by rw [pop, hs]
  have hset : (s.toNet.newPrincipalWire n 0).2.setValue n 0 (.principalWire p) = .ok net :=
    setValue_eq hn
  have hmn : net.wires[m]? = some ⟨none, false⟩ := hm
  have hinput : reconnectInput P s.toNet n 0 (.wire m) =
      .ok (net.setWire m ⟨some (.principalWire p), false⟩, none) := by
    unfold reconnectInput
    rw [getNodeCtor_eq hn hc, Outcome.ok_bind, hi]
    dsimp only
    rw [if_pos hpr, ← connect_principalWire hmn]
    show ((s.toNet.newPrincipalWire n 0).2.setValue n 0 (.principalWire p) >>= _) = _
    rw [hset, Outcome.ok_bind]
    rfl
  use { s with valueStack := rest }.setNet (net.setWire m ⟨some (.principalWire p), false⟩), values'
  refine ⟨?_, rfl, ?_, rfl, Slots.get_set_self, rfl, ?_, nofun, .set hm rfl⟩
  · rw [reconnectInputs, hpop, Outcome.ok_bind]
    dsimp only
    rw [hinput, Outcome.ok_bind]
    rfl
  · intro i hi
    exact Slots.get_set_ne hi.ne
  · rw [setNet, Net.setWire, Cells.getElem?_set hmn, if_pos rfl]

theorem exists_reconnectInputs (hc : P.nodeCtor c = some ctor) (hp : ctor.IsPrincipal 0)
    (hports : ∀ i, 0 < i → i ≤ args.length →
      ∃ info, ctor.portInfos[i]? = some info ∧ info.isPrincipal = false)
    (hn : s.nodes[n]? = some ⟨some c, values, count⟩) (hm : s.wires[m]? = some ⟨none, false⟩)
    (hs : s.valueStack = args ++ .wire m :: rest) :
    ∃ s' values', reconnectInputs P n (args.length + 1) s none = .ok (s', none) ∧
      s'.valueStack = rest ∧ (∀ i, args.length < i → values'.get i = values.get i) ∧
        Fed n c m count args values' s.toNet s'.toNet := by
  induction args generalizing s values with
  | nil => exact exists_reconnectInputs_target hn hc hp hm hs
  | cons v args ih =>
    have hpop : s.pop = .ok (v, { s with valueStack := args ++ .wire m :: rest }) := by
      rw [pop, hs]
      rfl
    obtain ⟨info, hi, hpr⟩ := hports (args.length + 1) (Nat.succ_pos _) le_rfl
    obtain ⟨net, u, hr, hnodes, hpw, hspares, hu⟩ := exists_reconnectInput_arg hn hc hi hpr
    let s₁ : Store := ({ s with valueStack := args ++ .wire m :: rest } : Store).setNet net
    have hn₁ : s₁.nodes[n]? = some ⟨some c, values.set (args.length + 1) (some u), count⟩ := by
      show net.nodes[n]? = _
      rw [hnodes, Cells.getElem?_set hn, if_pos rfl]
    have hm₁ : s₁.wires[m]? = some ⟨none, false⟩ :=
      (hspares (m + 1)).wire m _ (Nat.lt_succ_self m).ne hm
    have hs₁ : s₁.valueStack = args ++ .wire m :: rest := rfl
    obtain ⟨s', values', hrun, hrest, hkept, hfed⟩ := ih
      (fun i h h' => hports i h (Nat.le_succ_of_le h')) hn₁ hm₁ hs₁
    have hpw₁ : s₁.principalWires = s.principalWires := hpw
    refine ⟨s', values', ?_, hrest, ?_, ?_⟩
    · rw [List.length_cons, reconnectInputs, hpop, Outcome.ok_bind]
      dsimp only
      rw [hr, Outcome.ok_bind]
      exact hrun
    · intro i hi
      rw [List.length_cons] at hi
      rw [hkept i (by omega), Slots.get_set_ne (by omega)]
    · constructor
      · rw [hfed.nodes]
        show net.nodes.set n _ = _
        rw [hnodes, List.set_set]
      · rw [hfed.target, hpw₁]
      · rw [hfed.principalWires, hpw₁]
      · rw [hfed.fuzed, hpw₁]
      · intro i arg h
        rw [List.reverse_cons, Cells.getElem?_snoc] at h
        split at h
        · rename_i hlen
          obtain rfl := Option.some.inj h
          rw [List.length_reverse] at hlen
          refine ⟨u, ?_, hfed.spares.carries hm₁ hu⟩
          rw [hkept _ (by omega), ← hlen, Slots.get_set_self]
        · exact hfed.arg i arg h
      · exact (hspares m).trans hfed.spares

theorem reconnectOutput_eq (hn : net.nodes[n]? = some ⟨some c, values, count⟩)
    (hc : P.nodeCtor c = some ctor) (hi : ctor.portInfos[i]? = some info)
    (hp : info.isPrincipal = false) :
    reconnectOutput P net n i = .ok (net.newWire.2.setNode n
      ⟨some c, values.set i (some (.wire net.wires.length)), count⟩, .wire net.wires.length) := by
  have hset : net.newWire.2.setValue n i (.wire net.newWire.1) = .ok (net.newWire.2.setNode n
      ⟨some c, values.set i (some (.wire net.newWire.1)), count⟩) := setValue_eq hn
  unfold reconnectOutput
  rw [getNodeCtor_eq hn hc, Outcome.ok_bind, hi]
  dsimp only
  rw [hp, if_neg Bool.false_ne_true, hset]
  rfl

theorem exists_reconnectNode (hc : P.nodeCtor c = some ctor) (hp : ctor.IsPrincipal 0)
    (harity : ctor.arity = args.length + 2) (hports : ∀ i, 0 < i → i < args.length + 2 →
      ∃ info, ctor.portInfos[i]? = some info ∧ info.isPrincipal = false)
    (hn : s.nodes[n]? = some ⟨some c, [], 0⟩) (hm : s.wires[m]? = some ⟨none, false⟩)
    (hs : s.valueStack = args ++ .wire m :: rest) :
    ∃ s' values w, s.reconnectNode P n (args.length + 1) = .ok s' ∧
      s'.valueStack = .wire w :: rest ∧ Fed n c m 0 args values s.toNet s'.toNet := by
  obtain ⟨s₁, values, hrun, hrest, -, hfed⟩ := exists_reconnectInputs hc hp
    (fun i h h' => hports i h (by omega)) hn hm hs
  have hn₁ : s₁.nodes[n]? = some ⟨some c, values, 0⟩ := by
    rw [hfed.nodes, Cells.getElem?_set hn, if_pos rfl]
  obtain ⟨info, hi, hpr⟩ := hports (args.length + 1) (Nat.succ_pos _) (Nat.lt_succ_self _)
  have hout := reconnectOutput_eq hn₁ hc hi hpr
  have hctor : P.getNodeCtor s₁.toNet n = .ok ctor := getNodeCtor_eq hn₁ hc
  have hone : ctor.arity - (args.length + 1) = 1 := by omega
  let w := s₁.wires.length
  let values' := values.set (args.length + 1) (some (.wire w))
  let s' := (s₁.setNet (s₁.newWire.2.setNode n ⟨some c, values', 0⟩)).push (.wire w)
  have hspares : s₁.toNet.Spares m s'.toNet := .snoc (o := none) rfl
  have hwire {x : ℕ} {o : Wire} (hx : s₁.wires[x]? = some o) : s'.wires[x]? = some o := by
    rw [← hx]
    exact List.getElem?_append_left (Cells.lt_length hx)
  have hkept {i : ℕ} (hi : i < args.length + 1) : values'.get i = values.get i :=
    Slots.get_set_ne hi.ne'
  refine ⟨s', values', w, ?_, congrArg _ hrest, ?_⟩
  · rw [reconnectNode, hrun, Outcome.ok_bind]
    dsimp only
    rw [hctor, Outcome.ok_bind, hone, reconnectOutputs, hout, Outcome.ok_bind]
    rfl
  · constructor
    · show s₁.nodes.set n _ = _
      rw [hfed.nodes, List.set_set]
    · rw [hkept (Nat.succ_pos _), hfed.target]
    · exact hfed.principalWires
    · exact hwire hfed.fuzed
    · intro i arg h
      obtain ⟨u, hu, hcar⟩ := hfed.arg i arg h
      have hi : i < args.length := by simpa using Cells.lt_length h
      refine ⟨u, by rw [hkept (Nat.succ_lt_succ hi), hu], ?_⟩
      rcases hcar with rfl | ⟨x, rfl, hx⟩
      · exact .inl rfl
      · exact .inr ⟨x, rfl, hwire hx⟩
    · exact hfed.spares.trans hspares

/-- The wire was applied: its apply node stands there with its arguments. -/
structure AppliedWire (s s' : Store) (last arity : ℕ) : Prop where
  node : CtorOf s'.nodes s.nodes.length (InetLisp.applyNodeCtor arity)
  target : ∃ p, s'.getValue s.nodes.length 0 = .ok (.principalWire p) ∧
    s'.principalWires[p]? = some ⟨s.nodes.length, 0, none, false⟩ ∧
    s'.wires[last]? = some ⟨some (.principalWire p), false⟩
  arg : ∀ i arg, (s.valueStack.take arity).reverse[i]? = some arg →
    ∃ v, s'.getValue s.nodes.length (i + 1) = .ok v ∧ s'.Carries v arg
  destroyed : ∀ w, s'.Destroyed w → ¬s.Destroyed w → Value.wire w ∉ s'.valueStack ∧
    (∀ n i, s'.getValue n i ≠ .ok (.wire w)) ∧
    ∀ (x : ℕ) (o : Option Value), s'.wires[x]? = some ⟨o, false⟩ → o ≠ some (.wire w)

theorem applyWire_eq (hw : s.wires[wire]? = some ⟨none, false⟩) (h₁ : 0 < arity)
    (h₂ : arity ≤ maxApplyArity) (ht : s.tuck (.wire wire) arity = .ok s') :
    s.applyWire P wire arity = (do
      let w ← s'.applyNodeCtor P (InetLisp.applyNodeCtor arity) (arity + 1)
      return (w, none)) := by
  have hdefuze : defuze s.toNet (.wire wire) = .ok (s.toNet, .wire wire) := by
    simp [defuze, defuzeFuel, hw]
  rw [applyWire, hdefuze, Outcome.ok_bind]
  dsimp only
  rw [if_neg (not_not.mpr ⟨h₁, h₂⟩)]
  show (s.tuck (.wire wire) arity >>= _) = _
  rw [ht, Outcome.ok_bind]

theorem exists_applyWire (hw : s.wires[wire]? = some ⟨none, false⟩) (h₁ : 0 < arity)
    (h₂ : arity ≤ maxApplyArity) (hs : arity ≤ s.valueStack.length) :
    ∃ s', s.applyWire P wire arity = .ok (s', none) ∧ AppliedWire s s' wire arity := by
  obtain ⟨ctor, hc, hp, harity, hports⟩ := exists_applyCtor (P := P) h₁ h₂
  let args := s.valueStack.take arity
  let rest := s.valueStack.drop arity
  let c := InetLisp.applyNodeCtor arity
  let n := s.nodes.length
  have hlen : args.length = arity := by simp [args, hs]
  let s₀ : Store := { s with valueStack := args ++ .wire wire :: rest }
  let s₁ : Store := s₀.setNet (s.newNode c).2
  have htuck : s.tuck (.wire wire) arity = .ok s₀ := if_neg (by omega)
  have hn₁ : s₁.nodes[n]? = some ⟨some c, [], 0⟩ := by
    simp [s₁, setNet, Net.newNode, n]
  have hs₁ : s₁.valueStack = args ++ .wire wire :: rest := rfl
  rw [← hlen] at harity hports
  obtain ⟨s', values, w, hrun, hstack, hfed⟩ := exists_reconnectNode hc hp harity hports hn₁ hw hs₁
  have hn' : s'.nodes[n]? = some ⟨some c, values, 0⟩ := by
    rw [hfed.nodes, Cells.getElem?_set hn₁, if_pos rfl]
  have hvalue (i : ℕ) (v : Value) (hv : values.get i = some v) : s'.getValue n i = .ok v := by
    simp only [Net.getValue, hn', hv]
  use s'
  constructor
  · have hnode : s₀.applyNodeCtor P c (arity + 1) = s₁.reconnectNode P n (arity + 1) := rfl
    rw [applyWire_eq hw h₁ h₂ htuck, hnode, ← hlen, hrun]
    rfl
  · constructor
    · exact ⟨_, _, hn'⟩
    · use s.principalWires.length
      refine ⟨hvalue _ _ hfed.target, ?_, hfed.fuzed⟩
      have hpw : s₁.principalWires = s.principalWires := rfl
      rw [hfed.principalWires, hpw, Cells.getElem?_snoc, if_pos rfl]
    · intro i arg harg
      obtain ⟨u, hu, hcar⟩ := hfed.arg i arg harg
      exact ⟨u, hvalue _ _ hu, hcar⟩
    · intro w hw hnw
      exact (hnw (hfed.spares.destroyed w hw)).elim

theorem walkFuel_of_set {wires : List Wire} {k : ℕ} {o : Option Value} {u : Value}
    (h : walkFuel (wires.set m ⟨o, true⟩) k v = some u) : walkFuel wires k v = some u := by
  induction k generalizing v with
  | zero => cases h
  | succ k ih =>
    cases v with
    | wire x =>
      unfold walkFuel at h ⊢
      rw [List.getElem?_set] at h
      by_cases hx : m = x
      · rw [if_pos hx] at h
        by_cases hm : m < wires.length
        · rw [if_pos hm] at h
          cases o <;> cases h
        · rw [if_neg hm] at h
          cases h
      · rw [if_neg hx] at h
        split at h
        · exact h
        · exact ih h
        · cases h
    | _ => exact h

/-- The wires are destroyed on the way to the value that `walk` finds. -/
theorem walkFuel_of_defuzeFuel {k : ℕ} {u : Value} (h : defuzeFuel k net v = .ok (net', u)) :
    walkFuel net.wires k v = some u := by
  induction k generalizing net v with
  | zero => cases h
  | succ k ih =>
    cases v with
    | wire x =>
      unfold defuzeFuel at h
      split at h
      · rename_i hx
        cases h
        rw [walkFuel, hx]
      · rename_i hx
        rw [walkFuel, hx]
        exact walkFuel_of_set (ih h)
      · cases h
    | _ =>
      cases h
      rfl

theorem open_of_walkFuel {wires : List Wire} {k : ℕ} (h : walkFuel wires k v = some (.wire m)) :
    wires[m]? = some ⟨none, false⟩ := by
  induction k generalizing v with
  | zero => cases h
  | succ k ih =>
    cases v with
    | wire x =>
      unfold walkFuel at h
      split at h
      · cases h
        assumption
      · exact ih h
      · cases h
    | _ => cases h

/-- The apply node is built right if and only if the wire itself is not fuzed. -/
theorem exists_appliedWire_iff (hw : walk s.wires (.wire wire) = some (.wire last))
    (h₁ : 0 < arity) (h₂ : arity ≤ maxApplyArity) (hs : arity ≤ s.valueStack.length) :
    (∃ s', s.applyWire P wire arity = .ok (s', none) ∧ AppliedWire s s' last arity) ↔
      s.wires[wire]? = some ⟨none, false⟩ := by
  constructor
  · rintro ⟨s', happly, -⟩
    have hdirect : Direct s.toNet (.wire wire) := direct_of_applyTarget happly
    obtain ⟨⟨net, u⟩, hd, -⟩ := Outcome.of_bind_eq_ok happly
    obtain rfl : .wire last = u := Option.some.inj (hw.symm.trans (walkFuel_of_defuzeFuel hd))
    obtain rfl : wire = last := Value.wire.inj (hdirect net last hd)
    exact open_of_walkFuel hw
  · intro ho
    have hlast : walk s.wires (.wire wire) = some (.wire wire) := by
      rw [walk, walkFuel, ho]
    obtain rfl : last = wire := Value.wire.inj (Option.some.inj (hw.symm.trans hlast))
    exact exists_applyWire ho h₁ h₂ hs

/-- Wire `0` is fuzed with wire `1`, which has nothing at its other end. -/
def chained : Store :=
  { wires := [⟨some (.wire 1), false⟩, ⟨none, false⟩], valueStack := [.word 7] }

theorem exists_appliedWire_iff_chained :
    (∃ s', chained.applyWire {} 1 1 = .ok (s', none) ∧ AppliedWire chained s' 1 1) ↔
      chained.wires[1]? = some ⟨none, false⟩ :=
  exists_appliedWire_iff rfl (by decide) (by decide) (by decide)

/-- The first wire of a chain is put into the node after it was freed. -/
theorem not_exists_appliedWire : ¬∀ (P : Program) (s : Store) (wire last arity : ℕ),
    walk s.wires (.wire wire) = some (.wire last) → 0 < arity → arity ≤ maxApplyArity →
      arity ≤ s.valueStack.length →
        ∃ s', s.applyWire P wire arity = .ok (s', none) ∧ AppliedWire s s' last arity := by
  intro h
  obtain ⟨s', happly, -⟩ := h {} chained 0 1 1 rfl (by decide) (by decide) (by decide)
  have herror : chained.applyWire {} 0 1 = .error .useAfterFree := by rfl
  rw [herror] at happly
  cases happly

end Store

end InetLisp
