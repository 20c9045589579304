import InetLisp.Core.Tied

/-! # Connecting adds a tie

What is at hand outside of the net has at most one more end inside of it, so the wires that
`connect` uses up lie between two others.
-/

namespace InetLisp

open Lib Wiring

variable {P : Program} {missed : Set Redex} {net net' net₁ : Net} {outside : Multiset Value}
  {tasks : Multiset Task} {U : Set (ℕ × ℕ)} {n c i k w p q : ℕ} {l : Slots Value}
  {v u left right : Value} {a b x y : End} {task : Option Task}

theorem Net.Refers.mem_values (h : net.Refers x v) :
    v ∈ net.values ∅ ∨ ∃ p q n i, x = .value (.principalWire p) ∧ v = .principalWire q ∧
      net.principalWires[p]? = some ⟨n, i, some q, false⟩ := by
  cases h with
  | port hn hi => exact .inl (Net.mem_values hn hi (Set.notMem_empty _))
  | wire hw =>
    obtain ⟨r, hr⟩ := Cells.exists_sum_eq (fun _ => Wire.references) hw
    refine .inl (Multiset.mem_add.mpr (.inl ?_))
    rw [hr]
    exact Multiset.mem_add.mpr (.inl (Multiset.mem_singleton_self v))
  | oppsite hp => exact .inr ⟨_, _, _, _, rfl, rfl, hp⟩

namespace Inv

/-- The ends of a wire: those at hand, those given up and those inside of the net. -/
theorem count_add_le (h : Inv P missed net outside tasks { unset := U }) (hv : ¬ v.IsNonWire) :
    outside.count v + (Cells.sum Wire.ends net.wires).count v + (net.values ∅).count v ≤ 2 := by
  have hc := h.linear.count_le v hv
  rw [Net.ledger_eq] at hc
  simp only [Multiset.count_add] at hc
  omega

theorem not_refers_of_fuzed (h : Inv P missed net (.wire w ::ₘ outside) tasks { unset := U })
    (hw : net.wires[w]? = some ⟨some v, false⟩) (x : End) : ¬ net.Refers x (.wire w) := by
  intro hr
  have hm := hr.mem_values.resolve_right (by rintro ⟨p, q, n, i, -, he, -⟩; cases he)
  have hc := h.count_add_le (v := .wire w) id
  obtain ⟨r, hends⟩ := Cells.exists_sum_eq Wire.ends hw
  have hone : 1 ≤ (Cells.sum Wire.ends net.wires).count (.wire w) := by
    rw [hends, Multiset.count_add]
    simp [Wire.ends]
  have hmem : 1 ≤ (net.values ∅).count (.wire w) := Multiset.one_le_count_iff_mem.mpr hm
  rw [Multiset.count_cons_self] at hc
  omega

theorem notMem_of_fuzed (h : Inv P missed net (.wire w ::ₘ outside) tasks { unset := U })
    (hw : net.wires[w]? = some ⟨some v, false⟩) : .wire w ∉ outside := by
  intro hm
  have hc := h.count_add_le (v := .wire w) id
  obtain ⟨r, hends⟩ := Cells.exists_sum_eq Wire.ends hw
  have hone : 1 ≤ (Cells.sum Wire.ends net.wires).count (.wire w) := by
    rw [hends, Multiset.count_add]
    simp [Wire.ends]
  have hmem : 1 ≤ outside.count (.wire w) := Multiset.one_le_count_iff_mem.mpr hm
  rw [Multiset.count_cons_self] at hc
  omega

theorem eq_port_of_refers (h : Inv P missed net (.principalWire p ::ₘ outside) tasks { unset := U })
    (hp : net.principalWires[p]? = some ⟨n, i, none, false⟩)
    (hr : net.Refers x (.principalWire p)) : x = .port n i := by
  obtain ⟨-, c, l, k, ctor, hn, hi, -⟩ := h.shape.owner p n i _ hp
  cases hr with
  | port hm hj =>
    obtain ⟨o, hp'⟩ := h.shape.port _ _ _ _ _ p hm hj (Set.notMem_empty _)
    cases hp.symm.trans hp'
    rfl
  | @wire w _ hw =>
    exfalso
    have hc := h.count_add_le (v := .principalWire p) id
    have h₁ : 1 ≤ (Cells.sum (fun _ => Wire.references) net.wires).count (.principalWire p) := by
      obtain ⟨r, hrefs⟩ := Cells.exists_sum_eq (fun _ => Wire.references) hw
      rw [hrefs, Multiset.count_add]
      simp [Wire.references]
    have h₂ : 1 ≤ (Cells.sum (Node.ledger ∅) net.nodes).count (.principalWire p) := by
      obtain ⟨r, hnodes⟩ := Cells.exists_sum_eq (Node.ledger ∅) hn
      rw [hnodes, Multiset.count_add]
      have hmem := Multiset.one_le_count_iff_mem.mpr
        (Slots.mem_contentExcept (X := {j | (n, j) ∈ (∅ : Set (ℕ × ℕ))}) (Set.notMem_empty _) hi)
      exact hmem.trans (Nat.le_add_right _ _)
    rw [Multiset.count_cons_self, Net.values, Multiset.count_add] at hc
    omega
  | @oppsite q m j _ hq =>
    obtain ⟨-, hd | ⟨m', j', hp'⟩⟩ := h.shape.oppsite q m j p hq
    · exact hd.elim
    · cases hp.symm.trans hp'

theorem not_refers_of_not_in (h : Inv P missed net outside tasks { unset := U }) (hv : ¬ v.In net)
    (x : End) : ¬ net.Refers x v := by
  intro hr
  rcases hr.mem_values with hm | ⟨p, q, n, i, -, rfl, hp⟩
  · apply hv
    apply h.linear.allocated v
    rw [Net.ledger_eq]
    exact Multiset.mem_add.mpr (.inr (Multiset.mem_add.mpr (.inr hm)))
  · obtain ⟨-, hd | ⟨n', i', hq⟩⟩ := h.shape.oppsite p n i q hp
    · exact hd.elim
    · exact hv (List.getElem?_eq_some_iff.mp hq).1

theorem isolated_of_not_in (h : Inv P missed net outside tasks { unset := U }) (hv : ¬ v.In net) :
    Isolated net.Tied (.value v) := by
  apply Net.isolated_value (h.not_refers_of_not_in hv)
  intro u hr
  cases hr with
  | wire hw => exact hv (List.getElem?_eq_some_iff.mp hw).1
  | oppsite hp => exact hv (List.getElem?_eq_some_iff.mp hp).1

end Inv

namespace Net.Joins

theorem of_eq (ht : net'.Tied = net.Tied ⊔ tie a b)
    (hp : ∀ (n i : ℕ) (v : Value), net.Refers (.port n i) v → net'.Refers (.port n i) v) :
    net.Joins net' a b where
  agree _ _ := .of_eq ht.symm
  ports n i v hr _ := hp n i v hr

theorem comm (h : net.Joins net' a b) : net.Joins net' b a where
  agree := by
    rw [tie_comm]
    exact h.agree
  ports := h.ports

end Net.Joins

theorem Net.Refers.of_nodes (hn : net'.nodes = net.nodes) (h : net.Refers (.port n i) v) :
    net'.Refers (.port n i) v := by
  obtain ⟨c, l, k, hm, hi⟩ := Net.refers_port.mp h
  exact .port (hn ▸ hm) hi

theorem not_alive_of_destroyed (h : net.Destroyed w) : ¬ Value.Alive net (.wire w) := by
  obtain ⟨o, h⟩ := h
  rintro ⟨o', h'⟩
  cases h.symm.trans h'

theorem Net.joins_connectActivePair
    (h : Inv P missed net (.principalWire p ::ₘ .principalWire q ::ₘ outside) tasks { unset := U })
    (hx : connectActivePair P net p q = .ok (net', task)) :
    net.Joins net' (.value (.principalWire p)) (.value (.principalWire q)) := by
  obtain ⟨n, i, hp⟩ := h.principal_of_mem (Multiset.mem_cons_self _ _)
  obtain ⟨m, j, hq⟩ := h.principal_of_mem
    (Multiset.mem_cons_of_mem (Multiset.mem_cons_self _ _))
  have hne := h.principal_ne
  have hq' : (net.setPrincipalWire p ⟨n, i, some q, false⟩).principalWires[q]? =
      some ⟨m, j, none, false⟩ := by
    rw [Net.setPrincipalWire, Cells.getElem?_set hp, if_neg hne, hq]
  obtain ⟨-, c, l, k, -, hn, -⟩ := h.shape.owner p n i _ hp
  obtain ⟨-, d, l', k', -, hm, -⟩ := h.shape.owner q m j _ hq
  rw [connectActivePair_eq hp hq hne ⟨l, k, hn⟩ ⟨l', k', hm⟩] at hx
  cases hx
  apply Joins.of_eq
  · rw [Net.tied_setOppsite hq', Net.tied_setOppsite hp,
      tie_comm (End.value (.principalWire q)), sup_assoc, sup_idem]
  · intro n i v hr
    exact hr.of_nodes (by rfl)

theorem Net.tied_clear_setPrincipalWire (hp : net.principalWires[p]? = some ⟨n, i, none, false⟩)
    (hn : net.nodes[n]? = some ⟨some c, l, k⟩) :
    ((net.setPrincipalWire p ⟨n, i, none, true⟩).clear n i).Tied = (net.clear n i).Tied := by
  have hn' : (net.setPrincipalWire p ⟨n, i, none, true⟩).nodes[n]? = some ⟨some c, l, k⟩ := hn
  have hp' : (net.clear n i).principalWires[p]? = some ⟨n, i, none, false⟩ := by
    rw [principalWires_clear, hp]
  rw [← tied_destroy hp']
  simp only [clear, hn, hn']
  rfl

theorem Net.joins_collectPrimitiveArg
    (h : Inv P missed net (.principalWire p ::ₘ v ::ₘ outside) tasks { unset := U })
    (hv : v.IsNonWire) (hx : collectPrimitiveArg P net p v = .ok (net', task)) :
    net.Joins net' (.value (.principalWire p)) (.value v) := by
  obtain ⟨n, i, hp⟩ := h.principal_of_mem (Multiset.mem_cons_self _ _)
  obtain ⟨-, c, l, k, ctor, hn, hi, hc, -⟩ := h.shape.owner p n i _ hp
  rw [collectPrimitiveArg_eq hp hn hc] at hx
  split at hx <;> cases hx
  have hn' : (net.setPrincipalWire p ⟨n, i, none, true⟩).nodes[n]? = some ⟨some c, l, k⟩ := hn
  have hport : net.Refers (.port n i) (.principalWire p) := .port hn hi
  have hp' : ∀ {net' : Net}, net'.principalWires = net.principalWires.set p ⟨n, i, none, true⟩ →
      ¬ Value.Alive net' (.principalWire p) := by
    rintro net' he ⟨n', i', o, hp'⟩
    rw [he, Cells.getElem?_set hp, if_pos rfl] at hp'
    cases hp'
  constructor
  · intro S hS
    rw [tied_setPort hn', tied_clear_setPrincipalWire hp hn, tied_eq_clear hport,
      tie_comm (End.port n i)]
    apply Agree.contract
    · exact End.not_isAtom_principalWire
    · apply isolated_value
      · intro x hr
        obtain ⟨hr, hne⟩ := refers_of_clear hr
        exact hne (h.eq_port_of_refers hp hr)
      · intro u hr
        obtain ⟨n', i', q, hq, -⟩ := refers_principalWire.mp (refers_of_clear hr).1
        cases hp.symm.trans hq
    · exact fun hm => hp' rfl (hS _ hm).2
    · rintro ⟨⟩
    · rintro ⟨⟩
      exact hv
  · intro m j u hr hu
    have hne : (m, j) ≠ (n, i) := by
      rintro he
      cases he
      obtain ⟨c', l', k', hm, hj⟩ := refers_port.mp hr
      cases hn.symm.trans hm
      cases hi.symm.trans hj
      exact hp' rfl hu
    exact (hr.of_nodes (by rfl)).setNode_of_ne hn' hne

/-- `fuze`, given that the `connect` it goes on with adds a tie. -/
theorem Net.joins_fuze {connect : Net → Value → Value → Except Error (Net × Option Task)}
    (h : Inv P missed net (.wire w ::ₘ v ::ₘ outside) tasks { unset := U })
    (hc : ∀ u net₁, Inv P missed net₁ (u ::ₘ v ::ₘ outside) tasks { unset := U } →
      connect net₁ u v = .ok (net', task) → net₁.Joins net' (.value u) (.value v) ∧
        net₁.Grows net')
    (hx : fuze connect net w v = .ok (net', task)) :
    net.Joins net' (.value (.wire w)) (.value v) := by
  obtain ⟨o, hw⟩ := h.wire_of_mem (Multiset.mem_cons_self _ _)
  unfold fuze at hx
  rw [hw] at hx
  cases o with
  | none =>
    cases hx
    exact .of_eq (tied_fuze hw) fun n i v hr => hr.of_nodes (by rfl)
  | some u =>
    have h₁ := h.fuzeSecond hw
    obtain ⟨hj, hg⟩ := hc u _ h₁ hx
    have hd : net'.Destroyed w := hg.destroyed w ⟨some u, by
      rw [setWire, Cells.getElem?_set hw, if_pos rfl]⟩
    have hdead := not_alive_of_destroyed hd
    constructor
    · intro S hS
      have hiso : Isolated (net.setWire w ⟨some u, true⟩).Tied (.value (.wire w)) := by
        apply isolated_value
        · exact fun x hr => h.not_refers_of_fuzed hw x (refers_of_wireDestroy hr).1
        · exact fun u hr => (refers_of_wireDestroy hr).2 rfl
      rw [tied_wireDestroy hw]
      refine (Agree.contract ?_ hiso ?_ ?_ ?_).trans (hj.agree S ?_)
      · exact End.not_isAtom_wire
      · exact fun hm => hdead (hS _ hm).2
      · rintro ⟨⟩
        exact h.not_refers_of_fuzed hw _ (.wire hw)
      · rintro ⟨⟩
        exact h.notMem_of_fuzed hw (Multiset.mem_cons_self _ _)
      · exact fun x hx => (hS x hx).mono (by simp [setWire]) le_rfl
    · intro n i u' hr hu
      exact hj.ports n i u' (hr.of_nodes (by rfl)) hu

theorem Net.joins_connectFuel
    (h : Inv P missed net (left ::ₘ right ::ₘ outside) tasks { unset := U })
    (hx : connectFuel P k net left right = .ok (net', task)) :
    net.Joins net' (.value left) (.value right) := by
  induction k generalizing net left right with
  | zero => cases hx
  | succ k ih =>
    have hstep : ∀ (v : Value) u net₁, Inv P missed net₁ (u ::ₘ v ::ₘ outside) tasks { unset := U } →
        connectFuel P k net₁ u v = .ok (net', task) →
          net₁.Joins net' (.value u) (.value v) ∧ net₁.Grows net' :=
      fun v u net₁ h₁ hx₁ => ⟨ih h₁ hx₁, grows_connectFuel hx₁⟩
    rcases left.kind with ⟨w, rfl⟩ | ⟨p, rfl⟩ | hl
    · exact joins_fuze h (hstep right) hx
    · rcases right.kind with ⟨w, rfl⟩ | ⟨r, rfl⟩ | hr
      · exact (joins_fuze (Multiset.cons_swap _ _ _ ▸ h) (hstep _) hx).comm
      · exact joins_connectActivePair h hx
      · rw [Inv.connectFuel_principal_nonWire hr] at hx
        exact joins_collectPrimitiveArg h hr hx
    · rcases right.kind with ⟨w, rfl⟩ | ⟨r, rfl⟩ | hr
      · rw [Inv.connectFuel_nonWire_wire hl] at hx
        exact (joins_fuze (Multiset.cons_swap _ _ _ ▸ h) (hstep _) hx).comm
      · rw [Inv.connectFuel_nonWire_principal hl] at hx
        exact (joins_collectPrimitiveArg (Multiset.cons_swap _ _ _ ▸ h) hl hx).comm
      · rw [Inv.connectFuel_nonWire_nonWire hl hr] at hx
        cases hx

theorem Net.joins_connect (h : Inv P missed net (left ::ₘ right ::ₘ outside) tasks { unset := U })
    (hx : connect P net left right = .ok (net', task)) :
    net.Joins net' (.value left) (.value right) := joins_connectFuel h hx

/-! ### Ports of a new node -/

/-- A port is set to something new. -/
structure Net.Attached (net net₁ : Net) (n i : ℕ) (u : Value) : Prop where
  new : ¬ u.In net
  isolated : Isolated net.Tied (.value u)
  tied : net₁.Tied = net.Tied ⊔ tie (.port n i) (.value u)
  ports : ∀ (m j : ℕ) (v : Value), net.Refers (.port m j) v → net₁.Refers (.port m j) v
  port : net₁.Refers (.port n i) u
  wires : net.wires.length ≤ net₁.wires.length
  principalWires : net.principalWires.length ≤ net₁.principalWires.length

/-- What is new and is connected on lies between the port and the value. -/
theorem Net.Attached.joins (ha : net.Attached net₁ n i u) (hv : v.In net)
    (hj : net₁.Joins net' (.value u) (.value v)) : net.Joins net' (.port n i) (.value v) where
  agree S hS := by
    have hu : ¬ (End.value u).IsAtom := by
      intro hu
      apply ha.new
      cases u <;> trivial
    refine Agree.trans ?_ (hj.agree S fun x hx => (hS x hx).mono ha.wires ha.principalWires)
    rw [ha.tied, tie_comm (End.port n i) (.value u)]
    refine (Agree.contract hu ha.isolated ?_ ?_ ?_).symm
    · exact fun hm => ha.new (hS _ hm).1
    · nofun
    · rintro ⟨⟩
      exact ha.new hv
  ports m j u' hr hu' := hj.ports m j u' (ha.ports m j u' hr) hu'

section Attach

variable {G : Open} {ctor : NodeCtor}

theorem Net.setValue_eq (net₁ : Net) (hn : net.nodes[n]? = some ⟨some c, l, k⟩)
    (hnet : net₁.nodes = net.nodes) :
    net₁.setValue n i u = .ok (net₁.setNode n ⟨some c, l.set i (some u), k⟩) := by
  simp [Net.setValue, hnet, hn]

theorem Inv.not_refers_unset (h : Inv P missed net outside tasks { unset := U }) (hu : (n, i) ∈ U)
    (v : Value) : ¬ net.Refers (.port n i) v := by
  intro hr
  obtain ⟨c, l, k, hn, hi⟩ := Net.refers_port.mp hr
  have hnone : l.get i = none := h.shape.unset n i _ hu hn
  cases hnone.symm.trans hi

theorem Net.attached_of_setNode (h : Inv P missed net outside tasks { unset := U })
    (hn : net.nodes[n]? = some ⟨some c, l, k⟩) (hu : (n, i) ∈ U) (hnew : ¬ u.In net)
    (hnodes : net₁.nodes = net.nodes) (ht : net₁.Tied = net.Tied)
    (hw : net.wires.length ≤ net₁.wires.length)
    (hp : net.principalWires.length ≤ net₁.principalWires.length) :
    net.Attached (net₁.setNode n ⟨some c, l.set i (some u), k⟩) n i u where
  new := hnew
  isolated := h.isolated_of_not_in hnew
  tied := by
    rw [tied_setPort (hnodes ▸ hn), tied_clear, ht]
    intro v hr
    exact h.not_refers_unset hu v (hr.of_nodes hnodes.symm)
  ports m j v hr := by
    apply (hr.of_nodes hnodes).setNode_of_ne (hnodes ▸ hn)
    rintro he
    cases he
    exact h.not_refers_unset hu v hr
  port := by
    rw [refers_port, setNode, Cells.getElem?_set (hnodes ▸ hn), if_pos rfl]
    exact ⟨c, _, k, rfl, Slots.get_set_self⟩
  wires := hw
  principalWires := hp

theorem Net.attached_newPrincipalWire (h : Inv P missed net outside tasks { unset := U })
    (hn : net.nodes[n]? = some ⟨some c, l, k⟩) (hu : (n, i) ∈ U) :
    net.Attached ((net.newPrincipalWire n i).2.setNode n
      ⟨some c, l.set i (some (.principalWire (net.newPrincipalWire n i).1)), k⟩) n i
      (.principalWire (net.newPrincipalWire n i).1) :=
  attached_of_setNode h hn hu (lt_irrefl net.principalWires.length) rfl tied_newPrincipalWire le_rfl
    (by simp [newPrincipalWire])

theorem Net.attached_newWire (h : Inv P missed net outside tasks { unset := U })
    (hn : net.nodes[n]? = some ⟨some c, l, k⟩) (hu : (n, i) ∈ U) :
    net.Attached (net.newWire.2.setNode n ⟨some c, l.set i (some (.wire net.newWire.1)), k⟩) n i
      (.wire net.newWire.1) :=
  attached_of_setNode h hn hu (lt_irrefl net.wires.length) rfl tied_newWire
    (by simp [newWire]) le_rfl

theorem Net.joins_reconnectInput (h : Inv P missed net (v ::ₘ outside) tasks { unset := U })
    (hn : CtorOf net.nodes n c) (hu : (n, i) ∈ U)
    (hx : Store.reconnectInput P net n i v = .ok (net', task)) :
    net.Joins net' (.port n i) (.value v) := by
  obtain ⟨ctor, hc, hget⟩ := h.getNodeCtor hn
  obtain ⟨l, k, hn⟩ := hn
  have hin : v.In net := h.linear.allocated v (by simp)
  unfold Store.reconnectInput at hx
  rw [hget, Outcome.ok_bind] at hx
  cases hinfo : ctor.portInfos[i]? with
  | none =>
    rw [hinfo] at hx
    cases hx
  | some info =>
    rw [hinfo] at hx
    dsimp only at hx
    by_cases hpr : info.isPrincipal = true
    · rw [if_pos hpr, setValue_eq (net.newPrincipalWire n i).2 hn rfl, Outcome.ok_bind] at hx
      have h₁ := h.setPrincipalPort hn hc hu (Set.notMem_empty _) ⟨info, hinfo, hpr⟩
      exact (attached_newPrincipalWire h hn hu).joins hin (joins_connect h₁ hx)
    · have hi : ¬ ctor.IsPrincipal i := by
        rintro ⟨info', he, hp⟩
        cases hinfo.symm.trans he
        exact hpr hp
      rw [if_neg hpr] at hx
      have hother : ∀ {net'}, (∀ p, v ≠ .principalWire p) →
          net' = net.setNode n ⟨some c, l.set i (some v), k⟩ →
            net.Joins net' (.port n i) (.value v) := by
        rintro net' hv rfl
        apply Joins.of_eq
        · rw [tied_setPort hn, tied_clear (h.not_refers_unset hu)]
        · intro m j v' hr
          apply hr.setNode_of_ne hn
          rintro he
          cases he
          exact h.not_refers_unset hu v' hr
      cases v with
      | principalWire p =>
        dsimp only at hx
        rw [setValue_eq net.newWire.2 hn rfl, Outcome.ok_bind] at hx
        have hn' : net.newWire.2.nodes[n]? = some ⟨some c, l, k⟩ := hn
        have h₁ := h.newWire.setPort hn' hc hu (Set.notMem_empty _) hi (by rintro p ⟨⟩)
        exact (attached_newWire h hn hu).joins hin (joins_connect h₁ hx)
      | _ =>
        dsimp only at hx
        rw [setValue_eq net hn rfl, Outcome.ok_bind] at hx
        cases hx
        exact hother nofun rfl

theorem Net.attached_reconnectOutput (h : Inv P missed net outside tasks { unset := U })
    (hn : CtorOf net.nodes n c) (hu : (n, i) ∈ U)
    (hx : Store.reconnectOutput P net n i = .ok (net', u)) : net.Attached net' n i u := by
  obtain ⟨ctor, hc, hget⟩ := h.getNodeCtor hn
  obtain ⟨l, k, hn⟩ := hn
  unfold Store.reconnectOutput at hx
  rw [hget, Outcome.ok_bind] at hx
  cases hinfo : ctor.portInfos[i]? with
  | none =>
    rw [hinfo] at hx
    cases hx
  | some info =>
    rw [hinfo] at hx
    dsimp only at hx
    by_cases hpr : info.isPrincipal = true
    · rw [if_pos hpr, setValue_eq (net.newPrincipalWire n i).2 hn rfl, Outcome.ok_bind] at hx
      cases hx
      exact attached_newPrincipalWire h hn hu
    · rw [if_neg hpr, setValue_eq net.newWire.2 hn rfl, Outcome.ok_bind] at hx
      cases hx
      exact attached_newWire h hn hu

end Attach

end InetLisp
