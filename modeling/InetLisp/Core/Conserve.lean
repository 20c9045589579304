import InetLisp.Core.Invariant

/-! # Connecting and building keep the invariant

One lemma for each function of the code, from `fuze` up to a whole opcode. The
values that a function takes are outside of the net before and those that it
returns are outside after it; the task that it finds is pending from then on.
-/

namespace InetLisp

open Lib

def Net.liveWires (net : Net) : ℕ := net.wires.countP (!·.isDestroyed)

variable {P : Program} {missed : Set Redex} {net net' : Net} {outside : Multiset Value}
  {tasks : Multiset Task} {G : Open} {p r w n i k : ℕ} {v left right : Value}

section

variable {m i j c d : ℕ}

theorem connectActivePair_eq (hp : net.principalWires[p]? = some ⟨n, i, none, false⟩)
    (hr : net.principalWires[r]? = some ⟨m, j, none, false⟩) (hne : p ≠ r)
    (hn : CtorOf net.nodes n c) (hm : CtorOf net.nodes m d) : connectActivePair P net p r =
      .ok ((net.setPrincipalWire p ⟨n, i, some r, false⟩).setPrincipalWire r ⟨m, j, some p, false⟩,
        findRule P p r c d) := by
  obtain ⟨l, k, hn⟩ := hn
  obtain ⟨l', k', hm⟩ := hm
  have hr' : (net.setPrincipalWire p ⟨n, i, some r, false⟩).principalWires[r]? =
      some ⟨m, j, none, false⟩ := by
    rw [Net.setPrincipalWire, Cells.getElem?_set hp, if_neg hne, hr]
  have h₁ : net.getPrincipalWire p = .ok ⟨n, i, none, false⟩ :=
    Net.getPrincipalWire_eq_ok.mpr ⟨hp, rfl⟩
  have h₂ : (net.setPrincipalWire p ⟨n, i, some r, false⟩).getPrincipalWire r =
      .ok ⟨m, j, none, false⟩ := Net.getPrincipalWire_eq_ok.mpr ⟨hr', rfl⟩
  have h₃ : ((net.setPrincipalWire p ⟨n, i, some r, false⟩).setPrincipalWire r
      ⟨m, j, some p, false⟩).getCtor n = .ok c := by
    simp [Net.getCtor, Net.setPrincipalWire, hn]
  have h₄ : ((net.setPrincipalWire p ⟨n, i, some r, false⟩).setPrincipalWire r
      ⟨m, j, some p, false⟩).getCtor m = .ok d := by
    simp [Net.getCtor, Net.setPrincipalWire, hm]
  simp only [connectActivePair, h₁, h₂, h₃, h₄, Outcome.ok_bind]
  rfl

theorem collectPrimitiveArg_eq {l : Slots Value} {ctor : NodeCtor}
    (hp : net.principalWires[p]? = some ⟨n, i, none, false⟩)
    (hn : net.nodes[n]? = some ⟨some c, l, k⟩) (hc : P.nodeCtor c = some ctor) :
    collectPrimitiveArg P net p v = if ctor.primitive.isNone then .error .notPrimitiveNode else
      .ok ((net.setPrincipalWire p ⟨n, i, none, true⟩).setNode n ⟨some c, l.set i (some v), k + 1⟩,
        if k + 1 = ctor.principalPortCount then some (.primitive n) else none) := by
  have h₁ : net.getPrincipalWire p = .ok ⟨n, i, none, false⟩ :=
    Net.getPrincipalWire_eq_ok.mpr ⟨hp, rfl⟩
  have h₂ : P.getNodeCtor net n = .ok ctor := by
    simp [Program.getNodeCtor, Net.getCtor, hn, hc]
  have h₃ : net.destroyPrincipalWire p = .ok (net.setPrincipalWire p ⟨n, i, none, true⟩) := by
    simp [Net.destroyPrincipalWire, hp]
  have h₄ : (net.setPrincipalWire p ⟨n, i, none, true⟩).setValue n i v =
      .ok ((net.setPrincipalWire p ⟨n, i, none, true⟩).setNode n
        ⟨some c, l.set i (some v), k⟩) := by
    simp [Net.setValue, Net.setPrincipalWire, hn]
  have h₅ : ((net.setPrincipalWire p ⟨n, i, none, true⟩).setNode n
      ⟨some c, l.set i (some v), k⟩).nodes[n]? = some ⟨some c, l.set i (some v), k⟩ := by
    rw [Net.setNode, Net.setPrincipalWire, Cells.getElem?_set hn, if_pos rfl]
  have hset : ((net.setPrincipalWire p ⟨n, i, none, true⟩).setNode n
      ⟨some c, l.set i (some v), k⟩).setNode n ⟨some c, l.set i (some v), k + 1⟩ =
      (net.setPrincipalWire p ⟨n, i, none, true⟩).setNode n ⟨some c, l.set i (some v), k + 1⟩ := by
    simp [Net.setNode, Net.setPrincipalWire, List.set_set]
  rw [collectPrimitiveArg, h₁, Outcome.ok_bind]
  dsimp only
  rw [h₂, Outcome.ok_bind]
  split
  · rfl
  · rw [h₃, Outcome.ok_bind, h₄, Outcome.ok_bind, h₅]
    dsimp only
    rw [hset]
    rfl

/-- Two principal wires that are connected are pending if there is a rule for them. -/
theorem Pending.pair {principalWires : List PrincipalWire} {nodes : List Node}
    (h : Pending P missed principalWires nodes tasks)
    (hp : principalWires[p]? = some ⟨n, i, none, false⟩)
    (hr : principalWires[r]? = some ⟨m, j, none, false⟩) (hne : p ≠ r)
    (hn : CtorOf nodes n c) (hm : CtorOf nodes m d) :
    Pending P missed ((principalWires.set p ⟨n, i, some r, false⟩).set r ⟨m, j, some p, false⟩) nodes
      (Slots.single (findRule P p r c d) + tasks) := by
  have hvalid := fun t : Task => Shape.pair_valid (P := P) (t := t) hp hr hne hn hm
  cases hf : findRule P p r c d with
  | none =>
    rw [Slots.single_none, zero_add]
    refine h.congr fun t => (hvalid t).trans (or_iff_left ?_)
    rintro ⟨rule, hrule, ⟨rfl, hm⟩ | ⟨rfl, hm⟩⟩
    · exact not_hasRule_of_findRule hf hrule (.inl hm)
    · exact not_hasRule_of_findRule hf hrule (.inr hm)
  | some t =>
    have hopps : Oppsites ((principalWires.set p ⟨n, i, some r, false⟩).set r
        ⟨m, j, some p, false⟩) nodes p r c d := by
      refine ⟨n, i, m, j, ?_, ?_, hn, hm⟩
      · rw [Shape.getElem?_pair hp hr hne, if_neg hne.symm, if_pos rfl]
      · rw [Shape.getElem?_pair hp hr hne, if_pos rfl]
    have hopp : ∀ t : Task, t.Valid P principalWires nodes → t.redex ≠ .activePair s(p, r) := by
      rintro (⟨q, q', rule⟩ | ⟨m'⟩) hv he
      · obtain ⟨⟨n', i', m', j', hq, hq', -⟩, -⟩ := hv
        have hmem : p ∈ s(q, q') := by
          rw [Redex.activePair.inj he]
          exact Sym2.mem_mk_left p r
        rcases Sym2.mem_iff.mp hmem with rfl | rfl
        · cases hp.symm.trans hq
        · cases hp.symm.trans hq'
      · cases he
    obtain ⟨ht, hredex⟩ := valid_of_findRule hf hopps
    rw [Slots.single_some, Multiset.singleton_add]
    apply h.add _ ht
    · intro t' ht'
      refine ((hvalid t').mp ht').imp_right ?_
      rw [hredex]
      rintro ⟨rule, -, ⟨rfl, -⟩ | ⟨rfl, -⟩⟩
      · rfl
      · exact congrArg Redex.activePair Sym2.eq_swap
    · intro t' ht'
      refine ⟨(hvalid t').mpr (.inl ht'), ?_⟩
      rw [hredex]
      exact hopp t' ht'

end

namespace Inv

/-- Everything that is connected is taken from outside, and the task that is found is new. -/
def Connects (P : Program) (missed : Set Redex) (outside : Multiset Value) (tasks : Multiset Task)
    (G : Open) (x : Except Error (Net × Option Task)) : Prop :=
  Outcome Error.Expected (fun (net, t) => Inv P missed net outside (Slots.single t + tasks) G) x

theorem connectActivePair (h : Inv P missed net
      (.principalWire p ::ₘ .principalWire r ::ₘ outside) tasks G) :
    Connects P missed outside tasks G (InetLisp.connectActivePair P net p r) := by
  obtain ⟨n, i, hp⟩ := h.principal_of_mem (Multiset.mem_cons_self _ _)
  obtain ⟨m, j, hr⟩ := h.principal_of_mem
    (Multiset.mem_cons_of_mem (Multiset.mem_cons_self _ _))
  have hne := h.principal_ne
  have hr' : (net.setPrincipalWire p ⟨n, i, some r, false⟩).principalWires[r]? =
      some ⟨m, j, none, false⟩ := by
    rw [Net.setPrincipalWire, Cells.getElem?_set hp, if_neg hne, hr]
  obtain ⟨-, c, l, k, ctor, hn, -⟩ := h.shape.owner p n i _ hp
  obtain ⟨-, d, l', k', ctor', hm, -⟩ := h.shape.owner r m j _ hr
  rw [connectActivePair_eq hp hr hne ⟨l, k, hn⟩ ⟨l', k', hm⟩]
  refine ⟨?_, h.shape.pair hp hr hne, h.pending.pair hp hr hne ⟨l, k, hn⟩ ⟨l', k', hm⟩⟩
  have h₁ := Net.ledger_setPrincipalWire G.taken ⟨n, i, some r, false⟩ hp
  have h₂ := Net.ledger_setPrincipalWire G.taken ⟨m, j, some p, false⟩ hr'
  simp only [PrincipalWire.ledger_new, add_zero, PrincipalWire.ledger_oppsite] at h₁ h₂
  refine h.linear.congr ?_ ?_ ?_
  · rw [h₂, h₁, ← Multiset.singleton_add, ← Multiset.singleton_add]
    abel
  · exact le_rfl
  · simp [Net.setPrincipalWire]

theorem collectPrimitiveArg (h : Inv P missed net (.principalWire p ::ₘ v ::ₘ outside) tasks G)
    (hv : v.IsNonWire) :
    Connects P missed outside tasks G (InetLisp.collectPrimitiveArg P net p v) := by
  obtain ⟨n, i, hp⟩ := h.principal_of_mem (Multiset.mem_cons_self _ _)
  obtain ⟨ht, c, l, k, ctor, hn, hi, hc, -⟩ := h.shape.owner p n i _ hp
  rw [collectPrimitiveArg_eq hp hn hc]
  by_cases hpr : ctor.primitive = none
  · rw [if_pos (by simp [hpr])]
    exact ⟨trivial, nofun⟩
  rw [if_neg (by simpa using hpr)]
  have hvalid := fun t : Task => h.shape.collect_valid (t := t) hp hn hc hv hpr
  refine ⟨?_, h.shape.collect hp hn hc hv, ?_⟩
  · have h₁ := Net.ledger_setPrincipalWire G.taken ⟨n, i, none, true⟩ hp
    have hn' : (net.setPrincipalWire p ⟨n, i, none, true⟩).nodes[n]? = some ⟨some c, l, k⟩ := hn
    have h₂ := Net.ledger_setSlot G.taken v (k + 1) hn' ht
    rw [PrincipalWire.ledger_new, add_zero, PrincipalWire.ledger_destroyed] at h₁
    rw [hi, Slots.single_some, h₁] at h₂
    refine h.linear.congr ?_ ?_ ?_
    · have h₃ := add_right_cancel (h₂.trans (show _ =
          net.ledger G.taken + {v} + {.principalWire p} + {.principalWire p} by abel))
      rw [h₃, ← Multiset.singleton_add, ← Multiset.singleton_add]
      abel
    · exact le_rfl
    · simp [Net.setPrincipalWire, Net.setNode]
  · by_cases hk : k + 1 = ctor.principalPortCount
    · rw [if_pos hk, Slots.single_some, Multiset.singleton_add]
      apply h.pending.add
      · intro t ht
        refine ⟨(hvalid t).mpr (.inl ht), ?_⟩
        intro he
        cases t with
        | activePair => cases he
        | primitive m =>
          cases he
          exact h.shape.not_saturated hp ht
      · exact (hvalid _).mpr (.inr ⟨rfl, hk⟩)
      · intro t ht
        refine ((hvalid t).mp ht).imp_right ?_
        rintro ⟨rfl, -⟩
        rfl
    · rw [if_neg hk, Slots.single_none, zero_add]
      exact h.pending.congr fun t => (hvalid t).trans (or_iff_left fun ht => hk ht.2)

theorem fuzeFirst (h : Inv P missed net (.wire w ::ₘ v ::ₘ outside) tasks G)
    (hw : net.wires[w]? = some ⟨none, false⟩) :
    Inv P missed (net.setWire w ⟨some v, false⟩) outside tasks G where
  linear := by
    have h₁ := Net.ledger_setWire G.taken ⟨some v, false⟩ hw
    rw [Wire.ledger_new, add_zero, Wire.ledger_fuzed] at h₁
    refine h.linear.congr ?_ ?_ le_rfl
    · rw [h₁, ← Multiset.singleton_add, ← Multiset.singleton_add]
      abel
    · simp [Net.setWire]
  shape := h.shape
  pending := h.pending

/-- The second end destroys the wire and hands out what the first end was fuzed with. -/
theorem fuzeSecond (h : Inv P missed net (.wire w ::ₘ outside) tasks G)
    (hw : net.wires[w]? = some ⟨some v, false⟩) :
    Inv P missed (net.setWire w ⟨some v, true⟩) (v ::ₘ outside) tasks G where
  linear := by
    have h₁ := Net.ledger_setWire G.taken ⟨some v, true⟩ hw
    rw [Wire.ledger_destroyed, Wire.ledger_fuzed, ← add_assoc, ← add_assoc] at h₁
    have h₂ : (net.setWire w ⟨some v, true⟩).ledger G.taken + {v} =
        net.ledger G.taken + {.wire w} := by
      apply add_right_cancel (b := ({.wire w} : Multiset Value))
      rw [← h₁]
      abel
    refine h.linear.congr ?_ ?_ le_rfl
    · rw [← Multiset.singleton_add, ← Multiset.singleton_add]
      calc {v} + outside + (net.setWire w ⟨some v, true⟩).ledger G.taken
          = outside + ((net.setWire w ⟨some v, true⟩).ledger G.taken + {v}) := by abel
        _ = {.wire w} + outside + net.ledger G.taken := by rw [h₂]; abel
    · simp [Net.setWire]
  shape := h.shape
  pending := h.pending

theorem liveWires_setWire {o : Option Value} (o' : Option Value)
    (hw : net.wires[w]? = some ⟨o, false⟩) :
    (net.setWire w ⟨o', true⟩).liveWires + 1 = net.liveWires := by
  obtain ⟨hlt, he⟩ := List.getElem?_eq_some_iff.mp hw
  have hpos : 0 < net.wires.countP (!·.isDestroyed) := by
    rw [List.countP_pos_iff]
    exact ⟨_, List.mem_of_getElem? hw, rfl⟩
  unfold Net.liveWires Net.setWire
  rw [List.countP_set hlt, he]
  simp only [Bool.not_false, if_true, Bool.not_true, Bool.false_eq_true, if_false]
  omega

section Kinds

variable {left right : Value}

theorem connectFuel_principal_nonWire (hr : right.IsNonWire) :
    InetLisp.connectFuel P (k + 1) net (.principalWire p) right =
      InetLisp.collectPrimitiveArg P net p right := by
  cases right <;> first | rfl | exact hr.elim

theorem connectFuel_nonWire_wire (hl : left.IsNonWire) :
    InetLisp.connectFuel P (k + 1) net left (.wire w) =
      InetLisp.fuze (InetLisp.connectFuel P k) net w left := by
  cases left <;> first | rfl | exact hl.elim

theorem connectFuel_nonWire_principal (hl : left.IsNonWire) :
    InetLisp.connectFuel P (k + 1) net left (.principalWire p) =
      InetLisp.collectPrimitiveArg P net p left := by
  cases left <;> first | rfl | exact hl.elim

theorem connectFuel_nonWire_nonWire (hl : left.IsNonWire) (hr : right.IsNonWire) :
    InetLisp.connectFuel P (k + 1) net left right = .error .canNotConnect := by
  cases left <;> cases right <;> first | rfl | exact hl.elim | exact hr.elim

end Kinds

theorem connectFuel (hk : net.liveWires < k)
    (h : Inv P missed net (left ::ₘ right ::ₘ outside) tasks G) :
    Connects P missed outside tasks G (InetLisp.connectFuel P k net left right) := by
  induction k generalizing net left right with
  | zero => exact (Nat.not_lt_zero _ hk).elim
  | succ k ih =>
    have hfuze : ∀ {w v}, Inv P missed net (.wire w ::ₘ v ::ₘ outside) tasks G →
        Connects P missed outside tasks G
          (InetLisp.fuze (InetLisp.connectFuel P k) net w v) := by
      intro w v h
      obtain ⟨o, hw⟩ := h.wire_of_mem (Multiset.mem_cons_self _ _)
      unfold InetLisp.fuze
      rw [hw]
      cases o with
      | none =>
        change Inv P missed _ _ (0 + tasks) G
        rw [zero_add]
        exact h.fuzeFirst hw
      | some u =>
        apply ih _ (h.fuzeSecond hw)
        have := liveWires_setWire (some u) hw
        omega
    rcases left.kind with ⟨w, rfl⟩ | ⟨p, rfl⟩ | hl
    · exact hfuze h
    · rcases right.kind with ⟨w, rfl⟩ | ⟨r, rfl⟩ | hr
      · exact hfuze (Multiset.cons_swap _ _ _ ▸ h)
      · exact h.connectActivePair
      · rw [connectFuel_principal_nonWire hr]
        exact h.collectPrimitiveArg hr
    · rcases right.kind with ⟨w, rfl⟩ | ⟨r, rfl⟩ | hr
      · rw [connectFuel_nonWire_wire hl]
        exact hfuze (Multiset.cons_swap _ _ _ ▸ h)
      · rw [connectFuel_nonWire_principal hl]
        exact (Multiset.cons_swap _ _ _ ▸ h : Inv P missed net (_ ::ₘ _) tasks G).collectPrimitiveArg hl
      · rw [connectFuel_nonWire_nonWire hl hr]
        exact ⟨trivial, nofun⟩

theorem connect (h : Inv P missed net (left ::ₘ right ::ₘ outside) tasks G) :
    Connects P missed outside tasks G (InetLisp.connect P net left right) := by
  apply connectFuel _ h
  exact Nat.lt_succ_of_le List.countP_le_length

end Inv

/-! ### Which node a task is about -/

/-- The node takes part in the task. -/
def Task.On (ports : List (ℕ × ℕ)) (n : ℕ) : Task → Prop
  | .activePair left right _ => (∃ i, ports[left]? = some (n, i)) ∨ ∃ i, ports[right]? = some (n, i)
  | .primitive m => m = n

theorem Task.On.mono {ports ports' : List (ℕ × ℕ)} {t : Task} (h : t.On ports n)
    (hp : ports <+: ports') : t.On ports' n := by
  obtain ⟨rest, rfl⟩ := hp
  have hget : ∀ {q : ℕ} {x : ℕ × ℕ}, ports[q]? = some x → (ports ++ rest)[q]? = some x := by
    intro q x hq
    rw [List.getElem?_append_left (Cells.lt_length hq), hq]
  cases t with
  | activePair l r rule =>
    exact h.imp (fun ⟨i, hi⟩ => ⟨i, hget hi⟩) fun ⟨i, hi⟩ => ⟨i, hget hi⟩
  | primitive m => exact h

theorem ctorOf_iff {c : ℕ} : CtorOf net.nodes n c ↔ net.shape.1[n]? = some (some c) := by
  unfold CtorOf Net.shape
  rw [List.getElem?_map]
  rcases net.nodes[n]? with _ | ⟨o, l, k⟩ <;> simp

/-- Two pending tasks are not about the same node. -/
theorem Inv.not_on_both {t t' : Task} (hP : P.Ok) (h : Inv P missed net outside (t ::ₘ t' ::ₘ tasks) G)
    (ht : t.On net.shape.2 n) (ht' : t'.On net.shape.2 n) : False := by
  have hv := h.pending.valid t (Multiset.mem_cons_self _ _)
  have hv' := h.pending.valid t' (Multiset.mem_cons_of_mem (Multiset.mem_cons_self _ _))
  have hne : t.redex ≠ t'.redex := by
    have hn := h.pending.nodup
    rw [Multiset.map_cons, Multiset.nodup_cons, Multiset.map_cons] at hn
    intro he
    exact hn.1 (he ▸ Multiset.mem_cons_self _ _)
  -- An active pair of the node is made of its only principal wire, and no node of one is primitive.
  have hpair : ∀ {l r : ℕ} {rule : Rule}, (Task.activePair l r rule).Valid P net.principalWires net.nodes →
      (Task.activePair l r rule).On net.shape.2 n → ∃ (p q i c : ℕ) (l' : Slots Value) (k : ℕ)
        (ctor : NodeCtor), s(l, r) = s(p, q) ∧
        net.principalWires[p]? = some ⟨n, i, some q, false⟩ ∧ net.nodes[n]? = some ⟨some c, l', k⟩ ∧
          l'.get i = some (.principalWire p) ∧ P.nodeCtor c = some ctor ∧ ctor.IsPrincipal i ∧
            ctor.primitive = none := by
    rintro l r rule ⟨⟨m, i, m', i', hl, hr, hc, hc'⟩, hrule⟩ hon
    obtain ⟨b, bctor, -, hb, hmem⟩ := hrule
    have hport : ∀ {q m i : ℕ} {o : Option ℕ}, net.principalWires[q]? = some ⟨m, i, o, false⟩ →
        net.shape.2[q]? = some (m, i) := fun hq => Net.mem_shape_of_getElem hq
    rcases hon with ⟨j, hj⟩ | ⟨j, hj⟩
    · cases (hport hl).symm.trans hj
      obtain ⟨-, c, l', k, ctor, hn, hi, hctor, hpr⟩ := h.shape.owner l n i _ hl
      refine ⟨l, r, i, c, l', k, ctor, rfl, hl, hn, hi, hctor, hpr, ?_⟩
      exact hP.rule b bctor rule hb hmem c (.inl (CtorOf.unique ⟨l', k, hn⟩ hc)) ctor hctor
    · cases (hport hr).symm.trans hj
      obtain ⟨-, c, l', k, ctor, hn, hi, hctor, hpr⟩ := h.shape.owner r n i' _ hr
      refine ⟨r, l, i', c, l', k, ctor, Sym2.eq_swap, hr, hn, hi, hctor, hpr, ?_⟩
      exact hP.rule b bctor rule hb hmem c (.inr (CtorOf.unique ⟨l', k, hn⟩ hc')) ctor hctor
  have hmixed : ∀ {l r : ℕ} {rule : Rule} {m : ℕ},
      (Task.activePair l r rule).Valid P net.principalWires net.nodes →
        (Task.activePair l r rule).On net.shape.2 n → Saturated P net.nodes m → m = n → False := by
    rintro l r rule m hv hon ⟨c, l', k, ctor, hn, hc, hpr, -⟩ rfl
    obtain ⟨p, q, i, c', l'', k', ctor', -, -, hn', -, hc', -, hnone⟩ := hpair hv hon
    cases hn.symm.trans hn'
    cases hc.symm.trans hc'
    exact hpr hnone
  cases t with
  | primitive m =>
    cases t' with
    | primitive m' => exact hne (congrArg Redex.primitive (ht.trans ht'.symm))
    | activePair l r rule => exact hmixed hv' ht' hv ht
  | activePair l r rule =>
    cases t' with
    | primitive m => exact hmixed hv ht hv' ht'
    | activePair l' r' rule' =>
      obtain ⟨p, q, i, c, l₁, k, ctor, he, hp, hn, hi, hc, hpr, hnone⟩ := hpair hv ht
      obtain ⟨p', q', i', c', l₂, k', ctor', he', hp', hn', hi', hc', hpr', -⟩ := hpair hv' ht'
      cases hn.symm.trans hn'
      cases hc.symm.trans hc'
      cases hP.principalPort c ctor hc hnone i i' hpr hpr'
      cases Option.some.inj (hi.symm.trans hi')
      cases hp.symm.trans hp'
      exact hne (congrArg Redex.activePair (he.trans he'.symm))

/-- Of two tasks about one node, one is missing. -/
theorem Inv.single_or {t found : Option Task} (hP : P.Ok)
    (h : Inv P missed net outside (Slots.single t + Slots.single found + tasks) G)
    (ht : ∀ u ∈ t, u.On net.shape.2 n) (hf : ∀ u ∈ found, u.On net.shape.2 n) :
    ¬ (t.isSome = true ∧ found.isSome = true) ∧
      Slots.single (t.or found) = Slots.single t + Slots.single found ∧
        ∀ u ∈ t.or found, u.On net.shape.2 n := by
  cases t with
  | none => exact ⟨by simp, by simp, hf⟩
  | some u =>
    cases found with
    | none => exact ⟨by simp, by simp, ht⟩
    | some f =>
      rw [Slots.single_some, Slots.single_some, add_assoc, Multiset.singleton_add,
        Multiset.singleton_add] at h
      exact (h.not_on_both hP (ht u rfl) (hf f rfl)).elim

theorem connectActivePair_on {t : Task}
    (h : InetLisp.connectActivePair P net p r = .ok (net', some t))
    (hs : net.shape.2[p]? = some (n, i) ∨ net.shape.2[r]? = some (n, i)) : t.On net.shape.2 n := by
  unfold InetLisp.connectActivePair at h
  obtain ⟨_, -, h⟩ := Outcome.of_bind_eq_ok h
  obtain ⟨_, -, h⟩ := Outcome.of_bind_eq_ok h
  obtain ⟨_, -, h⟩ := Outcome.of_bind_eq_ok h
  obtain ⟨_, -, h⟩ := Outcome.of_bind_eq_ok h
  obtain ⟨-, hf⟩ := Prod.mk.inj (Except.ok.inj h)
  obtain ⟨rule, hr⟩ := findRule_eq_some hf
  rcases ruleMatch_eq_some hr with ⟨rfl, -⟩ | ⟨rfl, -⟩
  · exact hs.imp (fun h => ⟨i, h⟩) fun h => ⟨i, h⟩
  · exact hs.symm.imp (fun h => ⟨i, h⟩) fun h => ⟨i, h⟩

theorem collectPrimitiveArg_on {t : Task}
    (h : InetLisp.collectPrimitiveArg P net p v = .ok (net', some t))
    (hs : net.shape.2[p]? = some (n, i)) : t.On net.shape.2 n := by
  unfold InetLisp.collectPrimitiveArg at h
  obtain ⟨⟨m, j, o, d⟩, hp, h⟩ := Outcome.of_bind_eq_ok h
  have hm := Net.mem_shape_of_getElem (Net.getPrincipalWire_eq_ok.mp hp).1
  cases hm.symm.trans hs
  obtain ⟨ctor, -, h⟩ := Outcome.of_bind_eq_ok h
  split at h
  · cases h
  obtain ⟨_, -, h⟩ := Outcome.of_bind_eq_ok h
  obtain ⟨_, -, h⟩ := Outcome.of_bind_eq_ok h
  split at h
  · obtain ⟨-, ht⟩ := Prod.mk.inj (Except.ok.inj h)
    split at ht
    · cases ht
      rfl
    · cases ht
  · cases h

theorem connectFuel_on {t : Task} (h : InetLisp.connectFuel P k net left right = .ok (net', some t))
    (hp : left = .principalWire p ∨ right = .principalWire p)
    (hs : net.shape.2[p]? = some (n, i)) : t.On net.shape.2 n := by
  induction k generalizing net left right with
  | zero => cases h
  | succ k ih =>
    have hfuze : ∀ {w u}, InetLisp.fuze (InetLisp.connectFuel P k) net w u = .ok (net', some t) →
        u = .principalWire p → t.On net.shape.2 n := by
      rintro w u h rfl
      unfold InetLisp.fuze at h
      split at h
      · cases h
      · exact @ih (net.setWire w _) _ _ h (.inr rfl) hs
      · cases h
    rcases left.kind with ⟨w, rfl⟩ | ⟨q, rfl⟩ | hl
    · exact hfuze h (hp.resolve_left nofun)
    · rcases right.kind with ⟨w, rfl⟩ | ⟨r, rfl⟩ | hr
      · exact hfuze h (hp.resolve_right nofun)
      · apply connectActivePair_on h
        apply hp.imp
        · intro he
          cases he
          exact hs
        · intro he
          cases he
          exact hs
      · rw [Inv.connectFuel_principal_nonWire hr] at h
        apply collectPrimitiveArg_on h
        rcases hp with he | rfl
        · cases he
          exact hs
        · exact hr.elim
    · have hp : right = .principalWire p := by
        apply hp.resolve_left
        rintro rfl
        exact hl
      subst hp
      rw [Inv.connectFuel_nonWire_principal hl] at h
      exact collectPrimitiveArg_on h hs

namespace Inv

/-- The result of attaching a node to a value. -/
def Attaches (P : Program) (missed : Set Redex) (outside : Multiset Value) (tasks : Multiset Task)
    (G : Open) (net : Net) (n : ℕ) (x : Except Error (Net × Option Task)) : Prop :=
  Outcome Error.Expected (fun (net', t) => Inv P missed net' outside (Slots.single t + tasks) G ∧
    (∀ m c, CtorOf net.nodes m c → CtorOf net'.nodes m c) ∧ net.shape.2 <+: net'.shape.2 ∧
      ∀ t' ∈ t, t'.On net'.shape.2 n) x

theorem getNodeCtor (h : Inv P missed net outside tasks G) {c : ℕ} (hn : CtorOf net.nodes n c) :
    ∃ ctor, P.nodeCtor c = some ctor ∧ P.getNodeCtor net n = .ok ctor := by
  obtain ⟨l, k, hn⟩ := hn
  obtain ⟨ctor, hc⟩ := h.shape.ctor n c l k hn
  exact ⟨ctor, hc, by simp [Program.getNodeCtor, Net.getCtor, hn, hc]⟩

theorem attaches_connect {net₁ : Net} (h : Inv P missed net₁ (left ::ₘ right ::ₘ outside) tasks G)
    (hc : ∀ m c, CtorOf net.nodes m c → CtorOf net₁.nodes m c) (hp : net.shape.2 <+: net₁.shape.2)
    (hon : ∀ net' t, InetLisp.connect P net₁ left right = .ok (net', some t) →
      t.On net₁.shape.2 n) :
    Attaches P missed outside tasks G net n (InetLisp.connect P net₁ left right) := by
  have hconnect := h.connect
  cases hx : InetLisp.connect P net₁ left right with
  | error e =>
    rw [hx] at hconnect
    exact hconnect
  | ok x =>
    obtain ⟨net', t⟩ := x
    rw [hx] at hconnect
    have hs := (connect_shape hx).1
    refine ⟨hconnect, ?_, ?_, ?_⟩
    · intro m c hm
      rw [ctorOf_iff, hs, ← ctorOf_iff]
      exact hc m c hm
    · rw [hs]
      exact hp
    · rintro t' ht'
      cases ht'
      rw [hs]
      exact hon net' t' hx

theorem reconnectInput {c : ℕ} (h : Inv P missed net (v ::ₘ outside) tasks G)
    (hn : CtorOf net.nodes n c) (hu : (n, i) ∈ G.unset) (ht : (n, i) ∉ G.taken) :
    Attaches P missed outside tasks { G with unset := G.unset \ {(n, i)} } net n
      (Store.reconnectInput P net n i v) := by
  obtain ⟨ctor, hc, hget⟩ := h.getNodeCtor hn
  obtain ⟨l, k, hn⟩ := hn
  have hset : ∀ (net₁ : Net) (u : Value), net₁.nodes = net.nodes →
      net₁.setValue n i u = .ok (net₁.setNode n ⟨some c, l.set i (some u), k⟩) := by
    intro net₁ u he
    simp [Net.setValue, he, hn]
  have hctor : ∀ {u : Value} (m d : ℕ), CtorOf net.nodes m d →
      CtorOf (net.nodes.set n ⟨some c, l.set i (some u), k⟩) m d := by
    intro u m d hm
    exact (Shape.ctorOf_set hn).mpr hm
  unfold Store.reconnectInput
  rw [hget, Outcome.ok_bind]
  cases hinfo : ctor.portInfos[i]? with
  | none => exact ⟨trivial, by rintro ⟨⟩⟩
  | some info =>
    dsimp only
    by_cases hpr : info.isPrincipal = true
    · have hi : ctor.IsPrincipal i := ⟨info, hinfo, hpr⟩
      rw [if_pos hpr, hset (net.newPrincipalWire n i).2 _ rfl, Outcome.ok_bind]
      have h₁ := h.setPrincipalPort hn hc hu ht hi
      apply attaches_connect h₁
      · exact hctor
      · rw [Net.shape_setNode, Net.shape_newPrincipalWire]
        exact List.prefix_append _ _
      · intro net' t hx
        apply connectFuel_on hx (.inl rfl)
        rw [Net.shape_setNode, Net.shape_newPrincipalWire]
        have hlen : net.shape.2.length = net.principalWires.length := by simp [Net.shape]
        rw [Cells.getElem?_snoc, hlen]
        exact if_pos rfl
    · have hi : ¬ ctor.IsPrincipal i := by
        rintro ⟨info', he, hp⟩
        cases hinfo.symm.trans he
        exact hpr hp
      rw [if_neg hpr]
      cases v with
      | principalWire p =>
        have hn' : net.newWire.2.nodes[n]? = some ⟨some c, l, k⟩ := hn
        have h₁ := h.newWire.setPort hn' hc hu ht hi (by rintro p ⟨⟩)
        dsimp only
        rw [hset net.newWire.2 _ rfl, Outcome.ok_bind]
        apply attaches_connect h₁
        · exact hctor
        · exact List.prefix_rfl
        · -- The inserted wire is fuzed with its first value: no task is found.
          intro net' t hx
          have hw : (net.newWire.2.setNode n ⟨some c, l.set i (some (.wire net.newWire.1)), k⟩).wires[
              net.newWire.1]? = some ⟨none, false⟩ := by
            simp [Net.newWire, Net.setNode]
          unfold InetLisp.connect InetLisp.connectFuel InetLisp.fuze at hx
          rw [hw] at hx
          cases hx
      | _ =>
        have h₁ := h.setPort hn hc hu ht hi (by rintro p ⟨⟩)
        dsimp only
        rw [hset net _ rfl, Outcome.ok_bind]
        refine ⟨?_, hctor, List.prefix_rfl, by rintro t' ⟨⟩⟩
        rw [Slots.single_none, zero_add]
        exact h₁

theorem reconnectOutput {c : ℕ} (h : Inv P missed net outside tasks G) (hn : CtorOf net.nodes n c)
    (hu : (n, i) ∈ G.unset) (ht : (n, i) ∉ G.taken) :
    Outcome Error.Expected (fun (net', u) =>
      Inv P missed net' (u ::ₘ outside) tasks { G with unset := G.unset \ {(n, i)} } ∧
        ∀ m c, CtorOf net.nodes m c → CtorOf net'.nodes m c)
      (Store.reconnectOutput P net n i) := by
  obtain ⟨ctor, hc, hget⟩ := h.getNodeCtor hn
  obtain ⟨l, k, hn⟩ := hn
  have hset : ∀ (net₁ : Net) (u : Value), net₁.nodes = net.nodes →
      net₁.setValue n i u = .ok (net₁.setNode n ⟨some c, l.set i (some u), k⟩) := by
    intro net₁ u he
    simp [Net.setValue, he, hn]
  have hctor : ∀ {u : Value} (m d : ℕ), CtorOf net.nodes m d →
      CtorOf (net.nodes.set n ⟨some c, l.set i (some u), k⟩) m d := by
    intro u m d hm
    exact (Shape.ctorOf_set hn).mpr hm
  unfold Store.reconnectOutput
  rw [hget, Outcome.ok_bind]
  cases hinfo : ctor.portInfos[i]? with
  | none => exact ⟨trivial, by rintro ⟨⟩⟩
  | some info =>
    dsimp only
    by_cases hpr : info.isPrincipal = true
    · have hi : ctor.IsPrincipal i := ⟨info, hinfo, hpr⟩
      rw [if_pos hpr, hset (net.newPrincipalWire n i).2 _ rfl, Outcome.ok_bind]
      exact ⟨h.setPrincipalPort hn hc hu ht hi, hctor⟩
    · have hi : ¬ ctor.IsPrincipal i := by
        rintro ⟨info', he, hp⟩
        cases hinfo.symm.trans he
        exact hpr hp
      rw [if_neg hpr, hset net.newWire.2 _ rfl, Outcome.ok_bind]
      have hn' : net.newWire.2.nodes[n]? = some ⟨some c, l, k⟩ := hn
      exact ⟨h.newWire.setPort hn' hc hu ht hi nofun, hctor⟩

theorem newNode {c : ℕ} {ctor : NodeCtor} (hP : P.Ok) (h : Inv P missed net outside tasks G)
    (hc : P.nodeCtor c = some ctor) :
    Inv P missed (net.newNode c).2 outside tasks
      { G with unset := G.unset ∪ {x | x.1 = (net.newNode c).1} } where
  linear := by
    refine h.linear.congr ?_ le_rfl le_rfl
    dsimp only
    rw [Net.ledger_newNode]
  shape := h.shape.newNode hc
  pending := h.pending.congr fun t => h.shape.newNode_valid hP

theorem close {U : Set (ℕ × ℕ)} (h : Inv P missed net outside tasks G) (hU : U ⊆ G.unset)
    (hset : ∀ (n c : ℕ) (l : Slots Value) (k : ℕ) (ctor : NodeCtor) (i : ℕ),
      net.nodes[n]? = some ⟨some c, l, k⟩ → P.nodeCtor c = some ctor →
        (n, i) ∈ G.unset → (n, i) ∉ U → ctor.arity ≤ i) :
    Inv P missed net outside tasks { G with unset := U } where
  linear := h.linear
  shape := h.shape.close hU hset
  pending := h.pending

end Inv

end InetLisp
