import InetLisp.Core.Grow

/-! # Principal ports hold principal wires

A node that is none of a primitive gets its ports when it is built, and keeps them until it is
recycled: a principal port gets a principal wire, and nothing is put in its place.
-/

namespace InetLisp

open Lib Store.Ok

variable {P : Program} {net net' net'' : Net} {s s' : Store} {w w' : Worker} {n i k arity c : ℕ}
  {v target left right : Value} {task found found' : Option Task} {f : Option ℕ}
  {X : Set (ℕ × ℕ)} {ctor : NodeCtor}

/-- But for some ports, the principal ports of such nodes hold principal wires. -/
def Net.Principals (P : Program) (X : Set (ℕ × ℕ)) (net : Net) : Prop :=
  ∀ (n c : ℕ) (l : Slots Value) (k : ℕ) (ctor : NodeCtor) (i : ℕ),
    net.nodes[n]? = some ⟨some c, l, k⟩ → P.nodeCtor c = some ctor → ctor.primitive = none →
      ctor.IsPrincipal i → (n, i) ∉ X → ∃ p, l.get i = some (.principalWire p)

/-- Such nodes are as they were. -/
def Net.SameUsers (P : Program) (net net' : Net) : Prop :=
  ∀ (n c : ℕ) (l : Slots Value) (k : ℕ) (ctor : NodeCtor), P.nodeCtor c = some ctor →
    ctor.primitive = none → net'.nodes[n]? = some ⟨some c, l, k⟩ →
      net.nodes[n]? = some ⟨some c, l, k⟩

namespace Net.SameUsers

theorem of_nodes (h : net'.nodes = net.nodes) : SameUsers P net net' :=
  fun _ _ _ _ _ _ _ hn => h ▸ hn

theorem refl (net : Net) : SameUsers P net net := of_nodes rfl

theorem trans (h : SameUsers P net net') (h' : SameUsers P net' net'') : SameUsers P net net'' :=
  fun n c l k ctor hc hp hn => h n c l k ctor hc hp (h' n c l k ctor hc hp hn)

theorem of_set {node : Node} (h : net'.nodes = net.nodes.set n node)
    (hnode : ∀ c ctor, node.ctor = some c → P.nodeCtor c = some ctor → ctor.primitive ≠ none) :
    SameUsers P net net' := by
  intro m c l k ctor hc hp hm
  rw [h, List.getElem?_set] at hm
  split at hm
  · split at hm <;> cases hm
    exact (hnode c ctor rfl hc hp).elim
  · exact hm

end Net.SameUsers

open Net (SameUsers)

theorem Net.Principals.congr (hX : net.Principals P X) (h : SameUsers P net net') :
    net'.Principals P X :=
  fun n c l k ctor i hn hc hp hi hx => hX n c l k ctor i (h n c l k ctor hc hp hn) hc hp hi hx

/-! ### Connecting -/

theorem sameUsers_fuze {connect : Net → Value → Value → Except Error (Net × Option Task)} {m : ℕ}
    (hc : ∀ net left right, connect net left right = .ok (net', task) → SameUsers P net net')
    (h : fuze connect net m v = .ok (net', task)) : SameUsers P net net' := by
  unfold fuze at h
  split at h
  · cases h
    exact .of_nodes rfl
  · rename_i expected _
    have h₁ : SameUsers P net (net.setWire m ⟨some expected, true⟩) := .of_nodes rfl
    exact h₁.trans (hc _ _ _ h)
  · cases h

theorem sameUsers_connectActivePair {p q : ℕ}
    (h : connectActivePair P net p q = .ok (net', task)) : SameUsers P net net' := by
  unfold connectActivePair at h
  obtain ⟨lc, -, h⟩ := Outcome.of_bind_eq_ok h
  obtain ⟨rc, -, h⟩ := Outcome.of_bind_eq_ok h
  obtain ⟨_, _, h⟩ := Outcome.of_bind_eq_ok h
  obtain ⟨_, _, h⟩ := Outcome.of_bind_eq_ok h
  cases h
  exact .of_nodes rfl

theorem nodes_destroyPrincipalWire {p : ℕ} (h : net.destroyPrincipalWire p = .ok net') :
    net'.nodes = net.nodes := by
  unfold Net.destroyPrincipalWire at h
  split at h <;> cases h
  rfl

theorem sameUsers_collectPrimitiveArg {p : ℕ}
    (h : collectPrimitiveArg P net p v = .ok (net', task)) : SameUsers P net net' := by
  unfold collectPrimitiveArg at h
  obtain ⟨⟨n, i, o, d⟩, -, h⟩ := Outcome.of_bind_eq_ok h
  obtain ⟨ctor, hctor, h⟩ := Outcome.of_bind_eq_ok h
  dsimp only at h
  split at h
  · cases h
  rename_i hprim
  obtain ⟨net₁, h₁, h⟩ := Outcome.of_bind_eq_ok h
  obtain ⟨net₂, h₂, h⟩ := Outcome.of_bind_eq_ok h
  have hn₁ := nodes_destroyPrincipalWire h₁
  -- The ctor of the node is that of a primitive.
  have huser : ∀ {c}, CtorOf net.nodes n c → ∀ ctor', P.nodeCtor c = some ctor' →
      ctor'.primitive ≠ none := by
    rintro c ⟨l, k, hn⟩ ctor' hc hp
    obtain ⟨c', hc', hctor⟩ := Outcome.of_bind_eq_ok hctor
    simp only [Net.getCtor, hn] at hc'
    cases hc'
    rw [hc] at hctor
    cases hctor
    rw [hp] at hprim
    exact hprim rfl
  unfold Net.setValue at h₂
  split at h₂
  · rename_i c l k hn
    cases h₂
    have hold : CtorOf net.nodes n c := ⟨l, k, hn₁ ▸ hn⟩
    rw [hn₁] at hn
    have hget : (net₁.setNode n ⟨some c, l.set i (some v), k⟩).nodes[n]? =
        some ⟨some c, l.set i (some v), k⟩ := by
      simp [Net.setNode, hn₁, Cells.getElem?_set hn]
    rw [hget] at h
    cases h
    have hset : SameUsers P net (net₁.setNode n ⟨some c, l.set i (some v), k⟩) := by
      apply SameUsers.of_set (by rw [← hn₁]; rfl)
      rintro c' ctor' ⟨⟩ hc'
      exact huser hold ctor' hc'
    apply hset.trans
    apply SameUsers.of_set rfl
    rintro c' ctor' ⟨⟩ hc'
    exact huser hold ctor' hc'
  · cases h₂

theorem sameUsers_connectFuel (h : connectFuel P k net left right = .ok (net', task)) :
    SameUsers P net net' := by
  induction k generalizing net left right with
  | zero => cases h
  | succ k ih =>
    unfold connectFuel at h
    split at h
    · cases ‹_ = 0›
    · cases ‹_ = _ + 1›
      exact sameUsers_fuze (fun _ _ _ => ih) h
    · cases ‹_ = _ + 1›
      exact sameUsers_fuze (fun _ _ _ => ih) h
    · exact sameUsers_connectActivePair h
    · exact sameUsers_collectPrimitiveArg h
    · exact sameUsers_collectPrimitiveArg h
    · cases h

theorem sameUsers_connect (h : connect P net left right = .ok (net', task)) :
    SameUsers P net net' := sameUsers_connectFuel h

namespace Store

theorem sameUsers_connect (h : s.connect P left right = .ok s') :
    SameUsers P s.toNet s'.toNet := by
  obtain ⟨⟨net, task⟩, hc, h⟩ := Outcome.of_bind_eq_ok h
  cases h
  rw [Ok.toNet_addFound]
  exact InetLisp.sameUsers_connect hc

theorem sameUsers_defuzeFuel (h : defuzeFuel k net v = .ok (net', target)) :
    SameUsers P net net' := by
  induction k generalizing net v with
  | zero => cases h
  | succ k ih =>
    unfold defuzeFuel at h
    split at h
    · cases ‹_ = 0›
    · cases ‹_ = _ + 1›
      split at h
      · cases h
        exact .refl _
      · rename_i net _ _ _ m _ u _
        have h₁ : SameUsers P net (net.setWire m ⟨some u, true⟩) := .of_nodes rfl
        exact h₁.trans (ih h)
      · cases h
    · cases h
      exact .refl _

/-! ### Building a node -/

theorem principals_setValue (hX : net.Principals P X) (hc : P.getNodeCtor net n = .ok ctor)
    (hv : ctor.IsPrincipal i → ∃ p, v = .principalWire p) (h : net.setValue n i v = .ok net') :
    net'.Principals P (X \ {(n, i)}) := by
  unfold Net.setValue at h
  split at h
  · rename_i c l k hn
    cases h
    intro m c' l' k' ctor' j hm hc' hp hj hx
    simp only [Net.setNode, Cells.getElem?_set hn] at hm
    split at hm
    · rename_i hnm
      subst hnm
      cases hm
      obtain ⟨c'', hget, hc⟩ := Outcome.of_bind_eq_ok hc
      simp only [Net.getCtor, hn] at hget
      cases hget
      rw [hc'] at hc
      cases hc
      rw [Slots.get_set]
      split
      · rename_i hij
        subst hij
        obtain ⟨p, rfl⟩ := hv hj
        exact ⟨p, rfl⟩
      · rename_i hij
        apply hX n c l k ctor j hn hc' hp hj
        exact fun hm => hx ⟨hm, fun he => hij (Prod.mk.inj he).2.symm⟩
    · rename_i hnm
      apply hX m c' l' k' ctor' j hm hc' hp hj
      exact fun hm => hx ⟨hm, fun he => hnm (Prod.mk.inj he).1.symm⟩
  · cases h

theorem principals_reconnectInput (hX : net.Principals P X)
    (h : reconnectInput P net n i v = .ok (net', task)) : net'.Principals P (X \ {(n, i)}) := by
  obtain ⟨ctor, hc, h⟩ := Outcome.of_bind_eq_ok h
  dsimp only at h
  split at h
  · cases h
  rename_i info hinfo
  have hnot : ¬ info.isPrincipal → ¬ ctor.IsPrincipal i := by
    rintro hn ⟨info', hi', hp⟩
    cases hinfo.symm.trans hi'
    exact hn hp
  split at h
  · obtain ⟨net₁, h₁, h⟩ := Outcome.of_bind_eq_ok h
    have hX₁ : (net.newPrincipalWire n i).2.Principals P X := hX.congr (.of_nodes rfl)
    exact (principals_setValue hX₁ hc (fun _ => ⟨_, rfl⟩) h₁).congr (InetLisp.sameUsers_connect h)
  · rename_i hp
    split at h
    · obtain ⟨net₁, h₁, h⟩ := Outcome.of_bind_eq_ok h
      have hX₁ : net.newWire.2.Principals P X := hX.congr (.of_nodes rfl)
      exact (principals_setValue hX₁ hc (fun hi => (hnot hp hi).elim) h₁).congr
        (InetLisp.sameUsers_connect h)
    · obtain ⟨net₁, h₁, h⟩ := Outcome.of_bind_eq_ok h
      cases h
      exact principals_setValue hX hc (fun hi => (hnot hp hi).elim) h₁

theorem principals_reconnectOutput (hX : net.Principals P X)
    (h : reconnectOutput P net n i = .ok (net', v)) : net'.Principals P (X \ {(n, i)}) := by
  obtain ⟨ctor, hc, h⟩ := Outcome.of_bind_eq_ok h
  dsimp only at h
  split at h
  · cases h
  rename_i info hinfo
  split at h
  · obtain ⟨net₁, h₁, h⟩ := Outcome.of_bind_eq_ok h
    cases h
    have hX₁ : (net.newPrincipalWire n i).2.Principals P X := hX.congr (.of_nodes rfl)
    exact principals_setValue hX₁ hc (fun _ => ⟨_, rfl⟩) h₁
  · rename_i hp
    obtain ⟨net₁, h₁, h⟩ := Outcome.of_bind_eq_ok h
    cases h
    have hX₁ : net.newWire.2.Principals P X := hX.congr (.of_nodes rfl)
    refine principals_setValue hX₁ hc ?_ h₁
    rintro ⟨info', hi', hp'⟩
    cases hinfo.symm.trans hi'
    exact (hp hp').elim

theorem principals_reconnectInputs (hX : s.toNet.Principals P X)
    (h : reconnectInputs P n k s found = .ok (s', found')) :
    s'.toNet.Principals P (X \ below n k) := by
  induction k generalizing s found X with
  | zero =>
    cases h
    have hzero : below n 0 = ∅ := by
      ext x
      simp [below]
    rwa [hzero, Set.sdiff_empty]
  | succ k ih =>
    obtain ⟨⟨v, s₁⟩, hp, h⟩ := Outcome.of_bind_eq_ok h
    obtain ⟨⟨net, task⟩, hr, h⟩ := Outcome.of_bind_eq_ok h
    dsimp only at h
    split at h
    · cases h
    · rw [← diff_below]
      refine ih (s := s₁.setNet net) (principals_reconnectInput ?_ hr) h
      rwa [grows_pop hp]

theorem principals_reconnectOutputs (hX : s.toNet.Principals P X)
    (h : reconnectOutputs P n k i s = .ok s') : s'.toNet.Principals P (X \ above n i k) := by
  induction k generalizing s i X with
  | zero =>
    cases h
    rwa [above_zero, Set.sdiff_empty]
  | succ k ih =>
    obtain ⟨⟨net, v⟩, hr, h⟩ := Outcome.of_bind_eq_ok h
    rw [← diff_above]
    exact ih (s := (s.setNet net).push v) (principals_reconnectOutput hX hr) h

theorem principals_applyNodeCtor (hX : s.toNet.Principals P ∅)
    (h : s.applyNodeCtor P c arity = .ok s') : s'.toNet.Principals P ∅ := by
  obtain ⟨⟨s₁, found⟩, hi, h⟩ := Outcome.of_bind_eq_ok h
  obtain ⟨ctor, hctor, h⟩ := Outcome.of_bind_eq_ok h
  obtain ⟨s₂, ho, h⟩ := Outcome.of_bind_eq_ok h
  cases h
  rw [Ok.toNet_addFound]
  have hnew : (s.newNode c).2.Principals P {x | x.1 = s.nodes.length} := by
    intro m c' l k ctor' j hm hc hp hj hx
    rw [Net.newNode, Cells.getElem?_snoc] at hm
    split at hm
    · rename_i he
      exact (hx he.symm).elim
    · exact hX m c' l k ctor' j hm hc hp hj (Set.notMem_empty _)
  have h₂ := principals_reconnectOutputs (principals_reconnectInputs hnew hi) ho
  have hgrow := (grows_reconnectInputs hi).trans (grows_reconnectOutputs ho)
  have hctorOf : CtorOf s₂.nodes s.nodes.length c := by
    apply hgrow.ctorOf
    exact ⟨[], 0, by simp [Store.setNet]⟩
  have hctor₁ : CtorOf s₁.nodes s.nodes.length c := by
    apply (grows_reconnectInputs hi).ctorOf
    exact ⟨[], 0, by simp [Store.setNet]⟩
  intro m c' l k ctor' j hm hc hp hj _
  refine h₂ m c' l k ctor' j hm hc hp hj ?_
  rintro ⟨⟨rfl, hnb⟩, hna⟩
  obtain rfl := hctorOf.unique ⟨l, k, hm⟩
  obtain ⟨l₁, k₁, hn₁⟩ := hctor₁
  obtain ⟨c₁, hget, hctor⟩ := Outcome.of_bind_eq_ok hctor
  simp only [Net.getCtor, hn₁] at hget
  cases hget
  rw [hc] at hctor
  cases hctor
  have hlt := NodeCtor.lt_arity hj
  simp only [below, above, Set.mem_ofPred_eq, true_and, not_lt, not_and] at hnb hna
  have := hna hnb
  omega

/-! ### Running code -/

theorem principals_applyPrimitive {p : Primitive} (hX : s.toNet.Principals P ∅)
    (h : s.applyPrimitive P p = .ok s') : s'.toNet.Principals P ∅ := by
  unfold applyPrimitive at h
  split at h
  · obtain ⟨⟨x, s₁⟩, h₁, h⟩ := Outcome.of_bind_eq_ok h
    obtain ⟨⟨y, s₂⟩, h₂, h⟩ := Outcome.of_bind_eq_ok h
    rw [← grows_pop h₁, ← grows_pop h₂] at hX
    exact hX.congr (sameUsers_connect h)
  · cases h
    exact hX.congr (.of_nodes rfl)
  · dsimp only at h
    split at h
    · cases h
    · obtain ⟨results, -, h⟩ := Outcome.of_bind_eq_ok h
      cases h
      exact hX

theorem principals_applyNonWire (hX : s.toNet.Principals P ∅)
    (h : s.applyNonWire P target arity = .ok (s', f)) : s'.toNet.Principals P ∅ := by
  unfold applyNonWire at h
  split at h
  · split at h
    · obtain ⟨s₁, h₁, h⟩ := Outcome.of_bind_eq_ok h
      cases h
      exact principals_applyNodeCtor hX h₁
    · cases h
  · split at h
    · split at h <;> cases h
      exact hX
    · cases h
  · split at h
    · split at h
      · obtain ⟨s₁, h₁, h⟩ := Outcome.of_bind_eq_ok h
        cases h
        exact principals_applyNodeCtor hX h₁
      · dsimp only at h
        split at h
        · cases h
        · obtain ⟨s₁, h₁, h⟩ := Outcome.of_bind_eq_ok h
          cases h
          exact principals_applyPrimitive hX h₁
    · cases h
  · cases h

theorem principals_applyTarget (hX : s.toNet.Principals P ∅)
    (h : s.applyTarget P target arity = .ok (s', f)) : s'.toNet.Principals P ∅ := by
  unfold applyTarget at h
  split at h
  · obtain ⟨⟨net, v⟩, hd, h⟩ := Outcome.of_bind_eq_ok h
    have hnet := hX.congr (sameUsers_defuzeFuel hd)
    dsimp only at h
    split at h
    · split at h
      · cases h
      · obtain ⟨s₁, ht, h⟩ := Outcome.of_bind_eq_ok h
        obtain ⟨s₂, h₂, h⟩ := Outcome.of_bind_eq_ok h
        cases h
        have hs₁ : s₁.toNet = net := by
          unfold tuck at ht
          split at ht <;> cases ht
          rfl
        exact principals_applyNodeCtor (hs₁ ▸ hnet) h₂
    · exact principals_applyNonWire (s := s.setNet net) hnet h
  · exact principals_applyNonWire hX h

theorem principals_executeOpcode {frame frame' : Frame} {opcode : Opcode}
    (hX : s.toNet.Principals P ∅) (h : s.executeOpcode P frame opcode = .ok (s', frame', f)) :
    s'.toNet.Principals P ∅ := by
  cases opcode with
  | apply arity =>
    obtain ⟨⟨target, s₁⟩, hp, h⟩ := Outcome.of_bind_eq_ok h
    obtain ⟨⟨s₂, g⟩, ha, h⟩ := Outcome.of_bind_eq_ok h
    cases h
    rw [← grows_pop hp] at hX
    exact principals_applyTarget hX ha
  | literal v =>
    cases h
    exact hX
  | getVariable i =>
    obtain ⟨⟨v, frame₁⟩, -, h⟩ := Outcome.of_bind_eq_ok h
    cases h
    exact hX
  | setVariable i =>
    obtain ⟨⟨v, s₁⟩, hp, h⟩ := Outcome.of_bind_eq_ok h
    obtain ⟨frame₁, -, h⟩ := Outcome.of_bind_eq_ok h
    cases h
    rwa [grows_pop hp]

theorem sameUsers_disconnectNode (h : s.disconnectNode P n = .ok s') :
    SameUsers P s.toNet s'.toNet := by
  apply SameUsers.of_set (disconnectNode_spec h).2.1
  rintro c ctor ⟨⟩

end Store

namespace Worker

theorem principals_runOneStep (hX : w.toNet.Principals P ∅) (h : w.runOneStep P = .ok w') :
    w'.toNet.Principals P ∅ := by
  unfold runOneStep at h
  split at h
  · cases h
    exact hX
  · split at h
    · cases h
    · split at h
      · cases h
        exact hX
      · obtain ⟨⟨s, frame, f⟩, he, h⟩ := Outcome.of_bind_eq_ok h
        cases h
        rw [toNet_enter, toNet_pushUnfinished]
        exact Store.principals_executeOpcode hX he

theorem principals_runUntil {base : ℕ} (hX : w.toNet.Principals P ∅)
    (h : w.runUntil P base k = .ok w') : w'.toNet.Principals P ∅ := by
  induction k generalizing w with
  | zero => cases h
  | succ k ih =>
    unfold runUntil at h
    split at h
    · obtain ⟨w₁, h₁, h⟩ := Outcome.of_bind_eq_ok h
      exact ih (principals_runOneStep hX h₁) h
    · cases h
      exact hX

theorem principals_enterRule {p q : ℕ} {rule : Rule} (hX : w.toNet.Principals P ∅)
    (h : w.enterRule P p q rule = .ok w') : w'.toNet.Principals P ∅ := by
  obtain ⟨l, -, h⟩ := Outcome.of_bind_eq_ok h
  obtain ⟨s₁, h₁, h⟩ := Outcome.of_bind_eq_ok h
  obtain ⟨r, -, h⟩ := Outcome.of_bind_eq_ok h
  obtain ⟨s₂, h₂, h⟩ := Outcome.of_bind_eq_ok h
  cases h
  exact (hX.congr (Store.sameUsers_disconnectNode h₁)).congr (Store.sameUsers_disconnectNode h₂)

end Worker

end InetLisp
