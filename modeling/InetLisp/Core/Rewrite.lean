import InetLisp.Core.Splice

/-! # Entering a rule

The two nodes of an active pair are taken apart, and the values of their free ports lie on the stack
of the worker, those of the right node above those of the left one. To the code of the rule, that is
all there is of them.
-/

namespace InetLisp

open Lib Wiring

variable {P : Program} {missed : Set Redex} {net : Net} {outside : Multiset Value}
  {tasks : Multiset Task} {U : Set (ℕ × ℕ)} {n c i k m j p q r links : ℕ} {v : Value} {x : End}
  {base : Wiring End} {ctor : NodeCtor} {s s' : Store} {o : Option ℕ}

namespace Store

theorem refers_of_getValue (hv : s.getValue n i = .ok v) : s.Refers (.port n i) v := by
  unfold Net.getValue at hv
  split at hv
  · rename_i c l k hn
    split at hv
    · rename_i u hu
      cases hv
      exact .port hn hu
    · cases hv
  · cases hv

theorem disconnectPort_cases (h : s.disconnectPort v = .ok s') :
    (∃ p, v = .principalWire p ∧ s'.valueStack = s.valueStack ∧ s'.wires = s.wires) ∨
      (∀ p, v ≠ .principalWire p) ∧ s' = s.push v := by
  unfold disconnectPort at h
  split at h
  · rename_i p
    obtain ⟨net, hd, h⟩ := Outcome.of_bind_eq_ok h
    cases h
    refine .inl ⟨p, rfl, rfl, ?_⟩
    unfold Net.destroyPrincipalWire at hd
    split at hd <;> cases hd
    rfl
  · rename_i hp
    cases h
    exact .inr ⟨fun p => hp p, rfl⟩

theorem disconnectPorts_glue (hfree : ∀ j v, j < i + k → s.getValue n j = .ok v →
      ((∃ p, v = .principalWire p) ↔ j ∉ ctor.freePorts))
    (h : disconnectPorts n k i s = .ok s') : ∃ gs : List (End × Value),
      gs.map Prod.fst = ((List.range' i k).filter (· ∈ ctor.freePorts)).map (.port n) ∧
        (∀ g ∈ gs, s.Refers g.1 g.2) ∧ s'.valueStack = (gs.map Prod.snd).reverse ++ s.valueStack ∧
          s'.wires = s.wires ∧ s'.nodes = s.nodes := by
  induction k generalizing s i with
  | zero =>
    cases h
    exact ⟨[], rfl, by simp, rfl, rfl, rfl⟩
  | succ k ih =>
    obtain ⟨v, hv, h⟩ := Outcome.of_bind_eq_ok h
    obtain ⟨s₁, h₁, h⟩ := Outcome.of_bind_eq_ok h
    have hnodes : s₁.nodes = s.nodes := (disconnectPort_spec hv h₁).nodes
    have hget : ∀ j, s₁.getValue n j = s.getValue n j := by
      intro j
      simp only [Net.getValue, hnodes]
    obtain ⟨gs, hgs, hrefs, hstack, hwires, hnodes'⟩ :=
      ih (fun j u hj hu => hfree j u (by omega) (hget j ▸ hu)) h
    have hrefs' : ∀ g ∈ gs, s.Refers g.1 g.2 := by
      intro g hg
      have hr := hrefs g hg
      have hm := List.mem_map_of_mem (f := Prod.fst) hg
      rw [hgs] at hm
      obtain ⟨j, -, hj⟩ := List.mem_map.mp hm
      rw [← hj] at hr ⊢
      exact hr.of_nodes hnodes.symm
    have hmem := hfree i v (by omega) hv
    rcases disconnectPort_cases h₁ with ⟨p, rfl, hs, hw⟩ | ⟨hp, rfl⟩
    · have hnot : i ∉ ctor.freePorts := hmem.mp ⟨p, rfl⟩
      refine ⟨gs, ?_, hrefs', by rw [hstack, hs], hwires.trans hw, hnodes'.trans hnodes⟩
      rw [hgs, List.range'_succ, List.filter_cons_of_neg (by simpa using hnot)]
    · have hfi : i ∈ ctor.freePorts := by
        by_contra hnot
        obtain ⟨p, rfl⟩ := hmem.mpr hnot
        exact hp p rfl
      refine ⟨(.port n i, v) :: gs, ?_, ?_, ?_, hwires, hnodes'⟩
      · rw [List.map_cons, hgs, List.range'_succ, List.filter_cons_of_pos (by simpa using hfi)]
        rfl
      · rintro g hg
        rcases List.mem_cons.mp hg with rfl | hg
        · exact refers_of_getValue hv
        · exact hrefs' g hg
      · rw [hstack]
        simp [push]

theorem disconnectPorts_alive (h : disconnectPorts n k i s = .ok s') (r n' i' : ℕ)
    (o : Option ℕ) : s'.principalWires[r]? = some ⟨n', i', o, false⟩ ↔
      s.principalWires[r]? = some ⟨n', i', o, false⟩ ∧
        ∀ j, i ≤ j → j < i + k → s.getValue n j ≠ .ok (.principalWire r) := by
  induction k generalizing s i with
  | zero =>
    cases h
    refine (and_iff_left ?_).symm
    intro j hi hj
    omega
  | succ k ih =>
    obtain ⟨v, hv, h⟩ := Outcome.of_bind_eq_ok h
    obtain ⟨s₁, h₁, h⟩ := Outcome.of_bind_eq_ok h
    have hget : ∀ j, s₁.getValue n j = s.getValue n j := by
      intro j
      simp only [Net.getValue, (disconnectPort_spec hv h₁).nodes]
    have hport : s₁.principalWires[r]? = some ⟨n', i', o, false⟩ ↔
        s.principalWires[r]? = some ⟨n', i', o, false⟩ ∧ v ≠ .principalWire r := by
      unfold disconnectPort at h₁
      split at h₁
      · rename_i p
        obtain ⟨net, hd, h₁⟩ := Outcome.of_bind_eq_ok h₁
        cases h₁
        unfold Net.destroyPrincipalWire at hd
        split at hd
        · rename_i hp
          cases hd
          simp only [setNet, Net.setPrincipalWire, Cells.getElem?_set hp]
          split
          · rename_i he
            subst he
            simp
          · rename_i he
            refine (and_iff_left ?_).symm
            rintro ⟨⟩
            exact he rfl
        · cases hd
      · rename_i hp
        cases h₁
        exact (and_iff_left (hp r)).symm
    rw [ih h, hport, and_assoc]
    apply and_congr_right
    intro _
    simp only [hget]
    constructor
    · rintro ⟨hne, hall⟩ j hi hj he
      by_cases hij : j = i
      · subst hij
        cases hv.symm.trans he
        exact hne rfl
      · exact hall j (by omega) (by omega) he
    · intro hall
      refine ⟨?_, fun j hi hj => hall j (by omega) (by omega)⟩
      rintro rfl
      exact hall i le_rfl (by omega) hv

theorem not_reported_disconnectPorts {e : Error} (h : disconnectPorts n k i s = .error e) :
    ¬ e.Reported := by
  induction k generalizing s i with
  | zero => cases h
  | succ k ih =>
    unfold disconnectPorts at h
    cases hv : s.getValue n i with
    | error e' =>
      rw [hv] at h
      cases h
      unfold Net.getValue at hv
      split at hv
      · split at hv <;> cases hv
        exact id
      · cases hv
        exact id
    | ok v =>
      rw [hv, Outcome.ok_bind] at h
      cases h₁ : s.disconnectPort v with
      | error e' =>
        rw [h₁] at h
        cases h
        unfold disconnectPort at h₁
        split at h₁
        · unfold Net.destroyPrincipalWire at h₁
          split at h₁ <;> cases h₁
          exact id
        · cases h₁
      | ok s₁ =>
        rw [h₁, Outcome.ok_bind] at h
        exact ih h

theorem not_reported_disconnectNode {e : Error} (h : s.disconnectNode P n = .error e) :
    ¬ e.Reported := by
  unfold disconnectNode at h
  cases hc : P.getNodeCtor s.toNet n with
  | error e' =>
    rw [hc] at h
    cases h
    unfold Program.getNodeCtor Net.getCtor at hc
    split at hc
    · rw [Outcome.ok_bind] at hc
      split at hc <;> cases hc
      exact id
    · cases hc
      exact id
  | ok ctor =>
    rw [hc, Outcome.ok_bind] at h
    cases h₁ : disconnectPorts n ctor.arity 0 s with
    | error e' =>
      rw [h₁] at h
      cases h
      exact not_reported_disconnectPorts h₁
    | ok s₁ =>
      rw [h₁, Outcome.ok_bind] at h
      cases h₂ : s₁.recycleNode n with
      | error e' =>
        rw [h₂] at h
        cases h
        unfold Net.recycleNode at h₂
        split at h₂ <;> cases h₂
        exact id
      | ok net =>
        rw [h₂] at h
        cases h

/-- `worker_disconnect_node`: the values of the free ports are pushed, the principal wires of the
ports are destroyed, and the node is gone. -/
theorem disconnectNode_glue (hget : P.getNodeCtor s.toNet n = .ok ctor)
    (hfree : ∀ j v, j < ctor.arity → s.getValue n j = .ok v →
      ((∃ p, v = .principalWire p) ↔ j ∉ ctor.freePorts))
    (h : s.disconnectNode P n = .ok s') : ∃ gs : List (End × Value),
      gs.map Prod.fst = ctor.freePorts.map (.port n) ∧ (∀ g ∈ gs, s.Refers g.1 g.2) ∧
        s'.valueStack = (gs.map Prod.snd).reverse ++ s.valueStack ∧ s'.wires = s.wires ∧
          s'.nodes = s.nodes.set n ⟨none, [], 0⟩ ∧
            ∀ (r n' i' : ℕ) (o : Option ℕ), s'.principalWires[r]? = some ⟨n', i', o, false⟩ ↔
              s.principalWires[r]? = some ⟨n', i', o, false⟩ ∧
                ∀ j < ctor.arity, s.getValue n j ≠ .ok (.principalWire r) := by
  unfold disconnectNode at h
  rw [hget, Outcome.ok_bind] at h
  obtain ⟨s₁, h₁, h⟩ := Outcome.of_bind_eq_ok h
  obtain ⟨net, h₂, h⟩ := Outcome.of_bind_eq_ok h
  cases h
  obtain ⟨gs, hgs, hrefs, hstack, hwires, hnodes⟩ := disconnectPorts_glue (by simpa using hfree) h₁
  have halive := disconnectPorts_alive h₁
  unfold Net.recycleNode at h₂
  split at h₂
  · cases h₂
    refine ⟨gs, ?_, hrefs, hstack, hwires, ?_, ?_⟩
    · rw [hgs, ← List.range_eq_range']
      congr 1
      rw [NodeCtor.freePorts]
      apply List.filter_congr
      intro j hj
      have hlt := List.mem_range.mp hj
      simp [hlt]
    · rw [← hnodes]
      rfl
    · intro r n' i' o
      refine (halive r n' i' o).trans (and_congr_right fun _ => ?_)
      simp
  · cases h₂

end Store

/-- The two nodes of an active pair, which are no nodes of a primitive. -/
structure Net.PairAt (P : Program) (net : Net) (p q n i m j c d : ℕ) (left right : NodeCtor) :
    Prop where
  leftWire : net.principalWires[p]? = some ⟨n, i, some q, false⟩
  rightWire : net.principalWires[q]? = some ⟨m, j, some p, false⟩
  ne : n ≠ m
  leftNode : CtorOf net.nodes n c
  rightNode : CtorOf net.nodes m d
  leftCtor : P.nodeCtor c = some left
  rightCtor : P.nodeCtor d = some right
  leftPrimitive : left.primitive = none
  rightPrimitive : right.primitive = none

theorem Inv.exists_pairAt {rule : Rule} (hP : P.Ok)
    (h : Inv P missed net outside tasks { unset := U })
    (hv : (Task.activePair p q rule).Valid P net.principalWires net.nodes) :
    ∃ n i m j left right,
      net.PairAt P p q n i m j rule.leftNodeCtor rule.rightNodeCtor left right := by
  obtain ⟨n, i, m, j, c, d, hl, hr, hnm, ⟨hn, left, hc, hp⟩, hm, right, hd, hp'⟩ := h.sides hP hv
  obtain ⟨⟨n', i', m', j', hl', hr', hn', hm'⟩, -⟩ := hv
  cases hl.symm.trans hl'
  cases hr.symm.trans hr'
  cases hn.unique hn'
  cases hm.unique hm'
  exact ⟨n, i, m, j, left, right, hl, hr, hnm, hn, hm, hc, hd, hp, hp'⟩

namespace Inv

theorem refers_owner (h : Inv P missed net outside tasks { unset := U })
    (hp : net.principalWires[p]? = some ⟨n, i, o, false⟩) :
    net.Refers (.port n i) (.principalWire p) := by
  obtain ⟨-, c, l, k, ctor, hn, hi, -⟩ := h.shape.owner p n i o hp
  exact .port hn hi

theorem holdsPrincipal_iff {l : Slots Value} (hP : P.Ok)
    (h : Inv P missed net outside tasks { unset := U })
    (hp : net.principalWires[p]? = some ⟨n, i, o, false⟩) (hl : net.nodes[n]? = some ⟨some c, l, k⟩)
    (hc : P.nodeCtor c = some ctor) (hprim : ctor.primitive = none) (hj : j < ctor.arity)
    (hv : l.get j = some v) : (∃ r, v = .principalWire r) ↔ j ∉ ctor.freePorts := by
  obtain ⟨-, c', l', k', ctor', hn', hi, hc', hpi⟩ := h.shape.owner p n i _ hp
  cases hl.symm.trans hn'
  cases hc.symm.trans hc'
  rw [NodeCtor.mem_freePorts, not_and, not_not, forall_prop_of_true hj]
  constructor
  · rintro ⟨r, rfl⟩
    obtain ⟨o', hr⟩ := h.shape.port n c l k j r hl hv (Set.notMem_empty _)
    obtain ⟨-, c', l', k', ctor', hn', -, hc', hpj⟩ := h.shape.owner r n j _ hr
    cases hl.symm.trans hn'
    cases hc.symm.trans hc'
    exact hpj
  · intro hpj
    cases hP.principalPort c ctor hc hprim i j hpi hpj
    cases hi.symm.trans hv
    exact ⟨p, rfl⟩

theorem disconnectSide (hP : P.Ok) (h : Inv P missed net outside tasks { unset := U })
    (hp : net.principalWires[p]? = some ⟨n, i, o, false⟩) (hn : CtorOf net.nodes n c)
    (hc : P.nodeCtor c = some ctor) (hprim : ctor.primitive = none)
    (hnodes : s.nodes[n]? = net.nodes[n]?) (hsub : ∀ (r n' i' : ℕ) (o : Option ℕ),
      s.principalWires[r]? = some ⟨n', i', o, false⟩ →
        net.principalWires[r]? = some ⟨n', i', o, false⟩)
    (hd : s.disconnectNode P n = .ok s') :
    ∃ gs : List (End × Value),
      gs.map Prod.fst = ctor.freePorts.map (.port n) ∧ (∀ g ∈ gs, net.Refers g.1 g.2) ∧
        s'.valueStack = (gs.map Prod.snd).reverse ++ s.valueStack ∧ s'.wires = s.wires ∧
          s'.nodes = s.nodes.set n ⟨none, [], 0⟩ ∧
            ∀ (r n' i' : ℕ) (o : Option ℕ), s'.principalWires[r]? = some ⟨n', i', o, false⟩ ↔
              s.principalWires[r]? = some ⟨n', i', o, false⟩ ∧ n' ≠ n := by
  obtain ⟨l, k, hl⟩ := hn
  have hls : s.nodes[n]? = some ⟨some c, l, k⟩ := hnodes.trans hl
  have hget : P.getNodeCtor s.toNet n = .ok ctor := by
    simp only [Program.getNodeCtor, Net.getCtor, hls, Outcome.ok_bind, hc]
  have hslot : ∀ {j v}, s.getValue n j = .ok v ↔ l.get j = some v := by
    intro j v
    simp only [Net.getValue, hls]
    cases l.get j <;> simp
  obtain ⟨gs, hgs, hrefs, hstack, hwires, hnodes', halive⟩ :=
    Store.disconnectNode_glue hget
      (fun j v hj hv => h.holdsPrincipal_iff hP hp hl hc hprim hj (hslot.mp hv)) hd
  refine ⟨gs, hgs, ?_, hstack, hwires, hnodes', ?_⟩
  · intro g hg
    have hr := hrefs g hg
    have hm := List.mem_map_of_mem (f := Prod.fst) hg
    rw [hgs] at hm
    obtain ⟨j, -, hj⟩ := List.mem_map.mp hm
    rw [← hj] at hr ⊢
    obtain ⟨c', l', k', hn, hi⟩ := Net.refers_port.mp hr
    exact .port (hnodes ▸ hn) hi
  · intro r n' i' o'
    refine (halive r n' i' o').trans (and_congr_right fun hr => ?_)
    replace hr := hsub r n' i' o' hr
    constructor
    · rintro hall rfl
      obtain ⟨-, c', l', k', ctor', hn', hi', hc', hpi'⟩ := h.shape.owner r n' i' _ hr
      cases hl.symm.trans hn'
      cases hc.symm.trans hc'
      exact hall i' (NodeCtor.lt_arity hpi') (hslot.mpr hi')
    · intro hne j _ hj
      obtain ⟨o'', hr'⟩ := h.shape.port n c l k j r hl (hslot.mp hj) (Set.notMem_empty _)
      cases hr.symm.trans hr'
      exact hne rfl

end Inv

namespace Net.PairAt

variable {d : ℕ} {left right : NodeCtor} {s₁ s₂ : Store}

theorem isPrincipal (h : net.PairAt P p q n i m j c d left right)
    (hi : Inv P missed net outside tasks { unset := U }) :
    left.IsPrincipal i ∧ right.IsPrincipal j := by
  have hport : ∀ {p n i c : ℕ} {o : Option ℕ} {ctor : NodeCtor},
      net.principalWires[p]? = some ⟨n, i, o, false⟩ → CtorOf net.nodes n c →
        P.nodeCtor c = some ctor → ctor.IsPrincipal i := by
    rintro p n i c o ctor hp ⟨l, k, hn⟩ hc
    obtain ⟨-, c', l', k', ctor', hn', -, hc', hpi⟩ := hi.shape.owner p n i _ hp
    cases hn.symm.trans hn'
    cases hc.symm.trans hc'
    exact hpi
  exact ⟨hport h.leftWire h.leftNode h.leftCtor, hport h.rightWire h.rightNode h.rightCtor⟩

theorem mem_iff_of_freePorts {gs : List (End × Value)}
    (hgs : gs.map Prod.fst = ctor.freePorts.map (.port r)) (hrefs : ∀ g ∈ gs, s.Refers g.1 g.2) :
    (x, v) ∈ gs ↔ s.Refers x v ∧ ∃ k ∈ ctor.freePorts, x = .port r k := by
  constructor
  · intro hg
    have hx := List.mem_map_of_mem (f := Prod.fst) hg
    rw [hgs] at hx
    obtain ⟨k, hk, he⟩ := List.mem_map.mp hx
    exact ⟨hrefs _ hg, k, hk, he.symm⟩
  · rintro ⟨hr, k, hk, rfl⟩
    have hx : End.port r k ∈ gs.map Prod.fst := hgs ▸ List.mem_map_of_mem hk
    obtain ⟨⟨e, u⟩, hg, he⟩ := List.mem_map.mp hx
    dsimp only at he
    subst he
    cases hr.unique (hrefs _ hg)
    exact hg

theorem mem_freePorts_or_eq (hP : P.Ok) (hc : P.nodeCtor c = some ctor)
    (hprim : ctor.primitive = none) (hi : ctor.IsPrincipal i) (hk : k < ctor.arity) :
    k ∈ ctor.freePorts ∨ k = i := by
  by_cases hf : k ∈ ctor.freePorts
  · exact .inl hf
  · refine .inr (hP.principalPort c ctor hc hprim k i ?_ hi)
    by_contra hpk
    exact hf (NodeCtor.mem_freePorts.mpr ⟨hk, hpk⟩)

theorem parts (h : s.PairAt P p q n i m j c d left right) (hP : P.Ok)
    (hi : Inv P missed s.toNet outside tasks {}) (h₁ : s.disconnectNode P n = .ok s₁)
    (h₂ : s₁.disconnectNode P m = .ok s₂) : ∃ stack : List (End × Value),
      stack.map Prod.fst = freeEnds m right ++ freeEnds n left ∧
        s₂.valueStack = stack.map Prod.snd ++ s.valueStack ∧
          s.Parts s₂.toNet p q n i m j left right ↑stack := by
  obtain ⟨gs₁, hgs₁, hrefs₁, hstack₁, hwires₁, hnodes₁, halive₁⟩ :=
    hi.disconnectSide hP h.leftWire h.leftNode h.leftCtor h.leftPrimitive rfl (fun _ _ _ _ => id) h₁
  have hm : s₁.nodes[m]? = s.nodes[m]? := by rw [hnodes₁, List.getElem?_set_ne h.ne]
  obtain ⟨gs₂, hgs₂, hrefs₂, hstack₂, hwires₂, hnodes₂, halive₂⟩ :=
    hi.disconnectSide hP h.rightWire h.rightNode h.rightCtor h.rightPrimitive hm
      (fun r n' i' o hr => ((halive₁ r n' i' o).mp hr).1) h₂
  obtain ⟨hl, hr⟩ := h.isPrincipal hi
  refine ⟨gs₂.reverse ++ gs₁.reverse, ?_, ?_, ?_⟩
  · rw [List.map_append, List.map_reverse, List.map_reverse, hgs₁, hgs₂]
    rfl
  · rw [hstack₂, hstack₁]
    simp
  constructor
  · exact h.leftWire
  · exact h.rightWire
  · exact h.ne
  · exact NodeCtor.lt_arity hl
  · exact NodeCtor.lt_arity hr
  · exact fun hf => (NodeCtor.mem_freePorts.mp hf).2 hl
  · exact fun hf => (NodeCtor.mem_freePorts.mp hf).2 hr
  · rw [hwires₂, hwires₁]
  · rw [hnodes₂, hnodes₁]
  · intro r n' i' o
    rw [halive₂, halive₁, and_assoc]
  · rintro r n' i' o hr₀ (rfl | rfl)
    · obtain ⟨q', -, he⟩ :=
        hi.ofPair hP h.leftWire h.leftNode h.leftCtor h.leftPrimitive r i' o hr₀
      rw [← Sym2.mem_iff, ← he]
      exact Sym2.mem_mk_left r q'
    · obtain ⟨q', -, he⟩ :=
        hi.ofPair hP h.rightWire h.rightNode h.rightCtor h.rightPrimitive r i' o hr₀
      rw [or_comm, ← Sym2.mem_iff, ← he]
      exact Sym2.mem_mk_left r q'
  · intro k hk
    exact mem_freePorts_or_eq hP h.leftCtor h.leftPrimitive hl hk
  · intro k hk
    exact mem_freePorts_or_eq hP h.rightCtor h.rightPrimitive hr hk
  · intro x v
    rw [Multiset.mem_coe, List.mem_append, List.mem_reverse, List.mem_reverse,
      mem_iff_of_freePorts hgs₁ hrefs₁, mem_iff_of_freePorts hgs₂ hrefs₂, ← and_or_left, or_comm]

end Net.PairAt

namespace Worker

variable {w w' : Worker} {rule : Rule} {e : Error}

theorem enterRule_eq_ok (hl : w.principalWires[p]? = some ⟨n, i, some q, false⟩)
    (hr : w.principalWires[q]? = some ⟨m, j, some p, false⟩)
    (h : w.enterRule P p q rule = .ok w') : ∃ s₁ s₂, w.disconnectNode P n = .ok s₁ ∧
      s₁.disconnectNode P m = .ok s₂ ∧
        w' = ⟨s₂, { function := rule.function } :: w.returnStack⟩ := by
  obtain ⟨l, hl', h⟩ := Outcome.of_bind_eq_ok h
  obtain ⟨s₁, h₁, h⟩ := Outcome.of_bind_eq_ok h
  obtain ⟨r, hr', h⟩ := Outcome.of_bind_eq_ok h
  obtain ⟨s₂, h₂, h⟩ := Outcome.of_bind_eq_ok h
  cases h
  cases hl.symm.trans (Net.getPrincipalWire_eq_ok.mp hl').1
  have hr₀ := (Store.disconnectNode_spec h₁).2.2 q r hr'
  cases hr.symm.trans (Net.getPrincipalWire_eq_ok.mp hr₀).1
  exact ⟨s₁, s₂, h₁, h₂, rfl⟩

theorem not_reported_enterRule (h : w.enterRule P p q rule = .error e) : ¬ e.Reported := by
  have hget : ∀ {net : Net} {p : ℕ} {e : Error}, net.getPrincipalWire p = .error e →
      ¬ e.Reported := by
    intro net p e h
    unfold Net.getPrincipalWire at h
    split at h <;> cases h
    exact id
  unfold enterRule at h
  cases hl : w.getPrincipalWire p with
  | error e' =>
    rw [hl] at h
    cases h
    exact hget hl
  | ok l =>
    rw [hl, Outcome.ok_bind] at h
    cases h₁ : w.disconnectNode P l.node with
    | error e' =>
      rw [h₁] at h
      cases h
      exact Store.not_reported_disconnectNode h₁
    | ok s₁ =>
      rw [h₁, Outcome.ok_bind] at h
      cases hr : s₁.getPrincipalWire q with
      | error e' =>
        rw [hr] at h
        cases h
        exact hget hr
      | ok r =>
        rw [hr, Outcome.ok_bind] at h
        cases h₂ : s₁.disconnectNode P r.node with
        | error e' =>
          rw [h₂] at h
          cases h
          exact Store.not_reported_disconnectNode h₂
        | ok s₂ =>
          rw [h₂] at h
          cases h

/-- The task in hand is an active pair: its rule is entered, and the values of the free ports of the
two nodes stand for these ports. -/
theorem Ok.enterRule_depicts {left right : NodeCtor} (hP : P.Ok)
    (hf : ∃ function, P.functions[rule.function]? = some function)
    (h : w.Ok P missed outside (.activePair p q rule ::ₘ tasks) {})
    (hpair : w.PairAt P p q n i m j rule.leftNodeCtor rule.rightNodeCtor left right)
    (hb : w.toNet.Pictures base (↑w.valueStack + (held w.returnStack + outside)) links) :
    ∃ s stack, w.enterRule P p q rule = .ok ⟨s, { function := rule.function } :: w.returnStack⟩ ∧
      s.Depicts P missed base (fun r c => CtorOf w.nodes r c ∧ r ≠ n ∧ r ≠ m) w.valueStack
        (held w.returnStack + outside) tasks ∅ 0 stack
          (.ofPair n m left right w.nodes.length links) := by
  have hout := h.enterRule hP hf rfl rfl (fun _ _ ht => ht.elim)
  cases hw : w.enterRule P p q rule with
  | error e =>
    rw [hw] at hout
    exact (not_reported_enterRule hw hout.1).elim
  | ok w' =>
    rw [hw] at hout
    obtain ⟨hw', -⟩ := hout
    obtain ⟨s₁, s₂, h₁, h₂, rfl⟩ := enterRule_eq_ok hpair.leftWire hpair.rightWire hw
    obtain ⟨stack, hends, hvalues, hparts⟩ := hpair.parts hP h.store h₁ h₂
    have hlen : s₂.nodes.length = w.nodes.length := by
      rw [hparts.nodes, List.length_set, List.length_set]
    have hnd : ((↑stack : Glue).map Prod.fst).Nodup := by
      rw [Multiset.map_coe, hends, Multiset.coe_nodup, List.nodup_append']
      refine ⟨nodup_freeEnds m right, nodup_freeEnds n left, ?_⟩
      intro x hx hx'
      obtain ⟨k, -, rfl⟩ := List.mem_map.mp (List.mem_reverse.mp hx)
      obtain ⟨k', -, he⟩ := List.mem_map.mp (List.mem_reverse.mp hx')
      exact hpair.ne (End.port.inj he).1
    have horigin : CtorOf s₂.nodes = fun r c => CtorOf w.nodes r c ∧ r ≠ n ∧ r ≠ m := by
      ext r c
      exact hparts.ctorOf_iff r c
    refine ⟨s₂, stack, rfl, ?_, ?_, hvalues, hends.symm⟩
    · have hs := hw'.store
      unfold Store.Ok at hs
      dsimp only at hs
      rw [hvalues, held_cons, Frame.content, Slots.content_nil, zero_add, ← Multiset.coe_add,
        add_assoc] at hs
      rwa [add_zero, Multiset.map_coe]
    · have hshows := hparts.shows (l := freeEnds m right ++ freeEnds n left) h.store
        (h.store.refers_owner hpair.leftWire)
        (h.store.refers_owner hpair.rightWire) hnd hb
      rw [hlen, horigin] at hshows
      rwa [add_zero]

end Worker

end InetLisp
