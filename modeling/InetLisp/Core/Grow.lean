import InetLisp.Core.Execute
import InetLisp.Core.HandleTask

/-! # Running code lets the net grow

Building, connecting and applying recycle no node and bring no wire back. So a wire that
`defuze` has destroyed is still destroyed when it reaches the target port of an apply
node: to apply a wire that leads to another wire is to use it after it was freed.
-/

namespace InetLisp

open Lib

variable {P : Program} {net net' net'' : Net} {s s' : Store} {w w' : Worker} {n i k arity c : ℕ}
  {v target left right : Value} {task found found' : Option Task} {f : Option ℕ}

/-- The wire has been freed. -/
def Net.Destroyed (net : Net) (w : ℕ) : Prop := ∃ o, net.wires[w]? = some ⟨o, true⟩

/-- No node is recycled, and no wire comes back. -/
structure Net.Grows (net net' : Net) : Prop where
  ctor : net.shape.1 <+: net'.shape.1
  destroyed : ∀ w, net.Destroyed w → net'.Destroyed w

namespace Net.Grows

theorem refl (net : Net) : Grows net net := ⟨List.prefix_refl _, fun _ h => h⟩

theorem trans (h : Grows net net') (h' : Grows net' net'') : Grows net net'' :=
  ⟨h.ctor.trans h'.ctor, fun w hw => h'.destroyed w (h.destroyed w hw)⟩

theorem of_shape (hs : net'.shape = net.shape) (hw : net'.wires = net.wires) : Grows net net' := by
  constructor
  · rw [hs]
  · rintro w ⟨o, ho⟩
    exact ⟨o, by rw [hw, ho]⟩

theorem ctorOf (h : Grows net net') (hn : CtorOf net.nodes n c) : CtorOf net'.nodes n c := by
  rw [ctorOf_iff] at hn ⊢
  obtain ⟨rest, hr⟩ := h.ctor
  rw [← hr, List.getElem?_append_left (Cells.lt_length hn), hn]

theorem newWire : Grows net net.newWire.2 := by
  constructor
  · exact List.prefix_refl _
  · rintro w ⟨o, ho⟩
    refine ⟨o, ?_⟩
    rw [Net.newWire, List.getElem?_append_left (Cells.lt_length ho), ho]

theorem newPrincipalWire : Grows net (net.newPrincipalWire n i).2 := by
  constructor
  · rw [shape_newPrincipalWire]
  · exact fun _ h => h

theorem newNode : Grows net (net.newNode c).2 := by
  constructor
  · rw [shape_newNode]
    exact List.prefix_append _ _
  · exact fun _ h => h

theorem setValue (h : net.setValue n i v = .ok net') : Grows net net' := by
  apply of_shape (shape_setValue h)
  unfold Net.setValue at h
  split at h <;> cases h
  rfl

theorem setWire {m : ℕ} {o o' : Option Value} {d : Bool} (hm : net.wires[m]? = some ⟨o, false⟩) :
    Grows net (net.setWire m ⟨o', d⟩) := by
  constructor
  · exact List.prefix_refl _
  · rintro w ⟨u, hu⟩
    refine ⟨u, ?_⟩
    rw [Net.setWire, Cells.getElem?_set hm, if_neg, hu]
    rintro rfl
    cases hm.symm.trans hu

end Net.Grows

open Net (Grows)

theorem grows_fuze {connect : Net → Value → Value → Except Error (Net × Option Task)} {m : ℕ}
    {value : Value}
    (hc : ∀ net left right, connect net left right = .ok (net', task) → Grows net net')
    (h : fuze connect net m value = .ok (net', task)) : Grows net net' := by
  unfold fuze at h
  split at h
  · rename_i hm
    cases h
    exact .setWire hm
  · rename_i hm
    exact Grows.trans (.setWire hm) (hc _ _ _ h)
  · cases h

theorem grows_connectActivePair {p q : ℕ} (h : connectActivePair P net p q = .ok (net', task)) :
    Grows net net' := by
  apply Grows.of_shape (connectActivePair_shape h).1
  unfold connectActivePair at h
  obtain ⟨lc, -, h⟩ := Outcome.of_bind_eq_ok h
  obtain ⟨rc, -, h⟩ := Outcome.of_bind_eq_ok h
  obtain ⟨_, _, h⟩ := Outcome.of_bind_eq_ok h
  obtain ⟨_, _, h⟩ := Outcome.of_bind_eq_ok h
  cases h
  rfl

theorem grows_collectPrimitiveArg {p : ℕ} {arg : Value}
    (h : collectPrimitiveArg P net p arg = .ok (net', task)) : Grows net net' := by
  apply Grows.of_shape (collectPrimitiveArg_shape h).1
  unfold collectPrimitiveArg at h
  obtain ⟨⟨n, i, o, d⟩, -, h⟩ := Outcome.of_bind_eq_ok h
  obtain ⟨ctor, -, h⟩ := Outcome.of_bind_eq_ok h
  split at h
  · cases h
  obtain ⟨net₁, h₁, h⟩ := Outcome.of_bind_eq_ok h
  obtain ⟨net₂, h₂, h⟩ := Outcome.of_bind_eq_ok h
  have hw₁ : net₁.wires = net.wires := by
    unfold Net.destroyPrincipalWire at h₁
    split at h₁ <;> cases h₁
    rfl
  have hw₂ : net₂.wires = net₁.wires := by
    unfold Net.setValue at h₂
    split at h₂ <;> cases h₂
    rfl
  split at h <;> cases h
  exact hw₂.trans hw₁

theorem grows_connectFuel (h : connectFuel P k net left right = .ok (net', task)) :
    Grows net net' := by
  induction k generalizing net left right with
  | zero => cases h
  | succ k ih =>
    unfold connectFuel at h
    split at h
    · cases ‹_ = 0›
    · cases ‹_ = _ + 1›
      exact grows_fuze (fun _ _ _ => ih) h
    · cases ‹_ = _ + 1›
      exact grows_fuze (fun _ _ _ => ih) h
    · exact grows_connectActivePair h
    · exact grows_collectPrimitiveArg h
    · exact grows_collectPrimitiveArg h
    · cases h

theorem grows_connect (h : connect P net left right = .ok (net', task)) : Grows net net' :=
  grows_connectFuel h

namespace Store

theorem grows_defuzeFuel (h : defuzeFuel k net v = .ok (net', target)) : Grows net net' := by
  induction k generalizing net v with
  | zero => cases h
  | succ k ih =>
    unfold defuzeFuel at h
    split at h
    · cases ‹_ = 0›
    · cases ‹_ = _ + 1›
      split at h
      · cases h
        exact .refl _
      · rename_i hm
        exact Grows.trans (.setWire hm) (ih h)
      · cases h
    · cases h
      exact .refl _

theorem grows_pop (h : s.pop = .ok (v, s')) : s'.toNet = s.toNet := by
  unfold pop at h
  split at h <;> cases h
  rfl

theorem grows_storeConnect (h : s.connect P left right = .ok s') : Grows s.toNet s'.toNet := by
  obtain ⟨⟨net, task⟩, hc, h⟩ := Outcome.of_bind_eq_ok h
  cases h
  rw [Ok.toNet_addFound]
  exact grows_connect hc

theorem grows_reconnectInput (h : reconnectInput P net n i v = .ok (net', task)) :
    Grows net net' := by
  obtain ⟨ctor, -, h⟩ := Outcome.of_bind_eq_ok h
  dsimp only at h
  split at h
  · cases h
  split at h
  · obtain ⟨net₁, h₁, h⟩ := Outcome.of_bind_eq_ok h
    exact Grows.newPrincipalWire.trans ((Grows.setValue h₁).trans (grows_connect h))
  · split at h
    · obtain ⟨net₁, h₁, h⟩ := Outcome.of_bind_eq_ok h
      exact Grows.newWire.trans ((Grows.setValue h₁).trans (grows_connect h))
    · obtain ⟨net₁, h₁, h⟩ := Outcome.of_bind_eq_ok h
      cases h
      exact .setValue h₁

theorem grows_reconnectOutput (h : reconnectOutput P net n i = .ok (net', v)) : Grows net net' := by
  obtain ⟨ctor, -, h⟩ := Outcome.of_bind_eq_ok h
  dsimp only at h
  split at h
  · cases h
  split at h
  · obtain ⟨net₁, h₁, h⟩ := Outcome.of_bind_eq_ok h
    cases h
    exact Grows.newPrincipalWire.trans (.setValue h₁)
  · obtain ⟨net₁, h₁, h⟩ := Outcome.of_bind_eq_ok h
    cases h
    exact Grows.newWire.trans (.setValue h₁)

theorem grows_reconnectInputs (h : reconnectInputs P n k s found = .ok (s', found')) :
    Grows s.toNet s'.toNet := by
  induction k generalizing s found with
  | zero =>
    cases h
    exact .refl _
  | succ k ih =>
    obtain ⟨⟨v, s₁⟩, hp, h⟩ := Outcome.of_bind_eq_ok h
    obtain ⟨⟨net, task⟩, hr, h⟩ := Outcome.of_bind_eq_ok h
    dsimp only at h
    split at h
    · cases h
    · rw [← grows_pop hp]
      exact (grows_reconnectInput hr).trans (ih h)

theorem grows_reconnectOutputs (h : reconnectOutputs P n k i s = .ok s') :
    Grows s.toNet s'.toNet := by
  induction k generalizing s i with
  | zero =>
    cases h
    exact .refl _
  | succ k ih =>
    obtain ⟨⟨net, v⟩, hr, h⟩ := Outcome.of_bind_eq_ok h
    exact (grows_reconnectOutput hr).trans (ih h)

theorem grows_applyNodeCtor (h : s.applyNodeCtor P c arity = .ok s') : Grows s.toNet s'.toNet := by
  obtain ⟨⟨s₁, found⟩, hi, h⟩ := Outcome.of_bind_eq_ok h
  obtain ⟨ctor, -, h⟩ := Outcome.of_bind_eq_ok h
  obtain ⟨s₂, ho, h⟩ := Outcome.of_bind_eq_ok h
  cases h
  rw [Ok.toNet_addFound]
  exact Grows.newNode.trans ((grows_reconnectInputs hi).trans (grows_reconnectOutputs ho))

theorem grows_applyPrimitive {p : Primitive} (h : s.applyPrimitive P p = .ok s') :
    Grows s.toNet s'.toNet := by
  unfold applyPrimitive at h
  split at h
  · obtain ⟨⟨x, s₁⟩, h₁, h⟩ := Outcome.of_bind_eq_ok h
    obtain ⟨⟨y, s₂⟩, h₂, h⟩ := Outcome.of_bind_eq_ok h
    rw [← grows_pop h₁, ← grows_pop h₂]
    exact grows_storeConnect h
  · cases h
    exact .newWire
  · dsimp only at h
    split at h
    · cases h
    · obtain ⟨results, -, h⟩ := Outcome.of_bind_eq_ok h
      cases h
      exact .refl _

theorem grows_applyNonWire (h : s.applyNonWire P target arity = .ok (s', f)) :
    Grows s.toNet s'.toNet := by
  unfold applyNonWire at h
  split at h
  · split at h
    · obtain ⟨s₁, h₁, h⟩ := Outcome.of_bind_eq_ok h
      cases h
      exact grows_applyNodeCtor h₁
    · cases h
  · split at h
    · split at h <;> cases h
      exact .refl _
    · cases h
  · split at h
    · split at h
      · obtain ⟨s₁, h₁, h⟩ := Outcome.of_bind_eq_ok h
        cases h
        exact grows_applyNodeCtor h₁
      · dsimp only at h
        split at h
        · cases h
        · obtain ⟨s₁, h₁, h⟩ := Outcome.of_bind_eq_ok h
          cases h
          exact grows_applyPrimitive h₁
    · cases h
  · cases h

theorem grows_applyTarget (h : s.applyTarget P target arity = .ok (s', f)) :
    Grows s.toNet s'.toNet := by
  unfold applyTarget at h
  split at h
  · obtain ⟨⟨net, v⟩, hd, h⟩ := Outcome.of_bind_eq_ok h
    apply (grows_defuzeFuel hd).trans
    dsimp only at h
    split at h
    · split at h
      · cases h
      · obtain ⟨s₁, ht, h⟩ := Outcome.of_bind_eq_ok h
        obtain ⟨s₂, h₂, h⟩ := Outcome.of_bind_eq_ok h
        cases h
        have hnet : s₁.toNet = net := by
          unfold tuck at ht
          split at ht <;> cases ht
          rfl
        rw [← hnet]
        exact grows_applyNodeCtor h₂
    · exact grows_applyNonWire h
  · exact grows_applyNonWire h

theorem grows_executeOpcode {frame frame' : Frame} {opcode : Opcode}
    (h : s.executeOpcode P frame opcode = .ok (s', frame', f)) : Grows s.toNet s'.toNet := by
  cases opcode with
  | apply arity =>
    obtain ⟨⟨target, s₁⟩, hp, h⟩ := Outcome.of_bind_eq_ok h
    obtain ⟨⟨s₂, g⟩, ha, h⟩ := Outcome.of_bind_eq_ok h
    cases h
    rw [← grows_pop hp]
    exact grows_applyTarget ha
  | literal v =>
    cases h
    exact .refl _
  | getVariable i =>
    obtain ⟨⟨v, frame₁⟩, -, h⟩ := Outcome.of_bind_eq_ok h
    cases h
    exact .refl _
  | setVariable i =>
    obtain ⟨⟨v, s₁⟩, hp, h⟩ := Outcome.of_bind_eq_ok h
    obtain ⟨frame₁, -, h⟩ := Outcome.of_bind_eq_ok h
    cases h
    rw [grows_pop hp]
    exact .refl _

theorem grows_pushInputs (h : pushInputs n k i s = .ok s') : s'.toNet = s.toNet := by
  induction k generalizing s i with
  | zero =>
    cases h
    rfl
  | succ k ih =>
    obtain ⟨v, -, h⟩ := Outcome.of_bind_eq_ok h
    rw [ih (s := s.push v) h]
    rfl

theorem grows_applyNodePrimitive {primitive : NodePrimitive}
    (h : s.applyNodePrimitive P primitive = .ok (s', f)) : Grows s.toNet s'.toNet := by
  cases primitive with
  | apply arity =>
    dsimp only [applyNodePrimitive, xApply] at h
    split at h
    · cases h
    · rename_i target rest _
      have hs : Grows ({ s with valueStack := s.valueStack.take arity ++ rest } : Store).toNet
          s'.toNet := grows_applyTarget h
      exact hs
  | primitive k =>
    dsimp only [applyNodePrimitive] at h
    split at h
    · obtain ⟨s₁, h₁, h⟩ := Outcome.of_bind_eq_ok h
      cases h
      exact grows_applyPrimitive h₁
    · cases h

theorem grows_connectOutputs (h : s.connectOutputs P n i k = .ok s') : Grows s.toNet s'.toNet := by
  induction k generalizing s with
  | zero =>
    cases h
    exact .refl _
  | succ k ih =>
    obtain ⟨v, -, h⟩ := Outcome.of_bind_eq_ok h
    split at h
    · obtain ⟨⟨result, s₁⟩, hp, h⟩ := Outcome.of_bind_eq_ok h
      obtain ⟨s₂, hc, h⟩ := Outcome.of_bind_eq_ok h
      rw [← grows_pop hp]
      exact (grows_storeConnect hc).trans (ih h)
    · cases h

end Store

namespace Worker

theorem toNet_enter : (w.enter f).toNet = w.toNet := by
  cases f <;> rfl

theorem toNet_pushUnfinished {function : Function} {frame : Frame} :
    (w.pushUnfinished function frame).toNet = w.toNet := by
  unfold pushUnfinished
  split <;> rfl

theorem grows_runOneStep (h : w.runOneStep P = .ok w') : Grows w.toNet w'.toNet := by
  unfold runOneStep at h
  split at h
  · cases h
    exact .refl _
  · split at h
    · cases h
    · split at h
      · cases h
        exact .refl _
      · obtain ⟨⟨s, frame, f⟩, he, h⟩ := Outcome.of_bind_eq_ok h
        cases h
        rw [toNet_enter, toNet_pushUnfinished]
        exact Store.grows_executeOpcode he

theorem grows_enterPrimitive {primitive : NodePrimitive}
    (h : w.enterPrimitive P n primitive = .ok w') : Grows w.toNet w'.toNet := by
  obtain ⟨s₁, h₁, h⟩ := Outcome.of_bind_eq_ok h
  obtain ⟨⟨s₂, f⟩, h₂, h⟩ := Outcome.of_bind_eq_ok h
  cases h
  rw [toNet_enter, ← Store.grows_pushInputs h₁]
  exact Store.grows_applyNodePrimitive h₂

end Worker

/-! ### A wire that leads to a wire -/

namespace Store

variable {m : ℕ} {ctor : NodeCtor}

theorem connect_of_destroyed {p : ℕ} (hw : net.Destroyed m) :
    InetLisp.connect P net (.principalWire p) (.wire m) ≠ .ok (net', task) := by
  obtain ⟨o, ho⟩ := hw
  intro h
  simp only [InetLisp.connect, connectFuel, fuze, ho, reduceCtorEq] at h

theorem reconnectInputs_of_destroyed (hc : P.getNodeCtor s.toNet n = .ok ctor)
    (hp : ctor.IsPrincipal 0) (hw : s.toNet.Destroyed m) (hs : s.valueStack[k]? = some (.wire m)) :
    reconnectInputs P n (k + 1) s found ≠ .ok (s', found') := by
  intro h
  induction k generalizing s found with
  | zero =>
    obtain ⟨⟨v, s₁⟩, hv, h⟩ := Outcome.of_bind_eq_ok h
    obtain ⟨⟨net, task⟩, hr, -⟩ := Outcome.of_bind_eq_ok h
    have hnet := grows_pop hv
    unfold pop at hv
    split at hv
    · cases hv
    · rename_i u l hl
      cases hv
      rw [hl] at hs
      cases hs
      obtain ⟨info, hi, hpr⟩ := hp
      dsimp only at hr hnet
      unfold reconnectInput at hr
      rw [hnet, hc, Outcome.ok_bind] at hr
      dsimp only at hr
      rw [hi] at hr
      dsimp only at hr
      rw [if_pos hpr] at hr
      obtain ⟨net₁, h₁, hr⟩ := Outcome.of_bind_eq_ok hr
      exact connect_of_destroyed ((Grows.newPrincipalWire.trans (.setValue h₁)).destroyed _ hw) hr
  | succ k ih =>
    obtain ⟨⟨v, s₁⟩, hv, h⟩ := Outcome.of_bind_eq_ok h
    obtain ⟨⟨net, task⟩, hr, h⟩ := Outcome.of_bind_eq_ok h
    have hnet := grows_pop hv
    dsimp only at h
    split at h
    · cases h
    · apply ih _ _ _ h
      · rw [← hc]
        apply getNodeCtor_congr
        rw [← hnet]
        exact (reconnectInput_ctor hr).1
      · apply (grows_reconnectInput hr).destroyed
        rwa [hnet]
      · unfold pop at hv
        split at hv
        · cases hv
        · rename_i u l hl
          cases hv
          rw [hl] at hs
          exact hs

theorem exists_applyCtor (h₁ : 0 < arity) (h₂ : arity ≤ maxApplyArity) :
    ∃ ctor, P.nodeCtor (InetLisp.applyNodeCtor arity) = some ctor ∧ ctor.IsPrincipal 0 ∧
      ctor.arity = arity + 2 ∧ ∀ i, 0 < i → i < arity + 2 →
        ∃ info, ctor.portInfos[i]? = some info ∧ info.isPrincipal = false := by
  have hlt : InetLisp.applyNodeCtor arity < applyNodeCtors.length := by
    simp only [InetLisp.applyNodeCtor, applyNodeCtors, List.length_map, List.length_range]
    omega
  have harity : arity - 1 + 1 = arity := by omega
  refine ⟨applyNodeCtors[InetLisp.applyNodeCtor arity], ?_, ⟨⟨"target", true⟩, ?_, rfl⟩, ?_, ?_⟩
  · rw [Program.nodeCtor, List.getElem?_append_left hlt, List.getElem?_eq_getElem hlt]
  · simp [applyNodeCtors]
  · simp [applyNodeCtors, NodeCtor.arity, InetLisp.applyNodeCtor, harity]
  · intro i h₀ hi
    obtain ⟨j, rfl⟩ := Nat.exists_eq_succ_of_ne_zero h₀.ne'
    by_cases hj : j < arity
    · use ⟨"arg" ++ toString (j + 1), false⟩
      simp [applyNodeCtors, InetLisp.applyNodeCtor, harity, List.getElem?_append_left, hj]
    · obtain rfl : j = arity := by omega
      use ⟨"result", false⟩
      simp [applyNodeCtors, InetLisp.applyNodeCtor, harity]
theorem destroyed_of_defuzeFuel {a b : ℕ}
    (h : defuzeFuel k net (.wire a) = .ok (net', .wire b)) (hb : b ≠ a) : net'.Destroyed a := by
  cases k with
  | zero => cases h
  | succ k =>
    unfold defuzeFuel at h
    split at h
    · cases h
      exact (hb rfl).elim
    · rename_i u hm
      apply (grows_defuzeFuel h).destroyed
      refine ⟨some u, ?_⟩
      rw [Net.setWire, Cells.getElem?_set hm, if_pos rfl]
    · cases h

/-- An application that succeeds is not one of a wire that leads to another wire. -/
theorem direct_of_applyTarget (h : s.applyTarget P target arity = .ok (s', f)) :
    Direct s.toNet target := by
  rintro net m hd
  cases target with
  | wire a =>
    by_contra hm
    have hne : m ≠ a := by
      rintro rfl
      exact hm rfl
    have hw := destroyed_of_defuzeFuel hd hne
    unfold applyTarget applyWire at h
    dsimp only at h
    rw [hd, Outcome.ok_bind] at h
    dsimp only at h
    split at h
    · cases h
    · rename_i ha
      obtain ⟨h₁, h₂⟩ := not_not.mp ha
      obtain ⟨s₁, ht, h⟩ := Outcome.of_bind_eq_ok h
      obtain ⟨s₂, hn, -⟩ := Outcome.of_bind_eq_ok h
      obtain ⟨⟨s₃, found⟩, hi, -⟩ := Outcome.of_bind_eq_ok hn
      obtain ⟨ctor, hc, hp, -⟩ := exists_applyCtor (P := P) h₁ h₂
      unfold tuck at ht
      split at ht
      · cases ht
      · rename_i hlen
        cases ht
        refine reconnectInputs_of_destroyed (m := a) ?_ hp ?_ ?_ hi
        · simp [Program.getNodeCtor, Net.getCtor, setNet, hc]
        · exact Grows.newNode.destroyed a hw
        · have hl : (s.valueStack.take arity).length = arity := by
            rw [List.length_take]
            have hlen : ¬ s.valueStack.length < arity := hlen
            omega
          simp only [setNet]
          rw [List.getElem?_append_right hl.le, hl, Nat.sub_self]
          rfl
  | _ => cases hd

end Store

end InetLisp
