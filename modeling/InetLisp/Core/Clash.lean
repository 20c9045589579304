import InetLisp.Core.Joins

/-! # What cannot be connected

Connecting stops with a message where two atoms meet, or an atom and the principal port of a node
that is none of a primitive. Nothing else stops it.
-/

namespace InetLisp

open Lib Wiring

def HoldsAtom (r : Wiring End) (x : End) : Prop := ∃ y, y.IsAtom ∧ Leads End.IsAtom r x y

/-- A way leads to the principal port of a node that is none of a primitive. -/
def Faces (P : Program) (ctorOf : ℕ → ℕ → Prop) (r : Wiring End) (x : End) : Prop :=
  ∃ n i c ctor, ctorOf n c ∧ P.nodeCtor c = some ctor ∧ ctor.primitive = none ∧
    ctor.IsPrincipal i ∧ Leads End.IsAtom r x (.port n i)

/-- What the two ends lead to cannot be connected. -/
def Clash (P : Program) (ctorOf : ℕ → ℕ → Prop) (r : Wiring End) (x y : End) : Prop :=
  HoldsAtom r x ∧ (HoldsAtom r y ∨ Faces P ctorOf r y) ∨ Faces P ctorOf r x ∧ HoldsAtom r y

variable {P : Program} {missed : Set Redex} {net net' : Net} {outside : Multiset Value}
  {tasks : Multiset Task} {U : Set (ℕ × ℕ)} {n c i k w p q : ℕ} {v left right : Value}
  {x x' y y' : End} {r r' : Wiring End} {C C' : ℕ → ℕ → Prop} {e : Error} {ctor : NodeCtor}

theorem HoldsAtom.imp (h : HoldsAtom r x)
    (hx : ∀ z, z.IsAtom → Leads End.IsAtom r x z → Leads End.IsAtom r' x' z) :
    HoldsAtom r' x' := by
  obtain ⟨z, hz, hl⟩ := h
  exact ⟨z, hz, hx z hz hl⟩

theorem Faces.imp (h : Faces P C r x) (hC : ∀ n c, C n c → C' n c)
    (hx : ∀ n i c, C n c → Leads End.IsAtom r x (.port n i) → Leads End.IsAtom r' x' (.port n i)) :
    Faces P C' r' x' := by
  obtain ⟨n, i, c, ctor, hc, hctor, hp, hi, hl⟩ := h
  exact ⟨n, i, c, ctor, hC n c hc, hctor, hp, hi, hx n i c hc hl⟩

/-- An end that can be a part of a clash: an atom, or a port of a node. -/
def Matters (C : ℕ → ℕ → Prop) (z : End) : Prop := z.IsAtom ∨ ∃ n i c, z = .port n i ∧ C n c

theorem Clash.imp (h : Clash P C r x y) (hC : ∀ n c, C n c → C' n c)
    (hx : ∀ z, Matters C z → Leads End.IsAtom r x z → Leads End.IsAtom r' x' z)
    (hy : ∀ z, Matters C z → Leads End.IsAtom r y z → Leads End.IsAtom r' y' z) :
    Clash P C' r' x' y' := by
  have hatom : ∀ {a b}, (∀ z, Matters C z → Leads End.IsAtom r a z → Leads End.IsAtom r' b z) →
      HoldsAtom r a → HoldsAtom r' b := fun h ha => ha.imp fun z hz => h z (.inl hz)
  have hport : ∀ {a b}, (∀ z, Matters C z → Leads End.IsAtom r a z → Leads End.IsAtom r' b z) →
      Faces P C r a → Faces P C' r' b :=
    fun h ha => ha.imp hC fun n i c hc => h _ (.inr ⟨n, i, c, rfl, hc⟩)
  rcases h with ⟨h₁, h₂ | h₂⟩ | ⟨h₁, h₂⟩
  · exact .inl ⟨hatom hx h₁, .inl (hatom hy h₂)⟩
  · exact .inl ⟨hatom hx h₁, .inr (hport hy h₂)⟩
  · exact .inr ⟨hport hx h₁, hatom hy h₂⟩

theorem Clash.symm (h : Clash P C r x y) : Clash P C r y x := by
  rcases h with ⟨h₁, h₂ | h₂⟩ | ⟨h₁, h₂⟩
  · exact .inl ⟨h₂, .inl h₁⟩
  · exact .inr ⟨h₂, h₁⟩
  · exact .inl ⟨h₂, .inr h₁⟩

theorem clash_connectActivePair
    (h : Inv P missed net (.principalWire p ::ₘ .principalWire q ::ₘ outside) tasks { unset := U }) :
    connectActivePair P net p q ≠ .error e := by
  obtain ⟨n, i, hp⟩ := h.principal_of_mem (Multiset.mem_cons_self _ _)
  obtain ⟨m, j, hq⟩ := h.principal_of_mem
    (Multiset.mem_cons_of_mem (Multiset.mem_cons_self _ _))
  obtain ⟨-, c, l, k, -, hn, -⟩ := h.shape.owner p n i _ hp
  obtain ⟨-, d, l', k', -, hm, -⟩ := h.shape.owner q m j _ hq
  rw [connectActivePair_eq hp hq h.principal_ne ⟨l, k, hn⟩ ⟨l', k', hm⟩]
  nofun

theorem clash_collectPrimitiveArg
    (h : Inv P missed net (.principalWire p ::ₘ v ::ₘ outside) tasks { unset := U })
    (hv : v.IsNonWire) (hx : collectPrimitiveArg P net p v = .error e) :
    Clash P (CtorOf net.nodes) net.Tied (.value (.principalWire p)) (.value v) := by
  obtain ⟨n, i, hp⟩ := h.principal_of_mem (Multiset.mem_cons_self _ _)
  obtain ⟨-, c, l, k, ctor, hn, hi, hc, hpr⟩ := h.shape.owner p n i _ hp
  rw [collectPrimitiveArg_eq hp hn hc] at hx
  split at hx
  · rename_i hprim
    have hport : net.Refers (.port n i) (.principalWire p) := .port hn hi
    refine .inr ⟨⟨n, i, c, ctor, ⟨l, k, hn⟩, hc, by simpa using hprim, hpr, ?_⟩, .value v, hv, .refl⟩
    exact .single ⟨End.not_isAtom_principalWire, .inr hport.tied⟩
  · cases hx

theorem clash_connectFuel (hk : net.liveWires < k)
    (h : Inv P missed net (left ::ₘ right ::ₘ outside) tasks { unset := U })
    (hx : connectFuel P k net left right = .error e) :
    Clash P (CtorOf net.nodes) net.Tied (.value left) (.value right) := by
  induction k generalizing net left right with
  | zero => exact (Nat.not_lt_zero _ hk).elim
  | succ k ih =>
    have hfuze : ∀ {w v}, Inv P missed net (.wire w ::ₘ v ::ₘ outside) tasks { unset := U } →
        fuze (connectFuel P k) net w v = .error e →
          Clash P (CtorOf net.nodes) net.Tied (.value (.wire w)) (.value v) := by
      intro w v h hx
      obtain ⟨o, hw⟩ := h.wire_of_mem (Multiset.mem_cons_self _ _)
      unfold fuze at hx
      rw [hw] at hx
      cases o with
      | none => cases hx
      | some u =>
        have hlive := Inv.liveWires_setWire (some u) hw
        have hclash := ih (by omega) (h.fuzeSecond hw) hx
        have hle : (net.setWire w ⟨some u, true⟩).Tied ≤ net.Tied := by
          rw [Net.tied_wireDestroy hw]
          exact le_sup_left
        have hstep : Step End.IsAtom net.Tied (.value (.wire w)) (.value u) :=
          ⟨End.not_isAtom_wire, .inl (Net.Refers.wire hw).tied⟩
        apply hclash.imp (fun _ _ => id)
        · exact fun z _ hl => .head hstep (hl.mono hle)
        · exact fun z _ hl => hl.mono hle
    rcases left.kind with ⟨w, rfl⟩ | ⟨p, rfl⟩ | hl
    · exact hfuze h hx
    · rcases right.kind with ⟨w, rfl⟩ | ⟨r, rfl⟩ | hr
      · exact (hfuze (Multiset.cons_swap _ _ _ ▸ h) hx).symm
      · exact (clash_connectActivePair h hx).elim
      · rw [Inv.connectFuel_principal_nonWire hr] at hx
        exact clash_collectPrimitiveArg h hr hx
    · rcases right.kind with ⟨w, rfl⟩ | ⟨r, rfl⟩ | hr
      · rw [Inv.connectFuel_nonWire_wire hl] at hx
        exact (hfuze (Multiset.cons_swap _ _ _ ▸ h) hx).symm
      · rw [Inv.connectFuel_nonWire_principal hl] at hx
        exact (clash_collectPrimitiveArg (Multiset.cons_swap _ _ _ ▸ h) hl hx).symm
      · exact .inl ⟨⟨.value left, hl, .refl⟩, .inl ⟨.value right, hr, .refl⟩⟩

theorem clash_connect (h : Inv P missed net (left ::ₘ right ::ₘ outside) tasks { unset := U })
    (hx : connect P net left right = .error e) :
    Clash P (CtorOf net.nodes) net.Tied (.value left) (.value right) :=
  clash_connectFuel (Nat.lt_succ_of_le List.countP_le_length) h hx

/-- What is new leads to the port and to nothing else. -/
theorem Net.Attached.clash {net₁ : Net} {u : Value} (ha : net.Attached net₁ n i u) (hv : v.In net)
    (hC : ∀ m c, C m c → C' m c) (h : Clash P C net₁.Tied (.value u) (.value v)) :
    Clash P C' net.Tied (.port n i) (.value v) := by
  have hu : ¬ (End.value u).IsAtom := by
    intro hu
    apply ha.new
    cases u <;> trivial
  have hagree : Agree End.IsAtom {z | z ≠ .value u} net₁.Tied net.Tied := by
    rw [ha.tied, tie_comm (End.port n i)]
    exact .leaf hu ha.isolated (fun hm => hm rfl) nofun
  have hne : ∀ z, Matters C z → z ≠ .value u := by
    rintro z (hz | ⟨m, j, c, rfl, -⟩) he
    · exact hu (he ▸ hz)
    · cases he
  apply h.imp hC
  · intro z hz hl
    rcases hl.cases_head with he | ⟨z', hs, hl⟩
    · exact (hne z hz he.symm).elim
    · have hz' : z' = .port n i := by
        obtain ⟨-, hs⟩ := hs
        rw [ha.tied] at hs
        rcases hs with (hs | ⟨he, -⟩ | ⟨-, rfl⟩) | (hs | ⟨rfl, -⟩ | ⟨-, he⟩)
        · exact ((ha.isolated _).1 hs).elim
        · cases he
        · rfl
        · exact ((ha.isolated _).2 hs).elim
        · rfl
        · cases he
      subst hz'
      exact (hagree _ (by nofun) z (.inl (hne z hz))).mp hl
  · intro z hz hl
    refine (hagree _ ?_ z (.inl (hne z hz))).mp hl
    rintro ⟨⟩
    exact ha.new hv

theorem clash_reconnectInput (h : Inv P missed net (v ::ₘ outside) tasks { unset := U })
    (hn : CtorOf net.nodes n c) (hc : P.nodeCtor c = some ctor) (hi : i < ctor.arity)
    (hu : (n, i) ∈ U) (hx : Store.reconnectInput P net n i v = .error e) :
    Clash P (CtorOf net.nodes) net.Tied (.port n i) (.value v) := by
  obtain ⟨ctor', hc', hget⟩ := h.getNodeCtor hn
  cases hc.symm.trans hc'
  obtain ⟨l, k, hn⟩ := hn
  have hin : v.In net := h.linear.allocated v (by simp)
  have hinfo : ctor.portInfos[i]? = some ctor.portInfos[i] := List.getElem?_eq_getElem hi
  unfold Store.reconnectInput at hx
  rw [hget, Outcome.ok_bind, hinfo] at hx
  dsimp only at hx
  by_cases hpr : ctor.portInfos[i].isPrincipal = true
  · rw [if_pos hpr, Net.setValue_eq (net.newPrincipalWire n i).2 hn rfl, Outcome.ok_bind] at hx
    have h₁ := h.setPrincipalPort hn hc hu (Set.notMem_empty _) ⟨_, hinfo, hpr⟩
    apply (Net.attached_newPrincipalWire h hn hu).clash hin _ (clash_connect h₁ hx)
    exact fun m c hm => (Shape.ctorOf_set hn).mp hm
  · rw [if_neg hpr] at hx
    cases v with
    | principalWire p =>
      -- The inserted wire is fuzed with its first value.
      dsimp only at hx
      rw [Net.setValue_eq net.newWire.2 hn rfl, Outcome.ok_bind] at hx
      have hw : (net.newWire.2.setNode n
          ⟨some c, l.set i (some (.wire net.newWire.1)), k⟩).wires[net.newWire.1]? =
            some ⟨none, false⟩ := by
        simp [Net.newWire, Net.setNode]
      unfold connect connectFuel fuze at hx
      rw [hw] at hx
      cases hx
    | _ =>
      dsimp only at hx
      rw [Net.setValue_eq net hn rfl, Outcome.ok_bind] at hx
      cases hx

theorem exists_reconnectOutput (h : Inv P missed net outside tasks { unset := U })
    (hn : CtorOf net.nodes n c) (hc : P.nodeCtor c = some ctor) (hi : i < ctor.arity) :
    ∃ x, Store.reconnectOutput P net n i = .ok x := by
  obtain ⟨ctor', hc', hget⟩ := h.getNodeCtor hn
  cases hc.symm.trans hc'
  obtain ⟨l, k, hn⟩ := hn
  have hinfo : ctor.portInfos[i]? = some ctor.portInfos[i] := List.getElem?_eq_getElem hi
  unfold Store.reconnectOutput
  rw [hget, Outcome.ok_bind, hinfo]
  dsimp only
  split
  · rw [Net.setValue_eq (net.newPrincipalWire n i).2 hn rfl]
    exact ⟨_, rfl⟩
  · rw [Net.setValue_eq net.newWire.2 hn rfl]
    exact ⟨_, rfl⟩

end InetLisp
