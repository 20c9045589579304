import InetLisp.Core.Conserve
import InetLisp.Core.RunUntil

/-! # Workers keep the invariant

What a worker does with its stacks and its queue, from building a node to a step of
running code.
-/

namespace InetLisp

open Lib

variable {P : Program} {missed : Set Redex} {s s' : Store} {outside : Multiset Value}
  {tasks : Multiset Task} {G : Open} {n i k : ℕ} {v : Value}

/-- The invariant, with the stack of the worker outside of the net and its queue pending. -/
def Store.Ok (P : Program) (missed : Set Redex) (s : Store) (outside : Multiset Value)
    (tasks : Multiset Task) (G : Open) : Prop :=
  Inv P missed s.toNet (↑s.valueStack + outside) (↑s.taskQueue + ↑s.refused + tasks) G

/-- A step of a worker keeps the invariant or stops the program. -/
def Keeps (P : Program) (missed : Set Redex) (outside : Multiset Value)
    (tasks : Multiset Task) (G : Open) (x : Except Error Store) : Prop :=
  Outcome Error.Expected (fun s => s.Ok P missed outside tasks G) x

namespace Store.Ok

theorem congr {outside' : Multiset Value} {tasks' : Multiset Task}
    (h : s.Ok P missed outside tasks G) (hn : s'.toNet = s.toNet)
    (ho : (s'.valueStack + outside' : Multiset Value) = s.valueStack + outside)
    (ht : (s'.taskQueue + s'.refused + tasks' : Multiset Task) = s.taskQueue + s.refused + tasks) :
    s'.Ok P missed outside' tasks' G := by
  unfold Ok at h ⊢
  rw [hn, ho, ht]
  exact h

theorem push (h : s.Ok P missed (v ::ₘ outside) tasks G) :
    (s.push v).Ok P missed outside tasks G := by
  refine h.congr rfl ?_ rfl
  rw [Store.push, ← Multiset.cons_coe, Multiset.cons_add, Multiset.add_cons]

theorem pop (h : s.Ok P missed outside tasks G) :
    Outcome Error.Expected (fun (v, s') => s'.Ok P missed (v ::ₘ outside) tasks G ∧
      s'.toNet = s.toNet ∧ s.valueStack = v :: s'.valueStack) s.pop := by
  unfold Store.pop
  split
  · exact ⟨trivial, nofun⟩
  · rename_i v l hv
    refine ⟨h.congr rfl ?_ rfl, rfl, hv⟩
    rw [hv, ← Multiset.cons_coe, Multiset.cons_add, Multiset.add_cons]

theorem addTask {t : Task} (h : s.Ok P missed outside (t ::ₘ tasks) G) :
    (s.addTask t).Ok P missed outside tasks G := by
  unfold Store.addTask
  split
  · refine h.congr rfl rfl ?_
    rw [← Multiset.coe_add, Multiset.coe_singleton, ← Multiset.singleton_add]
    abel
  · refine h.congr rfl rfl ?_
    rw [← Multiset.coe_add, Multiset.coe_singleton, ← Multiset.singleton_add]
    abel

theorem addFound {t : Option Task} (h : s.Ok P missed outside (Slots.single t + tasks) G) :
    (s.addFound t).Ok P missed outside tasks G := by
  cases t with
  | none => exact h.congr rfl rfl (by simp [Store.addFound])
  | some t =>
    rw [Slots.single_some, Multiset.singleton_add] at h
    exact h.addTask

/-- What happens to the net alone, with values and tasks moved in or out. -/
theorem setNet {net : Net} {outside' : Multiset Value} {tasks' : Multiset Task} {G' : Open}
    (h : Inv P missed net (outside' + s.valueStack)
      (tasks' + (s.taskQueue + s.refused)) G') :
    (s.setNet net).Ok P missed outside' tasks' G' := by
  unfold Ok
  rw [add_comm (↑(s.setNet net).valueStack : Multiset Value), add_comm (_ + _ : Multiset Task)]
  exact h

theorem toInv (h : s.Ok P missed outside tasks G) :
    Inv P missed s.toNet (outside + s.valueStack) (tasks + (s.taskQueue + s.refused)) G := by
  rw [add_comm outside, add_comm tasks]
  exact h

theorem of_inv (h : Inv P missed s.toNet (outside + s.valueStack)
    (tasks + (s.taskQueue + s.refused)) G) : s.Ok P missed outside tasks G := by
  unfold Ok
  rw [add_comm (↑s.valueStack : Multiset Value), add_comm (_ + _ : Multiset Task)]
  exact h

@[simp] theorem toNet_addFound {task : Option Task} : (s.addFound task).toNet = s.toNet := by
  cases task with
  | none => rfl
  | some task =>
    simp only [Store.addFound, Option.elim, Store.addTask]
    split <;> rfl

theorem connect {left right : Value} (h : s.Ok P missed (left ::ₘ right ::ₘ outside) tasks G) :
    Keeps P missed outside tasks G (s.connect P left right) := by
  have hi := h.toInv
  rw [Multiset.cons_add, Multiset.cons_add] at hi
  apply hi.connect.bind
  rintro ⟨net, t⟩ hi
  apply addFound
  apply setNet
  rwa [add_assoc]

/-- Ports below an index, which the loop over the inputs sets. -/
def below (n i : ℕ) : Set (ℕ × ℕ) := {x | x.1 = n ∧ x.2 < i}

theorem diff_below {U : Set (ℕ × ℕ)} : (U \ {(n, i)}) \ below n i = U \ below n (i + 1) := by
  ext ⟨m, j⟩
  simp only [Set.mem_sdiff, Set.mem_singleton_iff, Prod.mk.injEq, below, Set.mem_ofPred_eq,
    not_and, not_lt]
  constructor
  · rintro ⟨⟨hU, hne⟩, hlt⟩
    refine ⟨hU, fun hm => ?_⟩
    have := hne hm
    have := hlt hm
    omega
  · rintro ⟨hU, hlt⟩
    refine ⟨⟨hU, fun hm => ?_⟩, fun hm => ?_⟩
    · have := hlt hm
      omega
    · have := hlt hm
      omega

/-- The loop over the inputs; one of the ports finds a task, or none. -/
theorem reconnectInputs {c : ℕ} {found : Option Task} (hP : P.Ok)
    (h : s.Ok P missed outside (Slots.single found + tasks) G) (hn : CtorOf s.nodes n c)
    (hu : below n i ⊆ G.unset) (ht : ∀ j, (n, j) ∉ G.taken)
    (hf : ∀ t ∈ found, t.On s.shape.2 n) :
    Outcome Error.Expected (fun (s', found') =>
      s'.Ok P missed outside (Slots.single found' + tasks) { G with unset := G.unset \ below n i } ∧
        ∀ m c, CtorOf s.nodes m c → CtorOf s'.nodes m c)
      (Store.reconnectInputs P n i s found) := by
  induction i generalizing s G found with
  | zero =>
    have he : G.unset \ below n 0 = G.unset := by
      ext ⟨m, j⟩
      simp [below]
    refine ⟨?_, fun _ _ => id⟩
    rw [he]
    exact h
  | succ i ih =>
    unfold Store.reconnectInputs
    apply h.pop.bind
    rintro ⟨v, s₁⟩ ⟨h₁, hnet, -⟩
    have hi := h₁.toInv
    rw [Multiset.cons_add] at hi
    have hn₁ : CtorOf s₁.nodes n c := by
      rw [hnet]
      exact hn
    apply (hi.reconnectInput hn₁ (hu ⟨rfl, Nat.lt_succ_self i⟩) (ht i)).bind
    rintro ⟨net, t⟩ ⟨h₂, hc, hp, hon⟩
    dsimp only at h₂ hc hp hon ⊢
    rw [hnet] at hp hc
    have hf' : ∀ t' ∈ found, t'.On net.shape.2 n := fun t' ht' => (hf t' ht').mono hp
    rw [add_assoc (Slots.single found), ← add_assoc (Slots.single t)] at h₂
    obtain ⟨hone, hor, hon'⟩ := h₂.single_or hP hon hf'
    rw [if_neg hone]
    have h₃ : (s₁.setNet net).Ok P missed outside (Slots.single (t.or found) + tasks)
        { G with unset := G.unset \ {(n, i)} } := by
      apply setNet
      rw [hor, add_assoc (Slots.single t + Slots.single found)]
      exact h₂
    have hu' : below n i ⊆ G.unset \ {(n, i)} := by
      rintro ⟨m, j⟩ ⟨rfl, hj⟩
      refine ⟨hu ⟨rfl, Nat.lt_succ_of_lt hj⟩, ?_⟩
      rintro he
      cases he
      exact lt_irrefl _ hj
    have h₄ := ih h₃ (hc n c hn) hu' ht hon'
    rw [diff_below] at h₄
    exact h₄.mono fun x hx => ⟨hx.1, fun m d hm => hx.2 m d (hc m d hm)⟩

/-- Ports from an index up, which the loop over the outputs sets. -/
def above (n i k : ℕ) : Set (ℕ × ℕ) := {x | x.1 = n ∧ i ≤ x.2 ∧ x.2 < i + k}

theorem above_zero : above n i 0 = ∅ := by
  ext ⟨m, j⟩
  simp only [above, Set.mem_ofPred_eq, Set.mem_empty_iff_false, iff_false]
  omega

theorem diff_above {U : Set (ℕ × ℕ)} : (U \ {(n, i)}) \ above n (i + 1) k = U \ above n i (k + 1) := by
  ext ⟨m, j⟩
  simp only [Set.mem_sdiff, Set.mem_singleton_iff, Prod.mk.injEq, above, Set.mem_ofPred_eq,
    not_and, not_lt]
  constructor
  · rintro ⟨⟨hU, hne⟩, hlt⟩
    refine ⟨hU, fun hm hi => ?_⟩
    have := hne hm
    have := hlt hm (by omega)
    omega
  · rintro ⟨hU, hlt⟩
    refine ⟨⟨hU, fun hm hi => ?_⟩, fun hm hi => ?_⟩
    · have := hlt hm (by omega)
      omega
    · have := hlt hm (by omega)
      omega

theorem reconnectOutputs {c : ℕ} (h : s.Ok P missed outside tasks G) (hn : CtorOf s.nodes n c)
    (hu : above n i k ⊆ G.unset) (ht : ∀ j, (n, j) ∉ G.taken) :
    Outcome Error.Expected (fun s' =>
      s'.Ok P missed outside tasks { G with unset := G.unset \ above n i k } ∧
        ∀ m c, CtorOf s.nodes m c → CtorOf s'.nodes m c)
      (Store.reconnectOutputs P n k i s) := by
  induction k generalizing s G i with
  | zero =>
    rw [above_zero, Set.sdiff_empty]
    exact ⟨h, fun _ _ => id⟩
  | succ k ih =>
    unfold Store.reconnectOutputs
    apply (h.toInv.reconnectOutput hn (hu ⟨rfl, le_rfl, by omega⟩) (ht i)).bind
    rintro ⟨net, u⟩ ⟨h₁, hc⟩
    dsimp only at h₁ hc ⊢
    have h₂ : ((s.setNet net).push u).Ok P missed outside tasks
        { G with unset := G.unset \ {(n, i)} } := by
      apply push
      apply setNet
      rw [Multiset.cons_add]
      exact h₁
    have hu' : above n (i + 1) k ⊆ G.unset \ {(n, i)} := by
      rintro ⟨m, j⟩ ⟨rfl, hi, hj⟩
      dsimp only at hi hj
      refine ⟨hu ⟨rfl, by dsimp only; omega, by dsimp only; omega⟩, ?_⟩
      rintro he
      cases he
      omega
    have h₃ := ih h₂ (hc n c hn) hu' ht
    rw [diff_above] at h₃
    exact h₃.mono fun x hx => ⟨hx.1, fun m d hm => hx.2 m d (hc m d hm)⟩

theorem reconnectNode {c arity : ℕ} (hP : P.Ok) (hG : G.unset = ∅)
    (h : s.Ok P missed outside tasks { G with unset := {x | x.1 = n} }) (hn : CtorOf s.nodes n c)
    (ht : ∀ j, (n, j) ∉ G.taken) :
    Keeps P missed outside tasks G (s.reconnectNode P n arity) := by
  unfold Store.reconnectNode
  have h₀ : s.Ok P missed outside (Slots.single none + tasks) { G with unset := {x | x.1 = n} } := by
    rwa [Slots.single_none, zero_add]
  apply (h₀.reconnectInputs hP hn (i := arity) (fun x hx => hx.1) ht nofun).bind
  rintro ⟨s₁, found⟩ ⟨h₁, hc₁⟩
  dsimp only at h₁ hc₁ ⊢
  obtain ⟨ctor, hc, hget⟩ := h₁.getNodeCtor (hc₁ n c hn)
  rw [hget, Outcome.ok_bind]
  have hu : above n arity (ctor.arity - arity) ⊆ ({x | x.1 = n} : Set (ℕ × ℕ)) \ below n arity := by
    rintro ⟨m, j⟩ ⟨rfl, hi, -⟩
    exact ⟨rfl, fun hlt => absurd hlt.2 (not_lt.mpr hi)⟩
  apply (h₁.reconnectOutputs (hc₁ n c hn) hu ht).bind
  rintro s₂ ⟨h₂, hc₂⟩
  apply addFound (s := s₂)
  have hclose := Inv.close h₂ (U := ∅) (Set.empty_subset _) (by
    rintro m c' l k ctor' j hm hc' ⟨⟨hmn, hj⟩, hj'⟩ -
    have hmn : m = n := hmn
    subst hmn
    cases CtorOf.unique ⟨l, k, hm⟩ (hc₂ _ _ (hc₁ _ _ hn))
    cases hc.symm.trans hc'
    by_contra hlt
    rw [not_le] at hlt
    have hge : arity ≤ j := by
      by_contra hge
      exact hj ⟨rfl, not_le.mp hge⟩
    exact hj' ⟨rfl, hge, by dsimp only; omega⟩)
  unfold Ok
  rw [← hG] at hclose
  exact hclose

theorem applyNodeCtor {c arity : ℕ} {ctor : NodeCtor} (hP : P.Ok) (hG : G.unset = ∅)
    (h : s.Ok P missed outside tasks G) (hc : P.nodeCtor c = some ctor) :
    Keeps P missed outside tasks G (s.applyNodeCtor P c arity) := by
  unfold Store.applyNodeCtor
  have h₁ := h.toInv.newNode hP hc
  rw [hG, Set.empty_union] at h₁
  apply reconnectNode (c := c) hP hG (setNet h₁)
  · exact ⟨[], 0, by simp [Store.setNet, Net.newNode]⟩
  · intro j ht
    exact lt_irrefl _ (h.shape.taken _ _ ht)

end Store.Ok

end InetLisp
