import InetLisp.Core.Execute
import InetLisp.Core.HandleTask

/-! # Taking nodes apart keeps the invariant

What the ports of a node hold goes outside of the net, one port after another, before
the node is recycled. The redex of an active pair is left behind until both nodes
are gone.
-/

namespace InetLisp

open Lib

variable {P : Program} {missed : Set Redex} {net net' : Net} {s s' : Store}
  {outside outside' : Multiset Value} {tasks : Multiset Task} {G : Open} {n i k p c : ℕ}
  {v : Value} {l : Slots Value} {ctor : NodeCtor} {pair : Sym2 ℕ}

/-- The principal wires of a pair may have lost their oppsite. -/
theorem Shape.widen {principalWires : List PrincipalWire} {nodes : List Node} {Z : Set ℕ}
    (h : Shape P principalWires nodes G) (hZ : G.dangling ⊆ Z) :
    Shape P principalWires nodes { G with dangling := Z } where
  ctor := h.ctor
  owner := h.owner
  port := h.port
  oppsite p n i q hp := by
    obtain ⟨hne, ho⟩ := h.oppsite p n i q hp
    exact ⟨hne, ho.imp_left fun hd => hZ hd⟩
  filled := h.filled
  unset := h.unset
  counted := h.counted
  taken := h.taken

theorem Shape.narrow {principalWires : List PrincipalWire} {nodes : List Node} {Z : Set ℕ}
    (h : Shape P principalWires nodes G)
    (hZ : ∀ (q m j : ℕ) (o : Option ℕ), principalWires[q]? = some ⟨m, j, o, false⟩ →
      q ∈ G.dangling → q ∈ Z) :
    Shape P principalWires nodes { G with dangling := Z } where
  ctor := h.ctor
  owner := h.owner
  port := h.port
  oppsite p n i q hp := by
    obtain ⟨hne, ho⟩ := h.oppsite p n i q hp
    exact ⟨hne, ho.imp_left fun hd => hZ p n i (some q) hp hd⟩
  filled := h.filled
  unset := h.unset
  counted := h.counted
  taken := h.taken

/-- A redex that has been left behind may go away. -/
theorem Pending.leave {principalWires principalWires' : List PrincipalWire}
    {nodes nodes' : List Node} {x : Redex}
    (h : Pending P (insert x missed) principalWires nodes tasks) (hx : x ∉ tasks.map Task.redex)
    (hv : ∀ t : Task, t.Valid P principalWires' nodes' ↔
      t.Valid P principalWires nodes ∧ t.redex ≠ x) :
    Pending P (insert x missed) principalWires' nodes' tasks where
  valid t ht := by
    refine (hv t).mpr ⟨h.valid t ht, ?_⟩
    rintro rfl
    exact hx (Multiset.mem_map_of_mem _ ht)
  nodup := h.nodup
  complete := by
    rintro y ⟨t, ht, rfl⟩ hy
    exact h.complete _ ⟨t, ((hv t).mp ht).1, rfl⟩ hy

namespace Inv

theorem takePort (h : Inv P missed net outside tasks G) (hn : net.nodes[n]? = some ⟨some c, l, k⟩)
    (hi : l.get i = some v) (hv : ∀ p, v ≠ .principalWire p) (ht : (n, i) ∉ G.taken) :
    Inv P missed net (v ::ₘ outside) tasks { G with taken := insert (n, i) G.taken } where
  linear := by
    have hl := Net.ledger_insert hn ht
    rw [hi, Slots.single_some] at hl
    refine h.linear.congr ?_ le_rfl le_rfl
    dsimp only
    rw [← hl, ← Multiset.singleton_add]
    abel
  shape := h.shape.take hn hi hv
  pending := h.pending

/-- The principal wire of a port is destroyed; it was one of a pair. -/
theorem destroyPort {r : ℕ} (h : Inv P (insert (.activePair s(p, r)) missed) net outside tasks G)
    (hp : net.principalWires[p]? = some ⟨n, i, some r, false⟩)
    (hx : .activePair s(p, r) ∉ tasks.map Task.redex) (hr : r ∈ G.dangling) :
    Inv P (insert (.activePair s(p, r)) missed) (net.setPrincipalWire p ⟨n, i, some r, true⟩)
      outside tasks { G with taken := insert (n, i) G.taken } where
  linear := by
    obtain ⟨ht, c, l, k, ctor, hn, hi, -⟩ := h.shape.owner p n i _ hp
    have hset := Net.ledger_setPrincipalWire (insert (n, i) G.taken) ⟨n, i, some r, true⟩ hp
    rw [PrincipalWire.ledger_oppsite, PrincipalWire.ledger_destroyed] at hset
    have hl := Net.ledger_insert hn ht
    rw [hi, Slots.single_some] at hl
    have he : (net.setPrincipalWire p ⟨n, i, some r, true⟩).ledger (insert (n, i) G.taken) =
        net.ledger G.taken := by
      apply add_right_cancel (b := ({.principalWire p} : Multiset Value))
      rw [hset, ← hl]
      abel
    apply h.linear.congr
    · rw [he]
    · exact le_rfl
    · simp [Net.setPrincipalWire]
  shape := by
    apply h.shape.destroy hp
    rintro q m j r' hne hq (rfl | hd)
    · obtain ⟨-, hd | ⟨m', j', hp'⟩⟩ := h.shape.oppsite q m j r' hq
      · exact hd
      · cases hp.symm.trans hp'
        exact hr
    · exact hd
  pending := by
    apply h.pending.leave hx
    intro t
    rw [Net.setPrincipalWire, Shape.destroy_valid hp]
    simp

theorem recycle {missed' : Set Redex} {tasks' : Multiset Task} (h : Inv P missed net outside tasks G)
    (hn : net.nodes[n]? = some ⟨some c, l, k⟩)
    (hp : ∀ (p i : ℕ) (o : Option ℕ), net.principalWires[p]? ≠ some ⟨n, i, o, false⟩)
    (hpend : Pending P missed' net.principalWires (net.nodes.set n ⟨none, [], 0⟩) tasks') :
    Inv P missed' (net.setNode n ⟨none, [], 0⟩) outside tasks'
      { G with taken := {x ∈ G.taken | x.1 ≠ n} } where
  linear := by
    have hset := Net.ledger_setNode G.taken ⟨none, [], 0⟩ hn
    have hnone : Node.ledger G.taken n ⟨none, [], 0⟩ = 0 := rfl
    rw [hnone, add_zero] at hset
    have hcongr : (net.setNode n ⟨none, [], 0⟩).ledger {x ∈ G.taken | x.1 ≠ n} =
        (net.setNode n ⟨none, [], 0⟩).ledger G.taken := by
      unfold Net.ledger
      congr 1
      apply Cells.sum_congr
      intro m a hm
      rw [Net.setNode, Cells.getElem?_set hn] at hm
      split at hm
      · cases hm
        rfl
      · apply Slots.contentExcept_congr
        intro j _ _
        exact ⟨fun hj => hj.1, fun hj => ⟨hj, Ne.symm ‹¬ n = m›⟩⟩
    apply h.linear.mono
    · dsimp only
      rw [hcongr, ← hset]
      exact add_le_add le_rfl (Multiset.le_add_right _ _)
    · exact le_rfl
    · exact le_rfl
  shape := h.shape.recycle hn hp
  pending := hpend

end Inv

/-- Every principal wire of the node is one of the pair. -/
def OfPair (net : Net) (n : ℕ) (pair : Sym2 ℕ) : Prop :=
  ∀ (q j : ℕ) (o : Option ℕ), net.principalWires[q]? = some ⟨n, j, o, false⟩ →
    ∃ r, o = some r ∧ s(q, r) = pair

/-- What taking a node apart leaves alone. -/
structure Apart (net net' : Net) (n : ℕ) : Prop where
  nodes : net'.nodes = net.nodes
  others : ∀ (q m j : ℕ) (o : Option ℕ), m ≠ n → net.principalWires[q]? = some ⟨m, j, o, false⟩ →
    net'.principalWires[q]? = some ⟨m, j, o, false⟩
  alive : ∀ (q m j : ℕ) (o : Option ℕ), net'.principalWires[q]? = some ⟨m, j, o, false⟩ →
    net.principalWires[q]? = some ⟨m, j, o, false⟩

theorem Apart.refl (net : Net) (n : ℕ) : Apart net net n :=
  ⟨rfl, fun _ _ _ _ _ h => h, fun _ _ _ _ h => h⟩

theorem Apart.trans {net'' : Net} (h : Apart net net' n) (h' : Apart net' net'' n) :
    Apart net net'' n where
  nodes := h'.nodes.trans h.nodes
  others q m j o hm hq := h'.others q m j o hm (h.others q m j o hm hq)
  alive q m j o hq := h.alive q m j o (h'.alive q m j o hq)

theorem Apart.destroy {o : Option ℕ} (hp : net.principalWires[p]? = some ⟨n, i, o, false⟩) :
    Apart net (net.setPrincipalWire p ⟨n, i, o, true⟩) n where
  nodes := rfl
  others q m j o' hm hq := by
    rw [Net.setPrincipalWire, Cells.getElem?_set hp, if_neg, hq]
    rintro rfl
    cases hp.symm.trans hq
    exact hm rfl
  alive q m j o' hq := by
    rw [Net.setPrincipalWire, Cells.getElem?_set hp] at hq
    split at hq
    · cases hq
    · exact hq

theorem OfPair.apart (h : OfPair net n pair) (ha : Apart net net' n) : OfPair net' n pair :=
  fun q j o hq => h q j o (ha.alive q n j o hq)

namespace Store.Ok

theorem disconnectPort (h : s.Ok P (insert (.activePair pair) missed) outside tasks G)
    (hn : s.nodes[n]? = some ⟨some c, l, k⟩) (hi : l.get i = some v) (ht : (n, i) ∉ G.taken)
    (hx : Redex.activePair pair ∉ (↑s.taskQueue + ↑s.refused + tasks).map Task.redex)
    (hd : ∀ q ∈ pair, q ∈ G.dangling) (ho : OfPair s.toNet n pair) :
    Outcome Error.Expected (fun s' => s'.Ok P (insert (.activePair pair) missed) outside tasks
        { G with taken := insert (n, i) G.taken } ∧ Apart s.toNet s'.toNet n ∧
          s'.taskQueue = s.taskQueue ∧ s'.refused = s.refused) (s.disconnectPort v) := by
  have hother : (∀ p, v ≠ .principalWire p) → (s.push v).Ok P (insert (.activePair pair) missed)
      outside tasks { G with taken := insert (n, i) G.taken } := by
    intro hv
    have h₁ := h.toInv.takePort hn hi hv ht
    rw [← Multiset.cons_add] at h₁
    exact (of_inv h₁).push
  unfold Store.disconnectPort
  split
  · rename_i p
    obtain ⟨o, hp⟩ := h.shape.port n c l k i p hn hi ht
    obtain ⟨r, rfl, rfl⟩ := ho p i o hp
    have hget : s.destroyPrincipalWire p = .ok (s.setPrincipalWire p ⟨n, i, some r, true⟩) := by
      simp [Net.destroyPrincipalWire, hp]
    rw [hget, Outcome.ok_bind]
    refine ⟨?_, .destroy hp, rfl, rfl⟩
    exact h.destroyPort hp hx (hd r (Sym2.mem_mk_right p r))
  · rename_i hv
    exact ⟨hother fun p he => hv p he, .refl _ _, rfl, rfl⟩

theorem union_above {T : Set (ℕ × ℕ)} :
    insert (n, i) T ∪ above n (i + 1) k = T ∪ above n i (k + 1) := by
  ext ⟨m, j⟩
  simp only [Set.mem_union, Set.mem_insert_iff, Prod.mk.injEq, above, Set.mem_ofPred_eq]
  constructor
  · rintro ((⟨rfl, rfl⟩ | hT) | ⟨rfl, hj⟩)
    · exact .inr ⟨rfl, by omega⟩
    · exact .inl hT
    · exact .inr ⟨rfl, by omega⟩
  · rintro (hT | ⟨rfl, hj⟩)
    · exact .inl (.inr hT)
    · by_cases h : j = i
      · exact .inl (.inl ⟨rfl, h⟩)
      · exact .inr ⟨rfl, by omega⟩

theorem disconnectPorts (h : s.Ok P (insert (.activePair pair) missed) outside tasks G)
    (hn : s.nodes[n]? = some ⟨some c, l, k⟩) {b : ℕ} (hl : ∀ j < i + b, l.get j ≠ none)
    (ht : ∀ j, i ≤ j → (n, j) ∉ G.taken)
    (hx : Redex.activePair pair ∉ (↑s.taskQueue + ↑s.refused + tasks).map Task.redex)
    (hd : ∀ q ∈ pair, q ∈ G.dangling) (ho : OfPair s.toNet n pair) :
    Outcome Error.Expected (fun s' => s'.Ok P (insert (.activePair pair) missed) outside tasks
        { G with taken := G.taken ∪ above n i b } ∧ Apart s.toNet s'.toNet n ∧
          s'.taskQueue = s.taskQueue ∧ s'.refused = s.refused) (disconnectPorts n b i s) := by
  induction b generalizing s i G with
  | zero =>
    rw [above_zero, Set.union_empty]
    exact ⟨h, .refl _ _, rfl, rfl⟩
  | succ b ih =>
    obtain ⟨v, hi⟩ := Option.ne_none_iff_exists'.mp (hl i (by omega))
    have hget : s.getValue n i = .ok v := by simp [Net.getValue, hn, hi]
    unfold Store.disconnectPorts
    rw [hget, Outcome.ok_bind]
    apply (h.disconnectPort hn hi (ht i le_rfl) hx hd ho).bind
    rintro s₁ ⟨h₁, ha, hq, hr⟩
    have hn₁ : s₁.nodes[n]? = some ⟨some c, l, k⟩ := by rw [ha.nodes, hn]
    have ht₁ : ∀ j, i + 1 ≤ j → (n, j) ∉ insert (n, i) G.taken := by
      rintro j hj (he | hT)
      · cases he
        omega
      · exact ht j (by omega) hT
    have hx₁ : Redex.activePair pair ∉ (↑s₁.taskQueue + ↑s₁.refused + tasks).map Task.redex := by
      rw [hq, hr]
      exact hx
    have h₂ := ih h₁ hn₁ (fun j hj => hl j (by omega)) ht₁ hx₁ hd (ho.apart ha)
    dsimp only at h₂
    rw [union_above] at h₂
    apply h₂.mono
    rintro s₂ ⟨h₂, ha₂, hq₂, hr₂⟩
    exact ⟨h₂, ha.trans ha₂, hq₂.trans hq, hr₂.trans hr⟩

/-- A node and its principal wires are gone, and nothing else. -/
structure Removed (s s' : Store) (n : ℕ) : Prop where
  nodes : s'.nodes = s.nodes.set n ⟨none, [], 0⟩
  others : ∀ (q m j : ℕ) (o : Option ℕ), m ≠ n → s.principalWires[q]? = some ⟨m, j, o, false⟩ →
    s'.principalWires[q]? = some ⟨m, j, o, false⟩
  alive : ∀ (q m j : ℕ) (o : Option ℕ), s'.principalWires[q]? = some ⟨m, j, o, false⟩ →
    m ≠ n ∧ s.principalWires[q]? = some ⟨m, j, o, false⟩
  taskQueue : s'.taskQueue = s.taskQueue
  refused : s'.refused = s.refused

theorem notMem_of_taken (h : s.Ok P missed outside tasks G)
    (hn : s.nodes[n]? = some ⟨some c, l, k⟩) (hc : P.nodeCtor c = some ctor)
    (ht : ∀ i < ctor.arity, (n, i) ∈ G.taken) (q i : ℕ) (o : Option ℕ) :
    s.principalWires[q]? ≠ some ⟨n, i, o, false⟩ := by
  intro hq
  obtain ⟨ht', c', l', k', ctor', hn', -, hc', hpr⟩ := h.shape.owner q n i o hq
  cases hn.symm.trans hn'
  cases hc.symm.trans hc'
  exact ht' (ht i (NodeCtor.lt_arity hpr))

/-- A node that is none of a primitive is recycled when all its ports are taken. -/
theorem recycleNode (hn : s.nodes[n]? = some ⟨some c, l, k⟩)
    (h : s.Ok P missed outside tasks { G with taken := G.taken ∪ above n 0 ctor.arity })
    (hc : P.nodeCtor c = some ctor) (hp : ctor.primitive = none) (ht : ∀ j, (n, j) ∉ G.taken)
    (hnone : ∀ (q i : ℕ) (o : Option ℕ), s.principalWires[q]? ≠ some ⟨n, i, o, false⟩) :
    (s.setNet (s.setNode n ⟨none, [], 0⟩)).Ok P missed outside tasks G := by
  have htaken : {x ∈ G.taken ∪ above n 0 ctor.arity | x.1 ≠ n} = G.taken := by
    ext ⟨m, j⟩
    simp only [Set.mem_union, Set.mem_ofPred_eq, above, ne_eq]
    constructor
    · rintro ⟨hT | ⟨rfl, -⟩, hm⟩
      · exact hT
      · exact (hm rfl).elim
    · intro hT
      refine ⟨.inl hT, ?_⟩
      rintro rfl
      exact ht j hT
  have hpend : Pending P missed s.principalWires (s.nodes.set n ⟨none, [], 0⟩)
      (↑s.taskQueue + ↑s.refused + tasks) := by
    apply h.pending.congr
    intro t
    rw [Shape.recycle_valid hn hnone]
    constructor
    · exact fun ht => ht.1
    · intro hv
      refine ⟨hv, fun he => ?_⟩
      cases t with
      | activePair => cases he
      | primitive m =>
        cases he
        obtain ⟨c', l', k', ctor', hn', hc', hpr, -⟩ := hv
        cases hn.symm.trans hn'
        cases hc.symm.trans hc'
        exact hpr hp
  have h' := Inv.recycle h hn hnone hpend
  dsimp only at h'
  rw [htaken] at h'
  exact h'

theorem disconnectNode (h : s.Ok P (insert (.activePair pair) missed) outside tasks G)
    (hG : G.unset = ∅) (hn : s.nodes[n]? = some ⟨some c, l, k⟩) (hc : P.nodeCtor c = some ctor)
    (hp : ctor.primitive = none) (ht : ∀ j, (n, j) ∉ G.taken)
    (hx : Redex.activePair pair ∉ (↑s.taskQueue + ↑s.refused + tasks).map Task.redex)
    (hd : ∀ q ∈ pair, q ∈ G.dangling) (ho : OfPair s.toNet n pair) :
    Outcome Error.Expected (fun s' => s'.Ok P (insert (.activePair pair) missed) outside tasks G ∧
        Removed s s' n) (s.disconnectNode P n) := by
  have hget : P.getNodeCtor s.toNet n = .ok ctor := by
    simp [Program.getNodeCtor, Net.getCtor, hn, hc]
  unfold Store.disconnectNode
  rw [hget, Outcome.ok_bind]
  have hl : ∀ j < 0 + ctor.arity, l.get j ≠ none := by
    intro j hj
    apply h.shape.filled n c l k ctor j hn hc (by omega)
    rw [hG]
    exact Set.notMem_empty _
  apply (h.disconnectPorts hn hl (fun j _ => ht j) hx hd ho).bind
  rintro s₁ ⟨h₁, ha, hq, hr⟩
  have hn₁ : s₁.nodes[n]? = some ⟨some c, l, k⟩ := by rw [ha.nodes, hn]
  have hrec : s₁.recycleNode n = .ok (s₁.setNode n ⟨none, [], 0⟩) := by
    simp [Net.recycleNode, hn₁]
  rw [hrec, Outcome.ok_bind]
  have hnone := notMem_of_taken h₁ hn₁ hc fun i hi => .inr ⟨rfl, Nat.zero_le i, by omega⟩
  refine ⟨recycleNode hn₁ h₁ hc hp ht hnone, ?_, ha.others, ?_, hq, hr⟩
  · rw [← ha.nodes]
    rfl
  · intro q m j o hm
    refine ⟨?_, ha.alive q m j o hm⟩
    rintro rfl
    exact hnone q j o hm

end Store.Ok

theorem Inv.ofPair {d q r j : ℕ} (hP : P.Ok) (h : Inv P missed net outside tasks G)
    (hq : net.principalWires[q]? = some ⟨n, j, some r, false⟩) (hn : CtorOf net.nodes n d)
    (hc : P.nodeCtor d = some ctor) (hp : ctor.primitive = none) :
    OfPair net n s(q, r) := by
  intro q' j' o' hq'
  obtain ⟨l, k, hn⟩ := hn
  obtain ⟨-, c₁, l₁, k₁, ctor₁, hn₁, hj₁, hc₁, hpr₁⟩ := h.shape.owner q n j _ hq
  obtain ⟨-, c₂, l₂, k₂, ctor₂, hn₂, hj₂, hc₂, hpr₂⟩ := h.shape.owner q' n j' _ hq'
  cases hn.symm.trans hn₁
  cases hn.symm.trans hn₂
  cases hc.symm.trans hc₁
  cases hc.symm.trans hc₂
  cases hP.principalPort d ctor hc hp j j' hpr₁ hpr₂
  cases hj₁.symm.trans hj₂
  cases hq.symm.trans hq'
  exact ⟨r, rfl, rfl⟩

/-- The two sides of an active pair are two nodes, and none of them is one of a primitive. -/
theorem Inv.sides {left right : ℕ} {rule : Rule} (hP : P.Ok) (h : Inv P missed net outside tasks G)
    (hv : (Task.activePair left right rule).Valid P net.principalWires net.nodes) :
    ∃ n i m j c d, net.principalWires[left]? = some ⟨n, i, some right, false⟩ ∧
      net.principalWires[right]? = some ⟨m, j, some left, false⟩ ∧ n ≠ m ∧
      (CtorOf net.nodes n c ∧ ∃ ctor, P.nodeCtor c = some ctor ∧ ctor.primitive = none) ∧
      CtorOf net.nodes m d ∧ ∃ ctor, P.nodeCtor d = some ctor ∧ ctor.primitive = none := by
  obtain ⟨⟨n, i, m, j, hl, hr, hn, hm⟩, c', ctor', hside, hc', hrule⟩ := hv
  have hctor : ∀ {n d}, (d = rule.leftNodeCtor ∨ d = rule.rightNodeCtor) → CtorOf net.nodes n d →
      ∃ ctor, P.nodeCtor d = some ctor ∧ ctor.primitive = none := by
    rintro n d hd ⟨l, k, hn⟩
    obtain ⟨ctor, hc⟩ := h.shape.ctor n d l k hn
    exact ⟨ctor, hc, hP.rule c' ctor' rule hc' hrule d hd ctor hc⟩
  refine ⟨n, i, m, j, _, _, hl, hr, ?_, ⟨hn, hctor (.inl rfl) hn⟩, hm, hctor (.inr rfl) hm⟩
  rintro rfl
  obtain ⟨ctor, hc, hp⟩ := hctor (.inl rfl) hn
  obtain ⟨r, ho, he⟩ := h.ofPair hP hl hn hc hp right j (some left) hr
  obtain ⟨-, c₁, l₁, k₁, ctor₁, hn₁, hi₁, hc₁, hpr₁⟩ := h.shape.owner left n i _ hl
  obtain ⟨-, c₂, l₂, k₂, ctor₂, hn₂, hi₂, hc₂, hpr₂⟩ := h.shape.owner right n j _ hr
  cases hn₁.symm.trans hn₂
  cases hc₁.symm.trans hc₂
  cases hn.unique ⟨l₁, k₁, hn₁⟩
  cases hc.symm.trans hc₁
  cases hP.principalPort _ ctor hc hp i j hpr₁ hpr₂
  cases hi₁.symm.trans hi₂
  exact (h.shape.oppsite left n i left hl).1 rfl

section

variable {left right m i j d : ℕ} {rule : Rule} {s₁ s₂ : Store}

/-- The redex of the pair is left behind. -/
theorem Store.Ok.openPair (hGd : G.dangling = ∅)
    (h : s.Ok P missed outside (.activePair left right rule ::ₘ tasks) G) :
    s.Ok P (insert (.activePair s(left, right)) missed) outside tasks
        { G with dangling := {q | q ∈ s(left, right)} } ∧
      Redex.activePair s(left, right) ∉ (↑s.taskQueue + ↑s.refused + tasks).map Task.redex := by
  unfold Store.Ok at h
  rw [Multiset.add_cons] at h
  obtain ⟨hpend, hx⟩ := h.pending.erase
  refine ⟨⟨h.linear, h.shape.widen ?_, hpend⟩, hx⟩
  rw [hGd]
  exact Set.empty_subset _

/-- The redex of the pair is gone when its principal wires are. -/
theorem Store.Ok.closePair (hGd : G.dangling = ∅)
    (h : s.Ok P (insert (.activePair pair) missed) outside tasks { G with dangling := {q | q ∈ pair} })
    (hdead : ∀ (q n i : ℕ) (o : Option ℕ), s.principalWires[q]? = some ⟨n, i, o, false⟩ → q ∉ pair)
    (hx : Redex.activePair pair ∉ (↑s.taskQueue + ↑s.refused + tasks).map Task.redex) :
    s.Ok P missed outside tasks G := by
  have hG : G = { { G with dangling := {q | q ∈ pair} } with dangling := ∅ } := by
    rw [← hGd]
  rw [hG]
  refine ⟨h.linear, h.shape.narrow ?_, h.pending.remove hx ?_⟩
  · intro q n i o hq hmem
    exact (hdead q n i o hq hmem).elim
  · intro t
    constructor
    · intro hv
      refine ⟨hv, fun he => ?_⟩
      cases t with
      | primitive n => cases he
      | activePair p q rule =>
        obtain ⟨⟨n, i, m, j, hp, -⟩, -⟩ := hv
        apply hdead p n i (some q) hp
        rw [← Redex.activePair.inj he]
        exact Sym2.mem_mk_left p q
    · exact fun hv => hv.1

theorem Store.Ok.Removed.dead (h₁ : Removed s s₁ n) (h₂ : Removed s₁ s₂ m)
    (hl : s.principalWires[left]? = some ⟨n, i, some right, false⟩)
    (hr : s.principalWires[right]? = some ⟨m, j, some left, false⟩) (q m' j' : ℕ) (o : Option ℕ)
    (hq : s₂.principalWires[q]? = some ⟨m', j', o, false⟩) : q ∉ s(left, right) := by
  intro hmem
  obtain ⟨hne₂, hq₁⟩ := h₂.alive q m' j' o hq
  obtain ⟨hne₁, hq₀⟩ := h₁.alive q m' j' o hq₁
  rcases Sym2.mem_iff.mp hmem with rfl | rfl
  · cases hl.symm.trans hq₀
    exact hne₁ rfl
  · cases hr.symm.trans hq₀
    exact hne₂ rfl

theorem notMem_taken_of_user {nodes : List Node}
    (ht : ∀ n j, (n, j) ∈ G.taken → Saturated P nodes n) (hn : CtorOf nodes n c)
    (hc : P.nodeCtor c = some ctor) (hp : ctor.primitive = none) (j : ℕ) : (n, j) ∉ G.taken := by
  intro hj
  obtain ⟨c₁, l₁, k₁, ctor₁, hn₁, hc₁, hpr, -⟩ := ht n j hj
  cases hn.unique ⟨l₁, k₁, hn₁⟩
  cases hc.symm.trans hc₁
  exact hpr hp

/-- The task in hand is an active pair: both nodes are taken apart, and the pair is gone. -/
theorem Worker.Ok.enterRule {w : Worker} (hP : P.Ok)
    (hf : ∃ function, P.functions[rule.function]? = some function) (hG : G.unset = ∅)
    (hGd : G.dangling = ∅)
    (h : w.Ok P missed outside (.activePair left right rule ::ₘ tasks) G)
    (ht : ∀ n j, (n, j) ∈ G.taken → Saturated P w.nodes n) :
    Outcome Error.Expected (fun w' => w'.Ok P missed outside tasks G ∧
      ∃ n m c d, (CtorOf w.nodes n c ∧ ∃ ctor, P.nodeCtor c = some ctor ∧ ctor.primitive = none) ∧
        (CtorOf w.nodes m d ∧ ∃ ctor, P.nodeCtor d = some ctor ∧ ctor.primitive = none) ∧
        w'.nodes = (w.nodes.set n ⟨none, [], 0⟩).set m ⟨none, [], 0⟩)
      (w.enterRule P left right rule) := by
  obtain ⟨s, stack⟩ := w
  have hs := h.store
  dsimp only at hs ht ⊢
  obtain ⟨h₀, hx⟩ := hs.openPair hGd
  unfold Store.Ok at hs
  rw [Multiset.add_cons] at hs
  obtain ⟨n, i, m, j, c, d, hl, hr, hnm, ⟨hn, ctor, hc, hp⟩, hm, ctor', hc', hp'⟩ :=
    hs.sides hP (hs.pending.valid _ (Multiset.mem_cons_self _ _))
  have htn := notMem_taken_of_user ht hn hc hp
  have htm := notMem_taken_of_user ht hm hc' hp'
  have ho₁ : OfPair s.toNet n s(left, right) := hs.ofPair hP hl hn hc hp
  have ho₂ : OfPair s.toNet m s(left, right) := by
    rw [Sym2.eq_swap]
    exact hs.ofPair hP hr hm hc' hp'
  have hgl : s.getPrincipalWire left = .ok ⟨n, i, some right, false⟩ :=
    Net.getPrincipalWire_eq_ok.mpr ⟨hl, rfl⟩
  obtain ⟨l, k, hn⟩ := hn
  obtain ⟨l', k', hm⟩ := hm
  unfold Worker.enterRule
  dsimp only
  rw [hgl, Outcome.ok_bind]
  apply (h₀.disconnectNode hG hn hc hp htn hx (fun q hq => hq) ho₁).bind
  rintro s₁ ⟨h₁, hr₁⟩
  have hgr : s₁.getPrincipalWire right = .ok ⟨m, j, some left, false⟩ :=
    Net.getPrincipalWire_eq_ok.mpr ⟨hr₁.others right m j _ hnm.symm hr, rfl⟩
  have hm₁ : s₁.nodes[m]? = some ⟨some d, l', k'⟩ := by
    rw [hr₁.nodes, List.getElem?_set_ne hnm, hm]
  have hx₁ : Redex.activePair s(left, right) ∉
      (↑s₁.taskQueue + ↑s₁.refused + tasks).map Task.redex := by
    rw [hr₁.taskQueue, hr₁.refused]
    exact hx
  have ho₂' : OfPair s₁.toNet m s(left, right) :=
    fun q j' o hq => ho₂ q j' o (hr₁.alive q m j' o hq).2
  rw [hgr, Outcome.ok_bind]
  apply (h₁.disconnectNode hG hm₁ hc' hp' htm hx₁ (fun q hq => hq) ho₂').bind
  rintro s₂ ⟨h₂, hr₂⟩
  have hx₂ : Redex.activePair s(left, right) ∉
      (↑s₂.taskQueue + ↑s₂.refused + tasks).map Task.redex := by
    rw [hr₂.taskQueue, hr₂.refused]
    exact hx₁
  have h₃ := h₂.closePair hGd (hr₁.dead hr₂ hl hr) hx₂
  constructor
  · apply Ok.enter
    · exact ⟨h₃, h.function⟩
    · rintro g ⟨⟩
      exact hf
  · refine ⟨n, m, c, d, ⟨⟨l, k, hn⟩, ctor, hc, hp⟩, ⟨⟨l', k', hm⟩, ctor', hc', hp'⟩, ?_⟩
    rw [← hr₁.nodes, ← hr₂.nodes]
    rfl

end

end InetLisp
