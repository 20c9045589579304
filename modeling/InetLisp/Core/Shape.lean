import InetLisp.Core.Ledger
import Mathlib.Data.Sym.Sym2
import Mathlib.Order.Interval.Finset.Nat

/-! # The shape of a net

Principal wires and the ports that own them name each other, and so do the two
principal wires of an active pair; a primitive node counts the arguments it has
received. While a node is built, some of its ports are not set yet; while it is
taken apart, some have been emptied and the oppsite of a principal wire may be gone.
-/

namespace InetLisp

open Lib

/-- What is left open while nodes are built and taken apart. -/
structure Open where
  unset : Set (ℕ × ℕ) := ∅
  taken : Set (ℕ × ℕ) := ∅
  dangling : Set ℕ := ∅

/-- A port that has got its argument holds that instead of its principal wire. -/
def Received : Option Value → Prop
  | none => False
  | some v => v.IsNonWire

open Classical in
/-- The number of principal ports that have received their argument. -/
noncomputable def NodeCtor.received (ctor : NodeCtor) (l : Slots Value) : ℕ :=
  ((Finset.range ctor.arity).filter fun i => ctor.IsPrincipal i ∧ Received (l.get i)).card

/-- What the ctors of a program have to fulfil. -/
structure Program.Ok (P : Program) : Prop where
  /-- Every user ctor has at most one principal port. -/
  principalPort : ∀ c ctor, P.nodeCtor c = some ctor → ctor.primitive = none →
    ∀ i j, ctor.IsPrincipal i → ctor.IsPrincipal j → i = j
  /-- Rules are defined between user ctors. -/
  rule : ∀ c ctor rule, P.nodeCtor c = some ctor → rule ∈ ctor.ruleArray →
    ∀ c', c' = rule.leftNodeCtor ∨ c' = rule.rightNodeCtor →
      ∀ ctor', P.nodeCtor c' = some ctor' → ctor'.primitive = none
  /-- A primitive node waits for an argument. -/
  primitive : ∀ c ctor, P.nodeCtor c = some ctor → ctor.primitive ≠ none → ∃ i, ctor.IsPrincipal i
  /-- The node ctor of a primitive is there. -/
  nodeCtor : ∀ (k : ℕ) (p : Primitive) (c : ℕ), P.primitives[k]? = some p → p.nodeCtor = some c →
    ∃ ctor, P.nodeCtor c = some ctor

/-- How principal wires and nodes refer to each other. -/
structure Shape (P : Program) (principalWires : List PrincipalWire) (nodes : List Node) (G : Open) :
    Prop where
  ctor : ∀ (n c : ℕ) (l : Slots Value) (k : ℕ), nodes[n]? = some ⟨some c, l, k⟩ →
    ∃ ctor, P.nodeCtor c = some ctor
  owner : ∀ (p n i : ℕ) (o : Option ℕ), principalWires[p]? = some ⟨n, i, o, false⟩ →
    (n, i) ∉ G.taken ∧ ∃ (c : ℕ) (l : Slots Value) (k : ℕ) (ctor : NodeCtor),
      nodes[n]? = some ⟨some c, l, k⟩ ∧ l.get i = some (.principalWire p) ∧
        P.nodeCtor c = some ctor ∧ ctor.IsPrincipal i
  port : ∀ (n c : ℕ) (l : Slots Value) (k i p : ℕ), nodes[n]? = some ⟨some c, l, k⟩ →
    l.get i = some (.principalWire p) → (n, i) ∉ G.taken →
      ∃ o, principalWires[p]? = some ⟨n, i, o, false⟩
  oppsite : ∀ (p n i q : ℕ), principalWires[p]? = some ⟨n, i, some q, false⟩ → q ≠ p ∧
    (p ∈ G.dangling ∨ ∃ n' i', principalWires[q]? = some ⟨n', i', some p, false⟩)
  filled : ∀ (n c : ℕ) (l : Slots Value) (k : ℕ) (ctor : NodeCtor) (i : ℕ),
    nodes[n]? = some ⟨some c, l, k⟩ → P.nodeCtor c = some ctor → i < ctor.arity →
      (n, i) ∉ G.unset → l.get i ≠ none
  unset : ∀ (n i : ℕ) (node : Node), (n, i) ∈ G.unset → nodes[n]? = some node →
    node.valueArray.get i = none
  counted : ∀ (n c : ℕ) (l : Slots Value) (k : ℕ) (ctor : NodeCtor),
    nodes[n]? = some ⟨some c, l, k⟩ → P.nodeCtor c = some ctor → ctor.primitive ≠ none →
      k = ctor.received l
  taken : ∀ n i, (n, i) ∈ G.taken → n < nodes.length

section Received

variable {ctor : NodeCtor} {l : Slots Value} {i : ℕ} {v : Value} {o : Option Value}

theorem NodeCtor.lt_arity (h : ctor.IsPrincipal i) : i < ctor.arity := by
  obtain ⟨info, hi, -⟩ := h
  exact (List.getElem?_eq_some_iff.mp hi).1

theorem NodeCtor.received_congr {l' : Slots Value}
    (h : ∀ j, ctor.IsPrincipal j → (Received (l'.get j) ↔ Received (l.get j))) :
    ctor.received l' = ctor.received l := by
  classical
  unfold received
  congr 1
  apply Finset.filter_congr
  intro j _
  exact and_congr_right fun hj => h j hj

theorem NodeCtor.received_set (hi : ctor.IsPrincipal i) (hl : ¬ Received (l.get i))
    (hv : Received (some v)) : ctor.received (l.set i (some v)) = ctor.received l + 1 := by
  classical
  unfold received
  rw [← Finset.card_insert_of_notMem (a := i)]
  · congr 1
    ext j
    simp only [Finset.mem_filter, Finset.mem_range, Finset.mem_insert, Slots.get_set]
    constructor
    · rintro ⟨hj, hp, hr⟩
      by_cases h : i = j
      · exact .inl h.symm
      · rw [if_neg h] at hr
        exact .inr ⟨hj, hp, hr⟩
    · rintro (rfl | ⟨hj, hp, hr⟩)
      · exact ⟨lt_arity hi, hi, by rwa [if_pos rfl]⟩
      · refine ⟨hj, hp, ?_⟩
        split
        · exact hv
        · exact hr
  · simp [hl]

theorem NodeCtor.received_set_of_iff
    (h : ctor.IsPrincipal i → (Received (some v) ↔ Received (l.get i))) :
    ctor.received (l.set i (some v)) = ctor.received l := by
  apply received_congr
  intro j hj
  rw [Slots.get_set]
  split
  · subst j
    exact h hj
  · rfl

open Classical in
theorem NodeCtor.card_principalPorts :
    ((Finset.range ctor.arity).filter ctor.IsPrincipal).card = ctor.principalPortCount := by
  obtain ⟨name, infos, rules, primitive⟩ := ctor
  unfold arity principalPortCount
  dsimp only
  induction infos using List.reverseRecOn with
  | nil => rfl
  | append_singleton infos info ih =>
    have hlast : IsPrincipal ⟨name, infos ++ [info], rules, primitive⟩ infos.length ↔
        info.isPrincipal := by simp [IsPrincipal]
    have hrest : (Finset.range infos.length).filter
          (IsPrincipal ⟨name, infos ++ [info], rules, primitive⟩) =
        (Finset.range infos.length).filter (IsPrincipal ⟨name, infos, rules, primitive⟩) := by
      apply Finset.filter_congr
      intro i hi
      simp only [IsPrincipal, List.getElem?_append_left (Finset.mem_range.mp hi)]
    rw [List.length_append, List.length_singleton, Finset.range_add_one, Finset.filter_insert, hrest,
      List.countP_append, ← ih]
    split
    · rename_i h
      rw [Finset.card_insert_of_notMem (by simp)]
      simp [hlast.mp h]
    · rename_i h
      simp [hlast.not.mp h]

/-- A node whose count is complete has received an argument at every principal port. -/
theorem NodeCtor.received_eq_iff : ctor.received l = ctor.principalPortCount ↔
    ∀ i, ctor.IsPrincipal i → Received (l.get i) := by
  classical
  have hsub : ((Finset.range ctor.arity).filter fun i => ctor.IsPrincipal i ∧ Received (l.get i)) ⊆
      (Finset.range ctor.arity).filter ctor.IsPrincipal := by
    intro i
    simp only [Finset.mem_filter]
    exact fun ⟨hi, hp, _⟩ => ⟨hi, hp⟩
  unfold received
  rw [← card_principalPorts]
  constructor
  · intro h i hi
    have := Finset.eq_of_subset_of_card_le hsub h.ge
    have hm : i ∈ (Finset.range ctor.arity).filter ctor.IsPrincipal :=
      Finset.mem_filter.mpr ⟨Finset.mem_range.mpr (lt_arity hi), hi⟩
    rw [← this] at hm
    exact (Finset.mem_filter.mp hm).2.2
  · intro h
    congr 1
    apply Finset.filter_congr
    intro i _
    exact and_iff_left_of_imp (h i)

end Received

namespace Shape

variable {P : Program} {principalWires : List PrincipalWire} {nodes : List Node} {G : Open}
  {n i c k p q : ℕ} {l : Slots Value} {v : Value} {ctor : NodeCtor}

theorem get_none (h : Shape P principalWires nodes G) (hn : nodes[n]? = some ⟨some c, l, k⟩)
    (hu : (n, i) ∈ G.unset) : l.get i = none := h.unset n i _ hu hn

/-! ### One port of a node is set -/

section

variable {m j c' k' k₁ : ℕ} {l' l₁ : Slots Value} {ctor' : NodeCtor} {node : Node}
  {o : Option ℕ} {x : Option Value}

theorem ctor_set (h : Shape P principalWires nodes G) (hn : nodes[n]? = some ⟨some c, l, k⟩)
    (hm : (nodes.set n ⟨some c, l₁, k₁⟩)[m]? = some ⟨some c', l', k'⟩) :
    ∃ ctor, P.nodeCtor c' = some ctor := by
  rw [Cells.getElem?_set hn] at hm
  split at hm
  · cases hm
    exact h.ctor n c l k hn
  · exact h.ctor m c' l' k' hm

/-- A principal wire that the port has not held stays in its own port. -/
theorem owner_set (h : Shape P principalWires nodes G) (hn : nodes[n]? = some ⟨some c, l, k⟩)
    (hq : principalWires[q]? = some ⟨m, j, o, false⟩) (hi : l.get i ≠ some (.principalWire q)) :
    (m, j) ∉ G.taken ∧ ∃ (c' : ℕ) (l' : Slots Value) (k' : ℕ) (ctor : NodeCtor),
      (nodes.set n ⟨some c, l.set i (some v), k₁⟩)[m]? = some ⟨some c', l', k'⟩ ∧
        l'.get j = some (.principalWire q) ∧ P.nodeCtor c' = some ctor ∧ ctor.IsPrincipal j := by
  obtain ⟨ht, c', l', k', ctor', hm, hj, hc', hi'⟩ := h.owner q m j o hq
  refine ⟨ht, ?_⟩
  rw [Cells.getElem?_set hn]
  split
  · rename_i hnm
    subst hnm
    cases hn.symm.trans hm
    refine ⟨c, _, k₁, ctor', rfl, ?_, hc', hi'⟩
    rw [Slots.get_set_ne, hj]
    rintro rfl
    exact hi hj
  · exact ⟨c', l', k', ctor', hm, hj, hc', hi'⟩

/-- What a port holds is what has been put into it, or what it held before. -/
theorem port_of_set (hn : nodes[n]? = some ⟨some c, l, k⟩)
    (hm : (nodes.set n ⟨some c, l.set i (some v), k₁⟩)[m]? = some ⟨some c', l', k'⟩)
    (hj : l'.get j = x) : (m, j) = (n, i) ∧ x = some v ∨
      (m, j) ≠ (n, i) ∧ ∃ l'' k'', nodes[m]? = some ⟨some c', l'', k''⟩ ∧ l''.get j = x := by
  rw [Cells.getElem?_set hn] at hm
  split at hm
  · rename_i hnm
    subst hnm
    cases hm
    rw [Slots.get_set] at hj
    split at hj
    · rename_i hij
      exact .inl ⟨by rw [hij], hj.symm⟩
    · rename_i hij
      exact .inr ⟨fun he => hij (Prod.ext_iff.mp he).2.symm, l, k, hn, hj⟩
  · rename_i hnm
    exact .inr ⟨fun he => hnm (Prod.ext_iff.mp he).1.symm, l', k', hm, hj⟩

theorem filled_set (h : Shape P principalWires nodes G) (hn : nodes[n]? = some ⟨some c, l, k⟩)
    (hm : (nodes.set n ⟨some c, l.set i (some v), k₁⟩)[m]? = some ⟨some c', l', k'⟩)
    (hc' : P.nodeCtor c' = some ctor') (hj : j < ctor'.arity)
    (hu : (m, j) ≠ (n, i) → (m, j) ∉ G.unset) : l'.get j ≠ none := by
  intro hx
  rcases port_of_set hn hm hx with ⟨-, he⟩ | ⟨hne, l'', k'', hm', hx'⟩
  · cases he
  · exact h.filled m c' l'' k'' ctor' j hm' hc' hj (hu hne) hx'

theorem unset_set (h : Shape P principalWires nodes G) (hn : nodes[n]? = some ⟨some c, l, k⟩)
    (hu : (m, j) ∈ G.unset) (hne : (m, j) ≠ (n, i))
    (hm : (nodes.set n ⟨some c, l.set i (some v), k₁⟩)[m]? = some node) :
    node.valueArray.get j = none := by
  rw [Cells.getElem?_set hn] at hm
  split at hm
  · rename_i hnm
    subst hnm
    cases hm
    rw [Slots.get_set_ne, h.get_none hn hu]
    rintro rfl
    exact hne rfl
  · exact h.unset m j node hu hm

theorem counted_set (h : Shape P principalWires nodes G) (hn : nodes[n]? = some ⟨some c, l, k⟩)
    (hc : P.nodeCtor c = some ctor) (hk : ctor.primitive ≠ none → k₁ = ctor.received l₁)
    (hm : (nodes.set n ⟨some c, l₁, k₁⟩)[m]? = some ⟨some c', l', k'⟩)
    (hc' : P.nodeCtor c' = some ctor') (hp : ctor'.primitive ≠ none) : k' = ctor'.received l' := by
  rw [Cells.getElem?_set hn] at hm
  split at hm
  · cases hm
    cases hc.symm.trans hc'
    exact hk hp
  · exact h.counted m c' l' k' ctor' hm hc' hp

end

theorem setPort (h : Shape P principalWires nodes G) (hn : nodes[n]? = some ⟨some c, l, k⟩)
    (hc : P.nodeCtor c = some ctor) (hu : (n, i) ∈ G.unset) (hi : ¬ ctor.IsPrincipal i)
    (hv : ∀ p, v ≠ .principalWire p) :
    Shape P principalWires (nodes.set n ⟨some c, l.set i (some v), k⟩)
      { G with unset := G.unset \ {(n, i)} } where
  ctor m c' l' k' hm := h.ctor_set hn hm
  owner p m j o hp := h.owner_set hn hp (by simp [h.get_none hn hu])
  port m c' l' k' j p hm hj ht := by
    rcases port_of_set hn hm hj with ⟨-, he⟩ | ⟨-, l'', k'', hm', hj'⟩
    · cases he
      exact (hv p rfl).elim
    · exact h.port m c' l'' k'' j p hm' hj' ht
  oppsite := h.oppsite
  filled m c' l' k' ctor' j hm hc' hj hu' :=
    h.filled_set hn hm hc' hj fun hne hu'' => hu' ⟨hu'', hne⟩
  unset m j node hu' hm := h.unset_set hn hu'.1 hu'.2 hm
  counted m c' l' k' ctor' hm hc' hp := by
    refine h.counted_set hn hc (fun hp => ?_) hm hc' hp
    rw [NodeCtor.received_set_of_iff fun hi' => (hi hi').elim, h.counted n c l k ctor hn hc hp]
  taken m j ht := by
    rw [List.length_set]
    exact h.taken m j ht

theorem setPrincipalPort (h : Shape P principalWires nodes G)
    (hn : nodes[n]? = some ⟨some c, l, k⟩) (hc : P.nodeCtor c = some ctor) (hu : (n, i) ∈ G.unset)
    (ht : (n, i) ∉ G.taken) (hi : ctor.IsPrincipal i) :
    Shape P (principalWires ++ [⟨n, i, none, false⟩])
      (nodes.set n ⟨some c, l.set i (some (.principalWire principalWires.length)), k⟩)
      { G with unset := G.unset \ {(n, i)} } where
  ctor m c' l' k' hm := h.ctor_set hn hm
  owner p m j o hp := by
    rw [Cells.getElem?_snoc] at hp
    split at hp
    · cases hp
      subst p
      refine ⟨ht, c, l.set i _, k, ctor, ?_, Slots.get_set_self, hc, hi⟩
      rw [Cells.getElem?_set hn, if_pos rfl]
    · exact h.owner_set hn hp (by simp [h.get_none hn hu])
  port m c' l' k' j p hm hj ht := by
    rcases port_of_set hn hm hj with ⟨hx, he⟩ | ⟨-, l'', k'', hm', hj'⟩
    · cases hx
      cases he
      exact ⟨none, by rw [Cells.getElem?_snoc, if_pos rfl]⟩
    · obtain ⟨o, ho⟩ := h.port m c' l'' k'' j p hm' hj' ht
      exact ⟨o, by rw [List.getElem?_append_left (Cells.lt_length ho), ho]⟩
  oppsite p m j q hp := by
    rw [Cells.getElem?_snoc] at hp
    split at hp
    · cases hp
    · obtain ⟨hne, ho⟩ := h.oppsite p m j q hp
      refine ⟨hne, ho.imp_right ?_⟩
      rintro ⟨m', j', hq⟩
      exact ⟨m', j', by rw [List.getElem?_append_left (Cells.lt_length hq), hq]⟩
  filled m c' l' k' ctor' j hm hc' hj hu' :=
    h.filled_set hn hm hc' hj fun hne hu'' => hu' ⟨hu'', hne⟩
  unset m j node hu' hm := h.unset_set hn hu'.1 hu'.2 hm
  counted m c' l' k' ctor' hm hc' hp := by
    refine h.counted_set hn hc (fun hp => ?_) hm hc' hp
    rw [NodeCtor.received_set_of_iff, h.counted n c l k ctor hn hc hp]
    intro _
    rw [h.get_none hn hu]
    rfl
  taken m j ht := by
    rw [List.length_set]
    exact h.taken m j ht

/-- A principal port receives its argument in place of its principal wire. -/
theorem collect (h : Shape P principalWires nodes G)
    (hp : principalWires[p]? = some ⟨n, i, none, false⟩) (hn : nodes[n]? = some ⟨some c, l, k⟩)
    (hc : P.nodeCtor c = some ctor) (hv : v.IsNonWire) :
    Shape P (principalWires.set p ⟨n, i, none, true⟩)
      (nodes.set n ⟨some c, l.set i (some v), k + 1⟩) G := by
  obtain ⟨ht, c₀, l₀, k₀, ctor₀, hn₀, hi, hc₀, hpr⟩ := h.owner p n i none hp
  cases hn.symm.trans hn₀
  cases hc.symm.trans hc₀
  have hlive : ∀ {q m j o}, (principalWires.set p ⟨n, i, none, true⟩)[q]? =
      some ⟨m, j, o, false⟩ → p ≠ q ∧ principalWires[q]? = some ⟨m, j, o, false⟩ := by
    intro q m j o hq
    rw [Cells.getElem?_set hp] at hq
    split at hq
    · cases hq
    · exact ⟨‹_›, hq⟩
  constructor
  case ctor => exact fun m c' l' k' hm => h.ctor_set hn hm
  case owner =>
    intro q m j o hq
    obtain ⟨hne, hq⟩ := hlive hq
    exact h.owner_set hn hq (by simp [hi, hne])
  case port =>
    intro m c' l' k' j q hm hj ht
    rcases port_of_set hn hm hj with ⟨-, he⟩ | ⟨hne, l'', k'', hm', hj'⟩
    · cases he
      exact hv.elim
    · obtain ⟨o, ho⟩ := h.port m c' l'' k'' j q hm' hj' ht
      refine ⟨o, ?_⟩
      rw [Cells.getElem?_set hp, if_neg, ho]
      rintro rfl
      cases hp.symm.trans ho
      exact hne rfl
  case oppsite =>
    intro q m j r hq
    obtain ⟨hne, hq⟩ := hlive hq
    obtain ⟨hrq, ho⟩ := h.oppsite q m j r hq
    refine ⟨hrq, ho.imp_right ?_⟩
    rintro ⟨m', j', hr⟩
    refine ⟨m', j', ?_⟩
    rw [Cells.getElem?_set hp, if_neg, hr]
    rintro rfl
    cases hp.symm.trans hr
  case filled =>
    exact fun m c' l' k' ctor' j hm hc' hj hu => h.filled_set hn hm hc' hj fun _ => hu
  case unset =>
    intro m j node hu hm
    refine h.unset_set hn hu ?_ hm
    rintro ⟨⟩
    rw [h.get_none hn hu] at hi
    cases hi
  case counted =>
    refine fun m c' l' k' ctor' => h.counted_set hn hc fun hp => ?_
    rw [NodeCtor.received_set hpr (by rw [hi]; exact id) hv, ← h.counted n c l k ctor hn hc hp]
  case taken =>
    intro m j ht
    rw [List.length_set]
    exact h.taken m j ht

/-! ### Other changes -/

theorem getElem?_pair {r m j : ℕ} (hp : principalWires[p]? = some ⟨n, i, none, false⟩)
    (hr : principalWires[r]? = some ⟨m, j, none, false⟩) (hne : p ≠ r) (q : ℕ) :
    ((principalWires.set p ⟨n, i, some r, false⟩).set r ⟨m, j, some p, false⟩)[q]? =
      if r = q then some ⟨m, j, some p, false⟩ else
        if p = q then some ⟨n, i, some r, false⟩ else principalWires[q]? := by
  have hr' : (principalWires.set p ⟨n, i, some r, false⟩)[r]? = some ⟨m, j, none, false⟩ := by
    rw [Cells.getElem?_set hp, if_neg hne, hr]
  rw [Cells.getElem?_set hr', Cells.getElem?_set hp]

theorem pair {r m j : ℕ} (h : Shape P principalWires nodes G)
    (hp : principalWires[p]? = some ⟨n, i, none, false⟩)
    (hr : principalWires[r]? = some ⟨m, j, none, false⟩) (hne : p ≠ r) :
    Shape P ((principalWires.set p ⟨n, i, some r, false⟩).set r ⟨m, j, some p, false⟩) nodes G := by
  have hget := getElem?_pair hp hr hne
  refine ⟨h.ctor, ?_, ?_, ?_, h.filled, h.unset, h.counted, h.taken⟩
  · intro q m' j' o hq
    rw [hget] at hq
    split at hq
    · cases hq; subst q; exact h.owner r m j none hr
    · split at hq
      · cases hq; subst q; exact h.owner p n i none hp
      · exact h.owner q m' j' o hq
  · intro m' c' l' k' j' q hm hj ht
    obtain ⟨o, ho⟩ := h.port m' c' l' k' j' q hm hj ht
    rw [hget]
    split
    · subst q; cases hr.symm.trans ho; exact ⟨_, rfl⟩
    · split
      · subst q; cases hp.symm.trans ho; exact ⟨_, rfl⟩
      · exact ⟨o, ho⟩
  · intro q m' j' q' hq
    rw [hget] at hq
    split at hq
    · cases hq
      subst q
      refine ⟨hne, .inr ⟨n, i, ?_⟩⟩
      rw [hget, if_neg hne.symm, if_pos rfl]
    · split at hq
      · cases hq
        subst q
        refine ⟨hne.symm, .inr ⟨m, j, ?_⟩⟩
        rw [hget, if_pos rfl]
      · obtain ⟨hqq, ho⟩ := h.oppsite q m' j' q' hq
        refine ⟨hqq, ho.imp_right ?_⟩
        rintro ⟨m'', j'', hq'⟩
        refine ⟨m'', j'', ?_⟩
        rw [hget, if_neg, if_neg, hq']
        · rintro rfl; cases hp.symm.trans hq'
        · rintro rfl; cases hr.symm.trans hq'

theorem take (h : Shape P principalWires nodes G) (hn : nodes[n]? = some ⟨some c, l, k⟩)
    (hi : l.get i = some v) (hv : ∀ p, v ≠ .principalWire p) :
    Shape P principalWires nodes { G with taken := insert (n, i) G.taken } where
  ctor := h.ctor
  owner p m j o hp := by
    obtain ⟨ht, c', l', k', ctor', hm, hj, hrest⟩ := h.owner p m j o hp
    refine ⟨?_, c', l', k', ctor', hm, hj, hrest⟩
    rintro (he | ht')
    · cases he
      cases hn.symm.trans hm
      rw [hi] at hj
      cases hj
      exact hv p rfl
    · exact ht ht'
  port m c' l' k' j p hm hj ht := h.port m c' l' k' j p hm hj fun ht' => ht (.inr ht')
  oppsite := h.oppsite
  filled := h.filled
  unset := h.unset
  counted := h.counted
  taken := by
    rintro m j (he | ht)
    · cases he; exact Cells.lt_length hn
    · exact h.taken m j ht

/-- The principal wire of a port is destroyed, which leaves its oppsite dangling. -/
theorem destroy {o : Option ℕ} {Z : Set ℕ} (h : Shape P principalWires nodes G)
    (hp : principalWires[p]? = some ⟨n, i, o, false⟩)
    (hZ : ∀ (q m j r : ℕ), q ≠ p → principalWires[q]? = some ⟨m, j, some r, false⟩ →
      r = p ∨ q ∈ G.dangling → q ∈ Z) :
    Shape P (principalWires.set p ⟨n, i, o, true⟩) nodes
      { G with taken := insert (n, i) G.taken, dangling := Z } := by
  have hlive : ∀ {q m j o'}, (principalWires.set p ⟨n, i, o, true⟩)[q]? =
      some ⟨m, j, o', false⟩ → q ≠ p ∧ principalWires[q]? = some ⟨m, j, o', false⟩ := by
    intro q m j o' hq
    rw [Cells.getElem?_set hp] at hq
    split at hq
    · cases hq
    · exact ⟨Ne.symm ‹_›, hq⟩
  obtain ⟨-, c, l, k, -, hn, hi, -⟩ := h.owner p n i o hp
  refine ⟨h.ctor, ?_, ?_, ?_, h.filled, h.unset, h.counted, ?_⟩
  · intro q m j o' hq
    obtain ⟨hne, hq⟩ := hlive hq
    obtain ⟨ht, c', l', k', ctor', hm, hj, hrest⟩ := h.owner q m j o' hq
    refine ⟨?_, c', l', k', ctor', hm, hj, hrest⟩
    rintro (he | ht')
    · cases he
      cases hn.symm.trans hm
      rw [hi] at hj
      cases hj
      exact hne rfl
    · exact ht ht'
  · intro m c' l' k' j q hm hj ht
    obtain ⟨o', ho⟩ := h.port m c' l' k' j q hm hj fun ht' => ht (.inr ht')
    refine ⟨o', ?_⟩
    rw [Cells.getElem?_set hp, if_neg, ho]
    rintro rfl
    cases hp.symm.trans ho
    exact ht (.inl rfl)
  · intro q m j r hq
    obtain ⟨hne, hq⟩ := hlive hq
    obtain ⟨hrq, ho⟩ := h.oppsite q m j r hq
    refine ⟨hrq, ?_⟩
    by_cases hr : r = p
    · exact .inl (hZ q m j r hne hq (.inl hr))
    · rcases ho with hd | ⟨m', j', ho⟩
      · exact .inl (hZ q m j r hne hq (.inr hd))
      · exact .inr ⟨m', j', by rw [Cells.getElem?_set hp, if_neg (Ne.symm hr), ho]⟩
  · rintro m j (he | ht)
    · cases he; exact Cells.lt_length hn
    · exact h.taken m j ht

theorem recycle (h : Shape P principalWires nodes G) (hn : nodes[n]? = some ⟨some c, l, k⟩)
    (hp : ∀ (p i : ℕ) (o : Option ℕ), principalWires[p]? ≠ some ⟨n, i, o, false⟩) :
    Shape P principalWires (nodes.set n ⟨none, [], 0⟩)
      { G with taken := {x ∈ G.taken | x.1 ≠ n} } := by
  have hget : ∀ {m c' l' k'}, (nodes.set n ⟨none, [], 0⟩)[m]? = some ⟨some c', l', k'⟩ →
      m ≠ n ∧ nodes[m]? = some ⟨some c', l', k'⟩ := by
    intro m c' l' k' hm
    rw [Cells.getElem?_set hn] at hm
    split at hm
    · cases hm
    · exact ⟨Ne.symm ‹_›, hm⟩
  refine ⟨?_, ?_, ?_, h.oppsite, ?_, ?_, ?_, ?_⟩
  · intro m c' l' k' hm
    exact h.ctor m c' l' k' (hget hm).2
  · intro p m j o hm
    obtain ⟨ht, c', l', k', ctor', hm', hrest⟩ := h.owner p m j o hm
    refine ⟨fun ht' => ht ht'.1, c', l', k', ctor', ?_, hrest⟩
    rw [Cells.getElem?_set hn, if_neg, hm']
    rintro rfl
    exact hp p j o hm
  · intro m c' l' k' j p hm hj ht
    obtain ⟨hne, hm⟩ := hget hm
    exact h.port m c' l' k' j p hm hj fun ht' => ht ⟨ht', hne⟩
  · intro m c' l' k' ctor' j hm
    exact h.filled m c' l' k' ctor' j (hget hm).2
  · intro m j node hu hm
    rw [Cells.getElem?_set hn] at hm
    split at hm
    · cases hm; rfl
    · exact h.unset m j node hu hm
  · intro m c' l' k' ctor' hm
    exact h.counted m c' l' k' ctor' (hget hm).2
  · intro m j ht
    rw [List.length_set]
    exact h.taken m j ht.1

theorem newNode (h : Shape P principalWires nodes G) (hc : P.nodeCtor c = some ctor) :
    Shape P principalWires (nodes ++ [⟨some c, [], 0⟩])
      { G with unset := G.unset ∪ {x | x.1 = nodes.length} } := by
  have hold : ∀ {m : ℕ} {node : Node}, nodes[m]? = some node →
      (nodes ++ [⟨some c, [], 0⟩])[m]? = some node := by
    intro m node hm
    rw [List.getElem?_append_left (Cells.lt_length hm), hm]
  refine ⟨?_, ?_, ?_, h.oppsite, ?_, ?_, ?_, ?_⟩
  · intro m c' l' k' hm
    rw [Cells.getElem?_snoc] at hm
    split at hm
    · cases hm; exact ⟨ctor, hc⟩
    · exact h.ctor m c' l' k' hm
  · intro p m j o hm
    obtain ⟨ht, c', l', k', ctor', hm', hrest⟩ := h.owner p m j o hm
    exact ⟨ht, c', l', k', ctor', hold hm', hrest⟩
  · intro m c' l' k' j p hm hj ht
    rw [Cells.getElem?_snoc] at hm
    split at hm
    · cases hm; cases hj
    · exact h.port m c' l' k' j p hm hj ht
  · intro m c' l' k' ctor' j hm hc' hj hu
    rw [Cells.getElem?_snoc] at hm
    split at hm
    · exact (hu (.inr (Eq.symm ‹_›))).elim
    · exact h.filled m c' l' k' ctor' j hm hc' hj fun hu' => hu (.inl hu')
  · intro m j node hu hm
    rw [Cells.getElem?_snoc] at hm
    split at hm
    · cases hm; rfl
    · rcases hu with hu | hu
      · exact h.unset m j node hu hm
      · exact (‹_ ≠ m› (Eq.symm hu)).elim
  · intro m c' l' k' ctor' hm hc' hp
    rw [Cells.getElem?_snoc] at hm
    split at hm
    · cases hm
      cases hc.symm.trans hc'
      classical
      simp [NodeCtor.received, Received]
    · exact h.counted m c' l' k' ctor' hm hc' hp
  · intro m j ht
    rw [List.length_append, List.length_singleton]
    exact Nat.lt_succ_of_lt (h.taken m j ht)

theorem close {U : Set (ℕ × ℕ)} (h : Shape P principalWires nodes G) (hU : U ⊆ G.unset)
    (hset : ∀ (n c : ℕ) (l : Slots Value) (k : ℕ) (ctor : NodeCtor) (i : ℕ),
      nodes[n]? = some ⟨some c, l, k⟩ → P.nodeCtor c = some ctor →
        (n, i) ∈ G.unset → (n, i) ∉ U → ctor.arity ≤ i) :
    Shape P principalWires nodes { G with unset := U } where
  ctor := h.ctor
  owner := h.owner
  port := h.port
  oppsite := h.oppsite
  filled m c' l' k' ctor' j hm hc' hj hu := by
    apply h.filled m c' l' k' ctor' j hm hc' hj
    intro hu'
    exact absurd hj (hset m c' l' k' ctor' j hm hc' hu' hu).not_gt
  unset m j node hu := h.unset m j node (hU hu)
  counted := h.counted
  taken := h.taken

end Shape

end InetLisp
