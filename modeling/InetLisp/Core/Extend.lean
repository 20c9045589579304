import InetLisp.Core.Schedule

/-! # A program that grows

Node ctors, functions, primitives and rules are defined while nets are there already.
What a system keeps is kept under the larger program; only an active pair that was built
before its rule has no task.
-/

namespace InetLisp

open Lib

/-- Nothing is taken away, and the ports of a node ctor stay as they are. -/
structure Program.Grows (P P' : Program) : Prop where
  nodeCtor : ∀ c ctor, P.nodeCtor c = some ctor → ∃ ctor', P'.nodeCtor c = some ctor' ∧
    ctor'.portInfos = ctor.portInfos ∧ ctor'.primitive = ctor.primitive ∧
      ctor.ruleArray ⊆ ctor'.ruleArray
  function : ∀ (f : ℕ) (function : Function), P.functions[f]? = some function →
    P'.functions[f]? = some function
  primitive : ∀ (k : ℕ) (p : Primitive), P.primitives[k]? = some p → P'.primitives[k]? = some p

section PortInfos

variable {ctor ctor' : NodeCtor} (h : ctor'.portInfos = ctor.portInfos)

include h

theorem NodeCtor.isPrincipal_congr (i : ℕ) : ctor'.IsPrincipal i ↔ ctor.IsPrincipal i := by
  rw [NodeCtor.IsPrincipal, NodeCtor.IsPrincipal, h]

theorem NodeCtor.arity_congr : ctor'.arity = ctor.arity := congrArg List.length h

theorem NodeCtor.received_congr_ctor (l : Slots Value) : ctor'.received l = ctor.received l := by
  unfold NodeCtor.received
  rw [NodeCtor.arity_congr h]
  congr 1
  ext i
  simp only [Finset.mem_filter, NodeCtor.isPrincipal_congr h]

end PortInfos

namespace Program.Grows

variable {P P' P'' : Program} {missed : Set Redex} {principalWires : List PrincipalWire}
  {nodes : List Node} {G : Open}

theorem refl (P : Program) : P.Grows P where
  nodeCtor := fun _ ctor hc => ⟨ctor, hc, rfl, rfl, List.Subset.refl _⟩
  function := fun _ _ h => h
  primitive := fun _ _ h => h

theorem trans (h : P.Grows P') (h' : P'.Grows P'') : P.Grows P'' where
  nodeCtor := by
    intro c ctor hc
    obtain ⟨ctor', hc', hports, hprimitive, hrules⟩ := h.nodeCtor c ctor hc
    obtain ⟨ctor'', hc'', hports', hprimitive', hrules'⟩ := h'.nodeCtor c ctor' hc'
    exact ⟨ctor'', hc'', hports'.trans hports, hprimitive'.trans hprimitive,
      List.Subset.trans hrules hrules'⟩
  function := fun f function hf => h'.function f function (h.function f function hf)
  primitive := fun k p hp => h'.primitive k p (h.primitive k p hp)

variable (h : P.Grows P')

include h

theorem of_nodeCtor {c : ℕ} {ctor ctor' : NodeCtor} (hc : P.nodeCtor c = some ctor)
    (hc' : P'.nodeCtor c = some ctor') :
    ctor'.portInfos = ctor.portInfos ∧ ctor'.primitive = ctor.primitive := by
  obtain ⟨ctor'', hc'', hports, hprimitive, -⟩ := h.nodeCtor c ctor hc
  obtain rfl := Option.some.inj (hc'.symm.trans hc'')
  exact ⟨hports, hprimitive⟩

theorem hasRule {rule : Rule} (hr : P.HasRule rule) : P'.HasRule rule := by
  obtain ⟨c, ctor, hrule, hc, hmem⟩ := hr
  obtain ⟨ctor', hc', -, -, hrules⟩ := h.nodeCtor c ctor hc
  exact ⟨c, ctor', hrule, hc', hrules hmem⟩

theorem saturated {n : ℕ} (hs : Saturated P nodes n) : Saturated P' nodes n := by
  obtain ⟨c, l, k, ctor, hn, hc, hp, hi⟩ := hs
  obtain ⟨ctor', hc', hports, hprimitive, -⟩ := h.nodeCtor c ctor hc
  refine ⟨c, l, k, ctor', hn, hc', hprimitive ▸ hp, fun i hpr => ?_⟩
  exact hi i ((NodeCtor.isPrincipal_congr hports i).mp hpr)

theorem valid {t : Task} (ht : t.Valid P principalWires nodes) :
    t.Valid P' principalWires nodes := by
  cases t with
  | activePair left right rule => exact ⟨ht.1, h.hasRule ht.2⟩
  | primitive n => exact h.saturated ht

/-- Tasks stay about redexes; nothing is said about those that are new. -/
theorem pending {tasks : Multiset Task} (hp : Pending P missed principalWires nodes tasks) :
    Pending P' Set.univ principalWires nodes tasks where
  valid := fun t ht => h.valid (hp.valid t ht)
  nodup := hp.nodup
  complete := fun x _ hx => (hx (Set.mem_univ x)).elim

theorem shape (hs : Shape P principalWires nodes G) : Shape P' principalWires nodes G where
  ctor := by
    intro n c l k hn
    obtain ⟨ctor, hc⟩ := hs.ctor n c l k hn
    obtain ⟨ctor', hc', -⟩ := h.nodeCtor c ctor hc
    exact ⟨ctor', hc'⟩
  owner := by
    intro p n i o hp
    obtain ⟨ht, c, l, k, ctor, hn, hi, hc, hpr⟩ := hs.owner p n i o hp
    obtain ⟨ctor', hc', hports, -, -⟩ := h.nodeCtor c ctor hc
    exact ⟨ht, c, l, k, ctor', hn, hi, hc', (NodeCtor.isPrincipal_congr hports i).mpr hpr⟩
  port := hs.port
  oppsite := hs.oppsite
  filled := by
    intro n c l k ctor' i hn hc' hi
    obtain ⟨ctor, hc⟩ := hs.ctor n c l k hn
    rw [NodeCtor.arity_congr (h.of_nodeCtor hc hc').1] at hi
    exact hs.filled n c l k ctor i hn hc hi
  unset := hs.unset
  counted := by
    intro n c l k ctor' hn hc' hp
    obtain ⟨ctor, hc⟩ := hs.ctor n c l k hn
    obtain ⟨hports, hprimitive⟩ := h.of_nodeCtor hc hc'
    rw [NodeCtor.received_congr_ctor hports]
    exact hs.counted n c l k ctor hn hc (hprimitive ▸ hp)
  taken := hs.taken

end Program.Grows

namespace System.Ok

variable {ι : Type} [Fintype ι] {P P' : Program} {missed : Set Redex} {s : System ι}
  {defined defined' : Multiset Value}

theorem inputs_grows (hP : P.Closed) (hg : P.Grows P') (h : s.Ok P missed defined) :
    s.inputs P' = s.inputs P := by
  have hi : ∀ i, (s.seat i).hand.inputs P' = (s.seat i).hand.inputs P := by
    intro i
    cases hh : (s.seat i).hand with
    | primitive n p base =>
      obtain ⟨c, ctor, -, hc, hp⟩ := h.hand i n p base hh
      rw [Hand.inputs, Hand.inputs]
      cases p with
      | apply arity => rfl
      | primitive k =>
        obtain ⟨q, hq, -⟩ := hP.primitiveArity c k ctor hc hp
        rw [Program.primitiveArity, Program.primitiveArity, hq, hg.primitive k q hq]
    | _ => rfl
  ext x
  exact exists_congr fun i => by rw [hi]

theorem grows (hP : P.Closed) (hg : P.Grows P') (h : s.Ok P missed defined) :
    s.Ok P' Set.univ defined where
  inv := by
    rw [h.inputs_grows hP hg]
    exact ⟨h.inv.linear, hg.shape h.inv.shape, hg.pending h.inv.pending⟩
  function := by
    intro i frame hf
    obtain ⟨function, hfunction⟩ := h.function i frame hf
    exact ⟨function, hg.function _ _ hfunction⟩
  hand := by
    intro i n primitive base hh
    obtain ⟨c, ctor, hn, hc, hp⟩ := h.hand i n primitive base hh
    obtain ⟨ctor', hc', -, hprimitive, -⟩ := hg.nodeCtor c ctor hc
    exact ⟨c, ctor', hn, hc', hprimitive.trans hp⟩

omit [Fintype ι] in
theorem inputs_congr {s' : System ι} (hs : ∀ i, (s'.seat i).hand = (s.seat i).hand) :
    s'.inputs P = s.inputs P := by
  ext x
  exact exists_congr fun i => by rw [hs i]

/-- Values on stacks and in definitions may be moved and forgotten. -/
theorem of_count_le {s' : System ι} (h : s.Ok P missed defined) (hn : s'.net = s.net)
    (ht : s'.tasks = s.tasks)
    (ho : ∀ v : Value, ¬ v.IsNonWire →
      (s'.outside + defined').count v ≤ (s.outside + defined).count v)
    (hr : ∀ i, (s'.seat i).returnStack = (s.seat i).returnStack)
    (hs : ∀ i, (s'.seat i).hand = (s.seat i).hand) : s'.Ok P missed defined' where
  inv := by
    rw [hn, ht, inputs_congr hs]
    exact h.inv.of_count_le ho
  function := fun i frame hf => h.function i frame (hr i ▸ hf)
  hand := by
    intro i n primitive base hh
    rw [hn]
    exact h.hand i n primitive base (hs i ▸ hh)

theorem addNonWires {added : Multiset Value} (h : s.Ok P missed defined)
    (ha : ∀ v ∈ added, v.IsNonWire) : s.Ok P missed (defined + added) := by
  apply h.of_count_le rfl rfl _ (fun _ => rfl) (fun _ => rfl)
  intro v hv
  have hzero : added.count v = 0 := Multiset.count_eq_zero.mpr fun hm => hv (ha v hm)
  simp only [Multiset.count_add, hzero]
  omega

end System.Ok

structure NodeCtor.Fits (P : Program) (ctor : NodeCtor) : Prop where
  principalPort : ctor.primitive = none → ∀ i j, ctor.IsPrincipal i → ctor.IsPrincipal j → i = j
  rule : ∀ rule ∈ ctor.ruleArray, (∃ function, P.functions[rule.function]? = some function) ∧
    ∀ c, c = rule.leftNodeCtor ∨ c = rule.rightNodeCtor →
      ∃ user, P.nodeCtor c = some user ∧ user.primitive = none
  primitive : ctor.primitive ≠ none → ∃ i, ctor.IsPrincipal i
  primitiveArity : ∀ k, ctor.primitive = some (.primitive k) →
    ∃ p, P.primitives[k]? = some p ∧ p.inputArity + p.outputArity = ctor.arity
  not_apply : ∀ arity, ctor.primitive ≠ some (.apply arity)

structure Program.Fits (P : Program) : Prop where
  ctor : ∀ ctor ∈ P.nodeCtors, ctor.Fits P
  nodeCtor : ∀ (k : ℕ) (p : Primitive) (c : ℕ), P.primitives[k]? = some p → p.nodeCtor = some c →
    ∃ ctor, P.nodeCtor c = some ctor

section Fits

variable {P P' : Program} {ctor : NodeCtor} {rule : Rule}

theorem NodeCtor.Fits.grows (hg : P.Grows P') (h : ctor.Fits P) : ctor.Fits P' where
  principalPort := h.principalPort
  rule := by
    intro rule hr
    obtain ⟨⟨function, hf⟩, hc⟩ := h.rule rule hr
    refine ⟨⟨function, hg.function _ _ hf⟩, fun c hrule => ?_⟩
    obtain ⟨user, hu, hprimitive⟩ := hc c hrule
    obtain ⟨user', hu', -, hprimitive', -⟩ := hg.nodeCtor c user hu
    exact ⟨user', hu', hprimitive'.trans hprimitive⟩
  primitive := h.primitive
  primitiveArity := by
    intro k hk
    obtain ⟨p, hp, ha⟩ := h.primitiveArity k hk
    exact ⟨p, hg.primitive k p hp, ha⟩
  not_apply := h.not_apply

theorem NodeCtor.Fits.addRule (h : ctor.Fits P)
    (hr : (∃ function, P.functions[rule.function]? = some function) ∧
      ∀ c, c = rule.leftNodeCtor ∨ c = rule.rightNodeCtor →
        ∃ user, P.nodeCtor c = some user ∧ user.primitive = none) :
    NodeCtor.Fits P { ctor with ruleArray := ctor.ruleArray ++ [rule] } where
  principalPort := h.principalPort
  rule := by
    intro rule' hr'
    rcases List.mem_append.mp hr' with hr' | hr'
    · exact h.rule rule' hr'
    · rw [List.mem_singleton.mp hr']
      exact hr
  primitive := h.primitive
  primitiveArity := h.primitiveArity
  not_apply := h.not_apply

theorem applyNodeCtors_spec (h : ctor ∈ applyNodeCtors) :
    (∃ arity, ctor.primitive = some (.apply arity)) ∧ ctor.ruleArray = [] ∧ ctor.IsPrincipal 0 := by
  obtain ⟨i, -, rfl⟩ := List.mem_map.mp h
  exact ⟨⟨_, rfl⟩, rfl, ⟨"target", true⟩, rfl, rfl⟩

theorem Program.Fits.of_rule (h : P.Fits) {c : ℕ} (hc : P.nodeCtor c = some ctor)
    (hr : rule ∈ ctor.ruleArray) : ctor.Fits P := by
  rcases Program.mem_of_nodeCtor hc with ha | ⟨-, hm⟩
  · rw [(applyNodeCtors_spec ha).2.1] at hr
    cases hr
  · exact h.ctor ctor hm

theorem Program.Fits.closed (h : P.Fits) : P.Closed where
  principalPort := by
    intro c ctor hc hnone
    rcases Program.mem_of_nodeCtor hc with ha | ⟨-, hm⟩
    · obtain ⟨arity, happly⟩ := (applyNodeCtors_spec ha).1
      rw [hnone] at happly
      cases happly
    · exact (h.ctor ctor hm).principalPort hnone
  rule := by
    intro c ctor rule hc hr c' hc' ctor' hctor'
    obtain ⟨user, hu, hnone⟩ := ((h.of_rule hc hr).rule rule hr).2 c' hc'
    obtain rfl := Option.some.inj (hctor'.symm.trans hu)
    exact hnone
  primitive := by
    intro c ctor hc hp
    rcases Program.mem_of_nodeCtor hc with ha | ⟨-, hm⟩
    · exact ⟨0, (applyNodeCtors_spec ha).2.2⟩
    · exact (h.ctor ctor hm).primitive hp
  nodeCtor := h.nodeCtor
  function := by
    rintro rule ⟨c, ctor, -, hc, hr⟩
    exact ((h.of_rule hc hr).rule rule hr).1
  primitiveArity := by
    intro c k ctor hc hk
    rcases Program.mem_of_nodeCtor hc with ha | ⟨-, hm⟩
    · obtain ⟨arity, happly⟩ := (applyNodeCtors_spec ha).1
      rw [hk] at happly
      cases happly
    · exact (h.ctor ctor hm).primitiveArity k hk
  apply := by
    intro c arity ctor hc happly
    rcases Program.mem_of_nodeCtor hc with ha | ⟨-, hm⟩
    · exact ha
    · exact ((h.ctor ctor hm).not_apply arity happly).elim

end Fits

end InetLisp
