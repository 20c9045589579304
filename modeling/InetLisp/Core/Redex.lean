import InetLisp.Core.Shape

/-! # Redexes and pending tasks

A redex is what a task can be about: two principal wires that are each other's
oppsite and whose ctors have a rule, or a primitive node whose principal ports
have all received their argument. Each task that is pending is about a redex,
and no two are about the same one.
-/

namespace InetLisp

open Lib

/-- What can be reduced. -/
inductive Redex where
  | activePair (pair : Sym2 ℕ)
  | primitive (node : ℕ)
  deriving DecidableEq

def Task.redex : Task → Redex
  | .activePair left right _ => .activePair s(left, right)
  | .primitive n => .primitive n

def Program.HasRule (P : Program) (rule : Rule) : Prop :=
  ∃ c ctor, (c = rule.leftNodeCtor ∨ c = rule.rightNodeCtor) ∧ P.nodeCtor c = some ctor ∧
    rule ∈ ctor.ruleArray

def CtorOf (nodes : List Node) (n c : ℕ) : Prop := ∃ l k, nodes[n]? = some ⟨some c, l, k⟩

theorem CtorOf.unique {nodes : List Node} {n c d : ℕ} (h : CtorOf nodes n c)
    (h' : CtorOf nodes n d) : c = d := by
  obtain ⟨l, k, hn⟩ := h
  obtain ⟨l', k', hn'⟩ := h'
  cases hn.symm.trans hn'
  rfl

def Oppsites (principalWires : List PrincipalWire) (nodes : List Node) (p r c d : ℕ) : Prop :=
  ∃ n i m j, principalWires[p]? = some ⟨n, i, some r, false⟩ ∧
    principalWires[r]? = some ⟨m, j, some p, false⟩ ∧ CtorOf nodes n c ∧ CtorOf nodes m d

/-- A primitive node all of whose principal ports have received their argument. -/
def Saturated (P : Program) (nodes : List Node) (n : ℕ) : Prop :=
  ∃ (c : ℕ) (l : Slots Value) (k : ℕ) (ctor : NodeCtor), nodes[n]? = some ⟨some c, l, k⟩ ∧
    P.nodeCtor c = some ctor ∧ ctor.primitive ≠ none ∧ ∀ i, ctor.IsPrincipal i → Received (l.get i)

/-- The task is about a redex of the net. -/
def Task.Valid (P : Program) (principalWires : List PrincipalWire) (nodes : List Node) :
    Task → Prop
  | .activePair left right rule =>
    Oppsites principalWires nodes left right rule.leftNodeCtor rule.rightNodeCtor ∧ P.HasRule rule
  | .primitive n => Saturated P nodes n

def IsRedex (P : Program) (principalWires : List PrincipalWire) (nodes : List Node) (x : Redex) :
    Prop :=
  ∃ t : Task, t.Valid P principalWires nodes ∧ t.redex = x

/-- Pending tasks are about different redexes, and all redexes but the missed ones are pending. -/
structure Pending (P : Program) (missed : Set Redex) (principalWires : List PrincipalWire)
    (nodes : List Node) (tasks : Multiset Task) : Prop where
  valid : ∀ t ∈ tasks, t.Valid P principalWires nodes
  nodup : (tasks.map Task.redex).Nodup
  complete : ∀ x, IsRedex P principalWires nodes x → x ∉ missed → x ∈ tasks.map Task.redex

namespace Pending

variable {P : Program} {missed : Set Redex} {principalWires principalWires' : List PrincipalWire}
  {nodes nodes' : List Node} {tasks : Multiset Task} {t : Task} {x : Redex}

theorem congr (h : Pending P missed principalWires nodes tasks)
    (hv : ∀ t : Task, t.Valid P principalWires' nodes' ↔ t.Valid P principalWires nodes) :
    Pending P missed principalWires' nodes' tasks where
  valid t ht := (hv t).mpr (h.valid t ht)
  nodup := h.nodup
  complete := by
    rintro x ⟨t, ht, rfl⟩ hx
    exact h.complete _ ⟨t, (hv t).mp ht, rfl⟩ hx

theorem add (h : Pending P missed principalWires nodes tasks)
    (hold : ∀ t' : Task, t'.Valid P principalWires nodes →
      t'.Valid P principalWires' nodes' ∧ t'.redex ≠ t.redex)
    (ht : t.Valid P principalWires' nodes')
    (hnew : ∀ t' : Task, t'.Valid P principalWires' nodes' →
      t'.Valid P principalWires nodes ∨ t'.redex = t.redex) :
    Pending P missed principalWires' nodes' (t ::ₘ tasks) where
  valid := by
    intro t' ht'
    rcases Multiset.mem_cons.mp ht' with rfl | ht'
    · exact ht
    · exact (hold t' (h.valid t' ht')).1
  nodup := by
    rw [Multiset.map_cons, Multiset.nodup_cons]
    constructor
    · intro hm
      obtain ⟨t', ht', he⟩ := Multiset.mem_map.mp hm
      exact (hold t' (h.valid t' ht')).2 he
    · exact h.nodup
  complete := by
    rintro x ⟨t', ht', rfl⟩ hx
    rw [Multiset.map_cons, Multiset.mem_cons]
    rcases hnew t' ht' with hold | he
    · exact .inr (h.complete _ ⟨t', hold, rfl⟩ hx)
    · exact .inl he

/-- A task in hand leaves its redex behind. -/
theorem erase (h : Pending P missed principalWires nodes (t ::ₘ tasks)) :
    Pending P (insert t.redex missed) principalWires nodes tasks ∧
      t.redex ∉ tasks.map Task.redex := by
  have hn := h.nodup
  rw [Multiset.map_cons, Multiset.nodup_cons] at hn
  refine ⟨⟨fun t' ht' => h.valid t' (Multiset.mem_cons_of_mem ht'), hn.2, ?_⟩, hn.1⟩
  intro x hx hm
  have := h.complete x hx fun hx' => hm (.inr hx')
  rw [Multiset.map_cons, Multiset.mem_cons] at this
  exact this.resolve_left fun he => hm (.inl he)

theorem remove (h : Pending P (insert x missed) principalWires nodes tasks)
    (hx : x ∉ tasks.map Task.redex)
    (hv : ∀ t : Task, t.Valid P principalWires' nodes' ↔
      t.Valid P principalWires nodes ∧ t.redex ≠ x) :
    Pending P missed principalWires' nodes' tasks where
  valid := by
    intro t ht
    refine (hv t).mpr ⟨h.valid t ht, ?_⟩
    rintro rfl
    exact hx (Multiset.mem_map_of_mem _ ht)
  nodup := h.nodup
  complete := by
    rintro y ⟨t, ht, rfl⟩ hy
    obtain ⟨ht, hne⟩ := (hv t).mp ht
    exact h.complete _ ⟨t, ht, rfl⟩ fun hm => hm.elim hne hy

end Pending

section Rules

variable {P : Program} {p r c d : ℕ} {t : Task}

theorem mem_rules {rule : Rule} {c : ℕ} :
    rule ∈ ((P.nodeCtor c).map NodeCtor.ruleArray).getD [] ↔
      ∃ ctor, P.nodeCtor c = some ctor ∧ rule ∈ ctor.ruleArray := by
  cases P.nodeCtor c <;> simp

theorem valid_of_findRule {principalWires : List PrincipalWire} {nodes : List Node}
    (h : findRule P p r c d = some t) (hp : Oppsites principalWires nodes p r c d) :
    t.Valid P principalWires nodes ∧ t.redex = .activePair s(p, r) := by
  have hrule : ∃ rule b ctor, (b = c ∨ b = d) ∧ P.nodeCtor b = some ctor ∧ rule ∈ ctor.ruleArray ∧
      ruleMatch p r c d rule = some t := by
    unfold findRule at h
    rcases Option.or_eq_some_iff.mp h with h | ⟨_, h⟩
    · obtain ⟨rule, hm, hr⟩ := List.exists_of_findSome?_eq_some h
      obtain ⟨ctor, hc, hm⟩ := mem_rules.mp hm
      exact ⟨rule, c, ctor, .inl rfl, hc, hm, hr⟩
    · obtain ⟨rule, hm, hr⟩ := List.exists_of_findSome?_eq_some h
      obtain ⟨ctor, hc, hm⟩ := mem_rules.mp hm
      exact ⟨rule, d, ctor, .inr rfl, hc, hm, hr⟩
  obtain ⟨rule, b, ctor, hb, hc, hm, hr⟩ := hrule
  rcases ruleMatch_eq_some hr with ⟨rfl, rfl, rfl⟩ | ⟨rfl, rfl, rfl⟩
  · exact ⟨⟨hp, b, ctor, hb, hc, hm⟩, rfl⟩
  · obtain ⟨n, i, m, j, hp, hr, hn, hm'⟩ := hp
    exact ⟨⟨⟨m, j, n, i, hr, hp, hm', hn⟩, b, ctor, hb.symm, hc, hm⟩,
      congrArg Redex.activePair Sym2.eq_swap⟩

/-- No rule is missed, in either orientation. -/
theorem not_hasRule_of_findRule (h : findRule P p r c d = none) {rule : Rule} (hr : P.HasRule rule) :
    ¬ (rule.leftNodeCtor = c ∧ rule.rightNodeCtor = d ∨
      rule.leftNodeCtor = d ∧ rule.rightNodeCtor = c) := by
  intro hm
  obtain ⟨b, ctor, hb, hc, hrule⟩ := hr
  unfold findRule at h
  obtain ⟨h₁, h₂⟩ := Option.or_eq_none_iff.mp h
  rw [List.findSome?_eq_none_iff] at h₁ h₂
  have hmatch : ruleMatch p r c d rule ≠ none := by
    unfold ruleMatch
    rcases hm with hm | hm
    · rw [if_pos hm]
      exact Option.some_ne_none _
    · by_cases hm' : rule.leftNodeCtor = c ∧ rule.rightNodeCtor = d
      · rw [if_pos hm']
        exact Option.some_ne_none _
      · rw [if_neg hm', if_pos hm]
        exact Option.some_ne_none _
  have hb' : b = c ∨ b = d := by
    rcases hm with ⟨rfl, rfl⟩ | ⟨rfl, rfl⟩
    · exact hb
    · exact hb.symm
  rcases hb' with rfl | rfl
  · exact hmatch (h₁ rule (mem_rules.mpr ⟨ctor, hc, hrule⟩))
  · exact hmatch (h₂ rule (mem_rules.mpr ⟨ctor, hc, hrule⟩))

end Rules

namespace Shape

variable {P : Program} {principalWires : List PrincipalWire} {nodes : List Node} {G : Open}
  {n i c k p : ℕ} {l : Slots Value} {v : Value} {ctor : NodeCtor} {t : Task}

theorem ctorOf_set {o : Option ℕ} (hn : nodes[n]? = some ⟨o, l, k⟩) {l' : Slots Value} {k' m d : ℕ} :
    CtorOf (nodes.set n ⟨o, l', k'⟩) m d ↔ CtorOf nodes m d := by
  unfold CtorOf
  rw [Cells.getElem?_set hn]
  split
  · subst m
    simp [hn]
  · rfl

/-- A port that stays without an argument, or is no principal port, changes no redex. -/
theorem saturated_set (hn : nodes[n]? = some ⟨some c, l, k⟩) (hc : P.nodeCtor c = some ctor)
    {l' : Slots Value} {k' : ℕ}
    (hl : ∀ j, ctor.IsPrincipal j → (Received (l'.get j) ↔ Received (l.get j))) {m : ℕ} :
    Saturated P (nodes.set n ⟨some c, l', k'⟩) m ↔ Saturated P nodes m := by
  unfold Saturated
  rw [Cells.getElem?_set hn]
  split
  · subst m
    constructor
    · rintro ⟨c', l₁, k₁, ctor', he, hc', hp, hr⟩
      cases he
      cases hc.symm.trans hc'
      exact ⟨c, l, k, ctor, hn, hc, hp, fun j hj => (hl j hj).mp (hr j hj)⟩
    · rintro ⟨c', l₁, k₁, ctor', he, hc', hp, hr⟩
      cases hn.symm.trans he
      cases hc.symm.trans hc'
      exact ⟨c, l', k', ctor, rfl, hc, hp, fun j hj => (hl j hj).mpr (hr j hj)⟩
  · rfl

theorem setPort_valid (hn : nodes[n]? = some ⟨some c, l, k⟩)
    (hc : P.nodeCtor c = some ctor) (hi : ¬ ctor.IsPrincipal i) :
    t.Valid P principalWires (nodes.set n ⟨some c, l.set i (some v), k⟩) ↔
      t.Valid P principalWires nodes := by
  cases t with
  | activePair p r rule =>
    unfold Task.Valid Oppsites
    simp only [ctorOf_set hn]
  | primitive m =>
    apply saturated_set hn hc
    intro j hj
    rw [Slots.get_set_ne]
    rintro rfl
    exact hi hj

theorem oppsites_snoc {p r d d' : ℕ} :
    Oppsites (principalWires ++ [⟨n, i, none, false⟩]) nodes p r d d' ↔
      Oppsites principalWires nodes p r d d' := by
  unfold Oppsites
  simp only [Cells.getElem?_snoc]
  constructor
  · rintro ⟨n, i, m, j, hp, hr, hrest⟩
    split at hp
    · cases hp
    · split at hr
      · cases hr
      · exact ⟨n, i, m, j, hp, hr, hrest⟩
  · rintro ⟨n, i, m, j, hp, hr, hrest⟩
    refine ⟨n, i, m, j, ?_, ?_, hrest⟩
    · rw [if_neg (Cells.lt_length hp).ne', hp]
    · rw [if_neg (Cells.lt_length hr).ne', hr]

theorem setPrincipalPort_valid (h : Shape P principalWires nodes G)
    (hn : nodes[n]? = some ⟨some c, l, k⟩) (hc : P.nodeCtor c = some ctor)
    (hu : (n, i) ∈ G.unset) :
    t.Valid P (principalWires ++ [⟨n, i, none, false⟩])
        (nodes.set n ⟨some c, l.set i (some (.principalWire principalWires.length)), k⟩) ↔
      t.Valid P principalWires nodes := by
  cases t with
  | activePair p r rule =>
    simp only [Task.Valid, oppsites_snoc]
    unfold Oppsites
    simp only [ctorOf_set hn]
  | primitive m =>
    apply saturated_set hn hc
    intro j _
    rw [Slots.get_set]
    split
    · subst j
      rw [h.get_none hn hu]
      rfl
    · rfl

theorem newNode_valid (h : Shape P principalWires nodes G) (hP : P.Ok) :
    t.Valid P principalWires (nodes ++ [⟨some c, [], 0⟩]) ↔ t.Valid P principalWires nodes := by
  have hold : ∀ {m : ℕ} {node : Node}, nodes[m]? = some node →
      (nodes ++ [⟨some c, [], 0⟩])[m]? = some node := by
    intro m node hm
    rw [List.getElem?_append_left (Cells.lt_length hm), hm]
  cases t with
  | activePair p r rule =>
    have hctor : ∀ {p n i d : ℕ} {o : Option ℕ}, principalWires[p]? = some ⟨n, i, o, false⟩ →
        (CtorOf (nodes ++ [⟨some c, [], 0⟩]) n d ↔ CtorOf nodes n d) := by
      intro p n i d o hp
      obtain ⟨-, c', l', k', ctor', hn, -⟩ := h.owner p n i o hp
      simp [CtorOf, hold hn, hn]
    unfold Task.Valid Oppsites
    constructor
    · rintro ⟨⟨n, i, m, j, hp, hr, hn, hm⟩, hrule⟩
      exact ⟨⟨n, i, m, j, hp, hr, (hctor hp).mp hn, (hctor hr).mp hm⟩, hrule⟩
    · rintro ⟨⟨n, i, m, j, hp, hr, hn, hm⟩, hrule⟩
      exact ⟨⟨n, i, m, j, hp, hr, (hctor hp).mpr hn, (hctor hr).mpr hm⟩, hrule⟩
  | primitive m =>
    unfold Task.Valid Saturated
    constructor
    · rintro ⟨c', l', k', ctor', hm, hc', hp, hr⟩
      rw [Cells.getElem?_snoc] at hm
      split at hm
      · cases hm
        obtain ⟨i, hi⟩ := hP.primitive _ _ hc' hp
        exact (hr i hi).elim
      · exact ⟨c', l', k', ctor', hm, hc', hp, hr⟩
    · rintro ⟨c', l', k', ctor', hm, hrest⟩
      exact ⟨c', l', k', ctor', hold hm, hrest⟩

theorem not_saturated (h : Shape P principalWires nodes G) {o : Option ℕ}
    (hp : principalWires[p]? = some ⟨n, i, o, false⟩) : ¬ Saturated P nodes n := by
  obtain ⟨-, c, l, k, ctor, hn, hi, hc, hpr⟩ := h.owner p n i o hp
  rintro ⟨c', l', k', ctor', hn', hc', -, hr⟩
  cases hn.symm.trans hn'
  cases hc.symm.trans hc'
  have := hr i hpr
  rw [hi] at this
  exact this

/-- The argument that completes a primitive node makes its redex, and no other does. -/
theorem collect_valid (h : Shape P principalWires nodes G)
    (hp : principalWires[p]? = some ⟨n, i, none, false⟩) (hn : nodes[n]? = some ⟨some c, l, k⟩)
    (hc : P.nodeCtor c = some ctor) (hv : v.IsNonWire) (hpr : ctor.primitive ≠ none) :
    t.Valid P (principalWires.set p ⟨n, i, none, true⟩)
        (nodes.set n ⟨some c, l.set i (some v), k + 1⟩) ↔
      t.Valid P principalWires nodes ∨ t = .primitive n ∧ k + 1 = ctor.principalPortCount := by
  have hs := h.collect hp hn hc hv
  have hn' : (nodes.set n ⟨some c, l.set i (some v), k + 1⟩)[n]? =
      some ⟨some c, l.set i (some v), k + 1⟩ := by rw [Cells.getElem?_set hn, if_pos rfl]
  cases t with
  | activePair q r rule =>
    have hget : ∀ {q n' i' r : ℕ}, (principalWires.set p ⟨n, i, none, true⟩)[q]? =
        some ⟨n', i', some r, false⟩ ↔ principalWires[q]? = some ⟨n', i', some r, false⟩ := by
      intro q n' i' r
      rw [Cells.getElem?_set hp]
      split
      · subst q; simp [hp]
      · rfl
    unfold Task.Valid Oppsites
    simp only [ctorOf_set hn, hget, reduceCtorEq, false_and, or_false]
  | primitive m =>
    simp only [Task.Valid, Task.primitive.injEq]
    by_cases hm : m = n
    · subst hm
      have hsat : Saturated P (nodes.set m ⟨some c, l.set i (some v), k + 1⟩) m ↔
          k + 1 = ctor.principalPortCount := by
        have hk := hs.counted m c _ (k + 1) ctor hn' hc hpr
        constructor
        · rintro ⟨c', l', k', ctor', he, hc', -, hr⟩
          cases hn'.symm.trans he
          cases hc.symm.trans hc'
          exact hk.trans (NodeCtor.received_eq_iff.mpr hr)
        · intro he
          exact ⟨c, _, _, ctor, hn', hc, hpr, NodeCtor.received_eq_iff.mp (hk.symm.trans he)⟩
      rw [hsat]
      simp [h.not_saturated hp]
    · unfold Saturated
      rw [Cells.getElem?_set hn, if_neg (Ne.symm hm)]
      simp [hm]

theorem pair_valid {r m j d : ℕ}
    (hp : principalWires[p]? = some ⟨n, i, none, false⟩)
    (hr : principalWires[r]? = some ⟨m, j, none, false⟩) (hne : p ≠ r) (hc : CtorOf nodes n c)
    (hd : CtorOf nodes m d) :
    t.Valid P ((principalWires.set p ⟨n, i, some r, false⟩).set r ⟨m, j, some p, false⟩) nodes ↔
      t.Valid P principalWires nodes ∨ ∃ rule, P.HasRule rule ∧
        (t = .activePair p r rule ∧ rule.leftNodeCtor = c ∧ rule.rightNodeCtor = d ∨
          t = .activePair r p rule ∧ rule.leftNodeCtor = d ∧ rule.rightNodeCtor = c) := by
  cases t with
  | primitive m => simp [Task.Valid]
  | activePair q q' rule =>
    unfold Task.Valid Oppsites
    simp only [getElem?_pair hp hr hne]
    constructor
    · rintro ⟨⟨n', i', m', j', hq, hq', hc', hd'⟩, hrule⟩
      split at hq
      · subst q
        cases hq
        rw [if_neg hne.symm, if_pos rfl] at hq'
        cases hq'
        exact .inr ⟨rule, hrule, .inr ⟨rfl, hc'.unique hd, hd'.unique hc⟩⟩
      · split at hq
        · subst q
          cases hq
          rw [if_pos rfl] at hq'
          cases hq'
          exact .inr ⟨rule, hrule, .inl ⟨rfl, hc'.unique hc, hd'.unique hd⟩⟩
        · -- The oppsite of an old principal wire is none of the two.
          rename_i hrq hpq
          split at hq'
          · cases hq'
            exact (hpq rfl).elim
          · split at hq'
            · cases hq'
              exact (hrq rfl).elim
            · exact .inl ⟨⟨n', i', m', j', hq, hq', hc', hd'⟩, hrule⟩
    · rintro (⟨⟨n', i', m', j', hq, hq', hrest⟩, hrule⟩ |
        ⟨rule', hrule, ⟨he, rfl, rfl⟩ | ⟨he, rfl, rfl⟩⟩)
      · have hpq : ∀ {q n' i' q' : ℕ}, principalWires[q]? = some ⟨n', i', some q', false⟩ →
            p ≠ q ∧ r ≠ q := by
          intro q n' i' q' hq
          constructor
          · rintro rfl; cases hp.symm.trans hq
          · rintro rfl; cases hr.symm.trans hq
        refine ⟨⟨n', i', m', j', ?_, ?_, hrest⟩, hrule⟩
        · rw [if_neg (hpq hq).2, if_neg (hpq hq).1, hq]
        · rw [if_neg (hpq hq').2, if_neg (hpq hq').1, hq']
      · cases he
        refine ⟨⟨n, i, m, j, ?_, ?_, hc, hd⟩, hrule⟩
        · rw [if_neg hne.symm, if_pos rfl]
        · rw [if_pos rfl]
      · cases he
        refine ⟨⟨m, j, n, i, ?_, ?_, hd, hc⟩, hrule⟩
        · rw [if_pos rfl]
        · rw [if_neg hne.symm, if_pos rfl]

/-- To destroy a principal wire takes away the redex that it has with its oppsite. -/
theorem destroy_valid {o : Option ℕ}
    (hp : principalWires[p]? = some ⟨n, i, o, false⟩) :
    t.Valid P (principalWires.set p ⟨n, i, o, true⟩) nodes ↔
      t.Valid P principalWires nodes ∧ ∀ r ∈ o, t.redex ≠ .activePair s(p, r) := by
  cases t with
  | primitive m => simp [Task.Valid, Task.redex]
  | activePair q q' rule =>
    have hget : ∀ {q n' i' r : ℕ}, (principalWires.set p ⟨n, i, o, true⟩)[q]? =
        some ⟨n', i', some r, false⟩ ↔
          q ≠ p ∧ principalWires[q]? = some ⟨n', i', some r, false⟩ := by
      intro q n' i' r
      rw [Cells.getElem?_set hp]
      split
      · subst q; simp
      · simp [Ne.symm ‹¬ p = q›]
    unfold Task.Valid Oppsites Task.redex
    simp only [hget]
    constructor
    · rintro ⟨⟨n', i', m', j', ⟨hqp, hq⟩, ⟨hqp', hq'⟩, hrest⟩, hrule⟩
      refine ⟨⟨⟨n', i', m', j', hq, hq', hrest⟩, hrule⟩, ?_⟩
      rintro r - he
      have hm : p ∈ s(q, q') := by
        rw [Redex.activePair.inj he]
        exact Sym2.mem_mk_left p r
      rcases Sym2.mem_iff.mp hm with rfl | rfl
      · exact hqp rfl
      · exact hqp' rfl
    · rintro ⟨⟨⟨n', i', m', j', hq, hq', hrest⟩, hrule⟩, hne⟩
      refine ⟨⟨n', i', m', j', ⟨?_, hq⟩, ⟨?_, hq'⟩, hrest⟩, hrule⟩
      · rintro rfl
        cases hp.symm.trans hq
        exact hne q' rfl rfl
      · rintro rfl
        cases hp.symm.trans hq'
        exact hne q rfl (congrArg Redex.activePair Sym2.eq_swap)

theorem recycle_valid (hn : nodes[n]? = some ⟨some c, l, k⟩)
    (hp : ∀ (p i : ℕ) (o : Option ℕ), principalWires[p]? ≠ some ⟨n, i, o, false⟩) :
    t.Valid P principalWires (nodes.set n ⟨none, [], 0⟩) ↔
      t.Valid P principalWires nodes ∧ t.redex ≠ .primitive n := by
  cases t with
  | activePair q q' rule =>
    have hctor : ∀ {p m i d : ℕ} {o : Option ℕ}, principalWires[p]? = some ⟨m, i, o, false⟩ →
        (CtorOf (nodes.set n ⟨none, [], 0⟩) m d ↔ CtorOf nodes m d) := by
      intro p m i d o hm
      unfold CtorOf
      rw [Cells.getElem?_set hn, if_neg]
      rintro rfl
      exact hp p i o hm
    unfold Task.Valid Oppsites Task.redex
    constructor
    · rintro ⟨⟨n', i', m', j', hq, hq', hc', hd'⟩, hrule⟩
      exact ⟨⟨⟨n', i', m', j', hq, hq', (hctor hq).mp hc', (hctor hq').mp hd'⟩, hrule⟩, nofun⟩
    · rintro ⟨⟨⟨n', i', m', j', hq, hq', hc', hd'⟩, hrule⟩, -⟩
      exact ⟨⟨n', i', m', j', hq, hq', (hctor hq).mpr hc', (hctor hq').mpr hd'⟩, hrule⟩
  | primitive m =>
    change Saturated P _ m ↔ Saturated P nodes m ∧ Redex.primitive m ≠ .primitive n
    unfold Saturated
    rw [Cells.getElem?_set hn]
    by_cases hm : n = m
    · subst hm
      simp
    · rw [if_neg hm]
      simp [Ne.symm hm]

end Shape

end InetLisp
