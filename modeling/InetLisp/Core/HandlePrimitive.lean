import InetLisp.Core.Disconnect

/-! # Handling a primitive keeps the invariant

While its primitive runs, a node keeps its ports, but what the input ports hold counts as
taken. The node is a redex until it is recycled.
-/

namespace InetLisp

open Lib

variable {P : Program} {missed : Set Redex} {net net' : Net} {s s' : Store}
  {outside outside' : Multiset Value} {tasks : Multiset Task} {G : Open} {n i k p c : ℕ}
  {v : Value} {l : Slots Value} {ctor : NodeCtor} {primitive : NodePrimitive}

/-- What a task needs besides: the functions of rules, and the primitives of node ctors. -/
structure Program.Closed (P : Program) : Prop extends P.Ok where
  function : ∀ rule, P.HasRule rule → ∃ function, P.functions[rule.function]? = some function
  /-- The ports of a node ctor are the inputs and the outputs of its primitive. -/
  primitiveArity : ∀ (c k : ℕ) (ctor : NodeCtor), P.nodeCtor c = some ctor →
    ctor.primitive = some (.primitive k) → ∃ p, P.primitives[k]? = some p ∧
      p.inputArity + p.outputArity = ctor.arity
  /-- A definition adds no node ctor for the application of a wire. -/
  apply : ∀ (c arity : ℕ) (ctor : NodeCtor), P.nodeCtor c = some ctor →
    ctor.primitive = some (.apply arity) → ctor ∈ applyNodeCtors

theorem Program.mem_of_nodeCtor {P : Program} {c : ℕ} {ctor : NodeCtor}
    (h : P.nodeCtor c = some ctor) :
    ctor ∈ applyNodeCtors ∨ maxApplyArity ≤ c ∧ ctor ∈ P.nodeCtors := by
  have hlen : applyNodeCtors.length = maxApplyArity := by simp [applyNodeCtors]
  by_cases hc : c < maxApplyArity
  · left
    rw [Program.nodeCtor, List.getElem?_append_left (hlen.symm ▸ hc)] at h
    exact List.mem_of_getElem? h
  · right
    rw [not_lt] at hc
    rw [Program.nodeCtor, List.getElem?_append_right (hlen.symm ▸ hc)] at h
    exact ⟨hc, List.mem_of_getElem? h⟩

/-- A program without primitive nodes, all of whose ctors have one principal port at most. -/
theorem Program.Closed.of_user {P : Program}
    (hu : ∀ ctor ∈ P.nodeCtors, ctor.primitive = none ∧
      ∀ i j, ctor.IsPrincipal i → ctor.IsPrincipal j → i = j)
    (hr : ∀ ctor ∈ P.nodeCtors, ∀ rule ∈ ctor.ruleArray, maxApplyArity ≤ rule.leftNodeCtor ∧
      maxApplyArity ≤ rule.rightNodeCtor ∧ rule.function < P.functions.length)
    (hp : ∀ p ∈ P.primitives, p.nodeCtor = none) : P.Closed := by
  have happly : ∀ ctor ∈ applyNodeCtors, (∃ arity, ctor.primitive = some (.apply arity)) ∧
      ctor.ruleArray = [] ∧ ctor.IsPrincipal 0 := by
    intro ctor h
    obtain ⟨i, -, rfl⟩ := List.mem_map.mp h
    exact ⟨⟨_, rfl⟩, rfl, ⟨"target", true⟩, rfl, rfl⟩
  have huser : ∀ c ctor, P.nodeCtor c = some ctor → maxApplyArity ≤ c → ctor.primitive = none := by
    intro c ctor hc hle
    have hlen : applyNodeCtors.length = maxApplyArity := by simp [applyNodeCtors]
    rw [Program.nodeCtor, List.getElem?_append_right (hlen.symm ▸ hle)] at hc
    exact (hu ctor (List.mem_of_getElem? hc)).1
  have hrule : ∀ c ctor rule, P.nodeCtor c = some ctor → rule ∈ ctor.ruleArray →
      ctor ∈ P.nodeCtors := by
    intro c ctor rule hc hmem
    rcases Program.mem_of_nodeCtor hc with ha | ⟨-, hm⟩
    · rw [(happly ctor ha).2.1] at hmem
      cases hmem
    · exact hm
  constructor
  · constructor
    · intro c ctor hc hnone
      rcases Program.mem_of_nodeCtor hc with ha | ⟨-, hm⟩
      · obtain ⟨arity, he⟩ := (happly ctor ha).1
        rw [he] at hnone
        cases hnone
      · exact (hu ctor hm).2
    · rintro c ctor rule hc hmem c' (rfl | rfl) ctor' hc'
      · exact huser _ ctor' hc' (hr ctor (hrule c ctor rule hc hmem) rule hmem).1
      · exact huser _ ctor' hc' (hr ctor (hrule c ctor rule hc hmem) rule hmem).2.1
    · intro c ctor hc hsome
      rcases Program.mem_of_nodeCtor hc with ha | ⟨-, hm⟩
      · exact ⟨0, (happly ctor ha).2.2⟩
      · exact (hsome (hu ctor hm).1).elim
    · intro k p c hk he
      rw [hp p (List.mem_of_getElem? hk)] at he
      cases he
  · rintro rule ⟨c, ctor, -, hc, hmem⟩
    have hlt := (hr ctor (hrule c ctor rule hc hmem) rule hmem).2.2
    exact ⟨_, List.getElem?_eq_getElem hlt⟩
  · intro c k ctor hc he
    rcases Program.mem_of_nodeCtor hc with ha | ⟨-, hm⟩
    · obtain ⟨arity, ha⟩ := (happly ctor ha).1
      rw [ha] at he
      cases he
    · rw [(hu ctor hm).1] at he
      cases he
  · intro c arity ctor hc he
    rcases Program.mem_of_nodeCtor hc with ha | ⟨-, hm⟩
    · exact ha
    · rw [(hu ctor hm).1] at he
      cases he

theorem isPrincipal_of_mem_applyNodeCtors {arity : ℕ} (h : ctor ∈ applyNodeCtors)
    (hp : ctor.primitive = some (.apply arity)) : ctor.IsPrincipal 0 ∧ ctor.arity = arity + 2 := by
  obtain ⟨i, -, rfl⟩ := List.mem_map.mp h
  cases hp
  constructor
  · exact ⟨⟨"target", true⟩, rfl, rfl⟩
  · simp [NodeCtor.arity]

theorem Program.Closed.arity_eq (hP : P.Closed) (hc : P.nodeCtor c = some ctor)
    (hp : ctor.primitive = some primitive) :
    (P.primitiveArity primitive).1 + (P.primitiveArity primitive).2 = ctor.arity := by
  cases primitive with
  | apply arity => exact (isPrincipal_of_mem_applyNodeCtors (hP.apply c arity ctor hc hp) hp).2.symm
  | primitive k =>
    obtain ⟨p, hk, ha⟩ := hP.primitiveArity c k ctor hc hp
    simp only [Program.primitiveArity, hk, Option.elim]
    exact ha

theorem Inv.not_principalWire (h : Inv P missed net outside tasks G)
    (hs : Saturated P net.nodes n) (hn : net.nodes[n]? = some ⟨some c, l, k⟩)
    (hi : l.get i = some v) (ht : (n, i) ∉ G.taken) : ∀ p, v ≠ .principalWire p := by
  rintro p rfl
  obtain ⟨c', l', k', ctor, hn', hc, -, hr⟩ := hs
  cases hn.symm.trans hn'
  obtain ⟨o, hp⟩ := h.shape.port n c l k i p hn hi ht
  obtain ⟨-, c₁, l₁, k₁, ctor₁, hn₁, hi₁, hc₁, hpr⟩ := h.shape.owner p n i o hp
  cases hn.symm.trans hn₁
  cases hc.symm.trans hc₁
  have := hr i hpr
  rw [hi] at this
  exact this

theorem Inv.no_principalWire (h : Inv P missed net outside tasks G)
    (hs : Saturated P net.nodes n) (p i : ℕ) (o : Option ℕ) :
    net.principalWires[p]? ≠ some ⟨n, i, o, false⟩ := by
  intro hp
  obtain ⟨ht, c, l, k, ctor, hn, hi, hc, hpr⟩ := h.shape.owner p n i o hp
  exact h.not_principalWire hs hn hi ht p rfl

namespace Store.Ok

/-- The loop over the inputs, of which the first is pushed first. -/
theorem pushInputs {b : ℕ} (h : s.Ok P missed outside tasks G) (hs : Saturated P s.nodes n)
    (hn : s.nodes[n]? = some ⟨some c, l, k⟩) (hl : ∀ j < i + b, l.get j ≠ none)
    (ht : ∀ j, i ≤ j → (n, j) ∉ G.taken) :
    Outcome Error.Expected (fun s' =>
      s'.Ok P missed outside tasks { G with taken := G.taken ∪ above n i b } ∧
        s'.toNet = s.toNet ∧ s'.valueStack.drop b = s.valueStack ∧
          ∀ u, l.get i = some u → 0 < b → s'.valueStack.drop (b - 1) = u :: s.valueStack)
      (s.pushInputs n b i) := by
  induction b generalizing s i G with
  | zero =>
    rw [above_zero, Set.union_empty]
    exact ⟨h, rfl, rfl, nofun⟩
  | succ b ih =>
    obtain ⟨v, hi⟩ := Option.ne_none_iff_exists'.mp (hl i (by omega))
    have hget : s.getValue n i = .ok v := by simp [Net.getValue, hn, hi]
    unfold Store.pushInputs
    rw [hget, Outcome.ok_bind]
    have h₁ := h.toInv.takePort hn hi (h.not_principalWire hs hn hi (ht i le_rfl)) (ht i le_rfl)
    rw [← Multiset.cons_add] at h₁
    have h₂ : (s.push v).Ok P missed outside tasks { G with taken := insert (n, i) G.taken } :=
      (of_inv h₁).push
    have ht₁ : ∀ j, i + 1 ≤ j → (n, j) ∉ insert (n, i) G.taken := by
      rintro j hj (he | hT)
      · cases he
        omega
      · exact ht j (by omega) hT
    have h₃ := ih h₂ hs hn (fun j hj => hl j (by omega)) ht₁
    dsimp only at h₃
    rw [union_above] at h₃
    apply h₃.mono
    rintro s₁ ⟨h₁, hnet, hd, -⟩
    have hd' : s₁.valueStack.drop b = v :: s.valueStack := hd
    refine ⟨h₁, hnet, ?_, ?_⟩
    · rw [← List.drop_drop, hd']
      rfl
    · intro u hu _
      cases hi.symm.trans hu
      exact hd'

/-- What comes out of an application: the invariant, and a function that can be entered. -/
def Applies (P : Program) (missed : Set Redex) (outside : Multiset Value)
    (tasks : Multiset Task) (G : Open) (x : Except Error (Store × Option ℕ)) : Prop :=
  Outcome Error.Expected (fun (s', f) => s'.Ok P missed outside tasks G ∧
    ∀ g ∈ f, ∃ function, P.functions[g]? = some function) x

theorem direct_of_isNonWire (hv : v.IsNonWire) : Direct net v := by
  rintro net' w hd
  cases v with
  | wire _ => exact hv.elim
  | principalWire _ => exact hv.elim
  | _ => cases hd

theorem xApply {arity : ℕ} {rest : List Value} (hP : P.Ok) (hG : G.unset = ∅)
    (h : s.Ok P missed outside tasks G) (hd : s.valueStack.drop arity = v :: rest)
    (hv : v.IsNonWire) : Applies P missed outside tasks G (s.xApply P arity) := by
  unfold Store.xApply
  rw [hd]
  have hperm : (↑(s.valueStack.take arity ++ rest) : Multiset Value) + v ::ₘ outside =
      ↑s.valueStack + outside := by
    have hs : (↑s.valueStack : Multiset Value) =
        v ::ₘ ↑(s.valueStack.take arity ++ rest) := by
      rw [Multiset.cons_coe, Multiset.coe_eq_coe]
      have : (s.valueStack.take arity ++ v :: rest).Perm
          (v :: (s.valueStack.take arity ++ rest)) := List.perm_middle
      rwa [← hd, List.take_append_drop] at this
    rw [hs, Multiset.cons_add, Multiset.add_cons]
  have h₁ : ({ s with valueStack := s.valueStack.take arity ++ rest } : Store).Ok P missed
      (v ::ₘ outside) tasks G := h.congr rfl hperm rfl
  exact h₁.applyTarget hP hG (direct_of_isNonWire hv)

theorem applyNodePrimitive (hP : P.Closed) (h : s.Ok P missed outside tasks G)
    (hG : G.unset = ∅) (hc : P.nodeCtor c = some ctor)
    (hp : ctor.primitive = some primitive)
    (hd : ∀ arity, primitive = .apply arity →
      ∃ v rest, s.valueStack.drop arity = v :: rest ∧ v.IsNonWire) :
    Applies P missed outside tasks G (s.applyNodePrimitive P primitive) := by
  cases primitive with
  | apply arity =>
    obtain ⟨v, rest, hd, hv⟩ := hd arity rfl
    exact h.xApply hP.toOk hG hd hv
  | primitive k =>
    obtain ⟨p, hk, -⟩ := hP.primitiveArity c k ctor hc hp
    unfold Store.applyNodePrimitive
    dsimp only
    rw [hk]
    apply h.applyPrimitive.bind
    intro s' h'
    exact ⟨h', nofun⟩

theorem shape_of_connect {left right : Value} (h : s.connect P left right = .ok s') :
    s'.shape = s.shape := by
  obtain ⟨⟨net, task⟩, hc, h⟩ := Outcome.of_bind_eq_ok h
  cases h
  rw [toNet_addFound]
  exact (connect_shape hc).1

theorem insert_union_above {b : ℕ} {T : Set (ℕ × ℕ)} :
    insert (n, i + b) T ∪ above n i b = T ∪ above n i (b + 1) := by
  ext ⟨m, j⟩
  simp only [Set.mem_union, Set.mem_insert_iff, Prod.mk.injEq, above, Set.mem_ofPred_eq]
  constructor
  · rintro ((⟨rfl, rfl⟩ | hT) | ⟨rfl, hj⟩)
    · exact .inr ⟨rfl, by omega⟩
    · exact .inl hT
    · exact .inr ⟨rfl, by omega⟩
  · rintro (hT | ⟨rfl, hj⟩)
    · exact .inl (.inr hT)
    · by_cases h : j = i + b
      · exact .inl (.inl ⟨rfl, h⟩)
      · exact .inr ⟨rfl, by omega⟩

theorem connectOutputs {b : ℕ} (h : s.Ok P missed outside (.primitive n ::ₘ tasks) G)
    (hG : G.unset = ∅) (hn : CtorOf s.nodes n c)
    (hc : P.nodeCtor c = some ctor) (hb : i + b ≤ ctor.arity)
    (ht : ∀ j, i ≤ j → j < i + b → (n, j) ∉ G.taken) :
    Outcome Error.Expected (fun s' =>
      s'.Ok P missed outside (.primitive n ::ₘ tasks) { G with taken := G.taken ∪ above n i b } ∧
        s'.shape = s.shape) (s.connectOutputs P n i b) := by
  induction b generalizing s G with
  | zero =>
    rw [above_zero, Set.union_empty]
    exact ⟨h, rfl⟩
  | succ b ih =>
    obtain ⟨l, k, hl⟩ := hn
    have hi : l.get (i + b) ≠ none := by
      apply h.shape.filled n c l k ctor (i + b) hl hc (by omega)
      rw [hG]
      exact Set.notMem_empty _
    obtain ⟨v, hi⟩ := Option.ne_none_iff_exists'.mp hi
    have hget : s.getValue n (i + b) = .ok v := by simp [Net.getValue, hl, hi]
    unfold Store.connectOutputs
    rw [hget, Outcome.ok_bind]
    split
    · rename_i w
      have hT := ht (i + b) (by omega) (by omega)
      have hv : ∀ p, Value.wire w ≠ .principalWire p := by
        intro p he
        cases he
      have h₁ := h.toInv.takePort hl hi hv hT
      rw [← Multiset.cons_add] at h₁
      have h₁ : s.Ok P missed (.wire w ::ₘ outside) (.primitive n ::ₘ tasks)
          { G with taken := insert (n, i + b) G.taken } := of_inv h₁
      apply h₁.pop.bind
      rintro ⟨result, s₂⟩ ⟨h₂, hnet, -⟩
      rw [Multiset.cons_swap] at h₂
      apply h₂.connect.and_eq.bind
      rintro s₃ ⟨h₃, he⟩
      have hs : s₃.shape = s.shape := by
        rw [shape_of_connect he, hnet]
      have hn₃ : CtorOf s₃.nodes n c := by
        rw [ctorOf_iff, hs, ← ctorOf_iff]
        exact ⟨l, k, hl⟩
      have hT₃ : ∀ j, i ≤ j → j < i + b → (n, j) ∉ insert (n, i + b) G.taken := by
        rintro j hij hj (he | hT)
        · cases he
          omega
        · exact ht j hij (by omega) hT
      apply (ih h₃ hG hn₃ (by omega) hT₃).mono
      rintro s₄ ⟨h₄, hs₄⟩
      refine ⟨?_, hs₄.trans hs⟩
      rw [insert_union_above] at h₄
      exact h₄
    · exact ⟨trivial, by decide⟩

end Store.Ok

namespace Worker.Ok

variable {w : Worker}

theorem enterPrimitive (hP : P.Closed) (hG : G.unset = ∅) (h : w.Ok P missed outside tasks G)
    (hs : Saturated P w.nodes n) (hn : CtorOf w.nodes n c) (hc : P.nodeCtor c = some ctor)
    (hp : ctor.primitive = some primitive) (ht : ∀ j, (n, j) ∉ G.taken) :
    Outcome Error.Expected (fun w' => w'.Ok P missed outside tasks
      { G with taken := G.taken ∪ Store.Ok.above n 0 (P.primitiveArity primitive).1 })
      (w.enterPrimitive P n primitive) := by
  obtain ⟨l, k, hl⟩ := hn
  have ha := hP.arity_eq hc hp
  have hget : ∀ j < 0 + (P.primitiveArity primitive).1, l.get j ≠ none := by
    intro j hj
    apply h.store.shape.filled n c l k ctor j hl hc (by omega)
    rw [hG]
    exact Set.notMem_empty _
  unfold Worker.enterPrimitive
  apply (h.store.pushInputs hs hl hget (fun j _ => ht j)).bind
  rintro s₁ ⟨h₁, -, -, hd⟩
  have htarget : ∀ arity, primitive = .apply arity →
      ∃ v rest, s₁.valueStack.drop arity = v :: rest ∧ v.IsNonWire := by
    rintro arity rfl
    have hpr := (isPrincipal_of_mem_applyNodeCtors (hP.apply c arity ctor hc hp) hp).1
    obtain ⟨c', l', k', ctor', hl', hc', -, hr⟩ := hs
    cases hl.symm.trans hl'
    cases hc.symm.trans hc'
    have hr := hr 0 hpr
    obtain ⟨v, hv⟩ := Option.ne_none_iff_exists'.mp (hget 0 (Nat.succ_pos _))
    rw [hv] at hr
    exact ⟨v, w.valueStack, hd v hv (Nat.succ_pos _), hr⟩
  apply (h₁.applyNodePrimitive hP hG hc hp htarget).bind
  rintro ⟨s₂, f⟩ ⟨h₂, hf⟩
  apply Ok.enter _ hf
  exact ⟨h₂, h.function⟩

/-- The outputs are connected, and the node with its redex is gone. -/
theorem leavePrimitive (hP : P.Closed) (hG : G.unset = ∅)
    (h : w.Ok P missed outside (.primitive n ::ₘ tasks)
      { G with taken := G.taken ∪ Store.Ok.above n 0 (P.primitiveArity primitive).1 })
    (hn : CtorOf w.nodes n c) (hc : P.nodeCtor c = some ctor)
    (hp : ctor.primitive = some primitive) (ht : ∀ j, (n, j) ∉ G.taken) :
    Outcome Error.Expected (fun w' => w'.Ok P missed outside tasks G)
      (w.leavePrimitive P n primitive) := by
  have ha := hP.arity_eq hc hp
  unfold Worker.leavePrimitive
  have hT : ∀ j, (P.primitiveArity primitive).1 ≤ j →
      j < (P.primitiveArity primitive).1 + (P.primitiveArity primitive).2 →
        (n, j) ∉ G.taken ∪ Store.Ok.above n 0 (P.primitiveArity primitive).1 := by
    rintro j hj - (hm | ⟨-, -, hm⟩)
    · exact ht j hm
    · dsimp only at hm
      omega
  apply (h.store.connectOutputs hG hn hc ha.le hT).bind
  rintro s₁ ⟨h₁, hs⟩
  have hn₁ : CtorOf s₁.nodes n c := by
    rw [ctorOf_iff, hs, ← ctorOf_iff]
    exact hn
  obtain ⟨l, k, hl⟩ := hn₁
  have hrec : s₁.recycleNode n = .ok (s₁.setNode n ⟨none, [], 0⟩) := by
    simp [Net.recycleNode, hl]
  rw [hrec, Outcome.ok_bind]
  have hsat : Saturated P s₁.nodes n := by
    apply h₁.pending.valid (.primitive n)
    rw [Multiset.add_cons]
    exact Multiset.mem_cons_self _ _
  have hnone : ∀ (q j : ℕ) (o : Option ℕ), s₁.principalWires[q]? ≠ some ⟨n, j, o, false⟩ :=
    fun q j o => h₁.no_principalWire hsat q j o
  have hpend := h₁.pending
  rw [Multiset.add_cons] at hpend
  obtain ⟨hpend, hx⟩ := hpend.erase
  have hpend' := hpend.remove hx fun t => Shape.recycle_valid hl hnone
  have h₂ := Inv.recycle h₁ hl hnone hpend'
  have htaken : {x ∈ G.taken ∪ Store.Ok.above n 0 (P.primitiveArity primitive).1 ∪
      Store.Ok.above n (P.primitiveArity primitive).1 (P.primitiveArity primitive).2 | x.1 ≠ n} =
      G.taken := by
    ext ⟨m, j⟩
    simp only [Set.mem_union, Set.mem_ofPred_eq, Store.Ok.above, ne_eq]
    constructor
    · rintro ⟨(hm | ⟨rfl, -⟩) | ⟨rfl, -⟩, hne⟩
      · exact hm
      · exact (hne rfl).elim
      · exact (hne rfl).elim
    · intro hm
      refine ⟨.inl (.inl hm), ?_⟩
      rintro rfl
      exact ht j hm
  dsimp only at h₂
  rw [htaken] at h₂
  exact ⟨h₂, h.function⟩

end Worker.Ok

end InetLisp
