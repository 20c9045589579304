import InetLisp.Lang.Chronicle

/-! # Each firing is recorded

When a worker takes an active pair out of its queue, wherever it stands there, and fires the rule,
then the two nodes can meet by the chronicle, and the chronicle with this meeting added is one of
the new net.
-/

namespace InetLisp

open Lib Wiring Net.Parts

/-- An active pair is taken out of the queue and handled. -/
def Worker.Fires (P : Program) (w w' : Worker) : Prop :=
  ∃ l₁ p q rule l₂ fuel, w.taskQueue = l₁ ++ .activePair p q rule :: l₂ ∧
    ({ w with taskQueue := l₁ ++ l₂ } : Worker).handleTaskActivePair P fuel p q rule = .ok w'

/-- So many active pairs are handled, one after the other, in some order. -/
inductive Worker.FiresIn (P : Program) (w : Worker) : ℕ → Worker → Prop
  | refl : FiresIn P w 0 w
  | step {k : ℕ} {w' w'' : Worker} (h : FiresIn P w k w') (hf : w'.Fires P w'') :
      FiresIn P w (k + 1) w''

/-- The numbers in the net that a run starts from. -/
def Numbering.start : Numbering where
  node
    | .init n => n
    | .born .. => 0
  link _ k := k

/-- What a firing draws gets numbers from these on. -/
def Numbering.extend (ν : Numbering) (f : Firing) (next links : ℕ) : Numbering where
  node
    | .born left right rule k =>
      if ⟨left, right, rule⟩ = f then next + k else ν.node (.born left right rule k)
    | .init n => ν.node (.init n)
  link g k := if g = some f then links + k else ν.link g k

variable {P : Program} {T : Rule → Drawing} {bodies : List Body} {start w w' : Worker}
  {outside : Multiset Value} {F : List Firing} {f : Firing} {ν : Numbering}
  {links next n m c i j k p q : ℕ} {x y : Name} {z z' : Place} {e : End} {rule : Rule}
  {left right : NodeCtor}

theorem toEnd_start : Numbering.start.toEnd (.ofEnd e) = e := by
  cases e <;> rfl

theorem Records.nil (h : w.Ok P ∅ outside 0 {}) (hX : w.Principals P ∅) :
    Records P T w outside [] .start 0 w where
  ok := h
  principals := hX
  valueStack := rfl
  returnStack := rfl
  run := .nil
  ctorOf n c := by
    constructor
    · exact fun hn => ⟨.init n, .inl ⟨n, c, rfl, hn⟩, by simp [Meetings.gone], hn, rfl⟩
    · rintro ⟨-, ⟨m, d, rfl, -⟩ | ⟨-, ⟨⟩, -⟩, -, hc, rfl⟩
      exact hc
  node := by
    rintro - (⟨n, -, rfl, -⟩ | ⟨-, ⟨⟩, -⟩) - (⟨m, -, rfl, -⟩ | ⟨-, ⟨⟩, -⟩) he
    exact congrArg Name.init he
  nodeLt := by
    rintro - (⟨n, c, rfl, l, k, hn⟩ | ⟨-, ⟨⟩, -⟩)
    exact Cells.lt_length hn
  link := by
    rintro f k f' k' ⟨-, ⟨⟩, -⟩
  linkLt := by
    rintro f k ⟨-, ⟨⟩, -⟩
  pictures := by
    have hbase : ((firings P T w outside).wiring []).map Numbering.start.toEnd = w.Tied := by
      ext a b
      constructor
      · rintro ⟨-, -, ⟨a, b, hab, rfl, rfl⟩ | ⟨-, ⟨⟩, -⟩, rfl, rfl⟩
        rwa [toEnd_start, toEnd_start]
      · exact fun hab => ⟨.ofEnd a, .ofEnd b, .inl ⟨a, b, hab, rfl, rfl⟩, toEnd_start, toEnd_start⟩
    rw [hbase]
    exact w.pictures _

/-! ### Numbers for what is new -/

theorem mem_of_born (h : Name.born x y rule k ∈ (firings P T start outside).born F) :
    ⟨x, y, rule⟩ ∈ F := by
  obtain ⟨n, c, he, -⟩ | ⟨f, hf, k, c, he, -⟩ := h
  · cases he
  · cases he
    exact hf

theorem extend_born :
    (ν.extend f next links).node (.born f.left f.right f.rule k) = next + k := if_pos rfl

theorem extend_of_mem (hf : f ∉ F) (hx : x ∈ (firings P T start outside).born F) :
    (ν.extend f next links).node x = ν.node x := by
  cases x with
  | init n => rfl
  | born left right rule k =>
    apply if_neg
    rintro rfl
    exact hf (mem_of_born hx)

theorem extend_link (hf : f ∉ F) {g : Option Firing} (hk : KnownLink T F g k) :
    (ν.extend f next links).link g k = ν.link g k := by
  obtain ⟨g, hg, rfl, -⟩ := hk
  apply if_neg
  rintro ⟨⟩
  exact hf hg

/-- What has been there keeps its number. -/
theorem toEnd_extend (hf : f ∉ F) (hz : z ∈ Known P T start outside F) :
    (ν.extend f next links).toEnd z = ν.toEnd z := by
  cases z with
  | port x i => exact congrArg (End.port · i) (extend_of_mem hf hz)
  | link g k b => exact congrArg (End.link · b) (extend_link hf hz)
  | value v => rfl

theorem toEnd_place (hf : f ∉ F) (hx : f.left ∈ (firings P T start outside).born F)
    (hy : f.right ∈ (firings P T start outside).born F) :
    (ν.extend f next links).toEnd (f.place e) =
      e.rename (.ofPair (ν.node f.left) (ν.node f.right) next links) := by
  cases e with
  | port k i =>
    match k with
    | 0 => exact congrArg (End.port · i) (extend_of_mem hf hx)
    | 1 => exact congrArg (End.port · i) (extend_of_mem hf hy)
    | k + 2 => exact congrArg (End.port · i) extend_born
  | link k b => exact congrArg (End.link · b) (if_pos rfl)
  | value v => rfl

/-- What has not been there is new. -/
theorem fresh_of_not_known (hT : P.Drawn bodies T) (hF : (firings P T start outside).Sealed F)
    (hz : z ∉ Known P T start outside F) : (firings P T start outside).Fresh F z := by
  refine ⟨fun b => ⟨?_, ?_⟩, ?_, ?_⟩
  · exact fun hb => hz (known_of_wiring hT hF hb).1
  · exact fun hb => hz (known_of_wiring hT hF hb).2
  · rintro ⟨v, -, -, rfl⟩
    exact hz trivial
  · rintro x hx ⟨i, rfl⟩
    exact hz hx

theorem fresh_of_born (hT : P.Drawn bodies T) (hF : (firings P T start outside).Sealed F)
    (hf : f ∉ F) :
    (firings P T start outside).Fresh F (.port (.born f.left f.right f.rule k) i) :=
  fresh_of_not_known hT hF fun hz => hf (mem_of_born hz)

theorem wiring_rename {ρ : Naming} {l : List (End × End)} :
    Drawing.wiring (l.map (Prod.map (End.rename ρ) (End.rename ρ))) =
      (Drawing.wiring l).map (End.rename ρ) := by
  ext a b
  constructor
  · rintro ⟨t, ht, hab⟩
    obtain ⟨t, hm, rfl⟩ := List.mem_map.mp ht
    rcases hab with ⟨rfl, rfl⟩ | ⟨rfl, rfl⟩
    · exact ⟨t.1, t.2, ⟨t, hm, tie_mk⟩, rfl, rfl⟩
    · exact ⟨t.2, t.1, ⟨t, hm, .inr ⟨rfl, rfl⟩⟩, rfl, rfl⟩
  · rintro ⟨a, b, ⟨t, hm, ⟨rfl, rfl⟩ | ⟨rfl, rfl⟩⟩, rfl, rfl⟩
    · exact ⟨_, List.mem_map_of_mem hm, tie_mk⟩
    · exact ⟨_, List.mem_map_of_mem hm, .inr ⟨rfl, rfl⟩⟩

/-- The firing is about the two nodes of an active pair. -/
structure Firing.IsAt (P : Program) (T : Rule → Drawing) (start : Worker)
    (outside : Multiset Value) (F : List Firing) (ν : Numbering) (net : Net)
    (p q n i m j : ℕ) (left right : NodeCtor) (f : Firing) : Prop where
  pair : net.PairAt P p q n i m j f.rule.leftNodeCtor f.rule.rightNodeCtor left right
  hasRule : P.HasRule f.rule
  left : f.left ∈ (firings P T start outside).born F ∧ f.left ∉ (firings P T start outside).gone F
  right : f.right ∈ (firings P T start outside).born F ∧
    f.right ∉ (firings P T start outside).gone F
  leftCtor : f.left.HasCtor T start.toNet f.rule.leftNodeCtor
  rightCtor : f.right.HasCtor T start.toNet f.rule.rightNodeCtor
  leftNode : ν.node f.left = n
  rightNode : ν.node f.right = m

theorem mem_principal_iff {ctor : NodeCtor} (hx : x.HasCtor T start.toNet c)
    (hc : P.nodeCtor c = some ctor) (hp : ctor.primitive = none) :
    z ∈ (firings P T start outside).principal x ↔ ∃ i, z = .port x i ∧ ctor.IsPrincipal i := by
  constructor
  · rintro ⟨i, d, ctor', rfl, hd, hctor, -, hi⟩
    cases hd.unique hx
    cases hctor.symm.trans hc
    exact ⟨i, rfl, hi⟩
  · rintro ⟨i, rfl, hi⟩
    exact ⟨i, c, ctor, rfl, hx, hc, hp, hi⟩

namespace Records

variable {net : Net}

theorem exists_isAt (hP : P.Ok) (h : Records P T start outside F ν links w)
    (ht : .activePair p q rule ∈ w.taskQueue) : ∃ (f : Firing) (n i m j : ℕ)
      (left right : NodeCtor), f.rule = rule ∧
        f.IsAt P T start outside F ν w.toNet p q n i m j left right := by
  have hv := h.ok.store.pending.valid (.activePair p q rule) (by simp [ht])
  obtain ⟨n, i, m, j, left, right, hpair⟩ := h.ok.store.exists_pairAt hP hv
  obtain ⟨x, hx, hgx, hcx, hnx⟩ := (h.ctorOf n _).mp hpair.leftNode
  obtain ⟨y, hy, hgy, hcy, hny⟩ := (h.ctorOf m _).mp hpair.rightNode
  exact ⟨⟨x, y, rule⟩, n, i, m, j, left, right, rfl, hpair, hv.2, ⟨hx, hgx⟩, ⟨hy, hgy⟩, hcx, hcy,
    hnx, hny⟩

variable (h : Records P T start outside F ν links w)
  (hf : f.IsAt P T start outside F ν w.toNet p q n i m j left right)

include h hf

omit h in
theorem not_mem : f ∉ F := fun hm => hf.left.2 ⟨f, hm, .inl rfl⟩

theorem mem_pair_iff (hP : P.Ok) : z ∈ (firings P T start outside).pair f ↔
    z = .port f.left i ∨ z = .port f.right j := by
  obtain ⟨hi, hj⟩ := hf.pair.isPrincipal h.ok.store
  apply or_congr
  · refine (mem_principal_iff hf.leftCtor hf.pair.leftCtor hf.pair.leftPrimitive).trans ⟨?_, ?_⟩
    · rintro ⟨k, rfl, hk⟩
      rw [hP.principalPort _ left hf.pair.leftCtor hf.pair.leftPrimitive k i hk hi]
    · rintro rfl
      exact ⟨i, rfl, hi⟩
  · refine (mem_principal_iff hf.rightCtor hf.pair.rightCtor hf.pair.rightPrimitive).trans ⟨?_, ?_⟩
    · rintro ⟨k, rfl, hk⟩
      rw [hP.principalPort _ right hf.pair.rightCtor hf.pair.rightPrimitive k j hk hj]
    · rintro rfl
      exact ⟨j, rfl, hj⟩

theorem meet (hT : P.Drawn bodies T) (hD : P.Deterministic) :
    Leads Place.IsAtom ((firings P T start outside).wiring F) (Place.port f.left i)
      (Place.port f.right j) := by
  have hinv := h.ok.store
  rw [h.leads_iff hT hD (.inr ⟨_, hf.left.1, hf.left.2, i, rfl⟩)
    (.inl (.inr ⟨_, hf.right.1, hf.right.2, j, rfl⟩))]
  change Wiring.Leads _ _ (End.port (ν.node f.left) i) (End.port (ν.node f.right) j)
  rw [hf.leftNode, hf.rightNode]
  have h₁ : w.Tied (.port n i) (.value (.principalWire p)) :=
    (hinv.refers_owner hf.pair.leftWire).tied
  have h₂ : w.Tied (.value (.principalWire p)) (.value (.principalWire q)) :=
    (Net.Refers.oppsite hf.pair.leftWire).tied
  have h₃ : w.Tied (.port m j) (.value (.principalWire q)) :=
    (hinv.refers_owner hf.pair.rightWire).tied
  exact .head ⟨id, .inl h₁⟩ (.head ⟨id, .inl h₂⟩ (.single ⟨id, .inr h₃⟩))

theorem only (hP : P.Ok) (hT : P.Drawn bodies T) (hD : P.Deterministic)
    (hz : z ∈ (firings P T start outside).pair f)
    (hl : Leads Place.IsAtom ((firings P T start outside).wiring F) z z')
    (hz' : z' ∈ (firings P T start outside).visible F ∨ z'.IsAtom) :
    z' ∈ (firings P T start outside).pair f := by
  have hinv := h.ok.store
  rw [h.mem_pair_iff hf hP] at hz ⊢
  have hvisible : z ∈ (firings P T start outside).visible F := by
    rcases hz with rfl | rfl
    · exact .inr ⟨_, hf.left.1, hf.left.2, i, rfl⟩
    · exact .inr ⟨_, hf.right.1, hf.right.2, j, rfl⟩
  have hmem : ν.toEnd z ∈ pairEnds p q n i m j := by
    rcases hz with rfl | rfl
    · exact .inl (congrArg (End.port · i) hf.leftNode)
    · exact .inr (.inl (congrArg (End.port · j) hf.rightNode))
  have hmem' := hinv.mem_pairEnds_of_leads hf.pair.leftWire hf.pair.rightWire hmem
    ((h.leads_iff hT hD hvisible hz').mp hl)
  have hname : ∀ {k x}, Place.port k x ∈ (firings P T start outside).visible F ∨
      (Place.port k x).IsAtom → k ∈ (firings P T start outside).born F := by
    rintro k x ((⟨v, -, -, he⟩ | ⟨y, hy, -, x', he⟩) | hatom)
    · cases he
    · exact (Place.port.inj he).1 ▸ hy
    · exact hatom.elim
  -- A wire of the pair is in use between the two nodes, and is not seen from outside.
  have hwire : ∀ {p n i q : ℕ}, w.principalWires[p]? = some ⟨n, i, some q, false⟩ →
      ν.toEnd z' ≠ .value (.principalWire p) := by
    intro p n i q hp he
    cases z' with
    | value v =>
      cases he
      rcases hz' with (⟨v, hv, -, he⟩ | ⟨x, -, -, k, he⟩) | hatom
      · cases he
        unfold Worker.rest at hv
        rw [← h.valueStack, ← h.returnStack] at hv
        obtain ⟨n', i', hp'⟩ := hinv.principal_of_mem hv
        cases hp.symm.trans hp'
      · cases he
      · exact hatom
    | _ => cases he
  rcases hmem' with he | he | he | he
  · left
    cases z' with
    | port x k =>
      obtain ⟨hx, rfl⟩ := End.port.inj he
      rw [h.node (hname hz') hf.left.1 (hx.trans hf.leftNode.symm)]
    | _ => cases he
  · right
    cases z' with
    | port x k =>
      obtain ⟨hx, rfl⟩ := End.port.inj he
      rw [h.node (hname hz') hf.right.1 (hx.trans hf.rightNode.symm)]
    | _ => cases he
  · exact (hwire hf.pair.leftWire he).elim
  · exact (hwire hf.pair.rightWire he).elim

/-- What is drawn is tied to what is new, or to what is seen of the rest. -/
theorem outer_of_place (hP : P.Ok) (hT : P.Drawn bodies T) (hD : P.Deterministic)
    (he : e.Within (pairPorts left right) (T f.rule))
    (hw : (T f.rule).Within (pairPorts left right) 2) :
    (f.place e).IsAtom ∨ (firings P T start outside).Fresh F (f.place e) ∨
      f.place e ∈ (firings P T start outside).visible F ∧
        f.place e ∉ (firings P T start outside).pair f := by
  have hF := h.run.sealed (lawful_firings hD)
  have hnot := not_mem hf
  obtain ⟨hi, hj⟩ := hf.pair.isPrincipal h.ok.store
  have hne : f.left ≠ f.right := fun hxy => hf.pair.ne (by rw [← hf.leftNode, ← hf.rightNode, hxy])
  rw [h.mem_pair_iff hf hP]
  rcases place_cases start.toNet hw he with ha | ⟨k, ⟨hk, heq⟩ | ⟨hk, heq⟩⟩ |
    ⟨k, k', heq, -⟩ | ⟨k, b, heq, -⟩
  · exact .inl ha
  · refine .inr (.inr ⟨heq ▸ .inr ⟨_, hf.left.1, hf.left.2, k, rfl⟩, ?_⟩)
    rw [heq]
    rintro (he' | he')
    · cases he'
      exact (NodeCtor.mem_freePorts.mp hk).2 hi
    · exact hne (Place.port.inj he').1
  · refine .inr (.inr ⟨heq ▸ .inr ⟨_, hf.right.1, hf.right.2, k, rfl⟩, ?_⟩)
    rw [heq]
    rintro (he' | he')
    · exact hne (Place.port.inj he').1.symm
    · cases he'
      exact (NodeCtor.mem_freePorts.mp hk).2 hj
  · rw [heq]
    exact .inr (.inl (fresh_of_born hT hF hnot))
  · rw [heq]
    refine .inr (.inl (fresh_of_not_known hT hF ?_))
    rintro ⟨g, hg, he', -⟩
    cases he'
    exact hnot hg

theorem fires (hP : P.Ok) (hT : P.Drawn bodies T) (hD : P.Deterministic) :
    (firings P T start outside).Fires F f where
  possible := ⟨hf.hasRule, hf.leftCtor, hf.rightCtor⟩
  left := hf.left
  right := hf.right
  meet := by
    obtain ⟨hi, hj⟩ := hf.pair.isPrincipal h.ok.store
    exact ⟨_, (mem_principal_iff hf.leftCtor hf.pair.leftCtor hf.pair.leftPrimitive).mpr
      ⟨i, rfl, hi⟩, _, (mem_principal_iff hf.rightCtor hf.pair.rightCtor
        hf.pair.rightPrimitive).mpr ⟨j, rfl, hj⟩, h.meet hf hT hD⟩
  only z hz z' hl hz' := h.only hf hP hT hD hz hl hz'
  ties := by
    rintro - - ⟨a, b, ⟨t, ht, hab⟩, rfl, rfl⟩ z hz
    obtain ⟨left', right', hl, hr, hw⟩ := hT.within hf.hasRule
    cases hf.pair.leftCtor.symm.trans hl
    cases hf.pair.rightCtor.symm.trans hr
    obtain ⟨h₁, h₂⟩ := hw.ties t ht
    rcases hab with ⟨rfl, rfl⟩ | ⟨rfl, rfl⟩ <;> rcases hz with rfl | rfl
    · exact h.outer_of_place hf hP hT hD h₁ hw
    · exact h.outer_of_place hf hP hT hD h₂ hw
    · exact h.outer_of_place hf hP hT hD h₂ hw
    · exact h.outer_of_place hf hP hT hD h₁ hw
  births := by
    rintro - ⟨k, c, rfl, -⟩ - ⟨i, rfl⟩
    exact fresh_of_born hT (h.run.sealed (lawful_firings hD)) (not_mem hf)

end Records

/-! ### The chronicle goes on -/

section

variable {d : ℕ} {g : Option Firing}

theorem mem_rename_iff {E : Set End} (hw : (T f.rule).Within E 2) :
    (k, d) ∈ ((T f.rule).rename (.ofPair n m next links)).nodes ↔
      ∃ k', Name.HasCtor T start.toNet (.born f.left f.right f.rule k') d ∧ k = next + k' := by
  simp only [hasCtor_born hw, Drawing.rename, List.mem_map, Prod.exists, Prod.map_apply, id_eq,
    Prod.mk.injEq]
  constructor
  · rintro ⟨r, c, hm, rfl, rfl⟩
    obtain ⟨k', rfl⟩ := Nat.exists_eq_add_of_le' (hw.nodes _ hm).1
    exact ⟨k', hm, rfl⟩
  · rintro ⟨k', hm, rfl⟩
    exact ⟨k' + 2, d, hm, rfl, rfl⟩

theorem mem_born_cons : x ∈ (firings P T start outside).born (f :: F) ↔
    x ∈ (firings P T start outside).born F ∨
      ∃ k c, x = .born f.left f.right f.rule k ∧ x.HasCtor T start.toNet c :=
  Meetings.mem_born_cons

theorem extend_lt {E : Set End} (hw : (T f.rule).Within E 2)
    (hc : Name.HasCtor T start.toNet (.born f.left f.right f.rule k) c) :
    next + k < (Naming.ofPair n m next links).node (T f.rule).next := by
  have hlt := (hw.nodes _ ((hasCtor_born hw).mp hc)).2
  obtain ⟨r, hr⟩ := Nat.exists_eq_add_of_le' hw.next
  rw [hr] at hlt ⊢
  change next + k < next + r
  dsimp only at hlt
  omega

theorem knownLink_cons : KnownLink T (f :: F) g k ↔
    KnownLink T F g k ∨ g = some f ∧ k < (T f.rule).links := by
  simp only [KnownLink, List.mem_cons, or_and_right, exists_or, exists_eq_left]
  exact or_comm

end

namespace Records

variable (h : Records P T start outside F ν links w) (hf : f ∉ F)

include h hf

theorem node_extend :
    Set.InjOn (ν.extend f w.nodes.length links).node
      ((firings P T start outside).born (f :: F)) := by
  intro x hx y hy he
  rcases mem_born_cons.mp hx with hx | ⟨k, c, rfl, -⟩ <;>
    rcases mem_born_cons.mp hy with hy | ⟨k', c', rfl, -⟩
  · rw [extend_of_mem hf hx, extend_of_mem hf hy] at he
    exact h.node hx hy he
  · rw [extend_of_mem hf hx, extend_born] at he
    have hlt := h.nodeLt x hx
    omega
  · rw [extend_of_mem hf hy, extend_born] at he
    have hlt := h.nodeLt y hy
    omega
  · rw [extend_born, extend_born] at he
    rw [Nat.add_left_cancel he]

theorem link_extend (g : Option Firing) (k : ℕ) (g' : Option Firing) (k' : ℕ)
    (hg : KnownLink T (f :: F) g k) (hg' : KnownLink T (f :: F) g' k')
    (he : (ν.extend f next links).link g k = (ν.extend f next links).link g' k') :
    g = g' ∧ k = k' := by
  have hnew : ∀ k, (ν.extend f next links).link (some f) k = links + k := fun _ => if_pos rfl
  rcases knownLink_cons.mp hg with hk | ⟨rfl, -⟩ <;>
    rcases knownLink_cons.mp hg' with hk' | ⟨rfl, -⟩
  · rw [extend_link hf hk, extend_link hf hk'] at he
    exact h.link g k g' k' hk hk' he
  · rw [extend_link hf hk, hnew] at he
    have hlt := h.linkLt g k hk
    omega
  · rw [extend_link hf hk', hnew] at he
    have hlt := h.linkLt g' k' hk'
    omega
  · rw [hnew, hnew] at he
    exact ⟨rfl, Nat.add_left_cancel he⟩

theorem linkLt_extend (g : Option Firing) (k : ℕ) (hg : KnownLink T (f :: F) g k) :
    (ν.extend f next links).link g k < links + (T f.rule).links := by
  rcases knownLink_cons.mp hg with hk | ⟨rfl, hk⟩
  · rw [extend_link hf hk]
    exact (h.linkLt g k hk).trans_le (Nat.le_add_right _ _)
  · exact lt_of_eq_of_lt (if_pos rfl) (Nat.add_lt_add_left hk links)

/-- The chronicle is told in numbers as the net is rewritten. -/
theorem wiring_extend (hT : P.Drawn bodies T) (hD : P.Deterministic)
    (hx : f.left ∈ (firings P T start outside).born F)
    (hy : f.right ∈ (firings P T start outside).born F) :
    ((firings P T start outside).wiring (f :: F)).map (ν.extend f next links).toEnd =
      ((firings P T start outside).wiring F).map ν.toEnd ⊔
        Drawing.wiring ((T f.rule).rename
          (.ofPair (ν.node f.left) (ν.node f.right) next links)).ties := by
  have hF := h.run.sealed (lawful_firings hD)
  rw [Meetings.wiring_cons, map_sup]
  congr 1
  · apply Wiring.map_congr
    intro z z' hz
    obtain ⟨h₁, h₂⟩ := known_of_wiring hT hF hz
    exact ⟨toEnd_extend hf h₁, toEnd_extend hf h₂⟩
  · refine map_map.trans (Eq.trans (Wiring.map_congr ?_) wiring_rename.symm)
    exact fun _ _ _ => ⟨toEnd_place hf hx hy, toEnd_place hf hx hy⟩

end Records

theorem Records.notMem_gone (hD : P.Deterministic) (hr : (firings P T start outside).Run F)
    (hf : f.IsAt P T start outside F ν w.toNet p q n i m j left right) (k : ℕ) :
    .born f.left f.right f.rule k ∉ (firings P T start outside).gone (f :: F) := by
  intro hg
  have hborn : .born f.left f.right f.rule k ∈ (firings P T start outside).born F := by
    rcases Meetings.mem_gone_cons.mp hg with (he | he) | hg
    · rw [he]
      exact hf.left.1
    · rw [he]
      exact hf.right.1
    · exact (hr.sealed (lawful_firings hD)).born _ hg
  exact not_mem hf (mem_of_born hborn)

/-- The nodes of the net after a firing are those of the chronicle that it is added to. -/
theorem Records.ctorOf_extend {E : Set End} (hD : P.Deterministic)
    (h : Records P T start outside F ν links w)
    (hf : f.IsAt P T start outside F ν w.toNet p q n i m j left right)
    (hw : (T f.rule).Within E 2) (r c : ℕ) :
    (CtorOf w.nodes r c ∧ r ≠ n ∧ r ≠ m ∨
        (r, c) ∈ ((T f.rule).rename (.ofPair n m w.nodes.length links)).nodes) ↔
      ∃ x ∈ (firings P T start outside).born (f :: F),
        x ∉ (firings P T start outside).gone (f :: F) ∧ x.HasCtor T start.toNet c ∧
          (ν.extend f w.nodes.length links).node x = r := by
  have hnot := not_mem hf
  rw [mem_rename_iff hw]
  constructor
  · rintro (⟨hr, hn, hm⟩ | ⟨k, hc, rfl⟩)
    · obtain ⟨x, hx, hg, hc, rfl⟩ := (h.ctorOf r c).mp hr
      refine ⟨x, mem_born_cons.mpr (.inl hx), fun hg' => ?_, hc, extend_of_mem hnot hx⟩
      rcases Meetings.mem_gone_cons.mp hg' with (rfl | rfl) | hg'
      · exact hn hf.leftNode
      · exact hm hf.rightNode
      · exact hg hg'
    · exact ⟨_, mem_born_cons.mpr (.inr ⟨k, c, rfl, hc⟩), notMem_gone hD h.run hf k, hc,
        extend_born⟩
  · rintro ⟨x, hx, hg, hc, rfl⟩
    rw [Meetings.mem_gone_cons, not_or, not_or] at hg
    rcases mem_born_cons.mp hx with hx | ⟨k, d, rfl, -⟩
    · rw [extend_of_mem hnot hx]
      refine .inl ⟨(h.ctorOf _ c).mpr ⟨x, hx, hg.2, hc, rfl⟩, fun he => ?_, fun he => ?_⟩
      · exact hg.1.1 (h.node hx hf.left.1 (he.trans hf.leftNode.symm))
      · exact hg.1.2 (h.node hx hf.right.1 (he.trans hf.rightNode.symm))
    · exact .inr ⟨k, hc, extend_born⟩

/-- The net after a firing, with the chronicle that it is added to. -/
theorem Records.of_fired {l : List Task} (hP : P.Ok) (hT : P.Drawn bodies T)
    (hD : P.Deterministic) (h : Records P T start outside F ν links w)
    (hf : f.IsAt P T start outside F ν w.toNet p q n i m j left right)
    (hX : w'.Principals P ∅)
    (hw' : ({ w with taskQueue := l } : Worker).Fired P ∅ outside 0
      (((firings P T start outside).wiring F).map ν.toEnd) n m
        ((T f.rule).rename (.ofPair n m w.nodes.length links)) w') :
    Records P T start outside (f :: F) (ν.extend f w.nodes.length links)
      (links + (T f.rule).links) w' := by
  have hnot := not_mem hf
  obtain ⟨left', right', -, -, hw⟩ := hT.within hf.hasRule
  have hnext : w'.nodes.length = (Naming.ofPair n m w.nodes.length links).node (T f.rule).next :=
    hw'.next
  have hgrow : w.nodes.length ≤ w'.nodes.length := by
    obtain ⟨r, hr⟩ := Nat.exists_eq_add_of_le' hw.next
    rw [hnext, hr]
    exact Nat.le_add_right _ r
  constructor
  · exact hw'.ok
  · exact hX
  · exact hw'.valueStack.trans h.valueStack
  · exact hw'.returnStack.trans h.returnStack
  · exact .cons h.run (h.fires hf hP hT hD)
  · intro r c
    rw [hw'.ctor]
    exact h.ctorOf_extend hD hf hw r c
  · exact h.node_extend hnot
  · intro x hx
    rcases mem_born_cons.mp hx with hx | ⟨k, c, rfl, hc⟩
    · rw [extend_of_mem hnot hx]
      exact (h.nodeLt x hx).trans_le hgrow
    · rw [extend_born, hnext]
      exact extend_lt hw hc
  · exact h.link_extend hnot
  · exact h.linkLt_extend hnot
  · have hpictures := hw'.pictures
    rw [h.wiring_extend hnot hT hD hf.left.1 hf.right.1, hf.leftNode, hf.rightNode]
    rwa [hw'.valueStack, hw'.returnStack, h.valueStack, h.returnStack] at hpictures

theorem Records.exists_of_fires (hP : P.Ok) (hB : Compiles P bodies) (hT : P.Drawn bodies T)
    (hD : P.Deterministic) (h : Records P T start outside F ν links w) (hf : w.Fires P w') :
    ∃ f ν' links', Records P T start outside (f :: F) ν' links' w' := by
  obtain ⟨l₁, p, q, rule, l₂, fuel, hq, hw'⟩ := hf
  have ht : .activePair p q rule ∈ w.taskQueue := by simp [hq]
  obtain ⟨f, n, i, m, j, left, right, rfl, hat⟩ := h.exists_isAt hP ht
  obtain ⟨⟨depth, hd⟩, hstack⟩ := hT f.rule hat.hasRule
  have hb : w.Pictures (((firings P T start outside).wiring F).map ν.toEnd)
      (↑w.valueStack + (held w.returnStack + outside)) links := by
    rw [h.valueStack, h.returnStack]
    exact h.pictures
  have hX : w'.Principals P ∅ := by
    obtain ⟨w₁, h₁, h₂⟩ := Outcome.of_bind_eq_ok hw'
    exact Worker.principals_runUntil
      (Worker.principals_enterRule (w := { w with taskQueue := l₁ ++ l₂ }) h.principals h₁) h₂
  exact ⟨f, _, _, h.of_fired hP hT hD hat hX
    (Worker.fired_of_handleTaskActivePair (w := { w with taskQueue := l₁ ++ l₂ }) hP hB
      (h.ok.take hq) hat.pair hb hd hstack hw')⟩

/-- A run is recorded, each firing once. -/
theorem Worker.FiresIn.exists_records (hP : P.Ok) (hB : Compiles P bodies)
    (hT : P.Drawn bodies T) (hD : P.Deterministic) (h : start.Ok P ∅ outside 0 {})
    (hX : start.Principals P ∅) (hk : start.FiresIn P k w) :
    ∃ F ν links, Records P T start outside F ν links w ∧ F.length = k := by
  induction hk with
  | refl => exact ⟨[], _, _, .nil h hX, rfl⟩
  | step _ hf ih =>
    obtain ⟨F, ν, links, hF, hlen⟩ := ih
    obtain ⟨f, ν', links', hF'⟩ := hF.exists_of_fires hP hB hT hD hf
    exact ⟨f :: F, ν', links', hF', by simp [hlen]⟩

end InetLisp
