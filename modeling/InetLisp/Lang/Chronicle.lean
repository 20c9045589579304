import InetLisp.Core.Meet
import InetLisp.Lang.Ends
import InetLisp.Lang.Fire
import InetLisp.Lib.Lookup
import InetLisp.Lib.Meetings

/-! # The chronicle of a run

A node that a rule has built is named after the two nodes that have met and its place in the body
of the rule, so the name does not depend on when that was. In these names, all that has ever been
tied together in a run is kept; the net of the run, in numbers of its own, is a picture of it.
-/

namespace InetLisp

open Lib Wiring

/-- A node by its origin. -/
inductive Name where
  | init (n : ℕ)
  | born (left right : Name) (rule : Rule) (k : ℕ)
  deriving DecidableEq

structure Firing where
  left : Name
  right : Name
  rule : Rule
  deriving DecidableEq

/-- An end by its origin. -/
inductive Place where
  | port (x : Name) (i : ℕ)
  | link (f : Option Firing) (k : ℕ) (second : Bool)
  | value (v : Value)

def Place.IsAtom : Place → Prop
  | .value v => v.IsNonWire
  | _ => False

/-- An end of the net that a run starts from. -/
def Place.ofEnd : End → Place
  | .port n i => .port (.init n) i
  | .link k b => .link none k b
  | .value v => .value v

def Firing.place (f : Firing) : End → Place
  | .port 0 i => .port f.left i
  | .port 1 i => .port f.right i
  | .port (k + 2) i => .port (.born f.left f.right f.rule k) i
  | .link k b => .link (some f) k b
  | .value v => .value v

/-- The ctor of a node, from what the rules draw. -/
def Name.HasCtor (T : Rule → Drawing) (net : Net) : Name → ℕ → Prop
  | .init n, c => CtorOf net.nodes n c
  | .born _ _ rule k, c => lookup Prod.fst (T rule).nodes (k + 2) = some (k + 2, c)

/-- There is one rule at most for two ctors, and none for a ctor and itself. -/
structure Program.Deterministic (P : Program) : Prop where
  ne : ∀ rule, P.HasRule rule → rule.leftNodeCtor ≠ rule.rightNodeCtor
  unique : ∀ rule rule', P.HasRule rule → P.HasRule rule' →
    s(rule.leftNodeCtor, rule.rightNodeCtor) = s(rule'.leftNodeCtor, rule'.rightNodeCtor) →
      rule = rule'

/-- The body of each rule can be drawn, with nothing left over. -/
def Program.Drawn (P : Program) (bodies : List Body) (T : Rule → Drawing) : Prop :=
  ∀ rule, P.HasRule rule → (∃ depth, P.template bodies depth rule = some (T rule)) ∧
    (T rule).stack = []

def Worker.rest (w : Worker) (outside : Multiset Value) : Multiset Value :=
  ↑w.valueStack + (held w.returnStack + outside)

/-- The firings that are possible when a worker starts. -/
def firings (P : Program) (T : Rule → Drawing) (start : Worker) (outside : Multiset Value) :
    Meetings Place Name Firing where
  atom := Place.IsAtom
  ports x := {y | ∃ i, y = .port x i}
  principal x := {y | ∃ i c ctor, y = .port x i ∧ x.HasCtor T start.toNet c ∧
    P.nodeCtor c = some ctor ∧ ctor.primitive = none ∧ ctor.IsPrincipal i}
  outer := {y | ∃ v ∈ start.rest outside, ¬ v.IsNonWire ∧ y = .value v}
  base := start.Tied.map Place.ofEnd
  start := {x | ∃ n c, x = .init n ∧ x.HasCtor T start.toNet c}
  possible f := P.HasRule f.rule ∧ f.left.HasCtor T start.toNet f.rule.leftNodeCtor ∧
    f.right.HasCtor T start.toNet f.rule.rightNodeCtor
  left := Firing.left
  right := Firing.right
  births f := {x | ∃ k c, x = .born f.left f.right f.rule k ∧ x.HasCtor T start.toNet c}
  ties f := (Drawing.wiring (T f.rule).ties).map f.place

/-- Numbers for nodes and links. -/
structure Numbering where
  node : Name → ℕ
  link : Option Firing → ℕ → ℕ

/-- The end in a net with these numbers. -/
def Numbering.toEnd (ν : Numbering) : Place → End
  | .port x i => .port (ν.node x) i
  | .link f k b => .link (ν.link f k) b
  | .value v => .value v

def KnownLink (T : Rule → Drawing) (F : List Firing) (f : Option Firing) (k : ℕ) : Prop :=
  ∃ g ∈ F, f = some g ∧ k < (T g.rule).links

/-- A part of what has been there. -/
def Known (P : Program) (T : Rule → Drawing) (start : Worker) (outside : Multiset Value)
    (F : List Firing) : Set Place
  | .port x _ => x ∈ (firings P T start outside).born F
  | .link f k _ => KnownLink T F f k
  | .value _ => True

/-- The net of a worker is a picture of what has been tied together by the firings. -/
structure Records (P : Program) (T : Rule → Drawing) (start : Worker) (outside : Multiset Value)
    (F : List Firing) (ν : Numbering) (links : ℕ) (w : Worker) : Prop where
  ok : w.Ok P ∅ outside 0 {}
  principals : w.Principals P ∅
  valueStack : w.valueStack = start.valueStack
  returnStack : w.returnStack = start.returnStack
  run : (firings P T start outside).Run F
  ctorOf : ∀ n c, CtorOf w.nodes n c ↔ ∃ x ∈ (firings P T start outside).born F,
    x ∉ (firings P T start outside).gone F ∧ x.HasCtor T start.toNet c ∧ ν.node x = n
  node : Set.InjOn ν.node ((firings P T start outside).born F)
  nodeLt : ∀ x ∈ (firings P T start outside).born F, ν.node x < w.nodes.length
  link : ∀ f k f' k', KnownLink T F f k → KnownLink T F f' k' → ν.link f k = ν.link f' k' →
    f = f' ∧ k = k'
  linkLt : ∀ f k, KnownLink T F f k → ν.link f k < links
  pictures : w.toNet.Pictures (((firings P T start outside).wiring F).map ν.toEnd)
    (start.rest outside) links

variable {P : Program} {T : Rule → Drawing} {bodies : List Body} {start w w' : Worker}
  {outside : Multiset Value} {F G : List Firing} {f : Firing} {ν : Numbering} {links n c k i : ℕ}
  {x y : Name} {z z' : Place} {e : End} {rule : Rule} {net : Net}

theorem Name.HasCtor.unique {d : ℕ} (h : x.HasCtor T net c) (h' : x.HasCtor T net d) : c = d := by
  cases x with
  | init n => exact CtorOf.unique h h'
  | born left right rule k => exact (Prod.mk.inj (Option.some.inj (Eq.trans (Eq.symm h) h'))).2

theorem lawful_firings (hD : P.Deterministic) : (firings P T start outside).Lawful where
  port x := by
    rintro - ⟨i, c, ctor, rfl, -⟩
    exact ⟨i, rfl⟩
  notAtom x := by
    rintro - ⟨i, rfl⟩
    exact id
  notOuter x := by
    rintro - ⟨i, rfl⟩ ⟨v, -, -, he⟩
    cases he
  owner x y := by
    rintro - ⟨i, rfl⟩ ⟨j, he⟩
    exact (Place.port.inj he).1
  ne := by
    rintro ⟨x, y, rule⟩ ⟨hr, hx, hy⟩ he
    change x = y at he
    subst he
    exact hD.ne rule hr (hx.unique hy)
  unique := by
    rintro ⟨x, y, rule⟩ ⟨x', y', rule'⟩ ⟨hr, hx, hy⟩ ⟨hr', hx', hy'⟩ he
    dsimp only [firings] at hr hx hy hr' hx' hy' he
    rcases Sym2.eq_iff.mp he with ⟨rfl, rfl⟩ | ⟨rfl, rfl⟩
    · have hc := hx.unique hx'
      have hd := hy.unique hy'
      cases hD.unique rule rule' hr hr' (by rw [hc, hd])
      rfl
    · have hc := hx.unique hy'
      have hd := hy.unique hx'
      cases hD.unique rule rule' hr hr' (by rw [hc, hd, Sym2.eq_swap])
      exact (hD.ne rule hr hc).elim

/-! ### Numbers -/

theorem isAtom_toEnd : (ν.toEnd z).IsAtom ↔ z.IsAtom := by
  cases z <;> exact Iff.rfl

/-- The free ports of the two nodes of a pair, in the names of a template. -/
def pairPorts (left right : NodeCtor) : Set End :=
  {e | ∃ k, k ∈ left.freePorts ∧ e = .port 0 k ∨ k ∈ right.freePorts ∧ e = .port 1 k}

theorem Program.Drawn.within (hT : P.Drawn bodies T) (hr : P.HasRule rule) :
    ∃ left right, P.nodeCtor rule.leftNodeCtor = some left ∧
      P.nodeCtor rule.rightNodeCtor = some right ∧ (T rule).Within (pairPorts left right) 2 := by
  obtain ⟨⟨depth, hd⟩, -⟩ := hT rule hr
  obtain ⟨left, hl, hd⟩ := Option.bind_eq_some_iff.mp hd
  obtain ⟨right, hr, hd⟩ := Option.bind_eq_some_iff.mp hd
  refine ⟨left, right, hl, hr, (Tame.calls_drawCall P bodies depth _ _ _ ?_ hd).1⟩
  constructor
  · intro e he
    left
    rcases List.mem_append.mp he with he | he
    · obtain ⟨k, hk, rfl⟩ := List.mem_map.mp (List.mem_reverse.mp he)
      exact ⟨k, .inr ⟨hk, rfl⟩⟩
    · obtain ⟨k, hk, rfl⟩ := List.mem_map.mp (List.mem_reverse.mp he)
      exact ⟨k, .inl ⟨hk, rfl⟩⟩
  · simp [Drawing.ofPair]
  · simp [Drawing.ofPair]
  · simp [Drawing.ofPair]
  · exact le_rfl

theorem hasCtor_born {E : Set End} (hw : (T rule).Within E 2) :
    (Name.born x y rule k).HasCtor T net c ↔ (k + 2, c) ∈ (T rule).nodes := by
  apply (lookup_eq_some hw.nodup).trans
  exact and_iff_left rfl

/-- An end of what a firing draws belongs to one of its nodes, is new, or is an atom. -/
theorem place_cases (net : Net) {left right : NodeCtor} (hw : (T f.rule).Within (pairPorts left right) 2)
    (he : e.Within (pairPorts left right) (T f.rule)) :
    (f.place e).IsAtom ∨
      (∃ i, i ∈ left.freePorts ∧ f.place e = .port f.left i ∨
        i ∈ right.freePorts ∧ f.place e = .port f.right i) ∨
      (∃ k i, f.place e = .port (.born f.left f.right f.rule k) i ∧
        ∃ c, (Name.born f.left f.right f.rule k).HasCtor T net c) ∨
      ∃ k b, f.place e = .link (some f) k b ∧ k < (T f.rule).links := by
  rcases he with ⟨i, ⟨hi, rfl⟩ | ⟨hi, rfl⟩⟩ | ha | ⟨k, i, c, rfl, hm⟩ | ⟨k, b, rfl, hk⟩
  · exact .inr (.inl ⟨i, .inl ⟨hi, rfl⟩⟩)
  · exact .inr (.inl ⟨i, .inr ⟨hi, rfl⟩⟩)
  · cases e with
    | value v => exact .inl ha
    | _ => exact ha.elim
  · obtain ⟨k, rfl⟩ := Nat.exists_eq_add_of_le' (hw.nodes _ hm).1
    exact .inr (.inr (.inl ⟨k, i, rfl, c, (hasCtor_born hw).mpr hm⟩))
  · exact .inr (.inr (.inr ⟨k, b, rfl, hk⟩))

theorem known_of_wiring (hT : P.Drawn bodies T) (hF : (firings P T start outside).Sealed F)
    (h : (firings P T start outside).wiring F z z') :
    z ∈ Known P T start outside F ∧ z' ∈ Known P T start outside F := by
  rcases h with ⟨a, b, hab, rfl, rfl⟩ | ⟨f, hf, a, b, ⟨t, ht, hab⟩, rfl, rfl⟩
  · have hport : ∀ {e v}, start.Refers e v → Place.ofEnd e ∈ Known P T start outside F := by
      intro e v hr
      cases hr with
      | port hn hi => exact .inl ⟨_, _, rfl, _, _, hn⟩
      | wire => trivial
      | oppsite => trivial
    rcases hab with ⟨v, rfl, hr⟩ | ⟨v, rfl, hr⟩
    · exact ⟨hport hr, trivial⟩
    · exact ⟨trivial, hport hr⟩
  · obtain ⟨left, right, hl, hr, hw⟩ := hT.within (hF.possible f hf).1
    have hknown : ∀ {e}, e.Within (pairPorts left right) (T f.rule) →
        f.place e ∈ Known P T start outside F := by
      intro e he
      rcases place_cases start.toNet hw he with ha | ⟨i, ⟨-, he⟩ | ⟨-, he⟩⟩ |
        ⟨k, i, he, c, hc⟩ | ⟨k, b, he, hk⟩
      · cases hz : f.place e with
        | value v => trivial
        | _ =>
          rw [hz] at ha
          exact ha.elim
      · rw [he]
        exact hF.born _ ⟨f, hf, .inl rfl⟩
      · rw [he]
        exact hF.born _ ⟨f, hf, .inr rfl⟩
      · rw [he]
        exact .inr ⟨f, hf, k, c, rfl, hc⟩
      · rw [he]
        exact ⟨f, hf, rfl, hk⟩
    obtain ⟨h₁, h₂⟩ := hw.ties t ht
    rcases hab with ⟨rfl, rfl⟩ | ⟨rfl, rfl⟩
    · exact ⟨hknown h₁, hknown h₂⟩
    · exact ⟨hknown h₂, hknown h₁⟩

namespace Records

/-- Parts of what has been there have different numbers. -/
theorem injOn (h : Records P T start outside F ν links w) :
    Set.InjOn ν.toEnd (Known P T start outside F) := by
  intro z hz z' hz' he
  cases z with
  | port x i =>
    cases z' with
    | port y j =>
      obtain ⟨hxy, rfl⟩ := End.port.inj he
      rw [h.node hz hz' hxy]
    | _ => cases he
  | link f k b =>
    cases z' with
    | link g l b' =>
      obtain ⟨hfg, rfl⟩ := End.link.inj he
      obtain ⟨rfl, rfl⟩ := h.link f k g l hz hz' hfg
      rfl
    | _ => cases he
  | value v =>
    cases z' with
    | value u =>
      cases he
      rfl
    | _ => cases he

theorem mem_known_of_visible (hz : z ∈ (firings P T start outside).visible F ∨ z.IsAtom) :
    z ∈ Known P T start outside F := by
  rcases hz with (⟨v, -, -, rfl⟩ | ⟨x, hx, -, i, rfl⟩) | ha
  · trivial
  · exact hx
  · cases z with
    | value v => trivial
    | _ => exact ha.elim

theorem exists_hasCtor (hx : x ∈ (firings P T start outside).born F) :
    ∃ c, x.HasCtor T start.toNet c := by
  rcases hx with ⟨n, c, -, hc⟩ | ⟨f, -, k, c, -, hc⟩
  · exact ⟨c, hc⟩
  · exact ⟨c, hc⟩

theorem mem_visible (h : Records P T start outside F ν links w)
    (hz : z ∈ (firings P T start outside).visible F) :
    ν.toEnd z ∈ w.visible (start.rest outside) 0 := by
  rcases hz with ⟨v, hv, hn, rfl⟩ | ⟨x, hx, hg, i, rfl⟩
  · exact ⟨hn, .inr (.inl ⟨v, hv, rfl⟩)⟩
  · obtain ⟨c, hxc⟩ := exists_hasCtor hx
    exact ⟨id, .inl ⟨_, i, c, rfl, (h.ctorOf _ c).mpr ⟨x, hx, hg, hxc, rfl⟩⟩⟩

/-- The ways of the chronicle between what is seen are the ways of the net. -/
theorem leads_iff (hT : P.Drawn bodies T) (hD : P.Deterministic)
    (h : Records P T start outside F ν links w)
    (hz : z ∈ (firings P T start outside).visible F)
    (hz' : z' ∈ (firings P T start outside).visible F ∨ z'.IsAtom) :
    Leads Place.IsAtom ((firings P T start outside).wiring F) z z' ↔
      Leads End.IsAtom w.Tied (ν.toEnd z) (ν.toEnd z') := by
  have hvisible := h.mem_visible hz
  have hvisible' : ν.toEnd z' ∈ w.visible (start.rest outside) 0 ∨ (ν.toEnd z').IsAtom :=
    hz'.imp h.mem_visible isAtom_toEnd.mpr
  have hmap : Leads End.IsAtom (((firings P T start outside).wiring F).map ν.toEnd) (ν.toEnd z)
      (ν.toEnd z') ↔ Leads Place.IsAtom ((firings P T start outside).wiring F) z z' :=
    leads_map h.injOn (fun _ _ => known_of_wiring hT (h.run.sealed (lawful_firings hD)))
      (fun _ => isAtom_toEnd) (mem_known_of_visible (.inl hz)) (mem_known_of_visible hz')
  exact hmap.symm.trans (h.pictures.agree _ hvisible _ hvisible').symm

end Records

end InetLisp
