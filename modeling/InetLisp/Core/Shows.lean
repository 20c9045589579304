import InetLisp.Core.Drawing

/-! # A net shows a drawing

Each end at hand comes with the value that stands for it. Seen from the ports of the nodes, from
what lies outside and from the ends at hand, the net with these values attached is wired as the
drawing.
-/

namespace InetLisp

open Lib Wiring

/-- Ends at hand, with the values that stand for them. -/
abbrev Glue := Multiset (End × Value)

def Glue.wiring (hand : Glue) : Wiring End := fun x y => ∃ g ∈ hand, tie g.1 (.value g.2) x y

/-- How a value can stand for an end: the end is the value, is no part of the net, or is a port
that holds the value. -/
inductive Loose (net : Net) : End → Value → Prop where
  | atom {v : Value} (hv : v.IsNonWire) : Loose net (.value v) v
  | link {k : ℕ} {s : Bool} {v : Value} : Loose net (.link k s) v
  | gone {n i : ℕ} {v : Value} (hn : ∀ c, ¬ CtorOf net.nodes n c) : Loose net (.port n i) v
  | held {n i : ℕ} {v : Value} (hv : ¬ v.IsNonWire) (hr : net.Refers (.port n i) v) :
      Loose net (.port n i) v

/-- The ports of the nodes, the wires that lie outside, and the ends at hand. -/
def Net.visible (net : Net) (rest : Multiset Value) (hand : Glue) : Set End :=
  {x | ¬ x.IsAtom ∧ ((∃ n i c, x = .port n i ∧ CtorOf net.nodes n c) ∨
    (∃ v ∈ rest, x = .value v) ∨ ∃ g ∈ hand, x = g.1)}

/-- The names in an end are not new. -/
def End.Below (d : Drawing) : End → Prop
  | .port n _ => n < d.next
  | .link k _ => k < d.links
  | .value _ => True

/-- The net shows the drawing on top of what has been there. -/
structure Net.Shows (net : Net) (base : Wiring End) (origin : ℕ → ℕ → Prop) (rest : Multiset Value)
    (d : Drawing) (hand : Glue) : Prop where
  agree : Agree End.IsAtom (net.visible rest hand) (net.Tied ⊔ hand.wiring)
    (base ⊔ Drawing.wiring d.ties)
  loose : ∀ g ∈ hand, Loose net g.1 g.2
  /-- An end is at hand once. -/
  once : ∀ e : End, ¬ e.IsAtom → (hand.map Prod.fst).count e ≤ 1
  next : d.next = net.nodes.length
  ctor : ∀ n c, CtorOf net.nodes n c ↔ d.ctorOf origin n c
  below : ∀ x y, (base ⊔ Drawing.wiring d.ties) x y → x.Below d ∧ y.Below d
  belowHand : ∀ g ∈ hand, g.1.Below d

variable {P : Program} {missed : Set Redex} {net net' : Net} {outside rest : Multiset Value}
  {tasks : Multiset Task} {U : Set (ℕ × ℕ)} {n c i k : ℕ} {v u : Value} {e e' x y : End}
  {hand : Glue} {base : Wiring End} {origin : ℕ → ℕ → Prop} {d : Drawing} {S : Set End}

theorem End.Below.mono {d' : Drawing} (h : x.Below d) (hn : d.next ≤ d'.next)
    (hl : d.links ≤ d'.links) : x.Below d' := by
  cases x with
  | port n i => exact lt_of_lt_of_le h hn
  | link k s => exact lt_of_lt_of_le h hl
  | value v => trivial

@[simp] theorem Glue.wiring_zero : Glue.wiring 0 = ⊥ := by
  ext x y
  simp [Glue.wiring]

theorem Glue.wiring_cons : Glue.wiring ((e, v) ::ₘ hand) = hand.wiring ⊔ tie e (.value v) := by
  ext x y
  change (∃ g ∈ (e, v) ::ₘ hand, _) ↔ (∃ g ∈ hand, _) ∨ _
  simp only [Multiset.mem_cons]
  constructor
  · rintro ⟨g, rfl | hg, hxy⟩
    · exact .inr hxy
    · exact .inl ⟨g, hg, hxy⟩
  · rintro (⟨g, hg, hxy⟩ | hxy)
    · exact ⟨g, .inr hg, hxy⟩
    · exact ⟨(e, v), .inl rfl, hxy⟩

theorem Glue.isolated (he : ∀ g ∈ hand, g.1 ≠ e) (hv : ∀ v, e ≠ .value v) :
    Isolated hand.wiring e := by
  intro y
  constructor
  · rintro ⟨g, hg, ⟨rfl, -⟩ | ⟨rfl, -⟩⟩
    · exact he g hg rfl
    · exact hv _ rfl
  · rintro ⟨g, hg, ⟨-, rfl⟩ | ⟨-, rfl⟩⟩
    · exact hv _ rfl
    · exact he g hg rfl

theorem Loose.cases (h : Loose net e v) : (e = .value v ∧ v.IsNonWire) ∨
    (Isolated net.Tied e ∧ ¬ e.IsAtom ∧ (∀ u, e ≠ .value u) ∧
      ∀ n i c, e = .port n i → ¬ CtorOf net.nodes n c) ∨
    (net.Refers e v ∧ ¬ e.IsAtom ∧ ¬ v.IsNonWire) := by
  cases h with
  | atom hv => exact .inl ⟨rfl, hv⟩
  | link => exact .inr (.inl ⟨Net.isolated_link, id, nofun, nofun⟩)
  | @gone n i _ hn =>
    refine .inr (.inl ⟨Net.isolated_port ?_, id, nofun, ?_⟩)
    · intro u hr
      obtain ⟨c, l, k, hm, -⟩ := Net.refers_port.mp hr
      exact hn c ⟨l, k, hm⟩
    · rintro n i c ⟨⟩
      exact hn c
  | held hv hr => exact .inr (.inr ⟨hr, id, hv⟩)

theorem Net.Refers.tie_le (h : net.Refers x v) : tie x (.value v) ≤ net.Tied := by
  rintro y z (⟨rfl, rfl⟩ | ⟨rfl, rfl⟩)
  · exact .inl ⟨v, rfl, h⟩
  · exact .inr ⟨v, rfl, h⟩

/-- A tie to an end at hand is one to its value. -/
theorem Loose.slide (h : Loose net e v) (he : ¬ e.IsAtom → ∀ g ∈ hand, g.1 ≠ e)
    (hy : e = y → e.IsAtom) (hS : e ∈ S → ∃ n i c, e = .port n i ∧ CtorOf net.nodes n c) :
    Agree End.IsAtom S (net.Tied ⊔ Glue.wiring ((e, v) ::ₘ hand) ⊔ tie e y)
      (net.Tied ⊔ hand.wiring ⊔ tie (.value v) y) := by
  rw [Glue.wiring_cons, ← sup_assoc]
  rcases h.cases with ⟨rfl, -⟩ | ⟨hi, ha, hv, hport⟩ | ⟨hr, ha, hv⟩
  · rw [sup_right_comm]
    exact .tie_self
  · apply Agree.contract ha (hi.sup (Glue.isolated (he ha) hv))
    · intro hm
      obtain ⟨n, i, c, rfl, hc⟩ := hS hm
      exact hport n i c rfl hc
    · exact hv v
    · exact fun heq => ha (hy heq)
  · have hle : tie e (.value v) ≤ net.Tied ⊔ hand.wiring := hr.tie_le.trans le_sup_left
    rw [sup_eq_left.mpr hle]
    exact .slide ha hv hle

theorem Loose.drop (h : Loose net e v) (he : ¬ e.IsAtom → ∀ g ∈ hand, g.1 ≠ e)
    (hS : e ∈ S → ∃ n i c, e = .port n i ∧ CtorOf net.nodes n c) :
    Agree End.IsAtom S (net.Tied ⊔ Glue.wiring ((e, v) ::ₘ hand)) (net.Tied ⊔ hand.wiring) := by
  rw [Glue.wiring_cons, ← sup_assoc]
  rcases h.cases with ⟨rfl, -⟩ | ⟨hi, ha, hv, hport⟩ | ⟨hr, ha, hv⟩
  · exact .tie_self
  · apply Agree.leaf ha (hi.sup (Glue.isolated (he ha) hv))
    · intro hm
      obtain ⟨n, i, c, rfl, hc⟩ := hS hm
      exact hport n i c rfl hc
    · exact hv v
  · rw [sup_eq_left.mpr (hr.tie_le.trans le_sup_left)]
    exact .refl _

namespace Net.Shows

theorem ne_of_mem (h : net.Shows base origin rest d ((e, v) ::ₘ hand)) (he : ¬ e.IsAtom) :
    ∀ g ∈ hand, g.1 ≠ e := by
  rintro g hg rfl
  have hc := h.once g.1 he
  rw [Multiset.map_cons, Multiset.count_cons_self] at hc
  have hm : 1 ≤ (hand.map Prod.fst).count g.1 :=
    Multiset.one_le_count_iff_mem.mpr (Multiset.mem_map_of_mem _ hg)
  omega

/-- What is seen of an end that is no longer at hand is a port of a node, or lies outside. -/
theorem port_of_visible (h : net.Shows base origin rest d ((e, v) ::ₘ hand))
    (hl : ∀ u, e ≠ .value u ∨ u.IsNonWire) (hm : e ∈ net.visible rest hand) :
    ∃ n i c, e = .port n i ∧ CtorOf net.nodes n c := by
  obtain ⟨ha, hport | ⟨u, -, rfl⟩ | ⟨g, hg, rfl⟩⟩ := hm
  · exact hport
  · exact ((hl u).resolve_left (fun hne => hne rfl) |> ha).elim
  · exact (h.ne_of_mem ha g hg rfl).elim

theorem visible_cons : net.visible rest hand ⊆ net.visible rest ((e, v) ::ₘ hand) := by
  rintro x ⟨ha, hx⟩
  exact ⟨ha, hx.imp_right fun hx => hx.imp_right fun ⟨g, hg, he⟩ =>
    ⟨g, Multiset.mem_cons_of_mem hg, he⟩⟩

theorem mem_visible_cons (hx : x ∈ net.visible rest ((e, v) ::ₘ hand)) :
    x ∈ net.visible rest hand ∨ x = e := by
  obtain ⟨ha, hport | hrest | ⟨g, hg, rfl⟩⟩ := hx
  · exact .inl ⟨ha, .inl hport⟩
  · exact .inl ⟨ha, .inr (.inl hrest)⟩
  · rcases Multiset.mem_cons.mp hg with rfl | hg
    · exact .inr rfl
    · exact .inl ⟨ha, .inr (.inr ⟨g, hg, rfl⟩)⟩

theorem mem_visible (hg : (e, v) ∈ hand) (he : ¬ e.IsAtom) : e ∈ net.visible rest hand :=
  ⟨he, .inr (.inr ⟨_, hg, rfl⟩)⟩

end Net.Shows

theorem Loose.ne_value (h : Loose net e v) (u : Value) : e ≠ .value u ∨ u.IsNonWire := by
  cases h with
  | atom hv =>
    by_cases hu : u.IsNonWire
    · exact .inr hu
    · left
      rintro ⟨⟩
      exact hu hv
  | _ => exact .inl nofun

namespace Net.Shows

/-- An end at hand may be dropped. -/
theorem drop (h : net.Shows base origin rest d ((e, v) ::ₘ hand)) :
    net.Shows base origin rest d hand where
  agree := by
    have hl := h.loose (e, v) (Multiset.mem_cons_self _ _)
    refine Agree.trans ?_ (h.agree.mono visible_cons)
    exact (hl.drop (fun he => h.ne_of_mem he) (h.port_of_visible hl.ne_value)).symm
  loose g hg := h.loose g (Multiset.mem_cons_of_mem hg)
  once e he := (Multiset.count_le_of_le e (Multiset.map_le_map (Multiset.le_cons_self _ _))).trans
    (h.once e he)
  next := h.next
  ctor := h.ctor
  below := h.below
  belowHand g hg := h.belowHand g (Multiset.mem_cons_of_mem hg)

theorem of_le {hand' : Glue} (h : net.Shows base origin rest d hand) (hle : hand' ≤ hand) :
    net.Shows base origin rest d hand' := by
  obtain ⟨extra, rfl⟩ := Multiset.le_iff_exists_add.mp hle
  clear hle
  induction extra using Multiset.induction_on with
  | empty => rwa [add_zero] at h
  | cons g extra ih =>
    rw [Multiset.add_cons] at h
    exact ih h.drop

theorem atom (h : net.Shows base origin rest d hand) (hv : v.IsNonWire) :
    net.Shows base origin rest d ((.value v, v) ::ₘ hand) where
  agree := by
    have hvis : net.visible rest ((End.value v, v) ::ₘ hand) = net.visible rest hand := by
      apply Set.Subset.antisymm _ visible_cons
      intro x hx
      refine (mem_visible_cons hx).resolve_right ?_
      rintro rfl
      exact hx.1 hv
    rw [hvis, Glue.wiring_cons, ← sup_assoc]
    exact Agree.tie_self.trans h.agree
  loose g hg := by
    rcases Multiset.mem_cons.mp hg with rfl | hg
    · exact .atom hv
    · exact h.loose g hg
  once e he := by
    rw [Multiset.map_cons, Multiset.count_cons_of_ne]
    · exact h.once e he
    · rintro rfl
      exact he hv
  next := h.next
  ctor := h.ctor
  below := h.below
  belowHand g hg := by
    rcases Multiset.mem_cons.mp hg with rfl | hg
    · trivial
    · exact h.belowHand g hg

theorem setStack (h : net.Shows base origin rest d hand) (l : List End) :
    net.Shows base origin rest { d with stack := l } hand :=
  ⟨h.agree, h.loose, h.once, h.next, h.ctor, h.below, h.belowHand⟩

end Net.Shows

/-! ### Ties -/

theorem Loose.of_ports (h : Loose net e v)
    (hctor : ∀ n i c, e = .port n i → CtorOf net'.nodes n c → CtorOf net.nodes n c)
    (hports : ∀ n i, net.Refers (.port n i) v → net'.Refers (.port n i) v) : Loose net' e v := by
  cases h with
  | atom hv => exact .atom hv
  | link => exact .link
  | gone hn => exact .gone fun c hc => hn c (hctor _ _ c rfl hc)
  | held hw hr => exact .held hw (hports _ _ hr)

theorem visible_congr (hctor : ∀ n c, CtorOf net'.nodes n c ↔ CtorOf net.nodes n c) :
    net'.visible rest hand = net.visible rest hand := by
  simp only [Net.visible, hctor]

theorem stays_of_visible {tasks' : Multiset Task} {U' : Set (ℕ × ℕ)} {outside' : Multiset Value}
    (hi : Inv P missed net (outside' + rest) tasks { unset := U })
    (hi' : Inv P missed net' (hand.map Prod.snd + rest) tasks' { unset := U' })
    (hle : hand.map Prod.snd ≤ outside') (hl : ∀ g ∈ hand, Loose net g.1 g.2)
    (hx : x ∈ net.visible rest hand ∪ {x | ∃ g ∈ hand, x = .value g.2}) : x.Stays net net' := by
  have hstays : ∀ v ∈ hand.map Prod.snd + rest, v.In net ∧ v.Alive net' := by
    intro v hv
    constructor
    · apply hi.linear.allocated v
      exact Multiset.mem_add.mpr (.inl (Multiset.mem_of_le (add_le_add hle le_rfl) hv))
    · exact hi'.alive_of_mem rfl (Multiset.mem_add.mpr (.inl hv))
  rcases hx with ⟨ha, ⟨n, i, c, rfl, -⟩ | ⟨v, hv, rfl⟩ | ⟨g, hg, rfl⟩⟩ | ⟨g, hg, rfl⟩
  · trivial
  · exact hstays v (Multiset.mem_add.mpr (.inr hv))
  · rcases hg' : g.1 with ⟨n, i⟩ | ⟨k, s⟩ | v
    · trivial
    · trivial
    · rcases (hl g hg).ne_value v with hne | hv
      · exact (hne hg').elim
      · exact (ha (hg' ▸ hv)).elim
  · exact hstays g.2 (Multiset.mem_add.mpr (.inl (Multiset.mem_map_of_mem _ hg)))

/-- A new tie in the net is seen next to what is at hand. -/
theorem Net.Joins.agree_glue {tasks' : Multiset Task} {U' : Set (ℕ × ℕ)} {outside' : Multiset Value}
    (hj : net.Joins net' x y) (hi : Inv P missed net (outside' + rest) tasks { unset := U })
    (hi' : Inv P missed net' (hand.map Prod.snd + rest) tasks' { unset := U' })
    (hle : hand.map Prod.snd ≤ outside') (hl : ∀ g ∈ hand, Loose net g.1 g.2) :
    Agree End.IsAtom (net.visible rest hand) (net.Tied ⊔ hand.wiring ⊔ tie x y)
      (net'.Tied ⊔ hand.wiring) := by
  have hagree := hj.agree _ fun z hz => stays_of_visible hi hi' hle hl hz
  rw [sup_right_comm]
  refine (hagree.sup ?_).mono Set.subset_union_left
  have hend : ∀ g ∈ hand, g.1 ∈ net.visible rest hand ∪ {x | ∃ g ∈ hand, x = .value g.2} ∨
      g.1.IsAtom := by
    intro g hg
    by_cases ha : g.1.IsAtom
    · exact .inr ha
    · exact .inl (.inl (Net.Shows.mem_visible hg ha))
  have hvalue : ∀ g ∈ hand, End.value g.2 ∈ net.visible rest hand ∪
      {x | ∃ g ∈ hand, x = .value g.2} ∨ (End.value g.2).IsAtom :=
    fun g hg => .inl (.inr ⟨g, hg, rfl⟩)
  rintro a b ⟨g, hg, ⟨rfl, rfl⟩ | ⟨rfl, rfl⟩⟩
  · exact ⟨hend g hg, hvalue g hg⟩
  · exact ⟨hvalue g hg, hend g hg⟩

namespace Net.Shows

variable {e₁ e₂ : End} {v₁ v₂ : Value} {tasks' : Multiset Task} {U' : Set (ℕ × ℕ)} {l : List End}
  {hand' : Glue}

theorem tie_of_agree (h : net.Shows base origin rest d hand') (hle : hand ≤ hand')
    (hctor : ∀ n c, CtorOf net'.nodes n c ↔ CtorOf net.nodes n c)
    (hlen : net'.nodes.length = net.nodes.length)
    (hports : ∀ n i v, net.Refers (.port n i) v → v.Alive net' → net'.Refers (.port n i) v)
    (halive : ∀ g ∈ hand, g.2.Alive net') (hx : x.Below d) (hy : y.Below d)
    (hagree : Agree End.IsAtom (net.visible rest hand) (net'.Tied ⊔ hand.wiring)
      (base ⊔ Drawing.wiring d.ties ⊔ tie x y)) :
    net'.Shows base origin rest { d with ties := d.ties ++ [(x, y)], stack := l } hand where
  agree := by
    rw [visible_congr hctor, Drawing.wiring_snoc, ← sup_assoc]
    exact hagree
  loose g hg := (h.loose g (Multiset.mem_of_le hle hg)).of_ports (fun n _ c _ => (hctor n c).mp)
    fun n i hr => hports n i g.2 hr (halive g hg)
  once e he := (Multiset.count_le_of_le e (Multiset.map_le_map hle)).trans (h.once e he)
  next := h.next.trans hlen.symm
  ctor n c := (hctor n c).trans (h.ctor n c)
  below a b hab := by
    dsimp only at hab
    rw [Drawing.wiring_snoc, ← sup_assoc] at hab
    rcases hab with hab | ⟨rfl, rfl⟩ | ⟨rfl, rfl⟩
    · exact h.below a b hab
    · exact ⟨hx, hy⟩
    · exact ⟨hy, hx⟩
  belowHand g hg := h.belowHand g (Multiset.mem_of_le hle hg)

theorem attach (h : net.Shows base origin rest d ((e, v) ::ₘ hand))
    (hi : Inv P missed net (((e, v) ::ₘ hand).map Prod.snd + rest) tasks { unset := U })
    (hi' : Inv P missed net' (hand.map Prod.snd + rest) tasks' { unset := U' })
    (hj : net.Joins net' (.port n i) (.value v)) (hn : CtorOf net.nodes n c)
    (hne : ∀ g ∈ (e, v) ::ₘ hand, g.1 ≠ .port n i)
    (hctor : ∀ n c, CtorOf net'.nodes n c ↔ CtorOf net.nodes n c)
    (hlen : net'.nodes.length = net.nodes.length) :
    net'.Shows base origin rest { d with ties := d.ties ++ [(.port n i, e)], stack := l } hand := by
  have hl := h.loose (e, v) (Multiset.mem_cons_self _ _)
  have hle : hand.map Prod.snd ≤ ((e, v) ::ₘ hand).map Prod.snd :=
    Multiset.map_le_map (Multiset.le_cons_self _ _)
  have hport : .port n i ∈ net.visible rest ((e, v) ::ₘ hand) := ⟨id, .inl ⟨n, i, c, rfl, hn⟩⟩
  have hvis : e ∈ net.visible rest ((e, v) ::ₘ hand) ∨ e.IsAtom := by
    by_cases he : e.IsAtom
    · exact .inr he
    · exact .inl (mem_visible (Multiset.mem_cons_self _ _) he)
  apply h.tie_of_agree (Multiset.le_cons_self _ _) hctor hlen hj.ports
  · intro g hg
    exact hi'.alive_of_mem rfl
      (Multiset.mem_add.mpr (.inl (Multiset.mem_add.mpr (.inl (Multiset.mem_map_of_mem _ hg)))))
  · obtain ⟨l, k, hn⟩ := hn
    change n < d.next
    rw [h.next]
    exact (List.getElem?_eq_some_iff.mp hn).1
  · exact h.belowHand _ (Multiset.mem_cons_self _ _)
  · refine Agree.trans ?_ ((h.agree.sup_tie (.inl hport) hvis).mono visible_cons)
    have hslide := hl.slide (S := net.visible rest hand) (y := .port n i)
      (fun he => h.ne_of_mem he) (fun he => (hne _ (Multiset.mem_cons_self _ _) he).elim)
      (h.port_of_visible hl.ne_value)
    rw [tie_comm (End.port n i) e]
    apply Agree.trans _ hslide.symm
    rw [tie_comm (End.value v)]
    exact (hj.agree_glue hi hi' hle fun g hg => h.loose g (Multiset.mem_cons_of_mem hg)).symm

theorem connect (h : net.Shows base origin rest d ((e₁, v₁) ::ₘ (e₂, v₂) ::ₘ hand))
    (hi : Inv P missed net (((e₁, v₁) ::ₘ (e₂, v₂) ::ₘ hand).map Prod.snd + rest) tasks
      { unset := U })
    (hi' : Inv P missed net' (hand.map Prod.snd + rest) tasks' { unset := U' })
    (hj : net.Joins net' (.value v₁) (.value v₂))
    (hctor : ∀ n c, CtorOf net'.nodes n c ↔ CtorOf net.nodes n c)
    (hlen : net'.nodes.length = net.nodes.length) :
    net'.Shows base origin rest { d with ties := d.ties ++ [(e₁, e₂)], stack := l } hand := by
  have hle : hand ≤ (e₁, v₁) ::ₘ (e₂, v₂) ::ₘ hand :=
    (Multiset.le_cons_self _ _).trans (Multiset.le_cons_self _ _)
  have hm₂ : (e₂, v₂) ∈ (e₁, v₁) ::ₘ (e₂, v₂) ::ₘ hand :=
    Multiset.mem_cons_of_mem (Multiset.mem_cons_self _ _)
  have hl₁ := h.loose (e₁, v₁) (Multiset.mem_cons_self _ _)
  have hl₂ := h.loose (e₂, v₂) hm₂
  have hvis : ∀ {e v}, (e, v) ∈ (e₁, v₁) ::ₘ (e₂, v₂) ::ₘ hand →
      e ∈ net.visible rest ((e₁, v₁) ::ₘ (e₂, v₂) ::ₘ hand) ∨ e.IsAtom := by
    intro e v hm
    by_cases he : e.IsAtom
    · exact .inr he
    · exact .inl (mem_visible hm he)
  have hne : ¬ e₂.IsAtom → ∀ g ∈ hand, g.1 ≠ e₂ := fun he => h.drop.ne_of_mem he
  apply h.tie_of_agree hle hctor hlen hj.ports
  · intro g hg
    exact hi'.alive_of_mem rfl
      (Multiset.mem_add.mpr (.inl (Multiset.mem_add.mpr (.inl (Multiset.mem_map_of_mem _ hg)))))
  · exact h.belowHand _ (Multiset.mem_cons_self _ _)
  · exact h.belowHand _ hm₂
  · have hdrawn := (h.agree.sup_tie (hvis (Multiset.mem_cons_self _ _)) (hvis hm₂)).mono
      (visible_cons.trans visible_cons)
    have hfirst := hl₁.slide (S := net.visible rest hand) (y := e₂)
      (fun he => h.ne_of_mem he) (by
        rintro rfl
        by_contra he
        exact h.ne_of_mem he _ (Multiset.mem_cons_self _ _) rfl)
      (fun hm => h.port_of_visible hl₁.ne_value (visible_cons hm))
    have hsecond := hl₂.slide (S := net.visible rest hand) (y := .value v₁) hne
      (fun he => by
        rcases hl₂.ne_value v₁ with hv | hv
        · exact (hv he).elim
        · exact he ▸ hv)
      (h.drop.port_of_visible hl₂.ne_value)
    rw [tie_comm e₂, tie_comm (End.value v₂)] at hsecond
    have hglue := hj.agree_glue hi hi' (Multiset.map_le_map hle)
      fun g hg => h.loose g (Multiset.mem_of_le hle hg)
    exact ((hglue.symm.trans hsecond.symm).trans hfirst.symm).trans hdrawn

/-- A way from the value of an end at hand is drawn as a way from the end. -/
theorem leads_of_mem {z : End} (h : net.Shows base origin rest d hand) (hg : (e, v) ∈ hand)
    (hz : Matters (CtorOf net.nodes) z) (hl : Leads End.IsAtom net.Tied (.value v) z) :
    Leads End.IsAtom (base ⊔ Drawing.wiring d.ties) e z := by
  by_cases he : e.IsAtom
  · have hl' : Loose net e v := h.loose _ hg
    cases hl' with
    | atom hv =>
      have hv' : (End.value v).IsAtom := hv
      rw [hl.eq_of_atom hv']
      exact .refl
    | _ => exact he.elim
  · refine (h.agree e (mem_visible hg he) z ?_).mp ?_
    · rcases hz with hz | ⟨n, i, c, rfl, hc⟩
      · exact .inr hz
      · exact .inl ⟨id, .inl ⟨n, i, c, rfl, hc⟩⟩
    · exact .head ⟨he, .inl (.inr ⟨_, hg, tie_mk⟩)⟩ (hl.mono le_sup_left)

theorem leads_of_port {z : End} (h : net.Shows base origin rest d hand)
    (hn : CtorOf net.nodes n c) (hz : Matters (CtorOf net.nodes) z)
    (hl : Leads End.IsAtom net.Tied (.port n i) z) :
    Leads End.IsAtom (base ⊔ Drawing.wiring d.ties) (.port n i) z := by
  refine (h.agree _ ⟨id, .inl ⟨n, i, c, rfl, hn⟩⟩ z ?_).mp (hl.mono le_sup_left)
  rcases hz with hz | ⟨n, i, c, rfl, hc⟩
  · exact .inr hz
  · exact .inl ⟨id, .inl ⟨n, i, c, rfl, hc⟩⟩

/-! ### What is new -/

theorem ctorOf_newNode {c' : ℕ} : CtorOf (net.newNode c).2.nodes n c' ↔
    CtorOf net.nodes n c' ∨ (n, c') = (net.nodes.length, c) := by
  constructor
  · rintro ⟨l, k, hn⟩
    rw [Net.newNode, Cells.getElem?_snoc] at hn
    split at hn
    · rename_i he
      cases hn
      exact .inr (by rw [he])
    · exact .inl ⟨l, k, hn⟩
  · rintro (⟨l, k, hn⟩ | he)
    · refine ⟨l, k, ?_⟩
      rw [Net.newNode, List.getElem?_append_left (List.getElem?_eq_some_iff.mp hn).1, hn]
    · obtain ⟨rfl, rfl⟩ := Prod.mk.inj he
      exact ⟨[], 0, by simp [Net.newNode]⟩

/-- Nothing is tied to what has not been drawn. -/
theorem isolated_of_not_below (h : net.Shows base origin rest d hand) (hx : ¬ x.Below d) :
    Isolated hand.wiring x ∧ Isolated (base ⊔ Drawing.wiring d.ties) x := by
  constructor
  · apply Glue.isolated
    · rintro g hg rfl
      exact hx (h.belowHand g hg)
    · rintro v rfl
      exact hx trivial
  · intro y
    exact ⟨fun hy => hx (h.below x y hy).1, fun hy => hx (h.below y x hy).2⟩

/-- A wire that is not there yet is not at hand and cannot be seen. -/
theorem isolated_of_not_in (h : net.Shows base origin rest d hand)
    (hi : Inv P missed net (hand.map Prod.snd + rest) tasks { unset := U })
    (hu : ¬ u.IsNonWire) (hnew : ¬ u.In net) :
    Isolated hand.wiring (.value u) ∧ End.value u ∉ net.visible rest hand := by
  have hin : ∀ v ∈ hand.map Prod.snd + rest, v ≠ u := by
    rintro v hv rfl
    exact hnew (hi.linear.allocated v (Multiset.mem_add.mpr (.inl hv)))
  have hfst : ∀ g ∈ hand, g.1 ≠ .value u := by
    intro g hg he
    exact ((h.loose g hg).ne_value u).elim (fun hne => hne he) hu
  have hsnd : ∀ g ∈ hand, End.value u ≠ .value g.2 := by
    intro g hg he
    exact hin g.2 (Multiset.mem_add.mpr (.inl (Multiset.mem_map_of_mem _ hg)))
      (End.value.inj he).symm
  constructor
  · intro y
    constructor
    · rintro ⟨g, hg, ⟨he, -⟩ | ⟨he, -⟩⟩
      · exact hfst g hg he.symm
      · exact hsnd g hg he
    · rintro ⟨g, hg, ⟨-, he⟩ | ⟨-, he⟩⟩
      · exact hsnd g hg he
      · exact hfst g hg he.symm
  · rintro ⟨-, ⟨m, j, c, he, -⟩ | ⟨v, hv, he⟩ | ⟨g, hg, he⟩⟩
    · cases he
    · exact hin v (Multiset.mem_add.mpr (.inr hv)) (End.value.inj he).symm
    · exact hfst g hg he.symm

theorem count_cons_le (h : (hand.map Prod.fst).count e ≤ 1) (hx : ∀ g ∈ hand, g.1 ≠ x) :
    (((x, u) ::ₘ hand).map Prod.fst).count e ≤ 1 := by
  rw [Multiset.map_cons]
  by_cases he : e = x
  · subst he
    rw [Multiset.count_cons_self, Multiset.count_eq_zero.mpr]
    intro hm
    obtain ⟨g, hg, he⟩ := Multiset.mem_map.mp hm
    exact hx g hg he
  · rw [Multiset.count_cons_of_ne he]
    exact h

theorem agree_newNode (h : net.Shows base origin rest d hand) :
    Agree End.IsAtom ((net.newNode c).2.visible rest hand) (net.Tied ⊔ hand.wiring)
      (base ⊔ Drawing.wiring d.ties) := by
  have hiso : ∀ x ∈ {x : End | ∃ i, x = .port d.next i},
      Isolated (net.Tied ⊔ hand.wiring) x ∧ Isolated (base ⊔ Drawing.wiring d.ties) x := by
    rintro x ⟨i, rfl⟩
    obtain ⟨hglue, hdrawn⟩ := h.isolated_of_not_below (x := .port d.next i) (lt_irrefl d.next)
    refine ⟨(isolated_port ?_).sup hglue, hdrawn⟩
    intro u hr
    obtain ⟨c, l, k, hn, -⟩ := refers_port.mp hr
    exact absurd (List.getElem?_eq_some_iff.mp hn).1 (h.next ▸ lt_irrefl _)
  refine (h.agree.union hiso).mono ?_
  rintro x ⟨ha, ⟨n, i, c', rfl, hc⟩ | hx⟩
  · rcases ctorOf_newNode.mp hc with hc | he
    · exact .inl ⟨ha, .inl ⟨n, i, c', rfl, hc⟩⟩
    · exact .inr ⟨i, by rw [h.next, (Prod.mk.inj he).1]⟩
  · exact .inl ⟨ha, .inr hx⟩

theorem newNode (h : net.Shows base origin rest d hand) :
    (net.newNode c).2.Shows base origin rest
      { d with next := d.next + 1, nodes := d.nodes ++ [(d.next, c)] } hand where
  agree := by
    rw [tied_newNode]
    exact h.agree_newNode
  loose g hg := by
    refine (h.loose g hg).of_ports ?_ ?_
    · intro n i c' he hc
      rcases ctorOf_newNode.mp hc with hc | hn
      · exact hc
      · have hb : End.Below d (.port n i) := he ▸ h.belowHand g hg
        rw [(Prod.mk.inj hn).1, ← h.next] at hb
        exact absurd hb (lt_irrefl d.next)
    · intro n i hr
      obtain ⟨c', l, k, hn, hi⟩ := refers_port.mp hr
      refine .port (c := c') (l := l) (k := k) ?_ hi
      rw [Net.newNode, List.getElem?_append_left (List.getElem?_eq_some_iff.mp hn).1, hn]
  once := h.once
  next := by
    simp [Net.newNode, h.next]
  ctor n c' := by
    rw [ctorOf_newNode, h.ctor, ← h.next]
    simp only [Drawing.ctorOf, List.mem_append, List.mem_singleton, or_assoc]
  below x y hxy :=
    ⟨(h.below x y hxy).1.mono (Nat.le_succ _) le_rfl, (h.below x y hxy).2.mono (Nat.le_succ _) le_rfl⟩
  belowHand g hg := (h.belowHand g hg).mono (Nat.le_succ _) le_rfl

theorem output (h : net.Shows base origin rest d hand) (ha : net.Attached net' n i u)
    (hi : Inv P missed net (hand.map Prod.snd + rest) tasks { unset := U })
    (hn : CtorOf net.nodes n c) (hu : ¬ u.IsNonWire) (hne : ∀ g ∈ hand, g.1 ≠ .port n i)
    (hctor : ∀ n c, CtorOf net'.nodes n c ↔ CtorOf net.nodes n c)
    (hlen : net'.nodes.length = net.nodes.length) :
    net'.Shows base origin rest (d.push (.port n i)) ((.port n i, u) ::ₘ hand) where
  agree := by
    obtain ⟨hglue, hsee⟩ := h.isolated_of_not_in hi hu ha.new
    have hvis : net'.visible rest ((.port n i, u) ::ₘ hand) = net.visible rest hand := by
      rw [visible_congr hctor]
      apply Set.Subset.antisymm _ visible_cons
      intro x hx
      rcases mem_visible_cons hx with hx | rfl
      · exact hx
      · exact ⟨id, .inl ⟨n, i, c, rfl, hn⟩⟩
    have hsup : net.Tied ⊔ tie (.port n i) (.value u) ⊔ (hand.wiring ⊔ tie (.port n i) (.value u)) =
        net.Tied ⊔ hand.wiring ⊔ tie (.value u) (.port n i) := by
      rw [tie_comm (End.value u), sup_sup_sup_comm, sup_idem]
    have hu' : ¬ (End.value u).IsAtom := hu
    rw [hvis, Glue.wiring_cons, ha.tied, hsup]
    refine (Agree.leaf hu' (ha.isolated.sup hglue) hsee ?_).trans h.agree
    nofun
  loose g hg := by
    rcases Multiset.mem_cons.mp hg with rfl | hg
    · exact .held hu ha.port
    · exact (h.loose g hg).of_ports (fun n _ c _ => (hctor n c).mp) fun n i => ha.ports n i g.2
  once e he := count_cons_le (h.once e he) hne
  next := h.next.trans hlen.symm
  ctor n c := (hctor n c).trans (h.ctor n c)
  below := h.below
  belowHand g hg := by
    rcases Multiset.mem_cons.mp hg with rfl | hg
    · obtain ⟨l, k, hn⟩ := hn
      change n < d.next
      rw [h.next]
      exact (List.getElem?_eq_some_iff.mp hn).1
    · exact h.belowHand g hg

theorem agree_link (h : net.Shows base origin rest d hand)
    (hi : Inv P missed net (hand.map Prod.snd + rest) tasks { unset := U }) :
    Agree End.IsAtom (net.newWire.2.visible rest ((.link d.links true, .wire net.newWire.1) ::ₘ
        (.link d.links false, .wire net.newWire.1) ::ₘ hand))
      (net.Tied ⊔ hand.wiring ⊔ tie (.value (.wire net.newWire.1)) (.link d.links false) ⊔
        tie (.value (.wire net.newWire.1)) (.link d.links true))
      (base ⊔ Drawing.wiring d.ties ⊔ tie (.link d.links false) (.link d.links true)) := by
  have hnew : ¬ Value.In net (.wire net.newWire.1) := lt_irrefl net.wires.length
  obtain ⟨hglue, hsee⟩ := h.isolated_of_not_in hi id hnew
  have hiso := (hi.isolated_of_not_in hnew).sup hglue
  have hlink : ∀ x ∈ {x : End | ∃ s, x = .link d.links s},
      Isolated (net.Tied ⊔ hand.wiring) x ∧ Isolated (base ⊔ Drawing.wiring d.ties) x := by
    rintro x ⟨s, rfl⟩
    obtain ⟨hg, hd⟩ := h.isolated_of_not_below (x := .link d.links s) (lt_irrefl d.links)
    exact ⟨isolated_link.sup hg, hd⟩
  have hvis : net.newWire.2.visible rest ((.link d.links true, .wire net.newWire.1) ::ₘ
      (.link d.links false, .wire net.newWire.1) ::ₘ hand) ⊆
        net.visible rest hand ∪ {x | ∃ s, x = .link d.links s} := by
    intro x hx
    rcases mem_visible_cons hx with hx | rfl
    · exact (mem_visible_cons hx).imp_right fun he => ⟨false, he⟩
    · exact .inr ⟨true, rfl⟩
  have hdrawn := (h.agree.union hlink).sup_tie (a := .link d.links false)
    (b := .link d.links true) (.inl (.inr ⟨_, rfl⟩)) (.inl (.inr ⟨_, rfl⟩))
  refine Agree.mono ?_ hvis
  refine (Agree.contract End.not_isAtom_wire hiso ?_ ?_ ?_).trans hdrawn
  · rintro (hx | ⟨s, he⟩)
    · exact hsee hx
    · cases he
  · nofun
  · nofun

theorem link (h : net.Shows base origin rest d hand)
    (hi : Inv P missed net (hand.map Prod.snd + rest) tasks { unset := U }) :
    net.newWire.2.Shows base origin rest
      { d with
        links := d.links + 1
        ties := d.ties ++ [(.link d.links false, .link d.links true)]
        stack := .link d.links true :: .link d.links false :: d.stack }
      ((.link d.links true, .wire net.newWire.1) ::ₘ
        (.link d.links false, .wire net.newWire.1) ::ₘ hand) where
  agree := by
    rw [tied_newWire, Glue.wiring_cons, Glue.wiring_cons, Drawing.wiring_snoc, ← sup_assoc,
      ← sup_assoc, ← sup_assoc, tie_comm (End.link d.links false) (.value _),
      tie_comm (End.link d.links true) (.value _)]
    exact h.agree_link hi
  loose g hg := by
    rcases Multiset.mem_cons.mp hg with rfl | hg
    · exact .link
    rcases Multiset.mem_cons.mp hg with rfl | hg
    · exact .link
    · exact (h.loose g hg).of_ports (fun _ _ _ _ hc => hc) fun _ _ hr => hr.of_nodes (by rfl)
  once e he := by
    have hfresh : ∀ s, ∀ g ∈ hand, g.1 ≠ .link d.links s := by
      intro s g hg he
      have hb : End.Below d (.link d.links s) := he ▸ h.belowHand g hg
      exact lt_irrefl d.links hb
    refine count_cons_le (count_cons_le (h.once e he) (hfresh false)) ?_
    intro g hg
    rcases Multiset.mem_cons.mp hg with rfl | hg
    · simp
    · exact hfresh true g hg
  next := h.next
  ctor := h.ctor
  below x y hxy := by
    dsimp only at hxy
    rw [Drawing.wiring_snoc, ← sup_assoc] at hxy
    rcases hxy with hxy | ⟨rfl, rfl⟩ | ⟨rfl, rfl⟩
    · exact ⟨(h.below x y hxy).1.mono le_rfl (Nat.le_succ _),
        (h.below x y hxy).2.mono le_rfl (Nat.le_succ _)⟩
    · exact ⟨Nat.lt_succ_self _, Nat.lt_succ_self _⟩
    · exact ⟨Nat.lt_succ_self _, Nat.lt_succ_self _⟩
  belowHand g hg := by
    rcases Multiset.mem_cons.mp hg with rfl | hg
    · exact Nat.lt_succ_self _
    rcases Multiset.mem_cons.mp hg with rfl | hg
    · exact Nat.lt_succ_self _
    · exact (h.belowHand g hg).mono le_rfl (Nat.le_succ _)

end Net.Shows

end InetLisp
