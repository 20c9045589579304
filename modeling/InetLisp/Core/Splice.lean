import InetLisp.Core.Depict
import InetLisp.Core.Disconnect

/-! # Taking a pair of nodes apart

Once the two nodes of an active pair are gone, what was tied to their free ports is at hand, and
whatever else there is sees no difference: the wires between the two principal ports are not tied to
anything else.
-/

namespace InetLisp

open Lib Wiring

/-- The ports whose values `worker_disconnect_node` pushes. -/
def NodeCtor.freePorts (ctor : NodeCtor) : List ℕ :=
  (List.range ctor.arity).filter fun i => !(ctor.portInfos[i]?).any PortInfo.isPrincipal

/-- The free ports of a node, the last one on top. -/
def freeEnds (n : ℕ) (ctor : NodeCtor) : List End := (ctor.freePorts.map (.port n)).reverse

/-- What a body starts from when the two nodes are gone. -/
def Drawing.ofPair (n m : ℕ) (left right : NodeCtor) (next links : ℕ) : Drawing where
  next
  links
  stack := freeEnds m right ++ freeEnds n left

/-- Seen from its ports and from outside, the net is wired so; names of links are new from a
number on. -/
def Net.Pictures (net : Net) (base : Wiring End) (rest : Multiset Value) (links : ℕ) : Prop :=
  net.Shows base (CtorOf net.nodes) rest { next := net.nodes.length, links } 0

variable {P : Program} {missed : Set Redex} {net net' : Net} {outside rest : Multiset Value}
  {tasks : Multiset Task} {U : Set (ℕ × ℕ)} {n c i k m j p q links : ℕ} {v : Value} {x : End}
  {base : Wiring End} {ctor : NodeCtor} {s s' : Store} {hand : Glue} {l : List End}

theorem NodeCtor.mem_freePorts : i ∈ ctor.freePorts ↔ i < ctor.arity ∧ ¬ ctor.IsPrincipal i := by
  simp only [freePorts, List.mem_filter, List.mem_range, Bool.not_eq_true']
  apply and_congr_right
  intro hi
  rw [← Bool.not_eq_true, Option.any_eq_true]
  rfl

theorem NodeCtor.nodup_freePorts (ctor : NodeCtor) : ctor.freePorts.Nodup :=
  List.nodup_range.filter _

theorem nodup_freeEnds (n : ℕ) (ctor : NodeCtor) : (freeEnds n ctor).Nodup := by
  refine List.nodup_reverse.mpr (ctor.nodup_freePorts.map ?_)
  rintro i j ⟨⟩
  rfl

theorem Net.pictures (net : Net) (rest : Multiset Value) : net.Pictures net.Tied rest 0 where
  agree := by
    rw [Glue.wiring_zero, Drawing.wiring_nil]
    exact .refl _
  loose := by simp
  once := by simp
  next := rfl
  ctor n c := by simp [Drawing.ctorOf]
  below := by
    have hport : ∀ {x u}, net.Refers x u → x.Below { next := net.nodes.length } := by
      rintro x u (⟨hn, -⟩ | _ | _)
      · exact Cells.lt_length hn
      · trivial
      · trivial
    rintro x y (h | ⟨t, ht, -⟩)
    · rcases h with ⟨u, rfl, h⟩ | ⟨u, rfl, h⟩
      · exact ⟨hport h, trivial⟩
      · exact ⟨trivial, hport h⟩
    · cases ht
  belowHand := by simp

/-- A net and a picture of it have the same ways between what is seen. -/
theorem Net.Pictures.agree (h : net.Pictures base rest links) :
    Agree End.IsAtom (net.visible rest 0) net.Tied base := by
  have ha := Net.Shows.agree h
  rwa [Glue.wiring_zero, Drawing.wiring_nil, sup_bot_eq, sup_bot_eq] at ha

namespace Inv

/-- Its port and its oppsite refer to a principal wire of a pair, and nothing else does. -/
theorem refers_of_oppsite (h : Inv P missed net outside tasks { unset := U })
    (hp : net.principalWires[p]? = some ⟨n, i, some q, false⟩)
    (hr : net.Refers x (.principalWire p)) : x = .port n i ∨ x = .value (.principalWire q) := by
  obtain ⟨-, c, l, k, ctor, hn, hi, -⟩ := h.shape.owner p n i _ hp
  cases hr with
  | port hm hj =>
    obtain ⟨o, hp'⟩ := h.shape.port _ _ _ _ _ p hm hj (Set.notMem_empty _)
    cases hp.symm.trans hp'
    exact .inl rfl
  | @wire w _ hw =>
    exfalso
    have hc := h.linear.count_le (.principalWire p) id
    have h₁ : 1 ≤ (Cells.sum Wire.ledger net.wires).count (.principalWire p) := by
      obtain ⟨r, hr⟩ := Cells.exists_sum_eq Wire.ledger hw
      rw [hr, Wire.ledger_fuzed]
      simp
    have h₂ : 1 ≤ (Cells.sum PrincipalWire.ledger net.principalWires).count (.principalWire p) := by
      obtain ⟨r, hr⟩ := Cells.exists_sum_eq PrincipalWire.ledger hp
      rw [hr, PrincipalWire.ledger_oppsite]
      simp
    have h₃ : 1 ≤ (Cells.sum (Node.ledger ∅) net.nodes).count (.principalWire p) := by
      obtain ⟨r, hnodes⟩ := Cells.exists_sum_eq (Node.ledger ∅) hn
      rw [hnodes, Multiset.count_add]
      have hmem := Multiset.one_le_count_iff_mem.mpr
        (Slots.mem_contentExcept (X := {j | (n, j) ∈ (∅ : Set (ℕ × ℕ))}) (Set.notMem_empty _) hi)
      exact hmem.trans (Nat.le_add_right _ _)
    simp only [Net.ledger, Multiset.count_add] at hc
    omega
  | @oppsite r m j _ hq =>
    obtain ⟨-, hd | ⟨m', j', hp'⟩⟩ := h.shape.oppsite r m j p hq
    · exact hd.elim
    · cases hp.symm.trans hp'
      exact .inr rfl

end Inv

theorem Net.Refers.unique {u : Value} (h : net.Refers x v) (h' : net.Refers x u) : u = v := by
  cases h with
  | port hn hi =>
    cases h' with
    | port hm hj =>
      cases hn.symm.trans hm
      cases hi.symm.trans hj
      rfl
  | wire hw =>
    cases h' with
    | wire hw' =>
      cases hw.symm.trans hw'
      rfl
  | oppsite hp =>
    cases h' with
    | oppsite hp' =>
      cases hp.symm.trans hp'
      rfl

/-- The two nodes of an active pair are gone, and what their free ports held is at hand. -/
structure Net.Parts (net net' : Net) (p q n i m j : ℕ) (left right : NodeCtor) (hand : Glue) :
    Prop where
  leftWire : net.principalWires[p]? = some ⟨n, i, some q, false⟩
  rightWire : net.principalWires[q]? = some ⟨m, j, some p, false⟩
  ne : n ≠ m
  ltLeft : i < left.arity
  ltRight : j < right.arity
  notMemLeft : i ∉ left.freePorts
  notMemRight : j ∉ right.freePorts
  wires : net'.wires = net.wires
  nodes : net'.nodes = (net.nodes.set n ⟨none, [], 0⟩).set m ⟨none, [], 0⟩
  alive : ∀ (r n' i' : ℕ) (o : Option ℕ), net'.principalWires[r]? = some ⟨n', i', o, false⟩ ↔
    net.principalWires[r]? = some ⟨n', i', o, false⟩ ∧ n' ≠ n ∧ n' ≠ m
  pair : ∀ (r n' i' : ℕ) (o : Option ℕ), net.principalWires[r]? = some ⟨n', i', o, false⟩ →
    n' = n ∨ n' = m → r = p ∨ r = q
  principalLeft : ∀ k < left.arity, k ∈ left.freePorts ∨ k = i
  principalRight : ∀ k < right.arity, k ∈ right.freePorts ∨ k = j
  mem_hand : ∀ x v, (x, v) ∈ hand ↔ net.Refers x v ∧
    ((∃ k ∈ left.freePorts, x = .port n k) ∨ ∃ k ∈ right.freePorts, x = .port m k)

namespace Net.Parts

variable {left right : NodeCtor}

/-- The ports that the ctors of the two nodes do not know. -/
def beyond (n m : ℕ) (left right : NodeCtor) : Set End :=
  {x | ∃ k, left.arity ≤ k ∧ x = .port n k ∨ right.arity ≤ k ∧ x = .port m k}

theorem not_ctorOf (h : net.Parts net' p q n i m j left right hand) (c : ℕ) :
    ¬ CtorOf net'.nodes n c ∧ ¬ CtorOf net'.nodes m c := by
  constructor
  · rintro ⟨l, k, hn⟩
    rw [h.nodes, List.getElem?_set, List.getElem?_set] at hn
    split at hn
    · split at hn <;> cases hn
    · simp only [if_true] at hn
      split at hn <;> cases hn
  · rintro ⟨l, k, hn⟩
    rw [h.nodes, List.getElem?_set] at hn
    simp only [if_true] at hn
    split at hn <;> cases hn

theorem ctorOf_iff (h : net.Parts net' p q n i m j left right hand) (r c : ℕ) :
    CtorOf net'.nodes r c ↔ CtorOf net.nodes r c ∧ r ≠ n ∧ r ≠ m := by
  constructor
  · intro hr
    have hn : r ≠ n := fun he => (h.not_ctorOf c).1 (he ▸ hr)
    have hm : r ≠ m := fun he => (h.not_ctorOf c).2 (he ▸ hr)
    refine ⟨?_, hn, hm⟩
    obtain ⟨l, k, hr⟩ := hr
    rw [h.nodes, List.getElem?_set_ne (Ne.symm hm), List.getElem?_set_ne (Ne.symm hn)] at hr
    exact ⟨l, k, hr⟩
  · rintro ⟨⟨l, k, hr⟩, hn, hm⟩
    refine ⟨l, k, ?_⟩
    rw [h.nodes, List.getElem?_set_ne (Ne.symm hm), List.getElem?_set_ne (Ne.symm hn), hr]

/-- A port of the two nodes is one of those at hand, the principal one, or one that its ctor does
not know. -/
theorem port_cases (h : net.Parts net' p q n i m j left right hand) {k : ℕ}
    (hr : net.Refers x v) (hx : x = .port n k ∨ x = .port m k) :
    (x, v) ∈ hand ∨ x = .port n i ∨ x = .port m j ∨ x ∈ beyond n m left right := by
  rcases hx with rfl | rfl
  · by_cases hk : k < left.arity
    · rcases h.principalLeft k hk with hf | rfl
      · exact .inl ((h.mem_hand _ _).mpr ⟨hr, .inl ⟨k, hf, rfl⟩⟩)
      · exact .inr (.inl rfl)
    · exact .inr (.inr (.inr ⟨k, .inl ⟨not_lt.mp hk, rfl⟩⟩))
  · by_cases hk : k < right.arity
    · rcases h.principalRight k hk with hf | rfl
      · exact .inl ((h.mem_hand _ _).mpr ⟨hr, .inr ⟨k, hf, rfl⟩⟩)
      · exact .inr (.inr (.inl rfl))
    · exact .inr (.inr (.inr ⟨k, .inr ⟨not_lt.mp hk, rfl⟩⟩))

theorem refers_cases (h : net.Parts net' p q n i m j left right hand)
    (hpi : net.Refers (.port n i) (.principalWire p))
    (hqj : net.Refers (.port m j) (.principalWire q)) (hr : net.Refers x v) :
    net'.Refers x v ∨ (x, v) ∈ hand ∨ (x = .port n i ∧ v = .principalWire p) ∨
      (x = .port m j ∧ v = .principalWire q) ∨
      (x = .value (.principalWire p) ∧ v = .principalWire q) ∨
      (x = .value (.principalWire q) ∧ v = .principalWire p) ∨ x ∈ beyond n m left right := by
  cases hr with
  | @port n' c k k' l v hn hi =>
    have hr : net.Refers (.port n' k) v := .port hn hi
    by_cases hx : n' = n ∨ n' = m
    · have hcases := h.port_cases (k := k) hr (by
        rcases hx with rfl | rfl
        · exact .inl rfl
        · exact .inr rfl)
      rcases hcases with hm | he | he | hb
      · exact .inr (.inl hm)
      · rw [he] at hr
        exact .inr (.inr (.inl ⟨he, hpi.unique hr⟩))
      · rw [he] at hr
        exact .inr (.inr (.inr (.inl ⟨he, hqj.unique hr⟩)))
      · exact .inr (.inr (.inr (.inr (.inr (.inr hb)))))
    · rw [not_or] at hx
      left
      apply Net.Refers.port _ hi (c := c) (k := k')
      rw [h.nodes, List.getElem?_set_ne (Ne.symm hx.2), List.getElem?_set_ne (Ne.symm hx.1), hn]
  | @wire w _ hw =>
    exact .inl (.wire (by rw [h.wires, hw]))
  | @oppsite r n' i' r' hr =>
    by_cases hn : n' = n ∨ n' = m
    · rcases h.pair r n' i' _ hr hn with rfl | rfl
      · cases h.leftWire.symm.trans hr
        exact .inr (.inr (.inr (.inr (.inl ⟨rfl, rfl⟩))))
      · cases h.rightWire.symm.trans hr
        exact .inr (.inr (.inr (.inr (.inr (.inl ⟨rfl, rfl⟩)))))
    · rw [not_or] at hn
      exact .inl (.oppsite ((h.alive r n' i' _).mpr ⟨hr, hn⟩))

theorem refers_of_refers (h : net.Parts net' p q n i m j left right hand)
    (hr : net'.Refers x v) : net.Refers x v := by
  cases hr with
  | @port n' c k k' l v hn hi =>
    obtain ⟨hc, hne, hme⟩ := (h.ctorOf_iff n' c).mp ⟨l, k', hn⟩
    rw [h.nodes, List.getElem?_set_ne (Ne.symm hme), List.getElem?_set_ne (Ne.symm hne)] at hn
    exact .port hn hi
  | @wire w _ hw =>
    rw [h.wires] at hw
    exact .wire hw
  | @oppsite r n' i' r' hr => exact .oppsite ((h.alive r n' i' _).mp hr).1

/-- The ties of the two principal wires. -/
def pairTies (p q n i m j : ℕ) : Wiring End :=
  tie (.port n i) (.value (.principalWire p)) ⊔
    tie (.value (.principalWire p)) (.value (.principalWire q)) ⊔
      tie (.port m j) (.value (.principalWire q))

def fringe (net : Net) (T : Set End) : Wiring End :=
  fun x y => ∃ t v, t ∈ T ∧ net.Refers t v ∧ tie t (.value v) x y

theorem tied_iff {y : End} : net.Tied x y ↔ ∃ t v, net.Refers t v ∧ tie t (.value v) x y := by
  constructor
  · rintro (⟨v, rfl, hr⟩ | ⟨v, rfl, hr⟩)
    · exact ⟨x, v, hr, tie_mk⟩
    · exact ⟨y, v, hr, .inr ⟨rfl, rfl⟩⟩
  · rintro ⟨t, v, hr, ⟨rfl, rfl⟩ | ⟨rfl, rfl⟩⟩
    · exact .inl ⟨v, rfl, hr⟩
    · exact .inr ⟨v, rfl, hr⟩

theorem tied_eq (h : net.Parts net' p q n i m j left right hand)
    (hpi : net.Refers (.port n i) (.principalWire p))
    (hqj : net.Refers (.port m j) (.principalWire q)) :
    net.Tied = net'.Tied ⊔ hand.wiring ⊔ pairTies p q n i m j ⊔
      fringe net (beyond n m left right) := by
  have hpq : net.Refers (.value (.principalWire p)) (.principalWire q) := .oppsite h.leftWire
  ext x y
  rw [tied_iff]
  constructor
  · rintro ⟨t, v, hr, ht⟩
    rcases h.refers_cases hpi hqj hr with hr' | hm | ⟨rfl, rfl⟩ | ⟨rfl, rfl⟩ | ⟨rfl, rfl⟩ |
      ⟨rfl, rfl⟩ | hb
    · exact .inl (.inl (.inl (tied_iff.mpr ⟨t, v, hr', ht⟩)))
    · exact .inl (.inl (.inr ⟨(t, v), hm, ht⟩))
    · exact .inl (.inr (.inl (.inl ht)))
    · exact .inl (.inr (.inr ht))
    · exact .inl (.inr (.inl (.inr ht)))
    · exact .inl (.inr (.inl (.inr (tie_comm _ _ ▸ ht))))
    · exact .inr ⟨t, v, hb, hr, ht⟩
  · rintro (((ht | ⟨⟨t, v⟩, hm, ht⟩) | (ht | ht) | ht) | ⟨t, v, -, hr, ht⟩)
    · obtain ⟨t, v, hr, ht⟩ := tied_iff.mp ht
      exact ⟨t, v, h.refers_of_refers hr, ht⟩
    · exact ⟨t, v, ((h.mem_hand t v).mp hm).1, ht⟩
    · exact ⟨_, _, hpi, ht⟩
    · exact ⟨_, _, hpq, ht⟩
    · exact ⟨_, _, hqj, ht⟩
    · exact ⟨t, v, hr, ht⟩

theorem isolated_port (h : net.Parts net' p q n i m j left right hand) {k : ℕ} :
    Isolated net'.Tied (.port n k) ∧ Isolated net'.Tied (.port m k) := by
  constructor <;>
  · apply Net.isolated_port
    intro u hr
    obtain ⟨c, l, k', hn, -⟩ := refers_port.mp hr
    first
      | exact (h.not_ctorOf c).1 ⟨l, k', hn⟩
      | exact (h.not_ctorOf c).2 ⟨l, k', hn⟩

theorem port_of_mem_hand (h : net.Parts net' p q n i m j left right hand) (hm : (x, v) ∈ hand) :
    x ≠ .port n i ∧ x ≠ .port m j ∧ x ∉ beyond n m left right ∧ ∀ u, x ≠ .value u := by
  have hlt : ∀ {ctor : NodeCtor} {k}, k ∈ ctor.freePorts → k < ctor.arity :=
    fun hk => (NodeCtor.mem_freePorts.mp hk).1
  rcases ((h.mem_hand x v).mp hm).2 with ⟨k, hk, rfl⟩ | ⟨k, hk, rfl⟩
  · refine ⟨?_, ?_, ?_, nofun⟩
    · rintro ⟨⟩
      exact h.notMemLeft hk
    · intro he
      exact h.ne (End.port.inj he).1
    · rintro ⟨k', ⟨hle, he⟩ | ⟨-, he⟩⟩
      · cases he
        exact absurd (hlt hk) hle.not_gt
      · exact h.ne (End.port.inj he).1
  · refine ⟨?_, ?_, ?_, nofun⟩
    · intro he
      exact h.ne (End.port.inj he).1.symm
    · rintro ⟨⟩
      exact h.notMemRight hk
    · rintro ⟨k', ⟨-, he⟩ | ⟨hle, he⟩⟩
      · exact h.ne (End.port.inj he).1.symm
      · cases he
        exact absurd (hlt hk) hle.not_gt

/-- The ends of the ties of the two principal wires. -/
def pairEnds (p q n i m j : ℕ) : Set End :=
  {.port n i, .port m j, .value (.principalWire p), .value (.principalWire q)}

theorem symm (h : net.Parts net' p q n i m j left right hand) :
    net.Parts net' q p m j n i right left hand where
  leftWire := h.rightWire
  rightWire := h.leftWire
  ne := h.ne.symm
  ltLeft := h.ltRight
  ltRight := h.ltLeft
  notMemLeft := h.notMemRight
  notMemRight := h.notMemLeft
  wires := h.wires
  nodes := by rw [h.nodes, List.set_comm _ _ h.ne]
  alive r n' i' o := by rw [h.alive, and_comm (a := n' ≠ n)]
  pair r n' i' o hr hn := (h.pair r n' i' o hr hn.symm).symm
  principalLeft := h.principalRight
  principalRight := h.principalLeft
  mem_hand x v := by rw [h.mem_hand, or_comm]

theorem isolated_value (h : net.Parts net' p q n i m j left right hand)
    (hi : Inv P missed net outside tasks { unset := U }) :
    Isolated (net'.Tied ⊔ hand.wiring) (.value (.principalWire p)) := by
  have hcases : ∀ {x}, net.Refers x (.principalWire p) →
      x = .port n i ∨ x = .value (.principalWire q) := fun hr => hi.refers_of_oppsite h.leftWire hr
  apply Isolated.sup
  · apply Net.isolated_value
    · intro x hr
      rcases hcases (h.refers_of_refers hr) with rfl | rfl
      · obtain ⟨c, l, k, hn, -⟩ := refers_port.mp hr
        exact (h.not_ctorOf c).1 ⟨l, k, hn⟩
      · obtain ⟨n', i', r, hr', -⟩ := refers_principalWire.mp hr
        obtain ⟨hr', -, hne⟩ := (h.alive _ _ _ _).mp hr'
        cases h.rightWire.symm.trans hr'
        exact hne rfl
    · intro u hr
      obtain ⟨n', i', r, hr', -⟩ := refers_principalWire.mp hr
      obtain ⟨hr', hne, -⟩ := (h.alive _ _ _ _).mp hr'
      cases h.leftWire.symm.trans hr'
      exact hne rfl
  · have hfst : ∀ {x v}, (x, v) ∈ hand → x ≠ .value (.principalWire p) ∧ v ≠ .principalWire p := by
      intro x v hm
      obtain ⟨h₁, -, -, h₄⟩ := h.port_of_mem_hand hm
      refine ⟨h₄ _, ?_⟩
      rintro rfl
      rcases hcases ((h.mem_hand _ _).mp hm).1 with he | he
      · exact h₁ he
      · exact h₄ _ he
    rintro y
    constructor
    · rintro ⟨⟨x, v⟩, hm, ⟨he, -⟩ | ⟨he, -⟩⟩
      · exact (hfst hm).1 he.symm
      · exact (hfst hm).2 (End.value.inj he).symm
    · rintro ⟨⟨x, v⟩, hm, ⟨-, he⟩ | ⟨-, he⟩⟩
      · exact (hfst hm).2 (End.value.inj he).symm
      · exact (hfst hm).1 he.symm

theorem isolated_of_pairEnds (h : net.Parts net' p q n i m j left right hand)
    (hi : Inv P missed net outside tasks { unset := U }) (hx : x ∈ pairEnds p q n i m j) :
    Isolated (net'.Tied ⊔ hand.wiring) x := by
  rcases hx with rfl | rfl | rfl | rfl
  · exact h.isolated_port.1.sup (Glue.isolated (fun g hg => (h.port_of_mem_hand hg).1) nofun)
  · exact h.isolated_port.2.sup (Glue.isolated (fun g hg => (h.port_of_mem_hand hg).2.1) nofun)
  · exact h.isolated_value hi
  · exact h.symm.isolated_value hi

theorem isolated_of_beyond (h : net.Parts net' p q n i m j left right hand)
    (hx : x ∈ beyond n m left right) :
    Isolated (net'.Tied ⊔ hand.wiring ⊔ pairTies p q n i m j) x := by
  have hne : x ≠ .port n i ∧ x ≠ .port m j ∧ ∀ u, x ≠ .value u := by
    obtain ⟨k, ⟨hk, rfl⟩ | ⟨hk, rfl⟩⟩ := hx
    · refine ⟨?_, fun he => h.ne (End.port.inj he).1, nofun⟩
      rintro ⟨⟩
      exact absurd h.ltLeft hk.not_gt
    · refine ⟨fun he => h.ne (End.port.inj he).1.symm, ?_, nofun⟩
      rintro ⟨⟩
      exact absurd h.ltRight hk.not_gt
  apply Isolated.sup
  · apply Isolated.sup
    · obtain ⟨k, ⟨-, rfl⟩ | ⟨-, rfl⟩⟩ := hx
      · exact h.isolated_port.1
      · exact h.isolated_port.2
    · refine Glue.isolated ?_ hne.2.2
      rintro g hg rfl
      exact (h.port_of_mem_hand hg).2.2.1 hx
  · exact ((Isolated.tie hne.1 (hne.2.2 _)).sup (Isolated.tie (hne.2.2 _) (hne.2.2 _))).sup
      (Isolated.tie hne.2.1 (hne.2.2 _))

/-- What is left sees the same ways as before. -/
theorem agree (h : net.Parts net' p q n i m j left right hand)
    (hi : Inv P missed net outside tasks { unset := U })
    (hpi : net.Refers (.port n i) (.principalWire p))
    (hqj : net.Refers (.port m j) (.principalWire q)) {S : Set End}
    (hS : ∀ x ∈ S, x ∉ pairEnds p q n i m j ∧ x ∉ beyond n m left right) :
    Agree End.IsAtom S net.Tied (net'.Tied ⊔ hand.wiring) := by
  rw [h.tied_eq hpi hqj]
  refine Agree.trans (s := net'.Tied ⊔ hand.wiring ⊔ pairTies p q n i m j) ?_ ?_
  · have hvalue : ∀ v, End.value v ∉ beyond n m left right := by
      rintro v ⟨k, ⟨-, he⟩ | ⟨-, he⟩⟩ <;> cases he
    apply Agree.tufts (T := beyond n m left right)
    · rintro x y ⟨t, v, ht, -, ⟨rfl, rfl⟩ | ⟨rfl, rfl⟩⟩
      · exact .inl ⟨ht, hvalue v⟩
      · exact .inr ⟨ht, hvalue v⟩
    · have hone : ∀ x ∈ beyond n m left right, ∀ y,
          fringe net (beyond n m left right) x y ∨ fringe net (beyond n m left right) y x →
            ∃ v, y = .value v ∧ net.Refers x v := by
        rintro x hx y (⟨t, v, -, hr, ⟨rfl, rfl⟩ | ⟨rfl, rfl⟩⟩ |
          ⟨t, v, -, hr, ⟨rfl, rfl⟩ | ⟨rfl, rfl⟩⟩)
        · exact ⟨v, rfl, hr⟩
        · exact (hvalue v hx).elim
        · exact (hvalue v hx).elim
        · exact ⟨v, rfl, hr⟩
      intro x hx y y' hy hy'
      obtain ⟨v, rfl, hv⟩ := hone x hx y hy
      obtain ⟨v', rfl, hv'⟩ := hone x hx y' hy'
      rw [hv.unique hv']
    · exact fun x hx => h.isolated_of_beyond hx
    · exact fun x hx => (hS x hx).2
    · rintro x ⟨k, ⟨-, rfl⟩ | ⟨-, rfl⟩⟩ <;> exact id
  · apply Agree.island (T := pairEnds p q n i m j)
    · have hmem : ∀ {a b x y : End}, a ∈ pairEnds p q n i m j → b ∈ pairEnds p q n i m j →
          tie a b x y → x ∈ pairEnds p q n i m j ∧ y ∈ pairEnds p q n i m j := by
        rintro a b x y ha hb (⟨rfl, rfl⟩ | ⟨rfl, rfl⟩)
        · exact ⟨ha, hb⟩
        · exact ⟨hb, ha⟩
      rintro x y ((ht | ht) | ht)
      · exact hmem (by simp [pairEnds]) (by simp [pairEnds]) ht
      · exact hmem (by simp [pairEnds]) (by simp [pairEnds]) ht
      · exact hmem (by simp [pairEnds]) (by simp [pairEnds]) ht
    · exact fun x hx => h.isolated_of_pairEnds hi hx
    · exact fun x hx => (hS x hx).1

theorem length_nodes (h : net.Parts net' p q n i m j left right hand) :
    net'.nodes.length = net.nodes.length := by
  rw [h.nodes, List.length_set, List.length_set]

theorem notMem_of_visible (h : net.Parts net' p q n i m j left right hand)
    (hi : Inv P missed net rest tasks { unset := U }) (hx : x ∈ net'.visible rest hand) :
    x ∉ pairEnds p q n i m j ∧ x ∉ beyond n m left right := by
  have hrest : ∀ {r r' : ℕ} {n' i' : ℕ}, net.principalWires[r]? = some ⟨n', i', some r', false⟩ →
      .principalWire r ∉ rest := by
    intro r r' n' i' hr hm
    obtain ⟨n'', i'', hr'⟩ := hi.principal_of_mem hm
    cases hr.symm.trans hr'
  obtain ⟨-, ⟨n', i', c, rfl, hc⟩ | ⟨v, hv, rfl⟩ | ⟨⟨x, v⟩, hg, rfl⟩⟩ := hx
  · obtain ⟨-, hn, hm⟩ := (h.ctorOf_iff n' c).mp hc
    constructor
    · rintro (he | he | he | he) <;> cases he
      · exact hn rfl
      · exact hm rfl
    · rintro ⟨k, ⟨-, he⟩ | ⟨-, he⟩⟩ <;> cases he
      · exact hn rfl
      · exact hm rfl
  · constructor
    · rintro (he | he | he | he) <;> cases he
      · exact hrest h.leftWire hv
      · exact hrest h.rightWire hv
    · rintro ⟨k, ⟨-, he⟩ | ⟨-, he⟩⟩ <;> cases he
  · obtain ⟨h₁, h₂, h₃, h₄⟩ := h.port_of_mem_hand hg
    refine ⟨?_, h₃⟩
    rintro (he | he | he | he)
    · exact h₁ he
    · exact h₂ he
    · exact h₄ _ he
    · exact h₄ _ he

theorem exists_ctorOf_of_mem_hand (h : net.Parts net' p q n i m j left right hand)
    (hg : (x, v) ∈ hand) : ∃ n' k c, x = .port n' k ∧ CtorOf net.nodes n' c := by
  obtain ⟨hr, ⟨k, -, rfl⟩ | ⟨k, -, rfl⟩⟩ := (h.mem_hand x v).mp hg
  · obtain ⟨c, l, k', hn, -⟩ := refers_port.mp hr
    exact ⟨n, k, c, rfl, l, k', hn⟩
  · obtain ⟨c, l, k', hn, -⟩ := refers_port.mp hr
    exact ⟨m, k, c, rfl, l, k', hn⟩

theorem visible_subset (h : net.Parts net' p q n i m j left right hand) :
    net'.visible rest hand ⊆ net.visible rest 0 := by
  rintro x ⟨hx, ⟨n', i', c, rfl, hc⟩ | hv | ⟨⟨x, v⟩, hg, rfl⟩⟩
  · exact ⟨hx, .inl ⟨n', i', c, rfl, ((h.ctorOf_iff n' c).mp hc).1⟩⟩
  · exact ⟨hx, .inr (.inl hv)⟩
  · exact ⟨hx, .inl (h.exists_ctorOf_of_mem_hand hg)⟩

/-- The picture of the net is one of what is left, with the free ports at hand. -/
theorem shows (h : net.Parts net' p q n i m j left right hand)
    (hi : Inv P missed net rest tasks { unset := U })
    (hpi : net.Refers (.port n i) (.principalWire p))
    (hqj : net.Refers (.port m j) (.principalWire q)) (hnd : (hand.map Prod.fst).Nodup)
    (hb : net.Pictures base rest links) :
    net'.Shows base (CtorOf net'.nodes) rest { next := net'.nodes.length, links, stack := l }
      hand where
  agree := by
    rw [Drawing.wiring_nil, sup_bot_eq]
    refine (h.agree hi hpi hqj ?_).symm.trans (hb.agree.mono ?_)
    · intro x hx
      exact h.notMem_of_visible hi hx
    · exact h.visible_subset
  loose := by
    rintro ⟨x, v⟩ hg
    obtain ⟨-, ⟨k, -, rfl⟩ | ⟨k, -, rfl⟩⟩ := (h.mem_hand x v).mp hg
    · exact .gone fun c => (h.not_ctorOf c).1
    · exact .gone fun c => (h.not_ctorOf c).2
  once e _ := Multiset.nodup_iff_count_le_one.mp hnd e
  next := rfl
  ctor r c := by simp [Drawing.ctorOf]
  below := by
    rw [h.length_nodes]
    exact hb.below
  belowHand := by
    rw [h.length_nodes]
    rintro ⟨x, v⟩ hg
    obtain ⟨n', k, c, rfl, l, k', hn⟩ := h.exists_ctorOf_of_mem_hand hg
    exact Cells.lt_length hn

end Net.Parts

end InetLisp
