import InetLisp.Lang.Rules

/-! # What is found for an active pair

The rule for two ctors is the first for them in the table of the left one, and else the
first in the table of the right one.
-/

namespace InetLisp

/-- Two principal wires, and the ctors of their nodes. -/
structure ActivePair (net : Net) (left right : ℕ) (l r : PrincipalWire) (lc rc : ℕ) : Prop where
  left : net.getPrincipalWire left = .ok l
  right : net.getPrincipalWire right = .ok r
  leftCtor : net.getCtor l.node = .ok lc
  rightCtor : net.getCtor r.node = .ok rc

/-- Each of two principal wires gets the other as its oppsite. -/
def Net.oppose (net : Net) (left right : ℕ) (l r : PrincipalWire) : Net :=
  (net.setPrincipalWire left { l with oppsite := some right }).setPrincipalWire right
    { r with oppsite := some left }

namespace ActivePair

variable {P : Program} {net : Net} {left right lc rc : ℕ} {l r : PrincipalWire}

theorem symm (h : ActivePair net left right l r lc rc) : ActivePair net right left r l rc lc :=
  ⟨h.right, h.left, h.rightCtor, h.leftCtor⟩

theorem connect (h : ActivePair net left right l r lc rc) (P : Program) :
    connectActivePair P net left right =
      .ok (net.oppose left right l r, findRule P left right lc rc) := by
  obtain ⟨hl, hr, hlc, hrc⟩ := h
  obtain ⟨hln, hld⟩ := Net.getPrincipalWire_eq_ok.mp hl
  obtain ⟨hrn, hrd⟩ := Net.getPrincipalWire_eq_ok.mp hr
  obtain ⟨r', hr', hn, hi, hd⟩ : ∃ r', (net.setPrincipalWire left
      { l with oppsite := some right }).getPrincipalWire right = .ok r' ∧ r'.node = r.node ∧
      r'.index = r.index ∧ r'.isDestroyed = r.isDestroyed := by
    by_cases he : left = right
    · subst he
      obtain rfl := Option.some.inj (hln.symm.trans hrn)
      have hlt := (List.getElem?_eq_some_iff.mp hln).1
      refine ⟨{ l with oppsite := some left }, ?_, rfl, rfl, rfl⟩
      rw [Net.getPrincipalWire_eq_ok, Net.setPrincipalWire, List.getElem?_set_self hlt]
      exact ⟨rfl, hld⟩
    · refine ⟨r, ?_, rfl, rfl, rfl⟩
      rw [Net.getPrincipalWire_eq_ok, Net.setPrincipalWire, List.getElem?_set_ne he]
      exact ⟨hrn, hrd⟩
  have hc (p q : ℕ) (o o' : PrincipalWire) (n : ℕ) :
      ((net.setPrincipalWire p o).setPrincipalWire q o').getCtor n = net.getCtor n := rfl
  simp only [connectActivePair, hl, hr', hc, hn, hi, hd, hlc, hrc, bind, Except.bind, pure,
    Except.pure, Net.oppose]

theorem oppose_comm (h : ActivePair net left right l r lc rc) :
    net.oppose right left r l = net.oppose left right l r := by
  unfold Net.oppose Net.setPrincipalWire
  by_cases he : left = right
  · subst he
    have hl := (Net.getPrincipalWire_eq_ok.mp h.left).1
    have hr := (Net.getPrincipalWire_eq_ok.mp h.right).1
    obtain rfl := Option.some.inj (hl.symm.trans hr)
    rfl
  · dsimp only
    rw [List.set_comm _ _ (Ne.symm he)]

end ActivePair

namespace Define

variable {P : Program} {left right lc rc : ℕ} {rule : Rule} {l₁ l₂ : List Rule}

theorem isFor_comm : IsFor rule lc rc ↔ IsFor rule rc lc := or_comm

theorem ruleMatch_eq_none : ruleMatch left right lc rc rule = none ↔ ¬ IsFor rule lc rc := by
  unfold ruleMatch IsFor
  split
  · simp [*]
  · split
    · simp [*]
    · simp_all

theorem ruleMatch_of_isFor (h : IsFor rule lc rc) :
    ruleMatch left right lc rc rule = some (.activePair left right rule) ∨
      ruleMatch left right lc rc rule = some (.activePair right left rule) := by
  cases hm : ruleMatch left right lc rc rule with
  | none => exact absurd h (ruleMatch_eq_none.mp hm)
  | some task =>
    rcases ruleMatch_eq_some hm with ⟨rfl, -⟩ | ⟨rfl, -⟩
    · exact .inl rfl
    · exact .inr rfl

theorem findRule_eq_none : findRule P left right lc rc = none ↔
    (∀ rule ∈ rules P lc, ¬ IsFor rule lc rc) ∧ ∀ rule ∈ rules P rc, ¬ IsFor rule lc rc := by
  change ((rules P lc).findSome? _).or ((rules P rc).findSome? _) = none ↔ _
  simp only [Option.or_eq_none_iff, List.findSome?_eq_none_iff, ruleMatch_eq_none]

theorem findRule_of_append (hr : rules P lc = l₁ ++ rule :: l₂)
    (hl : ∀ rule ∈ l₁, ¬ IsFor rule lc rc) (h : IsFor rule lc rc) :
    findRule P left right lc rc = ruleMatch left right lc rc rule := by
  change ((rules P lc).findSome? _).or ((rules P rc).findSome? _) = _
  have hnone : l₁.findSome? (ruleMatch left right lc rc) = none := by
    simpa only [List.findSome?_eq_none_iff, ruleMatch_eq_none] using hl
  rw [hr, List.findSome?_append, hnone, Option.none_or, List.findSome?_cons]
  cases hm : ruleMatch left right lc rc rule with
  | none => exact absurd h (ruleMatch_eq_none.mp hm)
  | some task => rfl

end Define

end InetLisp
