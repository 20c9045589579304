import InetLisp.Lang.RuleReach
import InetLisp.Core.PairOrder
import Mathlib.Logic.Equiv.Defs

/-! # The order of an active pair

The rules for two ctors stand in the tables of both, in the same order, so the rule that is
found does not depend on which of two principal wires comes first. If the ctors are one, a rule
does not tell the two nodes apart, and the first of them is taken for the left one.
-/

namespace InetLisp

open Lib Relation

/-- The task with its principal wires the other way round. -/
def Task.swap : Task → Task
  | .activePair left right rule => .activePair right left rule
  | .primitive n => .primitive n

/-- Other addresses for the cells of a net. -/
structure Renaming where
  wire : Equiv.Perm ℕ
  principalWire : Equiv.Perm ℕ
  node : Equiv.Perm ℕ

def Renaming.value (f : Renaming) : Value → Value
  | .wire w => .wire (f.wire w)
  | .principalWire p => .principalWire (f.principalWire p)
  | v => v

/-- The renaming turns one net into the other. -/
structure Renaming.Maps (f : Renaming) (net net' : Net) : Prop where
  wire : ∀ w, net'.wires[f.wire w]? =
    (net.wires[w]?).map fun o => ⟨o.fuzedValue.map f.value, o.isDestroyed⟩
  principalWire : ∀ p, net'.principalWires[f.principalWire p]? =
    (net.principalWires[p]?).map fun o =>
      ⟨f.node o.node, o.index, o.oppsite.map f.principalWire, o.isDestroyed⟩
  node : ∀ n, net'.nodes[f.node n]? =
    (net.nodes[n]?).map fun o =>
      ⟨o.ctor, o.valueArray.map (Option.map f.value), o.primitiveArgCount⟩

def Net.Isomorphic (net net' : Net) : Prop := ∃ f : Renaming, f.Maps net net'

/-- For two principal wires in either order there is a rule or there is none, it is one rule,
and handling either task leads to isomorphic nets. -/
def Symmetric (P : Program) (w : Worker) (left right : ℕ) : Prop :=
  ∀ net₁ net₂ task₁ task₂, connectActivePair P w.toNet left right = .ok (net₁, task₁) →
    connectActivePair P w.toNet right left = .ok (net₂, task₂) → (task₁ = none ↔ task₂ = none) ∧
    ∀ l₁ r₁ rule₁ l₂ r₂ rule₂, task₁ = some (.activePair l₁ r₁ rule₁) →
      task₂ = some (.activePair l₂ r₂ rule₂) → rule₁ = rule₂ ∧
      ∀ k (w₁ w₂ : Worker),
        ({ w with toNet := net₁ } : Worker).handleTaskActivePair P k l₁ r₁ rule₁ = .ok w₁ →
        ({ w with toNet := net₂ } : Worker).handleTaskActivePair P k l₂ r₂ rule₂ = .ok w₂ →
        w₁.toNet.Isomorphic w₂.toNet

/-- What connecting two principal wires in either order has in common: the net that is left, and
the task, if the ctors are different. For one ctor, the tasks have the same rule, and handling
them differs in the order of the values of the two nodes. -/
def OrderFree (P : Program) (net : Net) (left right c d : ℕ) : Prop :=
  ∃ net' task, connectActivePair P net left right = .ok (net', task) ∧
    if c = d then
      connectActivePair P net right left = .ok (net', task.map Task.swap) ∧
        ∀ rule (w : Worker), task = some (.activePair left right rule) → w.toNet = net' →
          w.Holds P left → w.Swaps P left right rule
    else connectActivePair P net right left = .ok (net', task)

namespace Define

variable {P P' : Program} {c d c' d' left right : ℕ} {valueHash : ValueHash} {stmt : Stmt}
  {function : Function} {rule : Rule}

/-- The tables of two ctors have the same rules for them. -/
def Agrees (P : Program) : Prop :=
  ∀ c d, (rules P c).filter (IsFor · c d) = (rules P d).filter (IsFor · c d)

/-- If the next statement is a rule, then the names of its ctors stand for them. -/
def OwnNamed {N F : Type} (t : Loading N F) : Prop :=
  ∀ valueHash stmt c d, t.stmt = some (valueHash, stmt) → stmt.pair valueHash = some (c, d) →
    OwnNames valueHash t.world.program c d

/-- A run of steps in which this holds. -/
def OwnReaches {N F : Type} (E : Load.Env F Stmt (World N) Value Error) :
    Loading N F → Loading N F → Prop :=
  ReflTransGen fun t u => Next Load.State.more (Load.step E) t u ∧ OwnNamed t

theorem Keeps.agrees (h : Keeps P P') (hP : Agrees P) : Agrees P' := by
  intro c d
  rw [h.rules, h.rules, hP]

theorem Installs.agrees (h : Installs P P' valueHash stmt c d c' d' function)
    (hn : OwnNames valueHash P c d) (hP : Agrees P) : Agrees P' := by
  intro a b
  rw [h.rules, h.rules]
  simp only [List.filter_append, hP a b, List.append_assoc]
  congr 1
  by_cases hf : IsFor ⟨c, d, P.functions.length⟩ a b
  · rcases h.eq_of_ownNames hn with ⟨rfl, rfl⟩ | ⟨rfl, rfl⟩
    all_goals
      rcases eq_or_ne c' d' with rfl | he
      · rcases hf with ⟨rfl, rfl⟩ | ⟨rfl, rfl⟩ <;> rfl
      · rcases hf with ⟨rfl, rfl⟩ | ⟨rfl, rfl⟩ <;> simp [he, he.symm]
  · have hnil (p : Prop) [Decidable p] :
        (if p then [(⟨c, d, P.functions.length⟩ : Rule)] else []).filter (IsFor · a b) = [] := by
      split <;> simp [hf]
    simp only [hnil]

section

variable {N F : Type} {R : Runtime N} {prelude : List PrimitiveDef} {fileOpen : Text → Option F}
  {parse : F → Option (List (Load.Stmt Stmt))} {t : Loading N F} {net : N} {arguments : List Path}

theorem agrees_of_reaches
    (h : OwnReaches (env R prelude fileOpen parse) (.start ⟨{}, net⟩ arguments) t) :
    Agrees t.world.program := by
  induction h with
  | refl =>
    intro c d
    have hr (e : ℕ) : rules ({} : Program) e = [] := rules_empty e
    rw [Load.State.start, hr, hr]
  | tail _ hn ih =>
    rcases next_cases hn.1 with ⟨-, hk⟩ | ⟨valueHash, stmt, c, d, c', d', function, hs, hi⟩
    · exact hk.agrees ih
    · exact hi.agrees (hn.2 _ _ _ _ hs hi.pair) ih

end

/-! ### Finding a rule -/

theorem findSome?_filter {α β : Type} {p : α → Bool} {f : α → Option β} {l : List α}
    (h : ∀ a, p a = false → f a = none) : (l.filter p).findSome? f = l.findSome? f := by
  induction l with
  | nil => rfl
  | cons a l ih =>
    cases hp : p a with
    | true => rw [List.filter_cons_of_pos hp, List.findSome?_cons, List.findSome?_cons, ih]
    | false =>
      rw [List.filter_cons_of_neg (by simp [hp]), List.findSome?_cons, h a hp, ih]

/-- Both tables have the same first rule for the two ctors. -/
theorem Agrees.findSome?_eq (h : Agrees P) :
    (rules P d).findSome? (ruleMatch left right c d) =
      (rules P c).findSome? (ruleMatch left right c d) := by
  have hf (rule : Rule) (hr : decide (IsFor rule c d) = false) :
      ruleMatch left right c d rule = none := ruleMatch_eq_none.mpr (of_decide_eq_false hr)
  rw [← findSome?_filter hf, ← h c d, findSome?_filter hf]

theorem Agrees.findRule (h : Agrees P) :
    findRule P left right c d = (rules P c).findSome? (ruleMatch left right c d) := by
  change ((rules P c).findSome? _).or ((rules P d).findSome? _) = _
  rw [h.findSome?_eq, Option.or_self]

theorem ruleMatch_comm (hne : c ≠ d) :
    ruleMatch right left d c rule = ruleMatch left right c d rule := by
  unfold ruleMatch
  by_cases h₁ : rule.leftNodeCtor = c ∧ rule.rightNodeCtor = d
  · rw [if_pos h₁, if_neg, if_pos h₁]
    omega
  · by_cases h₂ : rule.leftNodeCtor = d ∧ rule.rightNodeCtor = c
    · rw [if_pos h₂, if_neg h₁, if_pos h₂]
    · rw [if_neg h₂, if_neg h₁, if_neg h₁, if_neg h₂]

theorem ruleMatch_self :
    ruleMatch right left c c rule = (ruleMatch left right c c rule).map Task.swap := by
  unfold ruleMatch
  by_cases h : rule.leftNodeCtor = c ∧ rule.rightNodeCtor = c
  · rw [if_pos h, if_pos h]
    rfl
  · rw [if_neg h, if_neg h, if_neg h, if_neg h]
    rfl

theorem Agrees.findRule_comm (h : Agrees P) (hne : c ≠ d) :
    InetLisp.findRule P right left d c = InetLisp.findRule P left right c d := by
  have hm : ruleMatch right left d c = ruleMatch left right c d :=
    funext fun rule => ruleMatch_comm hne
  rw [h.findRule, h.findRule, hm, h.findSome?_eq]

theorem Agrees.findRule_self (h : Agrees P) :
    InetLisp.findRule P right left c c = (InetLisp.findRule P left right c c).map Task.swap := by
  have hm : ruleMatch right left c c = Option.map Task.swap ∘ ruleMatch left right c c :=
    funext fun rule => ruleMatch_self
  rw [h.findRule, h.findRule, hm, List.map_findSome?]

/-- If every rule gets to its ctors, then the order of two principal wires matters only for the
order in which a rule gets the values of two nodes of one ctor. -/
theorem orderFree_of_reaches {N F : Type} {R : Runtime N} {prelude : List PrimitiveDef}
    {fileOpen : Text → Option F} {parse : F → Option (List (Load.Stmt Stmt))} {t : Loading N F}
    {defs : N} {arguments : List Path}
    (ht : OwnReaches (env R prelude fileOpen parse) (.start ⟨{}, defs⟩ arguments) t) {net : Net}
    {l r : PrincipalWire} (h : ActivePair net left right l r c d) :
    OrderFree t.world.program net left right c d := by
  have ha := agrees_of_reaches ht
  refine ⟨_, _, h.connect _, ?_⟩
  rw [h.symm.connect, h.oppose_comm]
  split
  · rename_i he
    subst he
    rw [ha.findRule_self]
    exact ⟨rfl, fun rule w _ _ hl => Worker.swaps_of_holds hl⟩
  · rw [ha.findRule_comm ‹_›]

/-- A rule between two nodes of one ctor that drops what the second of them holds. -/
def dropFiles : Files := [("/m".toList, [
  .stmtOther (.defineNode "a" ["x", "value!"]),
  .stmtOther (.defineNode "b" ["x", "value!"]),
  .stmtOther (.defineRuleStar
    [.ap (.var "a") [.var "x", .var "!"], .ap (.var "a") [.var "y", .var "!"]]
    [.ap (.var "b") [.var "x"]])])]

/-- Two nodes of this ctor, which hold 1 and 2. -/
def dropNet : Net where
  principalWires := [⟨0, 1, none, false⟩, ⟨1, 1, none, false⟩]
  nodes := [⟨some 4, [some (xint 1#64), some (.principalWire 0)], 0⟩,
    ⟨some 4, [some (xint 2#64), some (.principalWire 1)], 0⟩]

theorem activePair_dropNet :
    ActivePair dropNet 0 1 ⟨0, 1, none, false⟩ ⟨1, 1, none, false⟩ 4 4 :=
  ⟨rfl, rfl, rfl, rfl⟩

theorem orderFree_dropFiles :
    OrderFree (dropFiles.after "/m" 4).world.program dropNet 0 1 4 4 := by
  have hnext (k : ℕ) (hk : k < 4) : Next Load.State.more (Load.step dropFiles.env)
      (dropFiles.after "/m" k) (dropFiles.after "/m" (k + 1)) := by
    interval_cases k <;> exact ⟨rfl, rfl⟩
  have hown (k : ℕ) (hk : k < 4) : OwnNamed (dropFiles.after "/m" k) := by
    intro valueHash stmt c d hs hp
    interval_cases k
    · cases hs
    · cases hs
      cases hp
    · cases hs
      cases hp
    · cases hs
      cases hp
      exact .inl ⟨rfl, rfl⟩
  have hr : OwnReaches dropFiles.env (Files.start "/m") (dropFiles.after "/m" 4) :=
    .tail (.tail (.tail (.single ⟨hnext 0 (by decide), hown 0 (by decide)⟩)
      ⟨hnext 1 (by decide), hown 1 (by decide)⟩) ⟨hnext 2 (by decide), hown 2 (by decide)⟩)
      ⟨hnext 3 (by decide), hown 3 (by decide)⟩
  exact orderFree_of_reaches hr activePair_dropNet

/-- The node that is left holds 1 in one order and 2 in the other. -/
theorem not_symmetric : ¬ ∀ (N F : Type) (R : Runtime N) (prelude : List PrimitiveDef)
    (fileOpen : Text → Option F) (parse : F → Option (List (Load.Stmt Stmt))) (defs : N)
    (arguments : List Path) (t : Loading N F),
    Load.Reaches (env R prelude fileOpen parse) (.start ⟨{}, defs⟩ arguments) t →
    ∀ (w : Worker) (left right : ℕ) (l r : PrincipalWire) (c d : ℕ),
      ActivePair w.toNet left right l r c d → Symmetric t.world.program w left right := by
  intro h
  have hr : Load.Reaches dropFiles.env (Files.start "/m") (dropFiles.after "/m" 4) :=
    Files.reaches (by decide)
  have hs := h _ _ _ _ _ _ _ _ _ hr { toNet := dropNet } 0 1 _ _ 4 4 activePair_dropNet
  obtain ⟨-, hs⟩ := hs _ _ _ _ rfl rfl
  obtain ⟨f, -, -, hf⟩ := (hs 0 1 ⟨4, 4, 0⟩ 1 0 ⟨4, 4, 0⟩ rfl rfl).2 10 _ _ rfl rfl
  have hn : ([⟨none, [], 0⟩, ⟨none, [], 0⟩,
      ⟨some 5, [some (xint 2#64), some (.principalWire 2)], 0⟩] : List Node)[f.node 2]? =
    some ⟨some 5, [some (xint 1#64), some (.principalWire (f.principalWire 2))], 0⟩ := hf 2
  have hm := List.mem_of_getElem? hn
  simp [xint] at hm

end Define

end InetLisp
