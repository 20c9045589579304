import InetLisp.Core.Program
import InetLisp.Lib.Outcome

/-! # Connecting two values

The functions of `connect.c` as one worker runs them on the net. Each recursion
of `connect` destroys a wire, so the number of wires bounds it.
-/

namespace InetLisp

open Lib

inductive Task where
  | activePair (left right : ℕ) (rule : Rule)
  | primitive (node : ℕ)
  deriving DecidableEq, Repr

/-- `rule_match`, given the ctors of the nodes of the two principal wires. -/
def ruleMatch (left right leftCtor rightCtor : ℕ) (rule : Rule) : Option Task :=
  if rule.leftNodeCtor = leftCtor ∧ rule.rightNodeCtor = rightCtor then
    some (.activePair left right rule)
  else if rule.leftNodeCtor = rightCtor ∧ rule.rightNodeCtor = leftCtor then
    some (.activePair right left rule)
  else none

/-- The two loops of `connect_active_pair` over the rules of the ctors. -/
def findRule (P : Program) (left right leftCtor rightCtor : ℕ) : Option Task :=
  let rules c := ((P.nodeCtor c).map NodeCtor.ruleArray).getD []
  ((rules leftCtor).findSome? (ruleMatch left right leftCtor rightCtor)).or
    ((rules rightCtor).findSome? (ruleMatch left right leftCtor rightCtor))

def connectActivePair (P : Program) (net : Net) (left right : ℕ) :
    Except Error (Net × Option Task) := do
  let l ← net.getPrincipalWire left
  let net := net.setPrincipalWire left { l with oppsite := some right }
  let r ← net.getPrincipalWire right
  let net := net.setPrincipalWire right { r with oppsite := some left }
  let leftCtor ← net.getCtor l.node
  let rightCtor ← net.getCtor r.node
  return (net, findRule P left right leftCtor rightCtor)

def collectPrimitiveArg (P : Program) (net : Net) (p : ℕ) (arg : Value) :
    Except Error (Net × Option Task) := do
  let ⟨n, i, _, _⟩ ← net.getPrincipalWire p
  let ctor ← P.getNodeCtor net n
  if ctor.primitive.isNone then
    throw .notPrimitiveNode
  let net ← net.destroyPrincipalWire p
  let net ← net.setValue n i arg
  match net.nodes[n]? with
  | some node =>
    let argCount := node.primitiveArgCount + 1
    return (net.setNode n { node with primitiveArgCount := argCount },
      if argCount = ctor.principalPortCount then some (.primitive n) else none)
  | none => throw .useAfterFree

/-- `fuze`, given the `connect` that it goes on with. -/
def fuze (connect : Net → Value → Value → Except Error (Net × Option Task)) (net : Net) (w : ℕ)
    (value : Value) : Except Error (Net × Option Task) :=
  match net.wires[w]? with
  | some ⟨none, false⟩ => .ok (net.setWire w ⟨some value, false⟩, none)
  | some ⟨some expected, false⟩ => connect (net.setWire w ⟨some expected, true⟩) expected value
  | _ => .error .useAfterFree

/-- `connect` with at most the given number of recursions. -/
def connectFuel (P : Program) : ℕ → Net → Value → Value → Except Error (Net × Option Task)
  | 0, _, _, _ => .error .outOfFuel
  | k + 1, net, .wire w, right => fuze (connectFuel P k) net w right
  | k + 1, net, left, .wire w => fuze (connectFuel P k) net w left
  | _ + 1, net, .principalWire p, .principalWire q => connectActivePair P net p q
  | _ + 1, net, .principalWire p, right => collectPrimitiveArg P net p right
  | _ + 1, net, left, .principalWire p => collectPrimitiveArg P net p left
  | _ + 1, _, _, _ => .error .canNotConnect

def connect (P : Program) (net : Net) (left right : Value) : Except Error (Net × Option Task) :=
  connectFuel P (net.wires.length + 1) net left right

/-- A task is about nodes whose principal wires are in the net. -/
def Task.In (net : Net) : Task → Prop
  | .activePair left right _ => left < net.shape.2.length ∧ right < net.shape.2.length
  | .primitive n => ∃ i, (n, i) ∈ net.shape.2

section Shape

variable {P : Program} {net net' : Net} {task : Option Task} {left right : Value} {k : ℕ}

theorem ruleMatch_eq_some {l r lc rc : ℕ} {rule : Rule} {t : Task}
    (h : ruleMatch l r lc rc rule = some t) :
    t = .activePair l r rule ∧ rule.leftNodeCtor = lc ∧ rule.rightNodeCtor = rc ∨
      t = .activePair r l rule ∧ rule.leftNodeCtor = rc ∧ rule.rightNodeCtor = lc := by
  unfold ruleMatch at h
  split at h
  · cases h; exact .inl ⟨rfl, ‹_›⟩
  · split at h
    · cases h; exact .inr ⟨rfl, ‹_›⟩
    · cases h

theorem findRule_eq_some {l r lc rc : ℕ} {t : Task} (h : findRule P l r lc rc = some t) :
    ∃ rule, ruleMatch l r lc rc rule = some t := by
  unfold findRule at h
  rcases Option.or_eq_some_iff.mp h with h | ⟨_, h⟩ <;>
    · obtain ⟨rule, _, hr⟩ := List.exists_of_findSome?_eq_some h
      exact ⟨rule, hr⟩

theorem connectActivePair_shape {l r : ℕ} (h : connectActivePair P net l r = .ok (net', task)) :
    net'.shape = net.shape ∧ ∀ t ∈ task, t.In net' := by
  unfold connectActivePair at h
  obtain ⟨lc, hl, h⟩ := Outcome.of_bind_eq_ok h
  obtain ⟨rc, hr, h⟩ := Outcome.of_bind_eq_ok h
  obtain ⟨_, _, h⟩ := Outcome.of_bind_eq_ok h
  obtain ⟨_, _, h⟩ := Outcome.of_bind_eq_ok h
  cases h
  have hl := (Net.getPrincipalWire_eq_ok.mp hl).1
  have hr := (Net.getPrincipalWire_eq_ok.mp hr).1
  have hs := (Net.shape_setPrincipalWire hr { rc with oppsite := some l } rfl rfl).trans
    (Net.shape_setPrincipalWire hl { lc with oppsite := some r } rfl rfl)
  refine ⟨hs, fun t ht => ?_⟩
  have hl' : l < net.shape.2.length := by
    simpa [Net.shape] using (List.getElem?_eq_some_iff.mp hl).1
  have hr' : r < net.shape.2.length := by
    have := (List.getElem?_eq_some_iff.mp hr).1
    simpa [Net.shape, Net.setPrincipalWire] using this
  obtain ⟨rule, hrule⟩ := findRule_eq_some ht
  rcases ruleMatch_eq_some hrule with ⟨rfl, _⟩ | ⟨rfl, _⟩
  · exact ⟨hs ▸ hl', hs ▸ hr'⟩
  · exact ⟨hs ▸ hr', hs ▸ hl'⟩

theorem collectPrimitiveArg_shape {p : ℕ} {arg : Value}
    (h : collectPrimitiveArg P net p arg = .ok (net', task)) :
    net'.shape = net.shape ∧ ∀ t ∈ task, t.In net' := by
  unfold collectPrimitiveArg at h
  obtain ⟨⟨n, i, o, d⟩, hp, h⟩ := Outcome.of_bind_eq_ok h
  obtain ⟨ctor, _, h⟩ := Outcome.of_bind_eq_ok h
  split at h
  · cases h
  obtain ⟨net₁, h₁, h⟩ := Outcome.of_bind_eq_ok h
  obtain ⟨net₂, h₂, h⟩ := Outcome.of_bind_eq_ok h
  have hs := (Net.shape_setValue h₂).trans (Net.shape_destroyPrincipalWire h₁)
  have hm := List.mem_of_getElem? (Net.mem_shape_of_getElem (Net.getPrincipalWire_eq_ok.mp hp).1)
  split at h
  · rename_i node hn
    cases h
    have hs' := (Net.shape_setNode_of_ctor hn
      { node with primitiveArgCount := node.primitiveArgCount + 1 } rfl).trans hs
    refine ⟨hs', fun t ht => ?_⟩
    split at ht <;> cases ht
    exact ⟨i, hs' ▸ hm⟩
  · cases h

theorem fuze_shape {connect : Net → Value → Value → Except Error (Net × Option Task)} {w : ℕ}
    {value : Value}
    (hc : ∀ net left right, connect net left right = .ok (net', task) →
      net'.shape = net.shape ∧ ∀ t ∈ task, t.In net')
    (h : fuze connect net w value = .ok (net', task)) :
    net'.shape = net.shape ∧ ∀ t ∈ task, t.In net' := by
  unfold fuze at h
  split at h
  · cases h
    exact ⟨rfl, by simp⟩
  · exact hc (net.setWire w _) _ _ h
  · cases h

theorem connectFuel_shape (h : connectFuel P k net left right = .ok (net', task)) :
    net'.shape = net.shape ∧ ∀ t ∈ task, t.In net' := by
  induction k generalizing net left right with
  | zero => cases h
  | succ k ih =>
    unfold connectFuel at h
    split at h
    · cases ‹_ = 0›
    · cases ‹_ = _ + 1›
      exact fuze_shape (fun _ _ _ => ih) h
    · cases ‹_ = _ + 1›
      exact fuze_shape (fun _ _ _ => ih) h
    · exact connectActivePair_shape h
    · exact collectPrimitiveArg_shape h
    · exact collectPrimitiveArg_shape h
    · cases h

theorem connect_shape (h : connect P net left right = .ok (net', task)) :
    net'.shape = net.shape ∧ ∀ t ∈ task, t.In net' :=
  connectFuel_shape h

end Shape

end InetLisp
