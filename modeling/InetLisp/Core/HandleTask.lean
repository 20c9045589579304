import InetLisp.Core.Height
import InetLisp.Core.RunUntil

/-! # Handling a task

The two nodes of an active pair are taken apart: what their ports hold goes on the
value stack, but for principal wires, and the code of the rule goes on with it. A
primitive gets what the input ports of its node hold; what it leaves is connected to the
output ports, from the last to the first, once the code that it has entered is done.
-/

namespace InetLisp

open Lib

/-- `worker_handle_task_active_pair`, up to `worker_run_until`. -/
def Worker.enterRule (P : Program) (w : Worker) (left right : ℕ) (rule : Rule) :
    Except Error Worker := do
  let l ← w.getPrincipalWire left
  let s ← w.toStore.disconnectNode P l.node
  let r ← s.getPrincipalWire right
  let s ← s.disconnectNode P r.node
  return ({ toStore := s, returnStack := w.returnStack } : Worker).enter (some rule.function)

/-- `worker_handle_task_active_pair`, with so much fuel for `worker_run_until`. -/
def Worker.handleTaskActivePair (P : Program) (fuel : ℕ) (w : Worker) (left right : ℕ)
    (rule : Rule) : Except Error Worker := do
  let w' ← w.enterRule P left right rule
  w'.runUntil P w.returnStack.length fuel

namespace Store

/-- The loop over the inputs in `worker_handle_task_primitive`; so many ports from the index up. -/
def pushInputs (n : ℕ) : ℕ → ℕ → Store → Except Error Store
  | 0, _, s => .ok s
  | k + 1, i, s => do
    let v ← s.getValue n i
    pushInputs n k (i + 1) (s.push v)

/-- `x_apply1` to `x_apply4` -/
def xApply (P : Program) (s : Store) (arity : ℕ) : Except Error (Store × Option ℕ) :=
  match s.valueStack.drop arity with
  | [] => .error .emptyStack
  | target :: rest =>
    { s with valueStack := s.valueStack.take arity ++ rest }.applyTarget P target arity

/-- `worker_apply_primitive`, on the primitive of a node. -/
def applyNodePrimitive (P : Program) (s : Store) :
    NodePrimitive → Except Error (Store × Option ℕ)
  | .apply arity => s.xApply P arity
  | .primitive k => match P.primitives[k]? with
    | some p => do
      let s ← s.applyPrimitive P p
      return (s, none)
    | none => .error .useAfterFree

/-- The loop over the outputs in `worker_handle_task_primitive`; so many are left. -/
def connectOutputs (P : Program) (n inputArity : ℕ) : ℕ → Store → Except Error Store
  | 0, s => .ok s
  | k + 1, s => do
    match ← s.getValue n (inputArity + k) with
    | .wire w => do
      let (result, s) ← s.pop
      let s ← s.connect P (.wire w) result
      connectOutputs P n inputArity k s
    | _ => throw .notWire

end Store

def Program.primitiveArity (P : Program) : NodePrimitive → ℕ × ℕ
  | .apply arity => (arity + 1, 1)
  | .primitive k => (P.primitives[k]?).elim (0, 0) fun p => (p.inputArity, p.outputArity)

/-- `worker_handle_task_primitive`, up to `worker_run_until`. -/
def Worker.enterPrimitive (P : Program) (w : Worker) (n : ℕ) (primitive : NodePrimitive) :
    Except Error Worker := do
  let s ← w.toStore.pushInputs n (P.primitiveArity primitive).1 0
  let (s, f) ← s.applyNodePrimitive P primitive
  return (w.setStore s).enter f

/-- `worker_handle_task_primitive`, after `worker_run_until`. -/
def Worker.leavePrimitive (P : Program) (w : Worker) (n : ℕ) (primitive : NodePrimitive) :
    Except Error Worker := do
  let s ← w.toStore.connectOutputs P n (P.primitiveArity primitive).1 (P.primitiveArity primitive).2
  let net ← s.recycleNode n
  return w.setStore (s.setNet net)

namespace Net

/-- Whether `worker_disconnect_node` pushes what the port holds. -/
def isFree (net : Net) (n i : ℕ) : Bool :=
  match net.getValue n i with
  | .ok (.principalWire _) => false
  | _ => true

/-- The number of ports of a node whose values `worker_disconnect_node` pushes. -/
def freeCount (P : Program) (net : Net) (n : ℕ) : ℕ :=
  match P.getNodeCtor net n with
  | .ok ctor => (List.range ctor.arity).countP (net.isFree n)
  | .error _ => 0

/-- The same for the node of a principal wire. -/
def freeCountAt (P : Program) (net : Net) (p : ℕ) : ℕ :=
  match net.getPrincipalWire p with
  | .ok c => net.freeCount P c.node
  | .error _ => 0

variable {P : Program} {net net' : Net} {n : ℕ}

theorem isFree_congr (h : net'.nodes[n]? = net.nodes[n]?) : net'.isFree n = net.isFree n := by
  ext i
  simp only [isFree, getValue, h]

theorem freeCount_congr (h : net'.nodes[n]? = net.nodes[n]?) :
    net'.freeCount P n = net.freeCount P n := by
  simp only [freeCount, Program.getNodeCtor, getCtor, h, isFree_congr h]

end Net

theorem Net.getPrincipalWire_of_destroy {net net' : Net} {p q : ℕ} {o : PrincipalWire}
    (h : net.destroyPrincipalWire p = .ok net') (hq : net'.getPrincipalWire q = .ok o) :
    net.getPrincipalWire q = .ok o := by
  unfold destroyPrincipalWire at h
  split at h
  · cases h
    rw [getPrincipalWire_eq_ok] at hq ⊢
    obtain ⟨ho, hd⟩ := hq
    refine ⟨?_, hd⟩
    by_cases hp : p = q
    · subst hp
      simp only [setPrincipalWire, List.getElem?_set] at ho
      split at ho
      · split at ho <;> cases ho
        cases hd
      · contradiction
    · simpa [setPrincipalWire, hp] using ho
  · cases h

namespace Store

variable {P : Program} {s s' : Store} {n i k : ℕ} {v : Value}

/-- A part of `worker_disconnect_node` that pushes so many values. -/
structure Disconnects (s s' : Store) (count : ℕ) : Prop where
  height : s'.height = s.height + count
  nodes : s'.nodes = s.nodes
  principalWire : ∀ p o, s'.getPrincipalWire p = .ok o → s.getPrincipalWire p = .ok o

theorem disconnectPort_spec (hv : s.getValue n i = .ok v) (h : s.disconnectPort v = .ok s') :
    Disconnects s s' (if s.isFree n i then 1 else 0) := by
  unfold disconnectPort at h
  split at h
  · obtain ⟨net, hd, h⟩ := Outcome.of_bind_eq_ok h
    cases h
    constructor
    · simp [Net.isFree, hv]
    · unfold Net.destroyPrincipalWire at hd
      split at hd <;> cases hd
      rfl
    · intro q o ho
      exact Net.getPrincipalWire_of_destroy hd ho
  · rename_i hp
    cases h
    have hf : s.isFree n i = true := by
      unfold Net.isFree
      rw [hv]
      split
      · rename_i he
        cases he
        exact (hp _ rfl).elim
      · rfl
    constructor
    · rw [height_push, if_pos hf, Nat.cast_one]
    · rfl
    · intro q o ho
      exact ho

theorem disconnectPorts_spec (h : disconnectPorts n k i s = .ok s') :
    Disconnects s s' ((List.range' i k).countP (s.isFree n)) := by
  induction k generalizing s i with
  | zero =>
    cases h
    exact ⟨by simp, rfl, fun _ _ ho => ho⟩
  | succ k ih =>
    obtain ⟨v, hv, h⟩ := Outcome.of_bind_eq_ok h
    obtain ⟨s₁, h₁, h⟩ := Outcome.of_bind_eq_ok h
    have hp := disconnectPort_spec hv h₁
    have ih := ih h
    have hn : s₁.nodes[n]? = s.nodes[n]? := by rw [hp.nodes]
    rw [Net.isFree_congr hn] at ih
    constructor
    · rw [ih.height, hp.height, List.range'_succ, List.countP_cons]
      push_cast
      omega
    · rw [ih.nodes, hp.nodes]
    · intro q o ho
      exact hp.principalWire q o (ih.principalWire q o ho)

theorem disconnectNode_spec (h : s.disconnectNode P n = .ok s') :
    s'.height = s.height + s.freeCount P n ∧ s'.nodes = s.nodes.set n ⟨none, [], 0⟩ ∧
      ∀ p o, s'.getPrincipalWire p = .ok o → s.getPrincipalWire p = .ok o := by
  obtain ⟨ctor, hc, h⟩ := Outcome.of_bind_eq_ok h
  obtain ⟨s₁, h₁, h⟩ := Outcome.of_bind_eq_ok h
  obtain ⟨net, h₂, h⟩ := Outcome.of_bind_eq_ok h
  cases h
  have hp := disconnectPorts_spec h₁
  unfold Net.recycleNode at h₂
  split at h₂
  · cases h₂
    refine ⟨?_, ?_, ?_⟩
    · rw [height_setNet, hp.height, Net.freeCount, hc]
      dsimp only
      rw [List.range_eq_range']
    · rw [← hp.nodes]
      rfl
    · intro q o ho
      exact hp.principalWire q o ho
  · cases h₂

theorem nodes_of_disconnectNode (h : s.disconnectNode P n = .ok s') {nodes : List Node} :
    s.nodes ≠ nodes.set n ⟨none, [], 0⟩ := by
  intro hn
  obtain ⟨ctor, hc, -⟩ := Outcome.of_bind_eq_ok h
  obtain ⟨c, hc, -⟩ := Outcome.of_bind_eq_ok hc
  unfold Net.getCtor at hc
  rw [hn, List.getElem?_set_self'] at hc
  cases hnodes : nodes[n]? <;> simp [hnodes] at hc

end Store

/-- The values of the ports of both nodes are on the value stack when the rule is entered. -/
theorem Worker.enterRule_spec {P : Program} {w w' : Worker} {left right : ℕ} {rule : Rule}
    (h : w.enterRule P left right rule = .ok w') :
    w'.height = w.height + w.freeCountAt P left + w.freeCountAt P right ∧
      w'.returnStack = { function := rule.function } :: w.returnStack := by
  obtain ⟨l, hl, h⟩ := Outcome.of_bind_eq_ok h
  obtain ⟨s₁, h₁, h⟩ := Outcome.of_bind_eq_ok h
  obtain ⟨r, hr, h⟩ := Outcome.of_bind_eq_ok h
  obtain ⟨s₂, h₂, h⟩ := Outcome.of_bind_eq_ok h
  cases h
  obtain ⟨hh₁, hn₁, hp₁⟩ := Store.disconnectNode_spec h₁
  obtain ⟨hh₂, -⟩ := Store.disconnectNode_spec h₂
  refine ⟨?_, rfl⟩
  have hne : l.node ≠ r.node := by
    intro he
    rw [he] at hn₁
    exact Store.nodes_of_disconnectNode h₂ hn₁
  have hc : s₁.freeCount P r.node = w.freeCount P r.node :=
    Net.freeCount_congr (by rw [hn₁, List.getElem?_set_ne hne])
  have hl' : w.freeCountAt P left = w.freeCount P l.node := by rw [Net.freeCountAt, hl]
  have hr' : w.freeCountAt P right = w.freeCount P r.node := by
    rw [Net.freeCountAt, hp₁ right r hr]
  rw [hl', hr', ← hc, ← hh₁, ← hh₂]
  rfl

end InetLisp
