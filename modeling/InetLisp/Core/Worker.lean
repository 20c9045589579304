import InetLisp.Core.Connect

/-! # A worker

A worker has a value stack, a return stack and a task queue of its own and works
on the net. Only running code looks at the return stack, so what everything else
acts on is a structure of its own. A task that a full queue refuses is lost; the
ghost `refused` keeps it.
-/

namespace InetLisp

open Lib

def workerTaskQueueSize : ℕ := 1024 * 1024

/-- `worker_t` without the return stack, together with the net. Stacks have their top first. -/
structure Store extends Net where
  valueStack : List Value := []
  taskQueue : List Task := []
  refused : List Task := []
  deriving DecidableEq, Repr

structure Worker extends Store where
  returnStack : List Frame := []
  deriving DecidableEq, Repr

namespace Store

def setNet (w : Store) (net : Net) : Store := { w with toNet := net }

/-- `stack_push` on the value stack. -/
def push (w : Store) (v : Value) : Store := { w with valueStack := v :: w.valueStack }

/-- `stack_pop` on the value stack. -/
def pop (w : Store) : Except Error (Value × Store) :=
  match w.valueStack with
  | [] => .error .emptyStack
  | v :: l => .ok (v, { w with valueStack := l })

/-- `queue_push_back`, in `worker_add_task`. -/
def addTask (w : Store) (task : Task) : Store :=
  if w.taskQueue.length < workerTaskQueueSize then { w with taskQueue := w.taskQueue ++ [task] }
  else { w with refused := w.refused ++ [task] }

/-- Queue what `connect` has returned. -/
def addFound (w : Store) (task : Option Task) : Store := task.elim w w.addTask

/-- `worker_connect` -/
def connect (P : Program) (w : Store) (left right : Value) : Except Error Store := do
  let (net, task) ← InetLisp.connect P w.toNet left right
  return (w.setNet net).addFound task

def reconnectInput (P : Program) (net : Net) (n i : ℕ) (v : Value) :
    Except Error (Net × Option Task) := do
  let ctor ← P.getNodeCtor net n
  match ctor.portInfos[i]? with
  | none => throw .portIndex
  | some info =>
    if info.isPrincipal then
      let (p, net) := net.newPrincipalWire n i
      let net ← net.setValue n i (.principalWire p)
      InetLisp.connect P net (.principalWire p) v
    else match v with
    | .principalWire _ =>
      let (w, net) := net.newWire
      let net ← net.setValue n i (.wire w)
      InetLisp.connect P net (.wire w) v
    | _ =>
      let net ← net.setValue n i v
      return (net, none)

def reconnectOutput (P : Program) (net : Net) (n i : ℕ) : Except Error (Net × Value) := do
  let ctor ← P.getNodeCtor net n
  match ctor.portInfos[i]? with
  | none => throw .portIndex
  | some info =>
    if info.isPrincipal then
      let (p, net) := net.newPrincipalWire n i
      let net ← net.setValue n i (.principalWire p)
      return (net, .principalWire p)
    else
      let (w, net) := net.newWire
      let net ← net.setValue n i (.wire w)
      return (net, .wire w)

/-- The loop over the inputs in `worker_reconnect_node`, from the given index down. -/
def reconnectInputs (P : Program) (n : ℕ) : ℕ → Store → Option Task →
    Except Error (Store × Option Task)
  | 0, w, found => .ok (w, found)
  | i + 1, w, found => do
    let (v, w) ← w.pop
    let (net, task) ← reconnectInput P w.toNet n i v
    if task.isSome ∧ found.isSome then
      throw .foundTask
    reconnectInputs P n i (w.setNet net) (task.or found)

/-- The loop over the outputs in `worker_reconnect_node`; so many ports from the index up. -/
def reconnectOutputs (P : Program) (n : ℕ) : ℕ → ℕ → Store → Except Error Store
  | 0, _, w => .ok w
  | k + 1, i, w => do
    let (net, v) ← reconnectOutput P w.toNet n i
    reconnectOutputs P n k (i + 1) ((w.setNet net).push v)

/-- `worker_reconnect_node` -/
def reconnectNode (P : Program) (w : Store) (n arity : ℕ) : Except Error Store := do
  let (w, found) ← reconnectInputs P n arity w none
  let ctor ← P.getNodeCtor w.toNet n
  let w ← reconnectOutputs P n (ctor.arity - arity) arity w
  return w.addFound found

/-- The loop body of `worker_disconnect_node`. -/
def disconnectPort (w : Store) : Value → Except Error Store
  | .principalWire p => do
    let net ← w.destroyPrincipalWire p
    return w.setNet net
  | v => .ok (w.push v)

/-- The loop of `worker_disconnect_node`; so many ports from the index up. -/
def disconnectPorts (n : ℕ) : ℕ → ℕ → Store → Except Error Store
  | 0, _, w => .ok w
  | k + 1, i, w => do
    let v ← w.getValue n i
    let w ← disconnectPort w v
    disconnectPorts n k (i + 1) w

/-- `worker_disconnect_node` -/
def disconnectNode (P : Program) (w : Store) (n : ℕ) : Except Error Store := do
  let ctor ← P.getNodeCtor w.toNet n
  let w ← disconnectPorts n ctor.arity 0 w
  let net ← w.recycleNode n
  return w.setNet net

end Store

end InetLisp
