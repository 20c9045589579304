import InetLisp.Core.Connect
import InetLisp.Lib.Transition
import Mathlib.Data.Fintype.Basic

/-! # Building a node while others connect to it

A worker builds a node under the lock of the node. As soon as one port is set,
other workers can connect to it and find a task that consumes the node. Handling
an active pair takes the lock first and so waits for the builder; handling a
primitive task does not.
-/

namespace InetLisp.NodeLock

open Lib

/-- What a worker is in the middle of, between two atomic steps. -/
inductive Activity where
  /-- About to call `node_lock` in `worker_reconnect_node`; the arguments are popped later. -/
  | nodeLock (node : ℕ) (args : List Value)
  /-- In the loop over the inputs; the next index is the number of arguments left, less one. -/
  | inputs (node arity : ℕ) (args : List Value) (found : Option Task)
  /-- In `reconnect_input`, between setting the port and `connect`. -/
  | connectInput (node arity : ℕ) (left right : Value) (args : List Value) (found : Option Task)
  /-- In the loop over the outputs; past the last one the lock is released. -/
  | outputs (node index : ℕ) (found : Option Task)
  /-- About to call `worker_add_task`. -/
  | addTask (task : Task)
  /-- In `worker_connect`. -/
  | connect (left right : Value)
  /-- About to call `worker_disconnect_node` on the node of a principal wire. -/
  | disconnectNode (principalWire : ℕ)
  /-- About to call `node_lock` in `worker_disconnect_node`. -/
  | disconnectLock (node : ℕ)
  /-- In the loop of `worker_disconnect_node`; past the last port the lock is released. -/
  | disconnect (node index : ℕ)
  /-- About to call `worker_recycle_node`. -/
  | recycle (node : ℕ)
  /-- Running the function of a rule. -/
  | body
  /-- In the loop over the inputs in `worker_handle_task_primitive`. -/
  | primitiveInputs (node index : ℕ)
  /-- Running the primitive of a node. -/
  | primitiveApply (node : ℕ)
  /-- In the loop over the outputs in `worker_handle_task_primitive`. -/
  | primitiveOutputs (node : ℕ) (results : List Value)
  deriving DecidableEq, Repr

/--
The lock of a node. The other fields are ghosts: the number of ports, whether the
builder has taken the lock, which ports it has set, whether it has released the lock.
-/
structure Guard where
  locked : Bool := false
  arity : ℕ := 0
  taken : Bool := false
  set : List ℕ := []
  released : Bool := false
  deriving DecidableEq, Repr

/-- The workers share the net and the tasks; each is in the middle of nested activities. -/
structure State (n : ℕ) where
  net : Net := {}
  guards : ℕ → Guard := fun _ => {}
  tasks : List Task := []
  stack : Fin n → List Activity := fun _ => []

variable {n : ℕ}

namespace State

def goto (s : State n) (i : Fin n) (l : List Activity) : State n :=
  { s with stack := Function.update s.stack i l }

def setGuard (s : State n) (k : ℕ) (g : Guard) : State n :=
  { s with guards := Function.update s.guards k g }

def setPort (s : State n) (k index : ℕ) (v : Value) (net : Net) : Option (State n) :=
  (net.setValue k index v).toOption.map fun net =>
    { s with net := net }.setGuard k { s.guards k with set := (s.guards k).set ++ [index] }

end State

/-- `reconnect_input`, up to the call of `connect`. -/
def reconnectInput (P : Program) (s : State n) (i : Fin n) (rest : List Activity) (k arity : ℕ)
    (v : Value) (args : List Value) (found : Option Task) : Option (State n) := do
  let ctor ← (P.getNodeCtor s.net k).toOption
  let info ← ctor.portInfos[args.length]?
  if info.isPrincipal then
    let (p, net) := s.net.newPrincipalWire k args.length
    let s ← s.setPort k args.length (.principalWire p) net
    return s.goto i (.connectInput k arity (.principalWire p) v args found :: rest)
  else match v with
  | .principalWire _ =>
    let (w, net) := s.net.newWire
    let s ← s.setPort k args.length (.wire w) net
    return s.goto i (.connectInput k arity (.wire w) v args found :: rest)
  | _ =>
    let s ← s.setPort k args.length v s.net
    return s.goto i (.inputs k arity args found :: rest)

/-- `reconnect_output`, or `node_unlock` past the last port. -/
def reconnectOutput (P : Program) (s : State n) (i : Fin n) (rest : List Activity) (k index : ℕ)
    (found : Option Task) : Option (State n) := do
  let ctor ← (P.getNodeCtor s.net k).toOption
  match ctor.portInfos[index]? with
  | some info =>
    let (v, net) := if info.isPrincipal then s.net.newPrincipalWire k index |>.map .principalWire id
      else s.net.newWire |>.map .wire id
    let s ← s.setPort k index v net
    return s.goto i (.outputs k (index + 1) found :: rest)
  | none =>
    let s := s.setGuard k { s.guards k with locked := false, released := true }
    return s.goto i ((found.map .addTask).toList ++ rest)

/-- `connect` in one step, on what the worker holds. -/
def connectStep (P : Program) (s : State n) (left right : Value) : Option (State n × Option Task) :=
  (connect P s.net left right).toOption.map fun (net, task) => ({ s with net := net }, task)

def primitiveArity (P : Program) (s : State n) (k : ℕ) : Option (ℕ × ℕ) := do
  let ctor ← (P.getNodeCtor s.net k).toOption
  match ← ctor.primitive with
  | .apply arity => return (arity + 1, 1)
  | .primitive j =>
    let primitive ← P.primitives[j]?
    return (primitive.inputArity, primitive.outputArity)

/-- The loop body of `worker_disconnect_node`: a principal wire is destroyed, another value pushed. -/
def disconnectPort (net : Net) : Value → Except Error Net
  | .principalWire p => net.destroyPrincipalWire p
  | _ => .ok net

/-- One step of the loop in `worker_disconnect_node`, or `node_unlock` past the last port. -/
def disconnectStep (P : Program) (s : State n) (i : Fin n) (rest : List Activity) (k index : ℕ) :
    Option (State n) := do
  let ctor ← (P.getNodeCtor s.net k).toOption
  if index < ctor.arity then
    let v ← (s.net.getValue k index).toOption
    let net ← (disconnectPort s.net v).toOption
    return { s with net := net }.goto i (.disconnect k (index + 1) :: rest)
  else
    return (s.setGuard k { s.guards k with locked := false }).goto i (.recycle k :: rest)

/-- One step of the loop over the outputs in `worker_handle_task_primitive`. -/
def primitiveOutput (P : Program) (s : State n) (i : Fin n) (rest : List Activity) (k : ℕ)
    (results : List Value) : Option (State n) := do
  match results with
  | [] => return s.goto i (.recycle k :: rest)
  | v :: results =>
    let (inputs, outputs) ← primitiveArity P s k
    let port ← (s.net.getValue k (inputs + outputs - 1 - (outputs - 1 - results.length))).toOption
    if port.IsWire then
      let (s, task) ← connectStep P s port v
      return s.goto i ((task.map .addTask).toList ++ .primitiveOutputs k results :: rest)
    else none

/-- The next step of an activity, where it is determined. -/
def next (P : Program) (s : State n) (i : Fin n) (rest : List Activity) :
    Activity → Option (State n)
  | .nodeLock k args =>
    if (s.guards k).locked then none
    else some ((s.setGuard k { s.guards k with locked := true, taken := true }).goto i
      (.inputs k args.length args none :: rest))
  | .inputs k arity [] found => some (s.goto i (.outputs k arity found :: rest))
  | .inputs k arity (v :: args) found => reconnectInput P s i rest k arity v args found
  | .connectInput k arity left right args found => do
    let (s, task) ← connectStep P s left right
    if task.isSome ∧ found.isSome then none
    else return s.goto i (.inputs k arity args (task.or found) :: rest)
  | .outputs k index found => reconnectOutput P s i rest k index found
  | .addTask task => some ({ s with tasks := s.tasks ++ [task] }.goto i rest)
  | .connect left right => do
    let (s, task) ← connectStep P s left right
    return s.goto i ((task.map .addTask).toList ++ rest)
  | .disconnectNode p =>
    (s.net.getPrincipalWire p).toOption.map fun c => s.goto i (.disconnectLock c.node :: rest)
  | .disconnectLock k =>
    if (s.guards k).locked then none
    else some ((s.setGuard k { s.guards k with locked := true }).goto i (.disconnect k 0 :: rest))
  | .disconnect k index => disconnectStep P s i rest k index
  | .recycle k =>
    (s.net.recycleNode k).toOption.map fun net => { s with net := net }.goto i rest
  | .body => some (s.goto i rest)
  | .primitiveInputs k index => do
    let (inputs, _) ← primitiveArity P s k
    if index < inputs then
      let _ ← (s.net.getValue k index).toOption
      return s.goto i (.primitiveInputs k (index + 1) :: rest)
    else
      return s.goto i (.primitiveApply k :: rest)
  | .primitiveApply _ => none
  | .primitiveOutputs k results => primitiveOutput P s i rest k results

/-- What is not determined by the activity of a worker. -/
inductive Action where
  | next
  /-- `x_link` -/
  | link
  /-- `worker_apply` on a node ctor. -/
  | newNode (ctor : ℕ) (args : List Value)
  /-- `worker_connect` -/
  | connect (left right : Value)
  /-- `worker_handle_task` on a task of the own queue or a stolen one. -/
  | handleTask (j : ℕ)
  /-- The primitive of a node has left its results. -/
  | applied (results : List Value)
  deriving DecidableEq, Repr

/-- The worker runs compiled code, so it may build nodes and connect values next. -/
def RunsCode : List Activity → Prop
  | [] => True
  | .body :: _ => True
  | .primitiveApply _ :: _ => True
  | _ => False

instance : DecidablePred RunsCode := fun l => by
  unfold RunsCode
  split <;> infer_instance

/-- How `worker_handle_task` begins. -/
def handleTask : Task → List Activity
  | .activePair left right _ => [.disconnectNode left, .disconnectNode right, .body]
  | .primitive k => [.primitiveInputs k 0]

/-- One atomic step of worker `i`. Which values it passes on is not restricted. -/
def workerStep (P : Program) (s : State n) (i : Fin n) : Action → Option (State n)
  | .next => match s.stack i with
    | [] => none
    | a :: rest => next P s i rest a
  | .link => if RunsCode (s.stack i) then some { s with net := s.net.newWire.2 } else none
  | .newNode c args => do
    let ctor ← P.nodeCtor c
    if RunsCode (s.stack i) then
      let (k, net) := s.net.newNode c
      return ({ s with net := net }.setGuard k { arity := ctor.arity }).goto i
        (.nodeLock k args :: s.stack i)
    else none
  | .connect left right =>
    if RunsCode (s.stack i) then some (s.goto i (.connect left right :: s.stack i)) else none
  | .handleTask j => do
    let task ← s.tasks[j]?
    if s.stack i = [] then
      return { s with tasks := s.tasks.eraseIdx j }.goto i (handleTask task)
    else none
  | .applied results => match s.stack i with
    | .primitiveApply k :: rest => do
      let (_, outputs) ← primitiveArity P s k
      if results.length = outputs then some (s.goto i (.primitiveOutputs k results :: rest))
      else none
    | _ => none

def step (P : Program) (s : State n) (l : Fin n × Action) : Option (State n) :=
  workerStep P s l.1 l.2

/-- The node whose port the next step of an activity reads or clears. -/
def Activity.reads : Activity → Option ℕ
  | .disconnect k _ => some k
  | .recycle k => some k
  | .primitiveInputs k _ => some k
  | .primitiveOutputs k _ => some k
  | _ => none

/-- The builder has set all ports of the node and has released its lock. -/
def Guard.Built (g : Guard) : Prop := (∀ j < g.arity, j ∈ g.set) ∧ g.released = true

/-- Whenever handling a task reads or clears a port of a node, the node is built. -/
def HandledBuilt (s : State n) : Prop :=
  ∀ i a k, (s.stack i).head? = some a → a.reads = some k → (s.guards k).Built

/-- The lock of a primitive node is free when the handling of its task begins. -/
def primitiveUnlocked (s : State n) (l : Fin n × Action) : Bool :=
  match l.2 with
  | .handleTask j => match s.tasks[j]? with
    | some (.primitive k) => !(s.guards k).locked
    | _ => true
  | _ => true

variable {P : Program} {s t : State n} {i : Fin n} {k index : ℕ} {net : Net} {v : Value}
  {rest : List Activity}

/-- What later states keep: principal wires, and what the builder has done to a node it has locked. -/
structure Extends (s t : State n) : Prop where
  principalWires : s.net.shape.2 <+: t.net.shape.2
  nodes : s.net.shape.1.length ≤ t.net.shape.1.length
  guards : ∀ k, (s.guards k).taken → (t.guards k).taken ∧ (t.guards k).arity = (s.guards k).arity ∧
    (s.guards k).set ⊆ (t.guards k).set ∧ ((s.guards k).released → (t.guards k).released)

/-- The nodes of a task have been locked by their builders. -/
def TaskOk (s : State n) : Task → Prop
  | .activePair left right _ => left < s.net.shape.2.length ∧ right < s.net.shape.2.length
  | .primitive k => (s.guards k).taken

/-- The builder has the lock and the ports in the range are set. -/
def BuilderOk (s : State n) (k lo hi : ℕ) (found : Option Task) : Prop :=
  (s.guards k).taken ∧ (∀ j, lo ≤ j → j < hi → j ∈ (s.guards k).set) ∧ ∀ t ∈ found, TaskOk s t

/-- What is known of the node that an activity is about. -/
def ActivityOk (s : State n) : Activity → Prop
  | .nodeLock k _ => k < s.net.shape.1.length
  | .inputs k arity args found => BuilderOk s k args.length arity found
  | .connectInput k arity _ _ args found => BuilderOk s k args.length arity found
  | .outputs k index found => BuilderOk s k 0 index found
  | .addTask t => TaskOk s t
  | .disconnectNode p => p < s.net.shape.2.length
  | .disconnectLock k => (s.guards k).taken
  | .disconnect k _ => (s.guards k).taken ∧ (s.guards k).Built
  | .recycle k => (s.guards k).taken ∧ (s.guards k).Built
  | .primitiveInputs k _ => (s.guards k).taken ∧ (s.guards k).Built
  | .primitiveApply k => (s.guards k).taken ∧ (s.guards k).Built
  | .primitiveOutputs k _ => (s.guards k).taken ∧ (s.guards k).Built
  | .connect _ _ => True
  | .body => True

structure Inv (P : Program) (s : State n) : Prop where
  /-- Until the builder releases the lock nobody else gets it. -/
  locked : ∀ k, (s.guards k).taken → (s.guards k).locked ∨ (s.guards k).Built
  fresh : ∀ k, s.net.shape.1.length ≤ k → (s.guards k).taken = false
  arity : ∀ (k c : ℕ) (ctor : NodeCtor), s.net.shape.1[k]? = some (some c) →
    P.nodeCtor c = some ctor → (s.guards k).arity = ctor.arity
  principalWires : ∀ x ∈ s.net.shape.2, (s.guards x.1).taken
  tasks : ∀ t ∈ s.tasks, TaskOk s t
  stack : ∀ i, ∀ a ∈ s.stack i, ActivityOk s a

section Extends

theorem Extends.of_eq (hs : t.net.shape = s.net.shape) (hg : t.guards = s.guards) : Extends s t where
  principalWires := by rw [hs]
  nodes := by rw [hs]
  guards k hk := by simp [hg, hk]

theorem Extends.built (h : Extends s t) (hk : (s.guards k).taken) (hb : (s.guards k).Built) :
    (t.guards k).taken ∧ (t.guards k).Built := by
  obtain ⟨ht, ha, hs, hr⟩ := h.guards k hk
  exact ⟨ht, fun j hj => hs (hb.1 j (ha ▸ hj)), hr hb.2⟩

theorem Extends.taskOk (h : Extends s t) {u : Task} (hu : TaskOk s u) : TaskOk t u := by
  cases u with
  | activePair l r _ =>
    have := h.principalWires.length_le
    exact ⟨hu.1.trans_le this, hu.2.trans_le this⟩
  | primitive k => exact (h.guards k hu).1

theorem Extends.builderOk (h : Extends s t) {lo hi : ℕ} {found : Option Task}
    (hb : BuilderOk s k lo hi found) : BuilderOk t k lo hi found := by
  obtain ⟨ht, _, hs, _⟩ := h.guards k hb.1
  exact ⟨ht, fun j hl hh => hs (hb.2.1 j hl hh), fun u hu => h.taskOk (hb.2.2 u hu)⟩

theorem Extends.activityOk (h : Extends s t) {a : Activity} (ha : ActivityOk s a) :
    ActivityOk t a := by
  cases a with
  | nodeLock k _ => exact lt_of_lt_of_le ha h.nodes
  | inputs => exact h.builderOk ha
  | connectInput => exact h.builderOk ha
  | outputs => exact h.builderOk ha
  | addTask => exact h.taskOk ha
  | disconnectNode => exact lt_of_lt_of_le ha h.principalWires.length_le
  | disconnectLock k => exact (h.guards k ha).1
  | disconnect => exact h.built ha.1 ha.2
  | recycle => exact h.built ha.1 ha.2
  | primitiveInputs => exact h.built ha.1 ha.2
  | primitiveApply => exact h.built ha.1 ha.2
  | primitiveOutputs => exact h.built ha.1 ha.2
  | connect => trivial
  | body => trivial

theorem Inv.taskOk_of_in (h : Inv P s) {net : Net} (hn : net.shape = s.net.shape) {u : Task}
    (hu : u.In net) : TaskOk s u := by
  cases u with
  | activePair => simpa only [Task.In, TaskOk, hn] using hu
  | primitive k =>
    obtain ⟨i, hi⟩ := hu
    exact h.principalWires (k, i) (hn ▸ hi)

end Extends

namespace Inv

theorem goto (h : Inv P s) {l : List Activity} (hl : ∀ a ∈ l, ActivityOk s a) :
    Inv P (s.goto i l) := by
  refine ⟨h.locked, h.fresh, h.arity, h.principalWires, h.tasks, fun j a ha => ?_⟩
  simp only [State.goto, Function.update_apply] at ha
  split at ha
  · exact hl a ha
  · exact h.stack j a ha

theorem setNet (h : Inv P s) (hn : net.shape = s.net.shape) : Inv P { s with net := net } := by
  have he : Extends s { s with net := net } := .of_eq hn rfl
  exact ⟨h.locked, by rw [hn]; exact h.fresh, by rw [hn]; exact h.arity,
    by rw [hn]; exact h.principalWires, fun t ht => he.taskOk (h.tasks t ht),
    fun j a ha => he.activityOk (h.stack j a ha)⟩

theorem setGuard (h : Inv P s) {g : Guard} (hk : k < s.net.shape.1.length)
    (ha : g.arity = (s.guards k).arity) (hs : (s.guards k).set ⊆ g.set)
    (ht : (s.guards k).taken → g.taken) (hr : (s.guards k).released → g.released)
    (hg : g.taken → g.locked ∨ g.Built) :
    Inv P (s.setGuard k g) ∧ Extends s (s.setGuard k g) := by
  have he : Extends s (s.setGuard k g) := by
    refine ⟨List.prefix_rfl, le_rfl, fun j hj => ?_⟩
    by_cases hjk : j = k
    · subst j
      simpa [State.setGuard] using ⟨ht hj, ha, hs, hr⟩
    · simp [State.setGuard, Function.update_of_ne hjk, hj]
  refine ⟨⟨fun j hj => ?_, fun j hj => ?_, fun j c ctor hc hP => ?_, fun x hx => ?_,
    fun t ht => he.taskOk (h.tasks t ht), fun i a ha => he.activityOk (h.stack i a ha)⟩, he⟩
  · by_cases hjk : j = k
    · subst j
      simpa [State.setGuard] using hg (by simpa [State.setGuard] using hj)
    · simp only [State.setGuard, Function.update_of_ne hjk] at hj ⊢
      exact h.locked j hj
  · have hjk : j ≠ k := by rintro rfl; exact (hk.not_ge hj).elim
    simpa only [State.setGuard, Function.update_of_ne hjk] using h.fresh j hj
  · have := h.arity j c ctor hc hP
    by_cases hjk : j = k
    · subst j
      simpa [State.setGuard, ha] using this
    · simpa only [State.setGuard, Function.update_of_ne hjk] using this
  · exact (he.guards x.1 (h.principalWires x hx)).1

theorem lt_of_taken (h : Inv P s) (hk : (s.guards k).taken) : k < s.net.shape.1.length := by
  by_contra hlt
  rw [h.fresh k (not_lt.mp hlt)] at hk
  cases hk

theorem growNet (h : Inv P s) {l : List (ℕ × ℕ)} (hn : net.shape = (s.net.shape.1, s.net.shape.2 ++ l))
    (hl : ∀ x ∈ l, (s.guards x.1).taken) :
    Inv P { s with net := net } ∧ Extends s { s with net := net } := by
  have he : Extends s { s with net := net } :=
    ⟨by simp [hn], by simp [hn], fun k hk => ⟨hk, rfl, List.Subset.refl _, id⟩⟩
  refine ⟨⟨h.locked, by simpa [hn] using h.fresh, by simpa [hn] using h.arity, fun x hx => ?_,
    fun t ht => he.taskOk (h.tasks t ht), fun i a ha => he.activityOk (h.stack i a ha)⟩, he⟩
  simp only [hn, List.mem_append] at hx
  exact hx.elim (h.principalWires x) (hl x)

theorem setPort (h : Inv P s) {l : List (ℕ × ℕ)} (hk : (s.guards k).taken)
    (hn : net.shape = (s.net.shape.1, s.net.shape.2 ++ l)) (hl : ∀ x ∈ l, x.1 = k)
    (ht : s.setPort k index v net = some t) :
    Inv P t ∧ Extends s t ∧ t.stack = s.stack ∧ index ∈ (t.guards k).set := by
  obtain ⟨net', hnet, rfl⟩ := Option.map_eq_some_iff.mp ht
  have hv := Outcome.toOption_eq_some.mp hnet
  obtain ⟨hi, he⟩ := h.growNet ((Net.shape_setValue hv).trans hn) fun x hx => hl x hx ▸ hk
  obtain ⟨hi', he'⟩ := hi.setGuard (k := k)
    (g := { s.guards k with set := (s.guards k).set ++ [index] }) (hi.lt_of_taken hk) rfl
    (List.subset_append_left _ _) id id fun _ => by
      refine (h.locked k hk).imp id fun hb => ⟨fun j hj => ?_, hb.2⟩
      exact List.mem_append_left _ (hb.1 j hj)
  refine ⟨hi', ⟨he.principalWires.trans he'.principalWires, he.nodes.trans he'.nodes, fun j hj => ?_⟩,
    rfl, by simp [State.setGuard]⟩
  exact he'.guards j hj

/-- One port further, the builder knows one port more. -/
theorem builderOk_setPort (h : Inv P s) {l : List (ℕ × ℕ)} {lo hi lo' hi' : ℕ} {found : Option Task}
    (hb : BuilderOk s k lo hi found) (hlo : ∀ j, lo' ≤ j → j < hi' → j ≠ index → lo ≤ j ∧ j < hi)
    (hn : net.shape = (s.net.shape.1, s.net.shape.2 ++ l)) (hl : ∀ x ∈ l, x.1 = k)
    (ht : s.setPort k index v net = some t) :
    Inv P t ∧ Extends s t ∧ BuilderOk t k lo' hi' found := by
  obtain ⟨hi, he, _, hs⟩ := h.setPort hb.1 hn hl ht
  obtain ⟨htk, hset, hf⟩ := he.builderOk hb
  refine ⟨hi, he, htk, fun j hl hh => ?_, hf⟩
  by_cases hj : j = index
  · exact hj ▸ hs
  · exact hset j (hlo j hl hh hj).1 (hlo j hl hh hj).2

theorem goto_cons (h : Inv P t) (he : Extends s t) {a : Activity} (ha : ActivityOk t a)
    (hr : ∀ a ∈ rest, ActivityOk s a) : Inv P (t.goto i (a :: rest)) := by
  refine h.goto fun b hb => ?_
  rcases List.mem_cons.mp hb with rfl | hb
  · exact ha
  · exact he.activityOk (hr b hb)

theorem reconnectInput (h : Inv P s) {arity : ℕ} {args : List Value} {found : Option Task}
    (hb : BuilderOk s k (args.length + 1) arity found) (hr : ∀ a ∈ rest, ActivityOk s a)
    (ht : NodeLock.reconnectInput P s i rest k arity v args found = some t) : Inv P t := by
  have hlo : ∀ j, args.length ≤ j → j < arity → j ≠ args.length → args.length + 1 ≤ j ∧ j < arity :=
    fun j hl hh hj => ⟨by omega, hh⟩
  unfold NodeLock.reconnectInput at ht
  obtain ⟨ctor, _, ht⟩ := Option.bind_eq_some_iff.mp ht
  obtain ⟨info, _, ht⟩ := Option.bind_eq_some_iff.mp ht
  split at ht
  · obtain ⟨s', hs, ht⟩ := Option.bind_eq_some_iff.mp ht
    cases ht
    obtain ⟨hi, he, hb'⟩ := h.builderOk_setPort hb hlo Net.shape_newPrincipalWire (by simp) hs
    exact hi.goto_cons he hb' hr
  · split at ht
    · obtain ⟨s', hs, ht⟩ := Option.bind_eq_some_iff.mp ht
      cases ht
      obtain ⟨hi, he, hb'⟩ := h.builderOk_setPort (l := []) hb hlo (by rw [List.append_nil]; rfl) (by simp) hs
      exact hi.goto_cons he hb' hr
    · obtain ⟨s', hs, ht⟩ := Option.bind_eq_some_iff.mp ht
      cases ht
      obtain ⟨hi, he, hb'⟩ := h.builderOk_setPort (l := []) hb hlo (by rw [List.append_nil]) (by simp) hs
      exact hi.goto_cons he hb' hr

theorem reconnectOutput (h : Inv P s) {found : Option Task} (hb : BuilderOk s k 0 index found)
    (hr : ∀ a ∈ rest, ActivityOk s a)
    (ht : NodeLock.reconnectOutput P s i rest k index found = some t) : Inv P t := by
  have hlo : ∀ j, 0 ≤ j → j < index + 1 → j ≠ index → 0 ≤ j ∧ j < index :=
    fun j hl hh hj => ⟨hl, by omega⟩
  unfold NodeLock.reconnectOutput at ht
  obtain ⟨ctor, hc, ht⟩ := Option.bind_eq_some_iff.mp ht
  split at ht
  · rename_i info hinfo
    obtain ⟨s', hs, ht⟩ := Option.bind_eq_some_iff.mp ht
    cases ht
    obtain ⟨l, hn, hl⟩ : ∃ l : List (ℕ × ℕ),
        (if info.isPrincipal then s.net.newPrincipalWire k index |>.map Value.principalWire id
          else s.net.newWire |>.map Value.wire id).2.shape = (s.net.shape.1, s.net.shape.2 ++ l) ∧
        ∀ x ∈ l, x.1 = k := by
      split
      · exact ⟨[(k, index)], by simp, by simp⟩
      · exact ⟨[], by simp, by simp⟩
    obtain ⟨hi, he, hb'⟩ := h.builderOk_setPort hb hlo hn hl hs
    exact hi.goto_cons he hb' hr
  · rename_i hinfo
    cases ht
    obtain ⟨c, hc, hP⟩ := Outcome.of_bind_eq_ok (Outcome.toOption_eq_some.mp hc)
    have ha : (s.guards k).arity = ctor.arity := by
      refine h.arity k c ctor (Net.getCtor_eq_ok.mp hc) ?_
      split at hP <;> cases hP
      assumption
    have hlen : ctor.arity ≤ index := List.getElem?_eq_none_iff.mp hinfo
    obtain ⟨hi, he⟩ := h.setGuard (k := k)
      (g := { s.guards k with locked := false, released := true }) (h.lt_of_taken hb.1) rfl
      (List.Subset.refl _) id (fun _ => rfl) fun _ => .inr ⟨fun j hj => hb.2.1 j (Nat.zero_le j)
        (lt_of_lt_of_le hj (ha.trans_le hlen)), rfl⟩
    refine hi.goto fun b hb' => ?_
    rcases List.mem_append.mp hb' with hb' | hb'
    · obtain ⟨u, hu, rfl⟩ : ∃ u, found = some u ∧ b = .addTask u := by
        cases found <;> simp_all
      exact he.taskOk (hb.2.2 u (by simp [hu]))
    · exact he.activityOk (hr b hb')

/-- Connecting keeps the invariant, and the task it finds is about locked nodes. -/
theorem connectStep (h : Inv P s) {left right : Value} {task : Option Task}
    (ht : NodeLock.connectStep P s left right = some (t, task)) :
    Inv P t ∧ Extends s t ∧ (∀ u ∈ task, TaskOk t u) ∧ t.stack = s.stack := by
  obtain ⟨⟨net, task'⟩, hc, he⟩ := Option.map_eq_some_iff.mp ht
  cases he
  obtain ⟨hn, hu⟩ := connect_shape (Outcome.toOption_eq_some.mp hc)
  have he : Extends s { s with net := net } := .of_eq hn rfl
  exact ⟨h.setNet hn, he, fun u hu' => he.taskOk (h.taskOk_of_in hn (hu u hu')), rfl⟩

theorem mem_found {task : Option Task} {a : Activity}
    (hu : ∀ u ∈ task, TaskOk t u) (ha : a ∈ (task.map Activity.addTask).toList) : ActivityOk t a := by
  cases task with
  | none => cases ha
  | some u =>
    obtain rfl : a = .addTask u := by simpa using ha
    exact hu u rfl

theorem shape_disconnectPort {net' : Net} (h : disconnectPort net v = .ok net') :
    net'.shape = net.shape := by
  unfold disconnectPort at h
  split at h
  · exact Net.shape_destroyPrincipalWire h
  · cases h; rfl

/-- What the steps of handling a task know of the node, and the steps that change its guard. -/
theorem disconnectStep (h : Inv P s) (hk : (s.guards k).taken ∧ (s.guards k).Built)
    (hr : ∀ a ∈ rest, ActivityOk s a)
    (ht : NodeLock.disconnectStep P s i rest k index = some t) : Inv P t := by
  unfold NodeLock.disconnectStep at ht
  obtain ⟨ctor, _, ht⟩ := Option.bind_eq_some_iff.mp ht
  split at ht
  · obtain ⟨v, _, ht⟩ := Option.bind_eq_some_iff.mp ht
    obtain ⟨net, hnet, ht⟩ := Option.bind_eq_some_iff.mp ht
    cases ht
    have hn := shape_disconnectPort (Outcome.toOption_eq_some.mp hnet)
    have he : Extends s { s with net := net } := .of_eq hn rfl
    exact (h.setNet hn).goto_cons he (he.built hk.1 hk.2) hr
  · cases ht
    obtain ⟨hi, he⟩ := h.setGuard (k := k) (g := { s.guards k with locked := false })
      (h.lt_of_taken hk.1) rfl (List.Subset.refl _) id id fun _ => .inr hk.2
    exact hi.goto_cons he (he.built hk.1 hk.2) hr

theorem primitiveOutput (h : Inv P s) {results : List Value}
    (hk : (s.guards k).taken ∧ (s.guards k).Built) (hr : ∀ a ∈ rest, ActivityOk s a)
    (ht : NodeLock.primitiveOutput P s i rest k results = some t) : Inv P t := by
  unfold NodeLock.primitiveOutput at ht
  split at ht
  · cases ht
    exact h.goto_cons (.of_eq rfl rfl) hk hr
  · obtain ⟨⟨inputs, outputs⟩, _, ht⟩ := Option.bind_eq_some_iff.mp ht
    obtain ⟨port, _, ht⟩ := Option.bind_eq_some_iff.mp ht
    split at ht
    · obtain ⟨⟨s', task⟩, hs, ht⟩ := Option.bind_eq_some_iff.mp ht
      cases ht
      obtain ⟨hi, he, hu, _⟩ := h.connectStep hs
      refine hi.goto fun a ha => ?_
      rcases List.mem_append.mp ha with ha | ha
      · exact mem_found hu ha
      rcases List.mem_cons.mp ha with rfl | ha
      · exact he.built hk.1 hk.2
      · exact he.activityOk (hr a ha)
    · cases ht

theorem nodeLock (h : Inv P s) (args : List Value) (hk : k < s.net.shape.1.length)
    (hr : ∀ a ∈ rest, ActivityOk s a) :
    Inv P ((s.setGuard k { s.guards k with locked := true, taken := true }).goto i
      (.inputs k args.length args none :: rest)) := by
  obtain ⟨hi, he⟩ := h.setGuard (k := k) (g := { s.guards k with locked := true, taken := true })
    hk rfl (List.Subset.refl _) (fun _ => rfl) id fun _ => .inl rfl
  refine hi.goto_cons he ⟨by simp [State.setGuard], fun j hl hh => (hh.not_ge hl).elim, ?_⟩ hr
  simp

theorem connectInput (h : Inv P s) {arity : ℕ} {left right : Value} {args : List Value}
    {found : Option Task} (hb : BuilderOk s k args.length arity found)
    (hr : ∀ a ∈ rest, ActivityOk s a)
    (ht : NodeLock.next P s i rest (.connectInput k arity left right args found) = some t) :
    Inv P t := by
  obtain ⟨⟨s', task⟩, hs, ht⟩ := Option.bind_eq_some_iff.mp ht
  obtain ⟨hi, he, hu, _⟩ := h.connectStep hs
  dsimp only at ht
  split at ht <;> cases ht
  obtain ⟨htk, hset, hf⟩ := he.builderOk hb
  refine hi.goto_cons he ⟨htk, hset, fun u hu' => ?_⟩ hr
  rcases Option.or_eq_some_iff.mp hu' with hu' | ⟨_, hu'⟩
  · exact hu u hu'
  · exact hf u hu'

theorem addTask (h : Inv P s) {u : Task} (hu : TaskOk s u) (hr : ∀ a ∈ rest, ActivityOk s a) :
    Inv P ({ s with tasks := s.tasks ++ [u] }.goto i rest) := by
  have hi : Inv P { s with tasks := s.tasks ++ [u] } := by
    refine ⟨h.locked, h.fresh, h.arity, h.principalWires, fun v hv => ?_, h.stack⟩
    rcases List.mem_append.mp hv with hv | hv
    · exact h.tasks v hv
    · exact List.mem_singleton.mp hv ▸ hu
  exact hi.goto hr

theorem connect (h : Inv P s) {left right : Value} (hr : ∀ a ∈ rest, ActivityOk s a)
    (ht : NodeLock.next P s i rest (.connect left right) = some t) : Inv P t := by
  obtain ⟨⟨s', task⟩, hs, ht⟩ := Option.bind_eq_some_iff.mp ht
  obtain ⟨hi, he, hu, _⟩ := h.connectStep hs
  cases ht
  refine hi.goto fun b hb => ?_
  rcases List.mem_append.mp hb with hb | hb
  · exact mem_found hu hb
  · exact he.activityOk (hr b hb)

theorem disconnectLock (h : Inv P s) (hk : (s.guards k).taken) (hfree : ¬ (s.guards k).locked)
    (hr : ∀ a ∈ rest, ActivityOk s a) :
    Inv P ((s.setGuard k { s.guards k with locked := true }).goto i (.disconnect k 0 :: rest)) := by
  -- The builder holds the lock from before the first port until all are set.
  have hb := (h.locked k hk).resolve_left hfree
  obtain ⟨hi, he⟩ := h.setGuard (k := k) (g := { s.guards k with locked := true })
    (h.lt_of_taken hk) rfl (List.Subset.refl _) id id fun _ => .inr hb
  exact hi.goto_cons he (he.built hk hb) hr

theorem recycle (h : Inv P s) (hr : ∀ a ∈ rest, ActivityOk s a)
    (hn : s.net.recycleNode k = .ok net) : Inv P ({ s with net := net }.goto i rest) := by
  have hn := Net.shape_recycleNode hn
  have he : Extends s { s with net := net } :=
    ⟨by simp [hn], by simp [hn], fun k hk => ⟨hk, rfl, List.Subset.refl _, id⟩⟩
  have hi : Inv P { s with net := net } := by
    refine ⟨h.locked, by simpa [hn] using h.fresh, fun j c ctor hc hP => ?_,
      by simpa [hn] using h.principalWires, fun u hu => he.taskOk (h.tasks u hu),
      fun j b hb => he.activityOk (h.stack j b hb)⟩
    refine h.arity j c ctor ?_ hP
    simp only [hn, List.getElem?_set] at hc
    split at hc
    · split at hc <;> cases hc
    · exact hc
  exact hi.goto fun b hb => he.activityOk (hr b hb)

theorem primitiveInputs (h : Inv P s) (hk : (s.guards k).taken ∧ (s.guards k).Built)
    (hr : ∀ a ∈ rest, ActivityOk s a)
    (ht : NodeLock.next P s i rest (.primitiveInputs k index) = some t) : Inv P t := by
  obtain ⟨⟨inputs, _⟩, _, ht⟩ := Option.bind_eq_some_iff.mp ht
  dsimp only at ht
  split at ht
  · obtain ⟨_, _, ht⟩ := Option.bind_eq_some_iff.mp ht
    cases ht
    exact h.goto_cons (.of_eq rfl rfl) hk hr
  · cases ht
    exact h.goto_cons (.of_eq rfl rfl) hk hr

theorem next (h : Inv P s) {a : Activity} (ha : ActivityOk s a) (hr : ∀ a ∈ rest, ActivityOk s a)
    (ht : NodeLock.next P s i rest a = some t) : Inv P t := by
  cases a with
  | nodeLock k args =>
    simp only [NodeLock.next] at ht
    split at ht <;> cases ht
    exact h.nodeLock args ha hr
  | inputs k arity args found =>
    cases args with
    | nil =>
      cases ht
      exact h.goto_cons (.of_eq rfl rfl) ha hr
    | cons v args => exact h.reconnectInput ha hr ht
  | connectInput => exact h.connectInput ha hr ht
  | outputs => exact h.reconnectOutput ha hr ht
  | addTask u =>
    cases ht
    exact h.addTask ha hr
  | connect => exact h.connect hr ht
  | disconnectNode p =>
    obtain ⟨c, hc, rfl⟩ := Option.map_eq_some_iff.mp ht
    have hp := (Net.getPrincipalWire_eq_ok.mp (Outcome.toOption_eq_some.mp hc)).1
    exact h.goto_cons (.of_eq rfl rfl)
      (h.principalWires _ (List.mem_of_getElem? (Net.mem_shape_of_getElem hp))) hr
  | disconnectLock k =>
    simp only [NodeLock.next] at ht
    split at ht <;> cases ht
    exact h.disconnectLock ha ‹_› hr
  | disconnect => exact h.disconnectStep ha hr ht
  | recycle k =>
    obtain ⟨net, hnet, rfl⟩ := Option.map_eq_some_iff.mp ht
    exact h.recycle hr (Outcome.toOption_eq_some.mp hnet)
  | body =>
    cases ht
    exact h.goto hr
  | primitiveInputs => exact h.primitiveInputs ha hr ht
  | primitiveApply => cases ht
  | primitiveOutputs => exact h.primitiveOutput ha hr ht

theorem newNode (h : Inv P s) {c : ℕ} {ctor : NodeCtor} {args : List Value}
    (hc : P.nodeCtor c = some ctor) :
    Inv P (({ s with net := (s.net.newNode c).2 }.setGuard (s.net.newNode c).1
      { arity := ctor.arity }).goto i (.nodeLock (s.net.newNode c).1 args :: s.stack i)) := by
  have hlen : (s.net.newNode c).1 = s.net.shape.1.length := by simp [Net.newNode, Net.shape]
  have hfree : (s.guards (s.net.newNode c).1).taken = false := h.fresh _ hlen.ge
  set k := (s.net.newNode c).1
  set t := { s with net := (s.net.newNode c).2 }.setGuard k { arity := ctor.arity } with ht
  have hsh : t.net.shape = (s.net.shape.1 ++ [some c], s.net.shape.2) := Net.shape_newNode
  have hne : ∀ j, (s.guards j).taken → j ≠ k := by
    rintro j hj rfl
    rw [hfree] at hj
    cases hj
  have hg : ∀ j, j ≠ k → t.guards j = s.guards j := fun j hj => Function.update_of_ne hj _ _
  have hk : t.guards k = { arity := ctor.arity } := Function.update_self _ _ _
  have he : Extends s t := by
    refine ⟨by rw [hsh], by simp [hsh], fun j hj => ?_⟩
    rw [hg j (hne j hj)]
    exact ⟨hj, rfl, List.Subset.refl _, id⟩
  have hi : Inv P t := by
    refine ⟨fun j hj => ?_, fun j hj => ?_, fun j d ctor' hd hP => ?_, fun x hx => ?_,
      fun u hu => he.taskOk (h.tasks u hu), fun j a ha => he.activityOk (h.stack j a ha)⟩
    · by_cases hjk : j = k
      · subst j
        rw [hk] at hj
        cases hj
      · rw [hg j hjk] at hj ⊢
        exact h.locked j hj
    · rw [hsh, List.length_append] at hj
      have hjk : j ≠ k := by rintro rfl; simp [hlen] at hj
      rw [hg j hjk]
      exact h.fresh j (by omega)
    · rw [hsh] at hd
      rcases lt_trichotomy j s.net.shape.1.length with hj | hj | hj
      · rw [hg j (by omega)]
        exact h.arity j d ctor' (by rwa [List.getElem?_append_left hj] at hd) hP
      · obtain rfl : j = k := hj.trans hlen.symm
        obtain rfl : c = d := by simpa [hlen] using hd
        rw [hk, Option.some.inj (hc.symm.trans hP)]
      · rw [List.getElem?_eq_none (by simpa using Nat.succ_le_of_lt hj)] at hd
        cases hd
    · rw [hsh] at hx
      have := h.principalWires x hx
      rwa [hg x.1 (hne _ this)]
  refine hi.goto_cons he ?_ (h.stack i)
  simp [ActivityOk, hsh, hlen]

theorem handleTask (h : Inv P s) {j : ℕ} {u : Task} (hu : s.tasks[j]? = some u)
    (hl : primitiveUnlocked s (i, .handleTask j)) :
    Inv P ({ s with tasks := s.tasks.eraseIdx j }.goto i (NodeLock.handleTask u)) := by
  have hi : Inv P { s with tasks := s.tasks.eraseIdx j } :=
    ⟨h.locked, h.fresh, h.arity, h.principalWires,
      fun v hv => h.tasks v (List.mem_of_mem_eraseIdx hv), h.stack⟩
  have hok := h.tasks u (List.mem_of_getElem? hu)
  refine hi.goto fun a ha => ?_
  cases u with
  | activePair left right rule =>
    simp only [NodeLock.handleTask, List.mem_cons, List.not_mem_nil, or_false] at ha
    rcases ha with rfl | rfl | rfl
    · exact hok.1
    · exact hok.2
    · trivial
  | primitive k =>
    obtain rfl : a = .primitiveInputs k 0 := by simpa [NodeLock.handleTask] using ha
    refine ⟨hok, (h.locked k hok).resolve_left ?_⟩
    simpa [primitiveUnlocked, hu] using hl

theorem step (h : Inv P s) {l : Fin n × Action} (hl : primitiveUnlocked s l)
    (ht : NodeLock.step P s l = some t) : Inv P t := by
  obtain ⟨i, a⟩ := l
  simp only [NodeLock.step] at ht
  unfold workerStep at ht
  split at ht
  · split at ht
    · cases ht
    · rename_i a rest hs
      have hm : ∀ b ∈ a :: rest, ActivityOk s b := fun b hb => h.stack i b (hs ▸ hb)
      exact h.next (hm a (by simp)) (fun b hb => hm b (List.mem_cons_of_mem a hb)) ht
  · split at ht <;> cases ht
    exact h.setNet rfl
  · obtain ⟨ctor, hc, ht⟩ := Option.bind_eq_some_iff.mp ht
    split at ht <;> cases ht
    exact h.newNode hc
  · split at ht <;> cases ht
    exact h.goto_cons (.of_eq rfl rfl) trivial (h.stack i)
  · obtain ⟨u, hu, ht⟩ := Option.bind_eq_some_iff.mp ht
    split at ht <;> cases ht
    exact h.handleTask hu hl
  · split at ht
    · rename_i k rest hs
      obtain ⟨⟨_, outputs⟩, _, ht⟩ := Option.bind_eq_some_iff.mp ht
      dsimp only at ht
      split at ht <;> cases ht
      have hm : ∀ b ∈ Activity.primitiveApply k :: rest, ActivityOk s b :=
        fun b hb => h.stack i b (hs ▸ hb)
      have hk : ActivityOk s (.primitiveApply k) := hm _ (by simp)
      exact h.goto_cons (.of_eq rfl rfl) hk fun b hb => hm b (List.mem_cons_of_mem _ hb)
    · cases ht

theorem initial : Inv P ({} : State n) where
  locked k hk := by cases hk
  fresh k _ := rfl
  arity k c ctor hc := by simp [Net.shape] at hc
  principalWires x hx := by simp [Net.shape] at hx
  tasks t ht := by cases ht
  stack i a ha := by cases ha

theorem handledBuilt (h : Inv P s) : HandledBuilt s := by
  intro i a k ha hr
  have hok := h.stack i a (List.mem_of_head? ha)
  cases a <;> cases hr <;> exact hok.2

end Inv

/--
In every run in which a primitive task is handled only when the lock of its node
is free, handling a task of either kind reads and clears ports of built nodes only.
-/
theorem handled_built {n : ℕ} {P : Program} {s : State n}
    (h : Transition.Reaches (Transition.restrict primitiveUnlocked (step P)) {} s) :
    HandledBuilt s :=
  (h.invariant (fun _ _ _ hs ht =>
    have hl := Transition.restrict_eq_some.mp ht
    hs.step hl.1 hl.2) Inv.initial).handledBuilt

def addFn : PureFn where
  run
    | [.word x, .word y] => .ok [.word (x + y)]
    | _ => .error .primitiveFn
  isNonWire h v hv := by
    split at h <;> cases h
    obtain rfl := List.mem_singleton.mp hv
    trivial
  error_eq h := by
    split at h <;> cases h
    rfl

/-- A primitive with ports `x!`, `y!` and `result`, after the four apply node ctors. -/
def adder : Program where
  nodeCtors := [{
    name := "add"
    portInfos := [⟨"x", true⟩, ⟨"y", true⟩, ⟨"result", false⟩]
    primitive := some (.primitive 0) }]
  primitives := [{ inputArity := 2, outputArity := 1, fn := .fn addFn, nodeCtor := some 4 }]

/-- The worker that builds the node, and another one. -/
def builder : Fin 2 := ⟨0, Nat.two_pos⟩

def other : Fin 2 := ⟨1, Nat.one_lt_two⟩

/-- One worker adds a number to what is on a wire; the other connects a number to that wire. -/
def adderBuild : List (Fin 2 × Action) :=
  [(builder, .link), (builder, .newNode 4 [.word 2#64, .wire 0]), (builder, .next), (builder, .next),
    (builder, .next), (builder, .next), (builder, .next), (other, .connect (.wire 0) (.word 3#64)),
    (other, .next), (other, .next)]

/-- The task is there before the result port is set, and handling it does not wait for the lock. -/
theorem not_handledBuilt : ¬ ∀ s : State 2, Transition.Reaches (step adder) {} s → HandledBuilt s := by
  intro h
  obtain ⟨s, hs, ha, hb⟩ : ∃ s, Transition.run (step adder) ({} : State 2)
      (adderBuild ++ [(other, .handleTask 0)]) = some s ∧
      (s.stack other).head? = some (.primitiveInputs 0 0) ∧ (s.guards 0).released = false :=
    ⟨_, rfl, rfl, rfl⟩
  have := (h s (.of_run hs) other _ 0 ha rfl).2
  rw [hb] at this
  cases this

theorem handled_built_adder : ∃ s : State 2,
    (s.stack other).head? = some (.primitiveInputs 0 0) ∧ HandledBuilt s := by
  obtain ⟨s, hs, ha⟩ : ∃ s, Transition.run (Transition.restrict primitiveUnlocked (step adder))
      ({} : State 2) (adderBuild ++ [(builder, .next), (builder, .next), (builder, .next),
        (other, .handleTask 0)]) = some s ∧ (s.stack other).head? = some (.primitiveInputs 0 0) :=
    ⟨_, rfl, rfl⟩
  exact ⟨s, ha, handled_built (.of_run hs)⟩

end InetLisp.NodeLock
