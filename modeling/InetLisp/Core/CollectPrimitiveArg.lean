import InetLisp.Core.NodeLock
import InetLisp.Lib.Tickets
import InetLisp.Lib.Transition

/-! # Collecting the arguments of a primitive

One call of `connect` delivers an atom to each principal port of a primitive node. The
call that counts the last argument returns the task of the node. The steps of the
calls, of the worker that sets the ports and of those that handle tasks interleave;
the node is used again after it has been recycled.
-/

namespace InetLisp.CollectPrimitiveArg

open Lib

/-- One use of the node: its ctor, and what is connected to each port. To a principal
port that is the atom that a call of `connect` delivers. -/
structure Use where
  ctor : ℕ
  ports : List Value
  deriving DecidableEq, Repr

/-- Where a call of `collect_primitive_arg` stands. -/
inductive Phase where
  | idle
  /-- The principal wire is destroyed. -/
  | setValue
  | fetchAdd
  /-- About to compare its count with `node_principal_port_count`. -/
  | compare (argCount : ℕ)
  | returned (argCount : ℕ) (task : Bool)
  deriving DecidableEq, Repr

def Phase.ticket : Phase → Option ℕ
  | .compare m => some m
  | .returned m _ => some m
  | _ => none

def Phase.inProgress : Phase → Bool
  | .idle => false
  | .returned _ _ => false
  | _ => true

/-- A worker in `worker_handle_task_primitive`, with its value stack, top first. The list
that the primitive has received and its results are ghosts. -/
inductive Handler where
  /-- In the loop over the inputs; so many are pushed. -/
  | inputs (inputArity outputArity count : ℕ) (stack : List Value)
  /-- In the loop over the outputs; the ports that are connected, with their results. -/
  | outputs (inputArity outputArity : ℕ) (received results stack : List Value)
    (connected : List (Value × Value))
  deriving DecidableEq, Repr

structure Fire where
  use : ℕ
  received : List Value
  results : List Value
  connected : List (Value × Value)
  deriving DecidableEq, Repr

/-- A node over all its uses. A call belongs to a use and a port; its atom is in the use. -/
structure State where
  node : Node := ⟨none, [], 0⟩
  uses : List Use := []
  calls : ℕ → ℕ → Phase := fun _ _ => .idle
  tasks : ℕ := 0
  handlers : List Handler := []
  fires : List Fire := []

def primitiveCtor (P : Program) (c : ℕ) : Option (NodeCtor × ℕ × ℕ) := do
  let ctor ← P.nodeCtor c
  match ← ctor.primitive with
  | .apply arity => return (ctor, arity + 1, 1)
  | .primitive k =>
    let primitive ← P.primitives[k]?
    return (ctor, primitive.inputArity, primitive.outputArity)

/-- Whether the primitive can leave these results. What a function leaves that
`x_apply1..4` enters is not determined here. -/
def leaves (P : Program) (c : ℕ) (args results : List Value) : Bool :=
  match (P.nodeCtor c).bind (·.primitive) with
  | some (.apply _) => true
  | some (.primitive k) => match P.primitives[k]? with
    | some ⟨_, _, .fn f, _⟩ => match f.run args with
      | .ok values => values = results
      | .error _ => false
    | _ => false
  | none => false

namespace State

def current (s : State) : ℕ := s.uses.length - 1

def setCall (s : State) (u i : ℕ) (phase : Phase) : State :=
  { s with calls := Function.update s.calls u (Function.update (s.calls u) i phase) }

def setValue (s : State) (i : ℕ) (v : Value) : State :=
  { s with node := { s.node with valueArray := s.node.valueArray.set i (some v) } }

def setHandler (s : State) (j : ℕ) (h : Handler) : State :=
  { s with handlers := s.handlers.set j h }

/-- `worker_new_node` -/
def newNode (P : Program) (s : State) (use : Use) : Option State := do
  let (ctor, inputs, outputs) ← primitiveCtor P use.ctor
  if s.node.ctor = none ∧ use.ports.length = ctor.arity ∧ ctor.arity = inputs + outputs then
    return { s with node := { s.node with ctor := some use.ctor }, uses := s.uses ++ [use] }
  else none

/-- One port in `worker_reconnect_node`. A principal wire has the number of its port. -/
def setPort (P : Program) (s : State) (i : ℕ) : Option State := do
  let c ← s.node.ctor
  let ctor ← P.nodeCtor c
  let info ← ctor.portInfos[i]?
  let use ← s.uses.getLast?
  let v ← use.ports[i]?
  if s.node.valueArray.get i = none then
    return s.setValue i (if info.isPrincipal then .principalWire i else v)
  else none

/-- The principal wire of a port is connected, once. -/
def connect (P : Program) (s : State) (i : ℕ) : Option State := do
  let c ← s.node.ctor
  let ctor ← P.nodeCtor c
  let info ← ctor.portInfos[i]?
  if info.isPrincipal ∧ (s.node.valueArray.get i).isSome ∧ s.calls s.current i = .idle then
    return s.setCall s.current i .setValue
  else none

/-- One step of `collect_primitive_arg`. -/
def next (P : Program) (s : State) (u i : ℕ) : Option State :=
  match s.calls u i with
  | .idle => none
  | .setValue => do
    let use ← s.uses[u]?
    let v ← use.ports[i]?
    return (s.setValue i v).setCall u i .fetchAdd
  | .fetchAdd =>
    let argCount := s.node.primitiveArgCount + 1
    some (({ s with node := { s.node with primitiveArgCount := argCount } } : State).setCall u i
      (.compare argCount))
  | .compare argCount => do
    let c ← s.node.ctor
    let ctor ← P.nodeCtor c
    let task := argCount = ctor.principalPortCount
    return ({ s with tasks := s.tasks + (decide task).toNat } : State).setCall u i
      (.returned argCount task)
  | .returned _ _ => none

/-- A worker takes the task; its value stack need not be empty. -/
def handle (P : Program) (s : State) (stack : List Value) : Option State := do
  let c ← s.node.ctor
  let (_, inputs, outputs) ← primitiveCtor P c
  if 0 < s.tasks then
    return { s with tasks := s.tasks - 1, handlers := s.handlers ++ [.inputs inputs outputs 0 stack] }
  else none

/-- One pass of the loop over the inputs; a port that is not set has no value to push. -/
def read (s : State) (j : ℕ) : Option State := do
  match ← s.handlers[j]? with
  | .inputs inputs outputs count stack =>
    let v ← s.node.valueArray.get count
    if count < inputs then return s.setHandler j (.inputs inputs outputs (count + 1) (v :: stack))
    else none
  | .outputs .. => none

/-- `worker_apply_primitive`, and `worker_run_until` -/
def apply (P : Program) (s : State) (j : ℕ) (results : List Value) : Option State := do
  let c ← s.node.ctor
  match ← s.handlers[j]? with
  | .inputs inputs outputs count stack =>
    let args := (stack.take inputs).reverse
    if count = inputs ∧ leaves P c args results then
      return s.setHandler j
        (.outputs inputs outputs args results (results.reverse ++ stack.drop inputs) [])
    else none
  | .outputs .. => none

/-- One pass of the loop over the outputs, with `worker_connect`. -/
def write (s : State) (j : ℕ) : Option State := do
  match ← s.handlers[j]? with
  | .inputs .. => none
  | .outputs inputs outputs received results stack connected =>
    let v ← s.node.valueArray.get (inputs + outputs - 1 - connected.length)
    match stack with
    | [] => none
    | result :: stack =>
      if connected.length < outputs ∧ v.IsWire then
        return s.setHandler j
          (.outputs inputs outputs received results stack ((v, result) :: connected))
      else none

/-- `worker_recycle_node`, with `node_clean` -/
def recycle (s : State) (j : ℕ) : Option State := do
  match ← s.handlers[j]? with
  | .inputs .. => none
  | .outputs _ outputs received results _ connected =>
    if connected.length = outputs then
      return { s with
        node := ⟨none, [], 0⟩
        handlers := s.handlers.eraseIdx j
        fires := s.fires ++ [⟨s.current, received, results, connected⟩] }
    else none

end State

inductive Action where
  | newNode (use : Use)
  | setPort (index : ℕ)
  | connect (index : ℕ)
  | next (use index : ℕ)
  | handle (stack : List Value)
  | read (j : ℕ)
  | apply (j : ℕ) (results : List Value)
  | write (j : ℕ)
  | recycle (j : ℕ)
  deriving DecidableEq, Repr

def step (P : Program) (s : State) : Action → Option State
  | .newNode use => s.newNode P use
  | .setPort i => s.setPort P i
  | .connect i => s.connect P i
  | .next u i => s.next P u i
  | .handle stack => s.handle P stack
  | .read j => s.read j
  | .apply j results => s.apply P j results
  | .write j => s.write j
  | .recycle j => s.recycle j

/-- All ports are set, and no call is under way. -/
def ready (P : Program) (s : State) : Bool :=
  match s.node.ctor.bind P.nodeCtor with
  | none => false
  | some ctor => (List.range ctor.arity).all fun i =>
    (s.node.valueArray.get i).isSome && !(s.calls s.current i).inProgress

/-- A task is taken when the node is ready, and a primitive leaves one result for each output. -/
def inTurn (P : Program) (s : State) : Action → Bool
  | .handle _ => ready P s
  | .apply j results => match s.handlers[j]? with
    | some (.inputs _ outputs _ _) => results.length = outputs
    | _ => true
  | _ => true

/-- What is promised of a primitive node, over all its uses. -/
structure FiresOnce (P : Program) (s : State) : Prop where
  /-- No two calls for one use return a task. -/
  atMostOne : ∀ u i j m l, s.calls u i = .returned m true → s.calls u j = .returned l true → i = j
  /-- Once all calls for a use have returned, one of them has returned a task. -/
  exactlyOne : ∀ u use ctor, s.uses[u]? = some use → P.nodeCtor use.ctor = some ctor →
    0 < ctor.principalPortCount →
    (∀ i, ctor.IsPrincipal i → ∃ m b, s.calls u i = .returned m b) →
      ∃! i, ∃ m, s.calls u i = .returned m true
  /-- From the return of a task to the end of the use, the principal ports hold their arguments. -/
  collected : ∀ use ctor, s.node.ctor = some use.ctor → s.uses.getLast? = some use →
    P.nodeCtor use.ctor = some ctor → ∀ i m, s.calls s.current i = .returned m true →
      ∀ j, ctor.IsPrincipal j → ∃ v, use.ports[j]? = some v ∧ s.node.valueArray.get j = some v
  /-- Every use that is over has fired once. -/
  fires : s.fires.map (·.use) = List.range (s.uses.length - if s.node.ctor.isSome then 1 else 0)
  /-- The primitive receives its inputs and the outputs get its results, by position. -/
  positions : ∀ f ∈ s.fires, ∃ use ctor inputs outputs, s.uses[f.use]? = some use ∧
    primitiveCtor P use.ctor = some (ctor, inputs, outputs) ∧ f.received = use.ports.take inputs ∧
      f.results.length = outputs ∧ f.connected = (use.ports.drop inputs).zip f.results
  /-- A recycled node starts afresh. -/
  clean : s.node.ctor = none → s.node = ⟨none, [], 0⟩

def principals (ctor : NodeCtor) : Finset ℕ :=
  (Finset.range ctor.arity).filter fun i => (ctor.portInfos[i]?).any (·.isPrincipal)

theorem mem_principals {ctor : NodeCtor} {i : ℕ} : i ∈ principals ctor ↔ ctor.IsPrincipal i := by
  rw [principals, Finset.mem_filter, Finset.mem_range]
  constructor
  · rintro ⟨-, h⟩
    exact Option.any_eq_true _ _ |>.mp h
  · rintro ⟨info, hi, hp⟩
    exact ⟨(List.getElem?_eq_some_iff.mp hi).1, by rw [hi]; exact hp⟩

theorem card_principals (ctor : NodeCtor) : (principals ctor).card = ctor.principalPortCount := by
  unfold principals NodeCtor.arity NodeCtor.principalPortCount
  induction ctor.portInfos using List.reverseRecOn with
  | nil => rfl
  | append_singleton l info ih =>
    rw [List.countP_append, List.countP_singleton, List.length_append, List.length_singleton,
      Finset.range_add_one, Finset.filter_insert, ← ih]
    have hl : (l ++ [info])[l.length]? = some info := by simp
    have hold : ((Finset.range l.length).filter fun i =>
        ((l ++ [info])[i]?).any (·.isPrincipal)) =
        (Finset.range l.length).filter fun i => (l[i]?).any (·.isPrincipal) := by
      apply Finset.filter_congr
      intro i hi
      rw [List.getElem?_append_left (Finset.mem_range.mp hi)]
    rw [hl, hold]
    split
    · rename_i hp
      rw [if_pos (show info.isPrincipal = true from hp), Finset.card_insert_of_notMem]
      simp
    · rename_i hp
      rw [if_neg (show ¬ info.isPrincipal = true from hp), Nat.add_zero]

/-- The calls for one use, with what they have counted. -/
structure CallsOk (ctor : NodeCtor) (phase : ℕ → Phase) (count : ℕ) : Prop where
  dispensed : Dispensed (principals ctor) (fun i => (phase i).ticket) count
  principal : ∀ i, phase i ≠ .idle → i ∈ principals ctor
  task : ∀ i m b, phase i = .returned m b → b = decide (m = ctor.principalPortCount)

namespace CallsOk

variable {ctor : NodeCtor} {phase : ℕ → Phase} {count i j m l : ℕ}

theorem start : CallsOk ctor (fun _ => .idle) 0 := ⟨.zero, fun _ h => (h rfl).elim, nofun⟩

theorem update {x : Phase} (h : CallsOk ctor phase count) (ht : x.ticket = (phase i).ticket)
    (hi : i ∈ principals ctor) (hx : ∀ m b, x = .returned m b →
      b = decide (m = ctor.principalPortCount)) :
    CallsOk ctor (Function.update phase i x) count where
  dispensed := by
    convert h.dispensed using 1
    funext j
    by_cases he : j = i
    · subst he
      rw [Function.update_self, ht]
    · rw [Function.update_of_ne he]
  principal j hj := by
    by_cases he : j = i
    · exact he ▸ hi
    · rw [Function.update_of_ne he] at hj
      exact h.principal j hj
  task j m b hj := by
    by_cases he : j = i
    · subst he
      rw [Function.update_self] at hj
      exact hx m b hj
    · rw [Function.update_of_ne he] at hj
      exact h.task j m b hj

theorem fetchAdd (h : CallsOk ctor phase count) (hp : phase i = .fetchAdd) :
    CallsOk ctor (Function.update phase i (.compare (count + 1))) (count + 1) where
  dispensed := by
    have hi : i ∈ principals ctor := h.principal i (by rw [hp]; nofun)
    convert h.dispensed.take hi (by rw [hp]; rfl) using 1
    funext j
    by_cases he : j = i
    · subst he
      rw [Function.update_self, Function.update_self]
      rfl
    · rw [Function.update_of_ne he, Function.update_of_ne he]
  principal j hj := by
    by_cases he : j = i
    · exact he ▸ h.principal i (by rw [hp]; nofun)
    · rw [Function.update_of_ne he] at hj
      exact h.principal j hj
  task j m b hj := by
    by_cases he : j = i
    · subst he
      rw [Function.update_self] at hj
      cases hj
    · rw [Function.update_of_ne he] at hj
      exact h.task j m b hj

theorem last_of_task (h : CallsOk ctor phase count) (hi : phase i = .returned m true) :
    (phase i).ticket = some (principals ctor).card := by
  rw [card_principals, ← of_decide_eq_true (h.task i m true hi).symm, hi]
  rfl

theorem unique (h : CallsOk ctor phase count) (hi : phase i = .returned m true)
    (hj : phase j = .returned l true) : i = j :=
  h.dispensed.inj (h.last_of_task hi) (h.last_of_task hj)

theorem counted (h : CallsOk ctor phase count) (hi : phase i = .returned m true) :
    ∀ j ∈ principals ctor, (phase j).ticket.isSome :=
  h.dispensed.all_of_last (h.last_of_task hi)

theorem existsUnique (h : CallsOk ctor phase count) (hc : 0 < ctor.principalPortCount)
    (hr : ∀ i, ctor.IsPrincipal i → ∃ m b, phase i = .returned m b) :
    ∃! i, ∃ m, phase i = .returned m true := by
  rw [← card_principals] at hc
  have ha : ∀ i ∈ principals ctor, (phase i).ticket.isSome := by
    intro i hi
    obtain ⟨m, b, hb⟩ := hr i (mem_principals.mp hi)
    rw [hb]
    rfl
  obtain ⟨i, hi, -⟩ := h.dispensed.existsUnique_last (Finset.card_pos.mp hc) ha
  obtain ⟨m, b, hb⟩ := hr i (mem_principals.mp (h.dispensed.mem hi))
  rw [hb, card_principals] at hi
  have hm : m = ctor.principalPortCount := Option.some.inj hi
  have ht : b = true := by rw [h.task i m b hb, hm, decide_eq_true_eq]
  subst ht
  exact ⟨i, ⟨m, hb⟩, fun j ⟨l, hj⟩ => h.unique hj hb⟩

end CallsOk

def Fired (phase : ℕ → Phase) : Prop := ∃ i m, phase i = .returned m true

theorem fired_update {phase : ℕ → Phase} {i : ℕ} {x : Phase} (hi : ∀ m, phase i ≠ .returned m true)
    (hx : ∀ m, x ≠ .returned m true) : Fired (Function.update phase i x) ↔ Fired phase := by
  constructor
  · rintro ⟨j, m, hj⟩
    by_cases he : j = i
    · subst he
      rw [Function.update_self] at hj
      exact (hx m hj).elim
    · rw [Function.update_of_ne he] at hj
      exact ⟨j, m, hj⟩
  · rintro ⟨j, m, hj⟩
    refine ⟨j, m, ?_⟩
    rw [Function.update_of_ne, hj]
    rintro rfl
    exact hi m hj

/-- What a worker has done with the values of a use. -/
def HandlerOk (use : Use) (inputs outputs : ℕ) : Handler → Prop
  | .inputs i o count stack => i = inputs ∧ o = outputs ∧ count ≤ inputs ∧
    ∃ base, stack = (use.ports.take count).reverse ++ base
  | .outputs i o received results stack connected => i = inputs ∧ o = outputs ∧
    received = use.ports.take inputs ∧ results.length = outputs ∧ connected.length ≤ outputs ∧
    (∃ base, stack = (results.take (outputs - connected.length)).reverse ++ base) ∧
    connected = (use.ports.drop (inputs + (outputs - connected.length))).zip
      (results.drop (outputs - connected.length))

/-- The node in its current use: the calls that deliver its arguments, the tasks that they
have returned and the workers that handle one. -/
structure InUse (P : Program) (use : Use) (ctor : NodeCtor) (inputs outputs : ℕ) (node : Node)
    (phase : ℕ → Phase) (tasks : ℕ) (handlers : List Handler) : Prop where
  used : node.ctor = some use.ctor
  primitive : primitiveCtor P use.ctor = some (ctor, inputs, outputs)
  arity : ctor.arity = inputs + outputs
  length : use.ports.length = ctor.arity
  ordinary : ∀ i v, node.valueArray.get i = some v → ¬ ctor.IsPrincipal i → use.ports[i]? = some v
  started : ∀ i, phase i ≠ .idle → (node.valueArray.get i).isSome
  arrived : ∀ i, phase i = .fetchAdd ∨ (phase i).ticket.isSome →
    node.valueArray.get i = use.ports[i]?
  calls : CallsOk ctor phase node.primitiveArgCount
  fired : (tasks + handlers.length = 1 ∧ Fired phase) ∨ (tasks = 0 ∧ handlers = [] ∧ ¬ Fired phase)
  full : handlers ≠ [] → (∀ i < ctor.arity, node.valueArray.get i = use.ports[i]?) ∧
    ∀ i, (phase i).inProgress = false
  handled : ∀ h ∈ handlers, HandlerOk use inputs outputs h

def State.InUse (P : Program) (s : State) (use : Use) (ctor : NodeCtor) (inputs outputs : ℕ) : Prop :=
  CollectPrimitiveArg.InUse P use ctor inputs outputs s.node (s.calls s.current) s.tasks s.handlers

/-- A handled task has passed on the values of its use by position. -/
def FireOk (P : Program) (uses : List Use) (f : Fire) : Prop :=
  ∃ use ctor inputs outputs, uses[f.use]? = some use ∧
    primitiveCtor P use.ctor = some (ctor, inputs, outputs) ∧ f.received = use.ports.take inputs ∧
      f.results.length = outputs ∧ f.connected = (use.ports.drop inputs).zip f.results

def Over (P : Program) (phase : ℕ → Phase) (use : Use) : Prop :=
  (∃ ctor inputs outputs count, primitiveCtor P use.ctor = some (ctor, inputs, outputs) ∧
    CallsOk ctor phase count) ∧ ∀ i, (phase i).inProgress = false

structure Inv (P : Program) (s : State) : Prop where
  idle : ∀ u, s.uses.length ≤ u → ∀ i, s.calls u i = .idle
  ended : ∀ u use, s.uses[u]? = some use → (s.node.ctor = none ∨ u + 1 < s.uses.length) →
    Over P (s.calls u) use
  free : s.node.ctor = none → s.node = ⟨none, [], 0⟩ ∧ s.tasks = 0 ∧ s.handlers = []
  inUse : s.node.ctor ≠ none → ∃ use ctor inputs outputs, s.uses.getLast? = some use ∧
    s.InUse P use ctor inputs outputs
  fires : s.fires.map (·.use) = List.range (s.uses.length - if s.node.ctor.isSome then 1 else 0)
  positions : ∀ f ∈ s.fires, FireOk P s.uses f

variable {P : Program} {s t : State} {use : Use} {ctor : NodeCtor} {inputs outputs i j u m : ℕ}

theorem nodeCtor_of_primitiveCtor {c : ℕ} (h : primitiveCtor P c = some (ctor, inputs, outputs)) :
    P.nodeCtor c = some ctor := by
  obtain ⟨d, hd, h⟩ := Option.bind_eq_some_iff.mp h
  obtain ⟨p, -, h⟩ := Option.bind_eq_some_iff.mp h
  cases p with
  | apply arity => cases h; exact hd
  | primitive k =>
    obtain ⟨q, -, h⟩ := Option.bind_eq_some_iff.mp h
    cases h
    exact hd

theorem getLast?_current (h : s.uses.getLast? = some use) :
    s.uses[s.current]? = some use := by
  rw [State.current, ← List.getLast?_eq_getElem?]
  exact h

theorem Inv.start : Inv P {} where
  idle _ _ _ := rfl
  ended u use h := by simp at h
  free _ := ⟨rfl, rfl, rfl⟩
  inUse h := (h rfl).elim
  fires := rfl
  positions f hf := by simp at hf

/-- A step inside of a use changes neither the other uses nor what is over. -/
theorem Inv.within (h : Inv P s) (hl : s.uses.getLast? = some use) (hu : t.uses = s.uses)
    (hc : t.node.ctor ≠ none) (hs : s.node.ctor ≠ none) (hf : t.fires = s.fires)
    (hcalls : ∀ u, u ≠ s.current → t.calls u = s.calls u)
    (ht : t.InUse P use ctor inputs outputs) : Inv P t where
  idle u hlen i := by
    rw [hu] at hlen
    have hpos : s.uses ≠ [] := by
      rintro he
      rw [he] at hl
      cases hl
    have := List.length_pos_iff.mpr hpos
    rw [hcalls u (by unfold State.current; omega)]
    exact h.idle u hlen i
  ended u use' hu' hlt := by
    rw [hu] at hu' hlt
    have hlt : u + 1 < s.uses.length := hlt.resolve_left hc
    rw [hcalls u (by unfold State.current; omega)]
    exact h.ended u use' hu' (.inr hlt)
  free hn := (hc hn).elim
  inUse _ := ⟨use, ctor, inputs, outputs, hu ▸ hl, ht⟩
  fires := by
    rw [hf, hu, h.fires]
    obtain ⟨c, hc⟩ := Option.ne_none_iff_exists'.mp hc
    obtain ⟨d, hd⟩ := Option.ne_none_iff_exists'.mp hs
    rw [hc, hd]
    rfl
  positions f hm := by
    rw [hf] at hm
    rw [hu]
    exact h.positions f hm

namespace InUse

variable {node : Node} {phase : ℕ → Phase} {tasks : ℕ} {handlers : List Handler}

/-- As long as a call has not returned, no worker handles a task. -/
theorem handlers_eq_nil (h : InUse P use ctor inputs outputs node phase tasks handlers)
    (hi : i ∈ principals ctor) (hp : (phase i).ticket = none ∨ (phase i).inProgress = true) :
    handlers = [] := by
  by_contra hn
  have hf := (h.full hn).2 i
  rcases hp with hp | hp
  · rcases h.fired with ⟨-, j, m, hj⟩ | ⟨-, hn', -⟩
    · have := h.calls.counted hj i hi
      rw [hp] at this
      cases this
    · exact hn hn'
  · rw [hf] at hp
    cases hp

theorem setPort (h : InUse P use ctor inputs outputs node phase tasks handlers) {info : PortInfo}
    {v : Value} (hinfo : ctor.portInfos[i]? = some info) (hv : use.ports[i]? = some v)
    (hn : node.valueArray.get i = none) :
    InUse P use ctor inputs outputs
      { node with
        valueArray := node.valueArray.set i
          (some (if info.isPrincipal then .principalWire i else v)) } phase tasks handlers :=
  { h with
    ordinary := by
      intro j x hj hp
      rw [Slots.get_set] at hj
      split at hj
      · subst j
        have hf : ¬ info.isPrincipal = true := fun ht => hp ⟨info, hinfo, ht⟩
        rw [if_neg hf] at hj
        exact hj ▸ hv
      · exact h.ordinary j x hj hp
    started := by
      intro j hj
      rw [Slots.get_set]
      split
      · rfl
      · exact h.started j hj
    arrived := by
      intro j hj
      have hne : i ≠ j := by
        rintro rfl
        have := h.started i (by rintro he; rw [he] at hj; rcases hj with hj | hj <;> cases hj)
        rw [hn] at this
        cases this
      rw [Slots.get_set_ne hne]
      exact h.arrived j hj
    full := by
      intro hh
      have := (h.full hh).1 i (List.getElem?_eq_some_iff.mp hinfo).1
      rw [hn, hv] at this
      cases this }

theorem startCall (h : InUse P use ctor inputs outputs node phase tasks handlers)
    (hi : ctor.IsPrincipal i) (hs : (node.valueArray.get i).isSome) (hp : phase i = .idle) :
    InUse P use ctor inputs outputs node (Function.update phase i .setValue) tasks handlers := by
  have hnil := h.handlers_eq_nil (mem_principals.mpr hi) (.inl (by rw [hp]; rfl))
  have hn : ∀ m, phase i ≠ .returned m true := by rw [hp]; nofun
  exact { h with
    started := by
      intro j hj
      by_cases he : j = i
      · exact he ▸ hs
      · rw [Function.update_of_ne he] at hj
        exact h.started j hj
    arrived := by
      intro j hj
      by_cases he : j = i
      · subst he
        rw [Function.update_self] at hj
        rcases hj with hj | hj <;> cases hj
      · rw [Function.update_of_ne he] at hj
        exact h.arrived j hj
    calls := h.calls.update (by rw [hp]; rfl) (mem_principals.mpr hi) nofun
    fired := by
      rw [fired_update hn (x := .setValue) nofun]
      exact h.fired
    full := fun hh => (hh hnil).elim }

theorem setValue (h : InUse P use ctor inputs outputs node phase tasks handlers) {v : Value}
    (hp : phase i = .setValue) (hv : use.ports[i]? = some v) :
    InUse P use ctor inputs outputs
      { node with valueArray := node.valueArray.set i (some v) }
      (Function.update phase i .fetchAdd) tasks handlers := by
  have hi := h.calls.principal i (by rw [hp]; nofun)
  have hnil := h.handlers_eq_nil hi (.inl (by rw [hp]; rfl))
  have hn : ∀ m, phase i ≠ .returned m true := by rw [hp]; nofun
  exact { h with
    ordinary := by
      intro j x hj hx
      have hne : i ≠ j := fun he => hx (he ▸ mem_principals.mp hi)
      rw [Slots.get_set_ne hne] at hj
      exact h.ordinary j x hj hx
    started := by
      intro j hj
      rw [Slots.get_set]
      split
      · rfl
      · rename_i hne
        rw [Function.update_of_ne (Ne.symm hne)] at hj
        exact h.started j hj
    arrived := by
      intro j hj
      rw [Slots.get_set]
      split
      · subst j
        exact hv.symm
      · rename_i hne
        rw [Function.update_of_ne (Ne.symm hne)] at hj
        exact h.arrived j hj
    calls := h.calls.update (by rw [hp]; rfl) hi nofun
    fired := by
      rw [fired_update hn (x := .fetchAdd) nofun]
      exact h.fired
    full := fun hh => (hh hnil).elim }

theorem fetchAdd (h : InUse P use ctor inputs outputs node phase tasks handlers)
    (hp : phase i = .fetchAdd) :
    InUse P use ctor inputs outputs
      { node with primitiveArgCount := node.primitiveArgCount + 1 }
      (Function.update phase i (.compare (node.primitiveArgCount + 1))) tasks handlers := by
  have hi := h.calls.principal i (by rw [hp]; nofun)
  have hnil := h.handlers_eq_nil hi (.inl (by rw [hp]; rfl))
  have hn : ∀ m, phase i ≠ .returned m true := by rw [hp]; nofun
  exact { h with
    started := by
      intro j hj
      by_cases he : j = i
      · exact he ▸ h.started i (by rw [hp]; nofun)
      · rw [Function.update_of_ne he] at hj
        exact h.started j hj
    arrived := by
      intro j hj
      by_cases he : j = i
      · exact he ▸ h.arrived i (.inl hp)
      · rw [Function.update_of_ne he] at hj
        exact h.arrived j hj
    calls := h.calls.fetchAdd hp
    fired := by
      rw [fired_update hn (x := .compare (node.primitiveArgCount + 1)) nofun]
      exact h.fired
    full := fun hh => (hh hnil).elim }

/-- Only the call that has the last ticket returns a task, and it is the first to do so. -/
theorem compare (h : InUse P use ctor inputs outputs node phase tasks handlers)
    (hp : phase i = .compare m) :
    InUse P use ctor inputs outputs node
      (Function.update phase i (.returned m (m = ctor.principalPortCount)))
      (tasks + (decide (m = ctor.principalPortCount)).toNat) handlers := by
  have hi := h.calls.principal i (by rw [hp]; nofun)
  have hnil := h.handlers_eq_nil hi (.inr (by rw [hp]; rfl))
  have hn : ∀ m, phase i ≠ .returned m true := by rw [hp]; nofun
  exact { h with
    started := by
      intro j hj
      by_cases he : j = i
      · exact he ▸ h.started i (by rw [hp]; nofun)
      · rw [Function.update_of_ne he] at hj
        exact h.started j hj
    arrived := by
      intro j hj
      by_cases he : j = i
      · exact he ▸ h.arrived i (.inr (by rw [hp]; rfl))
      · rw [Function.update_of_ne he] at hj
        exact h.arrived j hj
    calls := h.calls.update (by rw [hp]; rfl) hi (by rintro _ _ ⟨⟩; rfl)
    fired := by
      by_cases hm : m = ctor.principalPortCount
      · left
        have hf : ¬ Fired phase := by
          rintro ⟨j, l, hj⟩
          have hlast : (phase i).ticket = some (principals ctor).card := by
            rw [hp, card_principals, ← hm]
            rfl
          obtain rfl := h.calls.dispensed.inj (h.calls.last_of_task hj) hlast
          rw [hp] at hj
          cases hj
        obtain ⟨ht, hh, -⟩ := h.fired.resolve_left fun hx => hf hx.2
        refine ⟨by simp [ht, hh, hm], i, m, ?_⟩
        rw [Function.update_self, decide_eq_true hm]
      · rw [decide_eq_false hm, fired_update hn (x := .returned m false) nofun]
        exact h.fired
    full := fun hh => (hh hnil).elim }

/-- All arguments have arrived once a task has been returned. -/
theorem collected (h : InUse P use ctor inputs outputs node phase tasks handlers)
    (hf : Fired phase) (hi : ctor.IsPrincipal i) :
    ∃ v, use.ports[i]? = some v ∧ node.valueArray.get i = some v := by
  obtain ⟨j, m, hj⟩ := hf
  have ha := h.arrived i (.inr (h.calls.counted hj i (mem_principals.mpr hi)))
  obtain ⟨info, hinfo, -⟩ := hi
  have hlt : i < use.ports.length := h.length ▸ (List.getElem?_eq_some_iff.mp hinfo).1
  exact ⟨use.ports[i], List.getElem?_eq_getElem hlt, by rw [ha, List.getElem?_eq_getElem hlt]⟩

theorem take (h : InUse P use ctor inputs outputs node phase tasks handlers) (ht : 0 < tasks)
    (hs : ∀ i < ctor.arity, (node.valueArray.get i).isSome ∧ (phase i).inProgress = false)
    (stack : List Value) :
    InUse P use ctor inputs outputs node phase (tasks - 1)
      (handlers ++ [.inputs inputs outputs 0 stack]) := by
  obtain ⟨hcount, hf⟩ := h.fired.resolve_right fun hx => ht.ne' hx.1
  have hnil : handlers = [] := List.length_eq_zero_iff.mp (by omega)
  subst hnil
  exact { h with
    fired := .inl ⟨by simp only [List.length_nil] at hcount; simp; omega, hf⟩
    full := by
      intro _
      constructor
      · intro i hi
        by_cases hp : ctor.IsPrincipal i
        · obtain ⟨v, hv, hg⟩ := h.collected hf hp
          rw [hv, hg]
        · obtain ⟨v, hv⟩ := Option.isSome_iff_exists.mp (hs i hi).1
          rw [hv, h.ordinary i v hv hp]
      · intro i
        by_cases hi : i < ctor.arity
        · exact (hs i hi).2
        · by_cases he : phase i = .idle
          · rw [he]
            rfl
          · obtain ⟨info, hinfo, -⟩ := mem_principals.mp (h.calls.principal i he)
            exact (hi (List.getElem?_eq_some_iff.mp hinfo).1).elim
    handled := by
      intro x hx
      rw [List.nil_append, List.mem_singleton] at hx
      subst hx
      exact ⟨rfl, rfl, Nat.zero_le _, stack, rfl⟩ }

theorem setHandler (h : InUse P use ctor inputs outputs node phase tasks handlers) {x : Handler}
    (hx : HandlerOk use inputs outputs x) :
    InUse P use ctor inputs outputs node phase tasks (handlers.set j x) := by
  exact { h with
    fired := by
      rw [List.length_set, List.set_eq_nil_iff]
      exact h.fired
    full := fun hn => h.full fun he => hn (by rw [he, List.set_nil])
    handled := by
      intro y hy
      rcases List.mem_or_eq_of_mem_set hy with hy | rfl
      · exact h.handled y hy
      · exact hx }

end InUse

section Handler

variable {i o count : ℕ} {v : Value} {received results stack : List Value}
  {connected : List (Value × Value)}

theorem HandlerOk.read (h : HandlerOk use inputs outputs (.inputs i o count stack))
    (hc : count < i) (hv : use.ports[count]? = some v) :
    HandlerOk use inputs outputs (.inputs i o (count + 1) (v :: stack)) := by
  obtain ⟨rfl, rfl, -, base, rfl⟩ := h
  refine ⟨rfl, rfl, hc, base, ?_⟩
  rw [List.take_add_one, hv]
  simp

/-- The primitive receives what was read, in the order of the ports. -/
theorem HandlerOk.apply (h : HandlerOk use inputs outputs (.inputs i o i stack))
    (hl : use.ports.length = inputs + outputs) (hr : results.length = outputs) :
    HandlerOk use inputs outputs (.outputs i o (stack.take i).reverse results
      (results.reverse ++ stack.drop i) []) := by
  obtain ⟨rfl, rfl, -, base, rfl⟩ := h
  have hlen : (use.ports.take i).reverse.length = i := by
    rw [List.length_reverse, List.length_take]
    omega
  refine ⟨rfl, rfl, ?_, hr, Nat.zero_le _, ⟨base, ?_⟩, ?_⟩
  · rw [List.take_left' hlen, List.reverse_reverse]
  · rw [List.drop_left' hlen, List.length_nil, Nat.sub_zero, ← hr, List.take_length]
  · rw [List.length_nil, Nat.sub_zero, ← hr, List.drop_length, List.zip_nil_right]

theorem HandlerOk.write {result : Value}
    (h : HandlerOk use inputs outputs (.outputs i o received results (result :: stack) connected))
    (hc : connected.length < o) (hv : use.ports[i + o - 1 - connected.length]? = some v) :
    HandlerOk use inputs outputs
      (.outputs i o received results stack ((v, result) :: connected)) := by
  obtain ⟨rfl, rfl, hrec, hr, -, ⟨base, hs⟩, hconn⟩ := h
  obtain ⟨m, hm⟩ : ∃ m, o - connected.length = m + 1 := ⟨o - connected.length - 1, by omega⟩
  have hm' : o - (connected.length + 1) = m := by omega
  have hport : i + o - 1 - connected.length = i + m := by omega
  have hlt : m < results.length := by omega
  rw [hport] at hv
  obtain ⟨hlv, rfl⟩ := List.getElem?_eq_some_iff.mp hv
  rw [hm, List.take_succ_eq_append_getElem hlt, List.reverse_append, List.reverse_singleton,
    List.singleton_append, List.cons_append, List.cons.injEq] at hs
  obtain ⟨rfl, rfl⟩ := hs
  refine ⟨rfl, rfl, hrec, hr, hc, ⟨base, ?_⟩, ?_⟩
  · rw [List.length_cons, hm']
  · rw [List.length_cons, hm', List.drop_eq_getElem_cons hlv, List.drop_eq_getElem_cons hlt,
      List.zip_cons_cons, add_assoc]
    rw [hm] at hconn
    rw [← hconn]

theorem HandlerOk.done
    (h : HandlerOk use inputs outputs (.outputs i o received results stack connected))
    (hc : connected.length = o) : received = use.ports.take inputs ∧ results.length = outputs ∧
      connected = (use.ports.drop inputs).zip results := by
  obtain ⟨rfl, rfl, hrec, hr, -, -, hconn⟩ := h
  rw [hc, Nat.sub_self, Nat.add_zero, List.drop_zero] at hconn
  exact ⟨hrec, hr, hconn⟩

end Handler

namespace Inv

theorem newNode (h : Inv P s) (ht : s.newNode P use = some t) : Inv P t := by
  obtain ⟨⟨ctor, inputs, outputs⟩, hp, ht⟩ := Option.bind_eq_some_iff.mp ht
  dsimp only at ht
  split at ht
  · rename_i hc
    cases ht
    obtain ⟨hn, hl, ha⟩ := hc
    obtain ⟨hnode, htasks, hhandlers⟩ := h.free hn
    have hcur : s.uses.length = ({ s with
        node := { s.node with ctor := some use.ctor }, uses := s.uses ++ [use] } : State).current := by
      simp [State.current]
    have hidle : s.calls s.uses.length = fun _ => .idle := funext (h.idle _ le_rfl)
    constructor
    · intro u hu
      rw [List.length_append] at hu
      exact h.idle u (by omega)
    · intro u use' hu hlt
      rw [List.length_append, List.length_singleton] at hlt
      have hlt : u < s.uses.length := by
        have := hlt.resolve_left nofun
        omega
      rw [List.getElem?_append_left hlt] at hu
      exact h.ended u use' hu (.inl hn)
    · nofun
    · intro _
      refine ⟨use, ctor, inputs, outputs, List.getLast?_concat .., ?_⟩
      unfold State.InUse
      rw [← hcur]
      dsimp only
      rw [hidle, hnode, htasks, hhandlers]
      exact {
        used := rfl
        primitive := hp
        arity := ha
        length := hl
        ordinary := nofun
        started := fun _ hi => (hi rfl).elim
        arrived := by rintro i (hi | hi) <;> cases hi
        calls := .start
        fired := .inr ⟨rfl, rfl, by rintro ⟨i, m, hi⟩; cases hi⟩
        full := fun hn => (hn rfl).elim
        handled := nofun }
    · have := h.fires
      rw [hn] at this
      rw [List.length_append]
      exact this
    · intro f hf
      obtain ⟨use', ctor', i, o, hu, hr⟩ := h.positions f hf
      refine ⟨use', ctor', i, o, ?_, hr⟩
      rw [List.getElem?_append_left (List.getElem?_eq_some_iff.mp hu).1]
      exact hu
  · cases ht

theorem inUse_setCall {t : State} {x : Phase}
    (h : CollectPrimitiveArg.InUse P use ctor inputs outputs t.node
      (Function.update (t.calls t.current) i x) t.tasks t.handlers) :
    (t.setCall t.current i x).InUse P use ctor inputs outputs := by
  change CollectPrimitiveArg.InUse P use ctor inputs outputs t.node
    (Function.update t.calls t.current (Function.update (t.calls t.current) i x) t.current) _ _
  rw [Function.update_self]
  exact h

theorem exists_inUse (h : Inv P s) {c : ℕ} (hc : s.node.ctor = some c) :
    ∃ use ctor inputs outputs, s.uses.getLast? = some use ∧
      P.nodeCtor c = some ctor ∧ s.InUse P use ctor inputs outputs := by
  obtain ⟨use, ctor, inputs, outputs, hl, hi⟩ := h.inUse (by rw [hc]; nofun)
  obtain rfl : c = use.ctor := Option.some.inj (hc.symm.trans hi.used)
  exact ⟨use, ctor, inputs, outputs, hl, nodeCtor_of_primitiveCtor hi.primitive, hi⟩

/-- Only calls for the current use are under way. -/
theorem current_of_inProgress (h : Inv P s) (hp : (s.calls u i).inProgress = true) :
    ∃ c, s.node.ctor = some c ∧ u = s.current := by
  have hlt : u < s.uses.length := by
    by_contra hn
    rw [h.idle u (Nat.le_of_not_lt hn) i] at hp
    cases hp
  have hover : ¬ (s.node.ctor = none ∨ u + 1 < s.uses.length) := by
    intro hn
    have := (h.ended u _ (List.getElem?_eq_getElem hlt) hn).2 i
    rw [hp] at this
    cases this
  rw [not_or] at hover
  obtain ⟨c, hc⟩ := Option.ne_none_iff_exists'.mp hover.1
  refine ⟨c, hc, ?_⟩
  unfold State.current
  omega

theorem setPort (h : Inv P s) (ht : s.setPort P i = some t) : Inv P t := by
  obtain ⟨c, hc, ht⟩ := Option.bind_eq_some_iff.mp ht
  obtain ⟨ctor', hctor, ht⟩ := Option.bind_eq_some_iff.mp ht
  obtain ⟨info, hinfo, ht⟩ := Option.bind_eq_some_iff.mp ht
  obtain ⟨use', hu, ht⟩ := Option.bind_eq_some_iff.mp ht
  obtain ⟨v, hv, ht⟩ := Option.bind_eq_some_iff.mp ht
  obtain ⟨use, ctor, inputs, outputs, hl, hn, hi⟩ := h.exists_inUse hc
  obtain rfl := Option.some.inj (hctor.symm.trans hn)
  obtain rfl := Option.some.inj (hu.symm.trans hl)
  split at ht
  · rename_i hnone
    cases ht
    exact h.within hl rfl (by rw [State.setValue, hc]; nofun) (by rw [hc]; nofun) rfl
      (fun _ _ => rfl) (InUse.setPort hi hinfo hv hnone)
  · cases ht

theorem connect (h : Inv P s) (ht : s.connect P i = some t) : Inv P t := by
  obtain ⟨c, hc, ht⟩ := Option.bind_eq_some_iff.mp ht
  obtain ⟨ctor', hctor, ht⟩ := Option.bind_eq_some_iff.mp ht
  obtain ⟨info, hinfo, ht⟩ := Option.bind_eq_some_iff.mp ht
  obtain ⟨use, ctor, inputs, outputs, hl, hn, hi⟩ := h.exists_inUse hc
  obtain rfl := Option.some.inj (hctor.symm.trans hn)
  split at ht
  · rename_i hg
    cases ht
    exact h.within hl rfl (by rw [State.setCall, hc]; nofun) (by rw [hc]; nofun) rfl
      (fun u hu => Function.update_of_ne hu _ _)
      (inUse_setCall (InUse.startCall hi ⟨info, hinfo, hg.1⟩ hg.2.1 hg.2.2))
  · cases ht

theorem next (h : Inv P s) (ht : s.next P u i = some t) : Inv P t := by
  have hprog : (s.calls u i).inProgress = true := by
    unfold State.next at ht
    cases hp : s.calls u i <;> rw [hp] at ht
    · cases ht
    · rfl
    · rfl
    · rfl
    · cases ht
  obtain ⟨c, hc, rfl⟩ := h.current_of_inProgress hprog
  obtain ⟨use, ctor, inputs, outputs, hl, hn, hi⟩ := h.exists_inUse hc
  have hother : ∀ (x : Phase) (t : State), t.calls = s.calls →
      ∀ u, u ≠ s.current → (t.setCall s.current i x).calls u = s.calls u := by
    intro x t ht u hu
    change Function.update t.calls s.current _ u = _
    rw [Function.update_of_ne hu, ht]
  unfold State.next at ht
  cases hp : s.calls s.current i with
  | idle => rw [hp] at ht; cases ht
  | returned m b => rw [hp] at ht; cases ht
  | setValue =>
    rw [hp] at ht
    obtain ⟨use', hu, ht⟩ := Option.bind_eq_some_iff.mp ht
    obtain ⟨v, hv, ht⟩ := Option.bind_eq_some_iff.mp ht
    obtain rfl := Option.some.inj (hu.symm.trans (getLast?_current hl))
    cases ht
    exact h.within hl rfl (by rw [State.setCall, State.setValue, hc]; nofun) (by rw [hc]; nofun) rfl
      (hother _ _ rfl)
      (inUse_setCall (InUse.setValue hi hp hv))
  | fetchAdd =>
    rw [hp] at ht
    cases ht
    exact h.within hl rfl (by rw [State.setCall, hc]; nofun) (by rw [hc]; nofun) rfl
      (hother _ _ rfl)
      (inUse_setCall (InUse.fetchAdd hi hp))
  | compare m =>
    rw [hp] at ht
    obtain ⟨c', hc', ht⟩ := Option.bind_eq_some_iff.mp ht
    obtain ⟨ctor', hctor', ht⟩ := Option.bind_eq_some_iff.mp ht
    obtain rfl := Option.some.inj (hc'.symm.trans hc)
    obtain rfl := Option.some.inj (hctor'.symm.trans hn)
    cases ht
    exact h.within hl rfl (by rw [State.setCall, hc]; nofun) (by rw [hc]; nofun) rfl
      (hother _ _ rfl)
      (inUse_setCall (InUse.compare hi hp))

theorem handle (h : Inv P s) {stack : List Value} (hr : ready P s) (ht : s.handle P stack = some t) :
    Inv P t := by
  obtain ⟨c, hc, ht⟩ := Option.bind_eq_some_iff.mp ht
  obtain ⟨⟨ctor', i, o⟩, hp, ht⟩ := Option.bind_eq_some_iff.mp ht
  obtain ⟨use, ctor, inputs, outputs, hl, hn, hi⟩ := h.exists_inUse hc
  have hcu : c = use.ctor := Option.some.inj (hc.symm.trans hi.used)
  rw [hcu, hi.primitive] at hp
  cases hp
  unfold ready at hr
  rw [hc, Option.bind_some, hn] at hr
  simp only [List.all_eq_true, List.mem_range, Bool.and_eq_true, Bool.not_eq_true'] at hr
  dsimp only at ht
  split at ht
  · rename_i hpos
    cases ht
    exact h.within hl rfl (by rw [hc]; nofun) (by rw [hc]; nofun) rfl (fun _ _ => rfl)
      (InUse.take hi hpos hr stack)
  · cases ht

theorem setHandler (h : Inv P s) {x y : Handler} (hj : s.handlers[j]? = some x)
    (hy : ∀ use ctor inputs outputs, P.nodeCtor use.ctor = some ctor →
      use.ports.length = inputs + outputs →
      (∀ i v, s.node.valueArray.get i = some v → i < inputs + outputs → use.ports[i]? = some v) →
      HandlerOk use inputs outputs x → HandlerOk use inputs outputs y) :
    Inv P (s.setHandler j y) := by
  have hm := List.mem_of_getElem? hj
  have hc : s.node.ctor ≠ none := by
    intro hn
    rw [(h.free hn).2.2] at hm
    cases hm
  obtain ⟨use, ctor, inputs, outputs, hl, hi⟩ := h.inUse hc
  refine h.within hl rfl hc hc rfl (fun _ _ => rfl) (InUse.setHandler hi ?_)
  apply hy use ctor inputs outputs (nodeCtor_of_primitiveCtor hi.primitive)
    (hi.length.trans hi.arity) ?_ (hi.handled x hm)
  intro i v hv hlt
  rw [← (hi.full (List.ne_nil_of_mem hm)).1 i (hi.arity ▸ hlt), hv]

theorem read (h : Inv P s) (ht : s.read j = some t) : Inv P t := by
  obtain ⟨x, hj, ht⟩ := Option.bind_eq_some_iff.mp ht
  cases x with
  | outputs i o received results stack connected => cases ht
  | inputs i o count stack =>
    obtain ⟨v, hv, ht⟩ := Option.bind_eq_some_iff.mp ht
    split at ht
    · rename_i hlt
      cases ht
      refine h.setHandler hj fun use ctor inputs outputs _ _ hg hx => hx.read hlt (hg _ v hv ?_)
      have := hx.1
      omega
    · cases ht

theorem apply (h : Inv P s) {results : List Value}
    (hr : ∀ i o count stack, s.handlers[j]? = some (.inputs i o count stack) → results.length = o)
    (ht : s.apply P j results = some t) : Inv P t := by
  obtain ⟨c, -, ht⟩ := Option.bind_eq_some_iff.mp ht
  obtain ⟨x, hj, ht⟩ := Option.bind_eq_some_iff.mp ht
  cases x with
  | outputs i o received results stack connected => cases ht
  | inputs i o count stack =>
    dsimp only at ht
    split at ht
    · rename_i hc
      obtain ⟨rfl, -⟩ := hc
      cases ht
      refine h.setHandler hj fun use ctor inputs outputs _ hl _ hx => hx.apply hl ?_
      rw [hr _ _ _ _ hj, hx.2.1]
    · cases ht

theorem write (h : Inv P s) (ht : s.write j = some t) : Inv P t := by
  obtain ⟨x, hj, ht⟩ := Option.bind_eq_some_iff.mp ht
  cases x with
  | inputs i o count stack => cases ht
  | outputs i o received results stack connected =>
    obtain ⟨v, hv, ht⟩ := Option.bind_eq_some_iff.mp ht
    cases stack with
    | nil => cases ht
    | cons result stack =>
      dsimp only at ht
      split at ht
      · rename_i hc
        cases ht
        refine h.setHandler hj fun use ctor inputs outputs _ _ hg hx => hx.write hc.1 (hg _ v hv ?_)
        have := hx.1
        have := hx.2.1
        omega
      · cases ht

theorem recycle (h : Inv P s) (ht : s.recycle j = some t) : Inv P t := by
  obtain ⟨x, hj, ht⟩ := Option.bind_eq_some_iff.mp ht
  cases x with
  | inputs i o count stack => cases ht
  | outputs i o received results stack connected =>
    dsimp only at ht
    split at ht
    · rename_i hc
      cases ht
      have hm := List.mem_of_getElem? hj
      have hne : s.node.ctor ≠ none := by
        intro hn
        rw [(h.free hn).2.2] at hm
        cases hm
      obtain ⟨use, ctor, inputs, outputs, hl, hi⟩ := h.inUse hne
      have hlast := getLast?_current hl
      have hlen : s.current + 1 = s.uses.length := by
        have := (List.getElem?_eq_some_iff.mp hlast).1
        unfold State.current at this ⊢
        omega
      have hone : s.tasks = 0 ∧ s.handlers.length = 1 := by
        have hpos := List.length_pos_of_mem hm
        rcases hi.fired with ⟨hcount, -⟩ | ⟨-, hnil, -⟩
        · omega
        · rw [hnil] at hm
          cases hm
      have hx := hi.handled _ hm
      have hdone := hx.done hc
      constructor
      · exact h.idle
      · intro u use' hu _
        by_cases he : u + 1 < s.uses.length
        · exact h.ended u use' hu (.inr he)
        · have hlt : u < s.uses.length := (List.getElem?_eq_some_iff.mp hu).1
          obtain rfl : u = s.current := by omega
          obtain rfl := Option.some.inj (hlast.symm.trans hu)
          exact ⟨⟨ctor, inputs, outputs, _, hi.primitive, hi.calls⟩,
            (hi.full (List.ne_nil_of_mem hm)).2⟩
      · intro _
        refine ⟨rfl, hone.1, ?_⟩
        rw [← List.length_eq_zero_iff, List.length_eraseIdx, hone.2]
        have := (List.getElem?_eq_some_iff.mp hj).1
        rw [if_pos (by omega)]
      · exact fun hn => (hn rfl).elim
      · obtain ⟨c, hcc⟩ := Option.ne_none_iff_exists'.mp hne
        have hf := h.fires
        rw [hcc] at hf
        dsimp only
        rw [List.map_append, hf, List.map_singleton]
        simp only [Option.isSome_some, if_true, Option.isSome_none, Bool.false_eq_true, if_false,
          Nat.sub_zero]
        rw [← hlen, Nat.add_sub_cancel, List.range_succ]
      · intro f hf
        rcases List.mem_append.mp hf with hf | hf
        · exact h.positions f hf
        · obtain rfl := List.mem_singleton.mp hf
          exact ⟨use, ctor, inputs, outputs, hlast, hi.primitive, hdone⟩
    · cases ht

theorem step (h : Inv P s) {a : Action} (hc : inTurn P s a) (ht : step P s a = some t) : Inv P t := by
  cases a with
  | newNode use => exact h.newNode ht
  | setPort i => exact h.setPort ht
  | connect i => exact h.connect ht
  | next u i => exact h.next ht
  | handle stack => exact h.handle hc ht
  | read j => exact h.read ht
  | apply j results =>
    refine h.apply (fun i o count stack hj => ?_) ht
    simp only [inTurn, hj, decide_eq_true_eq] at hc
    exact hc
  | write j => exact h.write ht
  | recycle j => exact h.recycle ht

theorem exists_callsOk (h : Inv P s) (hu : s.uses[u]? = some use) :
    ∃ ctor count, P.nodeCtor use.ctor = some ctor ∧ CallsOk ctor (s.calls u) count := by
  by_cases ho : s.node.ctor = none ∨ u + 1 < s.uses.length
  · obtain ⟨⟨ctor, inputs, outputs, count, hp, hc⟩, -⟩ := h.ended u use hu ho
    exact ⟨ctor, count, nodeCtor_of_primitiveCtor hp, hc⟩
  · rw [not_or] at ho
    obtain ⟨use', ctor, inputs, outputs, hl, hi⟩ := h.inUse ho.1
    have hlt := (List.getElem?_eq_some_iff.mp hu).1
    obtain rfl : u = s.current := by
      unfold State.current
      omega
    obtain rfl := Option.some.inj ((getLast?_current hl).symm.trans hu)
    exact ⟨ctor, _, nodeCtor_of_primitiveCtor hi.primitive, hi.calls⟩

theorem firesOnce (h : Inv P s) : FiresOnce P s where
  atMostOne u i j m l hi hj := by
    have hu : u < s.uses.length := by
      by_contra hn
      rw [h.idle u (Nat.le_of_not_lt hn)] at hi
      cases hi
    obtain ⟨ctor, count, -, hc⟩ := h.exists_callsOk (List.getElem?_eq_getElem hu)
    exact hc.unique hi hj
  exactlyOne u use ctor hu hn hpos hr := by
    obtain ⟨ctor', count, hn', hc⟩ := h.exists_callsOk hu
    obtain rfl := Option.some.inj (hn.symm.trans hn')
    exact hc.existsUnique hpos hr
  collected use ctor hc hl hn i m hi j hj := by
    obtain ⟨use', ctor', inputs, outputs, hl', hin⟩ := h.inUse (by rw [hc]; nofun)
    obtain rfl := Option.some.inj (hl.symm.trans hl')
    obtain rfl := Option.some.inj (hn.symm.trans (nodeCtor_of_primitiveCtor hin.primitive))
    exact InUse.collected hin ⟨i, m, hi⟩ hj
  fires := h.fires
  positions := h.positions
  clean hn := (h.free hn).1

end Inv

/--
In every run in which a task is taken only once its node is built and the calls that
deliver its arguments have returned, and a primitive leaves a result for each output,
a primitive node fires exactly once in each of its uses, on its own arguments.
-/
theorem firesOnce_of_run
    (h : Transition.Reaches (Transition.restrict (inTurn P) (step P)) {} s) : FiresOnce P s :=
  (h.invariant (fun _ _ _ hs ht =>
    have hc := Transition.restrict_eq_some.mp ht
    hs.step hc.1 hc.2) Inv.start).firesOnce

open NodeLock (adder)

def iaddUse : Use := ⟨4, [.word 2#64, .word 3#64, .wire 0]⟩

def applyUse : Use := ⟨0, [.function 0, .word 5#64, .wire 1]⟩

/-- Both arguments are counted; the call for the second one returns the task. -/
def collectIadd : List Action :=
  [.newNode iaddUse, .setPort 0, .setPort 1, .setPort 2, .connect 0, .connect 1, .next 0 0, .next 0 1,
    .next 0 0, .next 0 1, .next 0 1]

/-- The task is handled and the node recycled. -/
def handleIadd : List Action :=
  [.handle [], .read 0, .read 0, .apply 0 [.word 5#64], .write 0, .recycle 0]

theorem firesOnce_of_run_iadd : ∃ s, Transition.run (Transition.restrict (inTurn adder)
      (step adder)) {} (collectIadd ++ .next 0 0 :: handleIadd ++ [.newNode applyUse]) = some s ∧
    s.fires = [⟨0, [.word 2#64, .word 3#64], [.word 5#64], [(.wire 0, .word 5#64)]⟩] ∧
    FiresOnce adder s := by
  obtain ⟨s, hs, hf⟩ : ∃ s, Transition.run (Transition.restrict (inTurn adder) (step adder)) {}
      (collectIadd ++ .next 0 0 :: handleIadd ++ [.newNode applyUse]) = some s ∧
      s.fires = [⟨0, [.word 2#64, .word 3#64], [.word 5#64], [(.wire 0, .word 5#64)]⟩] :=
    ⟨_, rfl, rfl⟩
  exact ⟨s, hs, hf, firesOnce_of_run (.of_run hs)⟩

/-- The call for the first argument compares its count only when the node is an apply node, which
has a single principal port: both calls return a task. -/
theorem not_firesOnce : ¬ ∀ s, Transition.Reaches (step adder) {} s → FiresOnce adder s := by
  intro h
  obtain ⟨s, hs, hx, hy⟩ : ∃ s, Transition.run (step adder) {}
      (collectIadd ++ handleIadd ++ [.newNode applyUse, .next 0 0]) = some s ∧
      s.calls 0 0 = .returned 1 true ∧ s.calls 0 1 = .returned 2 true := ⟨_, rfl, rfl, rfl⟩
  exact absurd ((h s (.of_run hs)).atMostOne 0 0 1 1 2 hx hy) (by decide)

end InetLisp.CollectPrimitiveArg
