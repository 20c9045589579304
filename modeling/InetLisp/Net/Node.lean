import InetLisp.Net.Wire
import InetLisp.Lib.Slots

/-! # Nodes and the net

The net is a heap of wires, principal wires and nodes, addressed by the order of
their allocation. A destroyed principal wire and a recycled node stay in the heap
as dead cells, so a use of one that comes too late is an error of its own.
-/

namespace InetLisp

open Lib

structure PortInfo where
  name : String
  isPrincipal : Bool
  deriving DecidableEq, Repr

def PortInfo.fromName (name : String) : PortInfo :=
  if name.toList.getLast? = some '!' then ⟨String.ofList name.toList.dropLast, true⟩
  else ⟨name, false⟩

structure Rule where
  leftNodeCtor : ℕ
  rightNodeCtor : ℕ
  function : ℕ
  deriving DecidableEq, Repr

/-- The primitive of a node ctor: one of `x_apply1..4`, or one that a module defines. -/
inductive NodePrimitive where
  | apply (arity : ℕ)
  | primitive (k : ℕ)
  deriving DecidableEq, Repr

structure NodeCtor where
  name : String
  portInfos : List PortInfo
  ruleArray : List Rule := []
  primitive : Option NodePrimitive := none
  deriving DecidableEq, Repr

structure PrincipalWire where
  node : ℕ
  index : ℕ
  oppsite : Option ℕ := none
  isDestroyed : Bool := false
  deriving DecidableEq, Repr

/-- `node_t`; `node_clean` leaves a node without ctor. -/
structure Node where
  ctor : Option ℕ
  valueArray : Slots Value := []
  primitiveArgCount : ℕ := 0
  deriving DecidableEq, Repr

structure Net where
  wires : List Wire := []
  principalWires : List PrincipalWire := []
  nodes : List Node := []
  deriving DecidableEq, Repr

/-- How a step can fail. The first two are undefined behaviour, the others are reported. -/
inductive Error where
  /-- A destroyed wire or principal wire, or a recycled node, is used. -/
  | useAfterFree
  /-- A port that was never set is read. -/
  | nullPointer
  | canNotConnect
  | notPrimitiveNode
  | portIndex
  | foundTask
  | emptyStack
  | functionArity
  | primitiveArity
  | unknownTarget
  | applyArity
  | undefinedVariable
  | usedVariable
  | notWire
  | primitiveFn
  /-- The given number of steps was too small. -/
  | outOfFuel
  deriving DecidableEq, Repr

/-- The program stops with a message or a failed assertion. -/
def Error.Reported : Error → Prop
  | .useAfterFree => False
  | .nullPointer => False
  | .outOfFuel => False
  | _ => True

instance : DecidablePred Error.Reported := fun e => by
  cases e <;> first | exact .isTrue trivial | exact .isFalse id

namespace NodeCtor

def arity (c : NodeCtor) : ℕ := c.portInfos.length

def principalPortCount (c : NodeCtor) : ℕ := c.portInfos.countP (·.isPrincipal)

/-- Whether the port with the given index is principal. -/
def IsPrincipal (c : NodeCtor) (i : ℕ) : Prop := ∃ info, c.portInfos[i]? = some info ∧ info.isPrincipal

end NodeCtor

namespace Net

def getPrincipalWire (net : Net) (p : ℕ) : Except Error PrincipalWire :=
  match net.principalWires[p]? with
  | some ⟨n, i, o, false⟩ => .ok ⟨n, i, o, false⟩
  | _ => .error .useAfterFree

/-- `node->ctor`, of a node that is not recycled. -/
def getCtor (net : Net) (n : ℕ) : Except Error ℕ :=
  match net.nodes[n]? with
  | some ⟨some c, _, _⟩ => .ok c
  | _ => .error .useAfterFree

def setWire (net : Net) (w : ℕ) (c : Wire) : Net := { net with wires := net.wires.set w c }

def setPrincipalWire (net : Net) (p : ℕ) (c : PrincipalWire) : Net :=
  { net with principalWires := net.principalWires.set p c }

def setNode (net : Net) (n : ℕ) (c : Node) : Net := { net with nodes := net.nodes.set n c }

/-- `wire_new` -/
def newWire (net : Net) : ℕ × Net := (net.wires.length, { net with wires := net.wires ++ [{}] })

/-- `principal_wire_new` -/
def newPrincipalWire (net : Net) (n i : ℕ) : ℕ × Net :=
  (net.principalWires.length, { net with principalWires := net.principalWires ++ [⟨n, i, none, false⟩] })

/-- `worker_new_node` -/
def newNode (net : Net) (ctor : ℕ) : ℕ × Net :=
  (net.nodes.length, { net with nodes := net.nodes ++ [⟨some ctor, [], 0⟩] })

/-- `node_set_value` -/
def setValue (net : Net) (n i : ℕ) (v : Value) : Except Error Net :=
  match net.nodes[n]? with
  | some ⟨some c, values, count⟩ => .ok (net.setNode n ⟨some c, values.set i (some v), count⟩)
  | _ => .error .useAfterFree

/-- `node_get_value`; a port that was never set has no value to go on with. -/
def getValue (net : Net) (n i : ℕ) : Except Error Value :=
  match net.nodes[n]? with
  | some ⟨some _, values, _⟩ => match values.get i with
    | some v => .ok v
    | none => .error .nullPointer
  | _ => .error .useAfterFree

/-- `principal_wire_destroy` -/
def destroyPrincipalWire (net : Net) (p : ℕ) : Except Error Net :=
  match net.principalWires[p]? with
  | some ⟨n, i, o, false⟩ => .ok (net.setPrincipalWire p ⟨n, i, o, true⟩)
  | _ => .error .useAfterFree

/-- `worker_recycle_node`, with `node_clean`. -/
def recycleNode (net : Net) (n : ℕ) : Except Error Net :=
  match net.nodes[n]? with
  | some ⟨some _, _, _⟩ => .ok (net.setNode n ⟨none, [], 0⟩)
  | _ => .error .useAfterFree

/-- The ctor of every node, and the port of every principal wire. -/
def shape (net : Net) : List (Option ℕ) × List (ℕ × ℕ) :=
  (net.nodes.map Node.ctor, net.principalWires.map fun c => (c.node, c.index))

section Shape

variable {net net' : Net} {n i p c : ℕ} {v : Value}

@[simp] theorem shape_setWire {w : ℕ} {o : Wire} : (net.setWire w o).shape = net.shape := rfl

@[simp] theorem shape_newWire : net.newWire.2.shape = net.shape := rfl

@[simp] theorem shape_newPrincipalWire :
    (net.newPrincipalWire n i).2.shape = (net.shape.1, net.shape.2 ++ [(n, i)]) := by
  simp [shape, newPrincipalWire]

@[simp] theorem shape_newNode : (net.newNode c).2.shape = (net.shape.1 ++ [some c], net.shape.2) := by
  simp [shape, newNode]

theorem shape_setPrincipalWire {o : PrincipalWire} (h : net.principalWires[p]? = some o)
    (o' : PrincipalWire) (hn : o'.node = o.node) (hi : o'.index = o.index) :
    (net.setPrincipalWire p o').shape = net.shape :=
  Prod.ext rfl (Cells.map_set_of_eq h (Prod.ext hn hi))

theorem shape_setNode {o : Node} :
    (net.setNode n o).shape = (net.shape.1.set n o.ctor, net.shape.2) := by
  simp [shape, setNode, List.map_set]

theorem shape_setNode_of_ctor {o : Node} (h : net.nodes[n]? = some o) (o' : Node)
    (hc : o'.ctor = o.ctor) :
    (net.setNode n o').shape = net.shape :=
  Prod.ext (Cells.map_set_of_eq h hc) rfl

theorem getCtor_eq_ok : net.getCtor n = .ok c ↔ net.shape.1[n]? = some (some c) := by
  unfold getCtor
  rw [shape, List.getElem?_map]
  rcases net.nodes[n]? with _ | ⟨_ | c', _, _⟩ <;> simp

theorem getPrincipalWire_eq_ok {o : PrincipalWire} :
    net.getPrincipalWire p = .ok o ↔ net.principalWires[p]? = some o ∧ o.isDestroyed = false := by
  unfold getPrincipalWire
  rcases net.principalWires[p]? with _ | ⟨n, i, o, _ | _⟩ <;> simp
  · rintro rfl; rfl
  · rintro rfl; rfl

theorem shape_setValue (h : net.setValue n i v = .ok net') : net'.shape = net.shape := by
  unfold setValue at h
  split at h
  · rename_i hn
    cases h
    exact shape_setNode_of_ctor hn _ rfl
  · cases h

theorem shape_destroyPrincipalWire (h : net.destroyPrincipalWire p = .ok net') :
    net'.shape = net.shape := by
  unfold destroyPrincipalWire at h
  split at h
  · rename_i hp
    cases h
    exact shape_setPrincipalWire hp _ rfl rfl
  · cases h

theorem shape_recycleNode (h : net.recycleNode n = .ok net') :
    net'.shape = (net.shape.1.set n none, net.shape.2) := by
  unfold recycleNode at h
  split at h
  · cases h; exact shape_setNode
  · cases h

theorem mem_shape_of_getElem {o : PrincipalWire} (h : net.principalWires[p]? = some o) :
    net.shape.2[p]? = some (o.node, o.index) := by
  simp [shape, h]

end Shape

end Net

end InetLisp
