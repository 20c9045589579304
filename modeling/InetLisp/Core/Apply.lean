import InetLisp.Core.Worker

/-! # Application

What `worker_apply` does with each kind of target. A function is entered by a new
frame; the target of an application may also be a wire, which is followed if it
is fuzed and else gets an apply node.
-/

namespace InetLisp

open Lib

namespace Store

/-- `worker_apply_primitive` -/
def applyPrimitive (P : Program) (w : Store) (primitive : Primitive) : Except Error Store :=
  match primitive.fn with
  | .connect => do
    let (second, w) ← w.pop
    let (first, w) ← w.pop
    w.connect P first second
  | .link =>
    let (wire, net) := w.newWire
    .ok (((w.setNet net).push (.wire wire)).push (.wire wire))
  | .fn f => do
    if w.valueStack.length < primitive.inputArity then
      throw .emptyStack
    let results ← f.run (w.valueStack.take primitive.inputArity).reverse
    return { w with valueStack := results.reverse ++ w.valueStack.drop primitive.inputArity }

/-- `worker_new_node`, then `worker_reconnect_node`. -/
def applyNodeCtor (P : Program) (w : Store) (c arity : ℕ) : Except Error Store :=
  let (n, net) := w.newNode c
  (w.setNet net).reconnectNode P n arity

/--
`worker_apply` on a value that is no wire. A function is not entered yet: the
result says which function the new frame is for. A number that stands for nothing
is no target.
-/
def applyNonWire (P : Program) (w : Store) (target : Value) (arity : ℕ) :
    Except Error (Store × Option ℕ) :=
  match target with
  | .nodeCtor c => match P.nodeCtor c with
    | some _ => do
      let w ← w.applyNodeCtor P c arity
      return (w, none)
    | none => .error .unknownTarget
  | .function f => match P.functions[f]? with
    | some function => if function.arity = arity then .ok (w, some f) else .error .functionArity
    | none => .error .unknownTarget
  | .primitive k => match P.primitives[k]? with
    | some primitive => match primitive.nodeCtor with
      | some c => do
        let w ← w.applyNodeCtor P c arity
        return (w, none)
      | none => do
        if primitive.inputArity ≠ arity then
          throw .primitiveArity
        let w ← w.applyPrimitive P primitive
        return (w, none)
    | none => .error .unknownTarget
  | _ => .error .unknownTarget

/-- `defuze`, with at most the given number of passes of the loop. -/
def defuzeFuel : ℕ → Net → Value → Except Error (Net × Value)
  | 0, _, _ => .error .outOfFuel
  | k + 1, net, .wire w => match net.wires[w]? with
    | some ⟨none, false⟩ => .ok (net, .wire w)
    | some ⟨some v, false⟩ => defuzeFuel k (net.setWire w ⟨some v, true⟩) v
    | _ => .error .useAfterFree
  | _ + 1, net, v => .ok (net, v)

def defuze (net : Net) (v : Value) : Except Error (Net × Value) :=
  defuzeFuel (net.wires.length + 1) net v

/-- `stack_tuck_n` -/
def tuck (w : Store) (v : Value) (n : ℕ) : Except Error Store :=
  if w.valueStack.length < n then .error .emptyStack
  else .ok { w with valueStack := w.valueStack.take n ++ v :: w.valueStack.drop n }

/-- `worker_apply_wire` -/
def applyWire (P : Program) (w : Store) (wire arity : ℕ) : Except Error (Store × Option ℕ) := do
  let (net, defuzed) ← defuze w.toNet (.wire wire)
  let w := w.setNet net
  match defuzed with
  | .wire _ =>
    if ¬ (0 < arity ∧ arity ≤ maxApplyArity) then
      throw .applyArity
    -- The wire that is tucked is the one that was applied, not the one at the end.
    let w ← w.tuck (.wire wire) arity
    let w ← w.applyNodeCtor P (InetLisp.applyNodeCtor arity) (arity + 1)
    return (w, none)
  | defuzed => w.applyNonWire P defuzed arity

/-- `worker_apply`, up to the frame of a function. -/
def applyTarget (P : Program) (w : Store) (target : Value) (arity : ℕ) :
    Except Error (Store × Option ℕ) :=
  match target with
  | .wire wire => w.applyWire P wire arity
  | target => w.applyNonWire P target arity

end Store

namespace Worker

def setStore (w : Worker) (s : Store) : Worker := { w with toStore := s }

/-- Push a new frame for the function, if there is one. -/
def enter (w : Worker) (f : Option ℕ) : Worker :=
  f.elim w fun f => { w with returnStack := { function := f } :: w.returnStack }

def apply (P : Program) (w : Worker) (target : Value) (arity : ℕ) : Except Error Worker := do
  let (s, f) ← w.applyTarget P target arity
  return (w.setStore s).enter f

end Worker

end InetLisp
