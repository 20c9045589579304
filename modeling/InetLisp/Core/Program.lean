import InetLisp.Net.Node

/-! # Functions, primitives and the program

What is defined does not change while tasks are handled: node ctors with their
rules, compiled functions and primitives, each numbered. The four apply node
ctors come before the defined ones.
-/

namespace InetLisp

open Lib

inductive Opcode where
  | apply (arity : ℕ)
  | literal (value : Value)
  | getVariable (index : ℕ)
  | setVariable (index : ℕ)
  deriving DecidableEq, Repr

/-- `function_t`, without the names that only the compiler uses. -/
structure Function where
  arity : ℕ
  opcodeArray : List Opcode
  deriving DecidableEq, Repr

structure Frame where
  cursor : ℕ := 0
  function : ℕ
  variableArray : Slots Value := []
  deriving DecidableEq, Repr

/-- A function in C from values to values; none of those in the prelude returns a part of a net. -/
structure PureFn where
  run : List Value → Except Error (List Value)
  isNonWire : ∀ {args results}, run args = .ok results → ∀ v ∈ results, v.IsNonWire
  error_eq : ∀ {args e}, run args = .error e → e = .primitiveFn

/-- What a primitive runs. -/
inductive PrimitiveFn where
  /-- `x_connect` -/
  | connect
  /-- `x_link` -/
  | link
  /-- Every other one pops its arguments and pushes its results. -/
  | fn (f : PureFn)

structure Primitive where
  inputArity : ℕ
  outputArity : ℕ
  fn : PrimitiveFn
  nodeCtor : Option ℕ

/-- The largest arity with an apply node. -/
def maxApplyArity : ℕ := 4

/-- The number of the node ctor that `worker_apply_wire` uses for an arity. -/
def applyNodeCtor (arity : ℕ) : ℕ := arity - 1

/-- `initialize_apply_primitives` -/
def applyNodeCtors : List NodeCtor := (List.range maxApplyArity).map fun i =>
  { name := "apply" ++ toString (i + 1)
    portInfos := ⟨"target", true⟩ ::
      (List.range (i + 1)).map (fun j => ⟨"arg" ++ toString (j + 1), false⟩) ++ [⟨"result", false⟩]
    primitive := some (.apply (i + 1)) }

/-- Everything that definitions have put in place. -/
structure Program where
  nodeCtors : List NodeCtor := []
  functions : List Function := []
  primitives : List Primitive := []

namespace Program

def nodeCtor (P : Program) (c : ℕ) : Option NodeCtor := (applyNodeCtors ++ P.nodeCtors)[c]?

/-- The ctor of a node that is not recycled. -/
def getNodeCtor (P : Program) (net : Net) (n : ℕ) : Except Error NodeCtor := do
  let c ← net.getCtor n
  match P.nodeCtor c with
  | some ctor => .ok ctor
  | none => .error .useAfterFree

end Program

end InetLisp
