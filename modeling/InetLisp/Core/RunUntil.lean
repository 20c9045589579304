import InetLisp.Core.Apply

/-! # Running compiled functions

A frame is taken off the return stack, one opcode is fetched from it, and it is put
back unless that opcode was its last: a call in last position finds no frame of
the caller below it.
-/

namespace InetLisp

open Lib

namespace Frame

def getVariable (frame : Frame) (i : ℕ) : Except Error (Value × Frame) :=
  match frame.variableArray.get i with
  | none => .error .undefinedVariable
  | some v => .ok (v, { frame with variableArray := frame.variableArray.set i none })

def setVariable (frame : Frame) (i : ℕ) (v : Value) : Except Error Frame :=
  match frame.variableArray.get i with
  | none => .ok { frame with variableArray := frame.variableArray.set i (some v) }
  | some _ => .error .usedVariable

def fetchOpcode (function : Function) (frame : Frame) : Option (Opcode × Frame) :=
  (function.opcodeArray[frame.cursor]?).map fun opcode =>
    (opcode, { frame with cursor := frame.cursor + 1 })

def isFinished (function : Function) (frame : Frame) : Bool :=
  frame.cursor = function.opcodeArray.length

end Frame

/--
`worker_execute_opcode`, which returns the frame as it leaves it and the function
to enter.
-/
def Store.executeOpcode (P : Program) (s : Store) (frame : Frame) :
    Opcode → Except Error (Store × Frame × Option ℕ)
  | .apply arity => do
    let (target, s) ← s.pop
    let (s, f) ← s.applyTarget P target arity
    return (s, frame, f)
  | .literal v => .ok (s.push v, frame, none)
  | .getVariable i => do
    let (v, frame) ← frame.getVariable i
    return (s.push v, frame, none)
  | .setVariable i => do
    let (v, s) ← s.pop
    let frame ← frame.setVariable i v
    return (s, frame, none)

namespace Worker

/-- The frame goes back on the return stack, unless it is finished. -/
def pushUnfinished (w : Worker) (function : Function) (frame : Frame) : Worker :=
  if frame.isFinished function then w else { w with returnStack := frame :: w.returnStack }

def runOneStep (P : Program) (w : Worker) : Except Error Worker :=
  match w.returnStack with
  | [] => .ok w
  | frame :: rest => match P.functions[frame.function]? with
    | none => .error .useAfterFree
    | some function => match frame.fetchOpcode function with
      | none => .ok { w with returnStack := rest }
      | some (opcode, frame) => do
        let (s, frame, f) ← w.executeOpcode P frame opcode
        return (({ toStore := s, returnStack := rest } : Worker).pushUnfinished function frame).enter f

/-- `worker_run_until`, with at most the given number of passes of the loop. -/
def runUntil (P : Program) (returnStackBase : ℕ) : ℕ → Worker → Except Error Worker
  | 0, _ => .error .outOfFuel
  | k + 1, w =>
    if returnStackBase < w.returnStack.length then do
      let w ← w.runOneStep P
      runUntil P returnStackBase k w
    else .ok w

end Worker

end InetLisp
