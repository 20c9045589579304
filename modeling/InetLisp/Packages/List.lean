import InetLisp.Lib.Linked

/-! # Lists

A list is linked in both directions and has a cursor of its own, which is the only way to go
over its values.
-/

namespace InetLisp

open Lib.Linked

universe u

variable {P A : Type u} [DecidableEq P] [DecidableEq A]

/-- What a list does with its values, which are pointers; `none` is `NULL`. -/
structure Callbacks (A : Type*) where
  destroyFn : Bool
  equalFn : Option (Option A → Option A → Bool)

def Callbacks.equal (self : Callbacks A) (nodeValue value : Option A) : Bool :=
  nodeValue = value || match self.equalFn with
    | some equalFn => equalFn nodeValue value
    | none => false

/-- The list, the memory of its nodes, and the values that it has destroyed. -/
structure LinkedList (P A : Type*) where
  first : Option P
  last : Option P
  cursor : Option P
  length : ℕ
  heap : Heap P (Option A)
  destroyed : List (Option A)

namespace LinkedList

/-- `list_new` -/
def new (heap : Heap P (Option A)) : LinkedList P A := ⟨none, none, none, 0, heap, []⟩

/-- The loop of `list_purge`; like every loop over nodes, it is given as many steps as the list
counts nodes. -/
def purgeFrom (callbacks : Callbacks A) : ℕ → Option P → Heap P (Option A) → List (Option A) →
    Option (Heap P (Option A) × List (Option A))
  | _, none, heap, destroyed => some (heap, destroyed)
  | 0, some _, _, _ => none
  | k + 1, some node, heap, destroyed => do
    let cell ← heap node
    purgeFrom callbacks k cell.next (Function.update heap node none)
      (if callbacks.destroyFn then destroyed ++ [cell.value] else destroyed)

def listPurge (callbacks : Callbacks A) (self : LinkedList P A) : Option (LinkedList P A) := do
  let (heap, destroyed) ← purgeFrom callbacks self.length self.first self.heap self.destroyed
  return ⟨none, none, none, 0, heap, destroyed⟩

/-- The loop over the nodes in `list_remove` and `list_find` -/
def search (callbacks : Callbacks A) (heap : Heap P (Option A)) (value : Option A) :
    ℕ → Option P → Option (Option P)
  | _, none => some none
  | 0, some _ => none
  | k + 1, some node => do
    let cell ← heap node
    if callbacks.equal cell.value value then some (some node)
    else search callbacks heap value k cell.next

def listRemove (callbacks : Callbacks A) (self : LinkedList P A) (value : Option A) :
    Option (LinkedList P A × Bool) := do
  match ← search callbacks self.heap value self.length self.first with
  | none => return (self, false)
  | some node =>
    let cell ← self.heap node
    let heap ← setPrev self.heap cell.next cell.prev
    let cell ← heap node
    let heap ← setNext heap cell.prev cell.next
    let cell ← heap node
    return ({
      first := if self.first = some node then cell.next else self.first
      last := if self.last = some node then cell.prev else self.last
      cursor := if self.cursor = some node then none else self.cursor
      length := self.length - 1
      heap := Function.update heap node none
      destroyed :=
        if callbacks.destroyFn then self.destroyed ++ [cell.value] else self.destroyed }, true)

def listFind (callbacks : Callbacks A) (self : LinkedList P A) (value : Option A) :
    Option (LinkedList P A × Option A) := do
  let self := { self with cursor := self.first }
  match ← search callbacks self.heap value self.length self.first with
  | none => return (self, none)
  | some node =>
    let cell ← self.heap node
    return ({ self with cursor := some node }, cell.value)

def listCurrent (self : LinkedList P A) : Option (Option A) :=
  match self.cursor with
  | some node => (self.heap node).map Cell.value
  | none => some none

/-- The cursor is set, and its value is returned. -/
def moveTo (self : LinkedList P A) (cursor : Option P) : Option (LinkedList P A × Option A) := do
  let self := { self with cursor }
  return (self, ← listCurrent self)

def listFirst (self : LinkedList P A) : Option (LinkedList P A × Option A) :=
  self.moveTo self.first

def listNext (self : LinkedList P A) : Option (LinkedList P A × Option A) := do
  match self.cursor with
  | some node => self.moveTo (← self.heap node).next
  | none => self.moveTo self.first

def listPrev (self : LinkedList P A) : Option (LinkedList P A × Option A) := do
  match self.cursor with
  | some node => self.moveTo (← self.heap node).prev
  | none => self.moveTo self.last

def listLast (self : LinkedList P A) : Option (LinkedList P A × Option A) :=
  self.moveTo self.last

/-- `list_push`, with the node that it allocates -/
def listPush (self : LinkedList P A) (node : P) (value : Option A) : Option (LinkedList P A) := do
  let heap := Function.update self.heap node (some ⟨none, none, value⟩)
  match self.last with
  | some last =>
    let heap ← setNext heap (some last) (some node)
    let heap ← setPrev heap (some node) (some last)
    let heap ← setNext heap (some node) none
    return { self with last := some node, length := self.length + 1, heap }
  | none =>
    let heap ← setPrev heap (some node) none
    let heap ← setNext heap (some node) none
    return { self with first := some node, last := some node, length := self.length + 1, heap }

def listPop (self : LinkedList P A) : Option (LinkedList P A × Option A) := do
  let self := { self with cursor := if self.cursor = self.last then none else self.cursor }
  match self.last with
  | none => return (self, none)
  | some node =>
    let self := { self with first := if self.first = some node then none else self.first }
    let cell ← self.heap node
    let heap ← setNext self.heap cell.prev none
    return ({ self with
      last := cell.prev
      length := self.length - 1
      heap := Function.update heap node none }, cell.value)

/-- `list_unshift`, with the node that it allocates -/
def listUnshift (self : LinkedList P A) (node : P) (value : Option A) :
    Option (LinkedList P A) := do
  let heap := Function.update self.heap node (some ⟨none, none, value⟩)
  match self.first with
  | some first =>
    let heap ← setPrev heap (some first) (some node)
    let heap ← setNext heap (some node) (some first)
    let heap ← setPrev heap (some node) none
    return { self with first := some node, length := self.length + 1, heap }
  | none =>
    let heap ← setNext heap (some node) none
    let heap ← setPrev heap (some node) none
    return { self with first := some node, last := some node, length := self.length + 1, heap }

def listShift (self : LinkedList P A) : Option (LinkedList P A × Option A) := do
  let self := { self with cursor := if self.cursor = self.first then none else self.cursor }
  match self.first with
  | none => return (self, none)
  | some node =>
    let self := { self with last := if self.last = some node then none else self.last }
    let cell ← self.heap node
    let heap ← setPrev self.heap cell.next none
    return ({ self with
      first := cell.next
      length := self.length - 1
      heap := Function.update heap node none }, cell.value)

end LinkedList

/-- A call; a node that is allocated is given with it. -/
inductive Call (P A : Type*) where
  | push (node : P) (value : Option A)
  | pop
  | unshift (node : P) (value : Option A)
  | shift
  | remove (value : Option A)
  | find (value : Option A)
  | purge
  | first
  | next
  | prev
  | last

inductive Returned (A : Type*) where
  | void
  | value (value : Option A)
  | bool (found : Bool)
deriving DecidableEq

namespace LinkedList

def call (callbacks : Callbacks A) (self : LinkedList P A) :
    Call P A → Option (LinkedList P A × Returned A)
  | .push node value => (self.listPush node value).map fun self => (self, .void)
  | .pop => self.listPop.map fun (self, value) => (self, .value value)
  | .unshift node value => (self.listUnshift node value).map fun self => (self, .void)
  | .shift => self.listShift.map fun (self, value) => (self, .value value)
  | .remove value => (self.listRemove callbacks value).map fun (self, found) => (self, .bool found)
  | .find value => (self.listFind callbacks value).map fun (self, value) => (self, .value value)
  | .purge => (self.listPurge callbacks).map fun self => (self, .void)
  | .first => self.listFirst.map fun (self, value) => (self, .value value)
  | .next => self.listNext.map fun (self, value) => (self, .value value)
  | .prev => self.listPrev.map fun (self, value) => (self, .value value)
  | .last => self.listLast.map fun (self, value) => (self, .value value)

/-- The calls one after another, with what they return -/
def run (callbacks : Callbacks A) : LinkedList P A → List (Call P A) →
    Option (LinkedList P A × List (Returned A))
  | self, [] => some (self, [])
  | self, c :: calls => do
    let (self, returned) ← self.call callbacks c
    let (self, rest) ← run callbacks self calls
    return (self, returned :: rest)

end LinkedList

def Call.node : Call P A → Option P
  | .push node _ | .unshift node _ => some node
  | _ => none

/-- Every node that is allocated is free then. -/
def Allocates (callbacks : Callbacks A) : LinkedList P A → List (Call P A) → Prop
  | _, [] => True
  | self, c :: calls => (∀ node, c.node = some node → self.heap node = none) ∧
      ∀ self' returned, self.call callbacks c = some (self', returned) →
        Allocates callbacks self' calls

end InetLisp
