import Mathlib.Algebra.Group.Nat.Defs
import Mathlib.Data.List.TakeDrop

/-! # Growable arrays

An array holds its values in a block of memory, which it exchanges for a larger one where
there is no room left. Its sizes are counted in `size_t`, and so are the bytes of the block.
-/

namespace InetLisp

variable {α : Type*}

/-- What ends a call on an array. -/
inductive ArrayError where
  | assertion
  /-- The slot that is read or written is not in the block. -/
  | outside (index : ℕ)
  deriving DecidableEq, Repr

/-- The slots of an array; `none` is `NULL`. -/
abbrev Block (α : Type*) := List (Option α)

/-- `array_t`, and the values that it has destroyed -/
structure GrowableArray (α : Type*) where
  size : ℕ
  growStep : ℕ
  cursor : ℕ
  values : Block α
  destroyFn : Bool
  destroyed : List α
  deriving DecidableEq, Repr

namespace GrowableArray

/-- The sum of two numbers of type `size_t` -/
def sizeAdd (m n : ℕ) : ℕ := (m + n) % 2 ^ 64

/-- `size * sizeof(void *)` -/
def bytes (size : ℕ) : ℕ := size * 8 % 2 ^ 64

def load (values : Block α) (index : ℕ) : Except ArrayError (Option α) :=
  match values[index]? with
  | some value => .ok value
  | none => .error (.outside index)

def store (values : Block α) (index : ℕ) (value : Option α) : Except ArrayError (Block α) :=
  if index < values.length then .ok (values.set index value) else .error (.outside index)

/-- `memory_clear`, of so many slots from one on. -/
def memoryClear (values : Block α) (start count : ℕ) : Except ArrayError (Block α) :=
  if start + count ≤ values.length then
    .ok (values.take start ++ List.replicate count none ++ values.drop (start + count))
  else .error (.outside values.length)

/-- `allocate_pointers`; `allocates` tells for which numbers of bytes there is a block. -/
def allocatePointers (allocates : ℕ → Bool) (size : ℕ) : Except ArrayError (Block α) :=
  if allocates (bytes size) then .ok (List.replicate (bytes size / 8) none) else .error .assertion

/-- `reallocate_pointers`. What `realloc` adds to the block is undefined, and then cleared. -/
def reallocatePointers (allocates : ℕ → Bool) (pointer : Block α) (oldSize newSize : ℕ) :
    Except ArrayError (Block α) :=
  if allocates (bytes newSize) then
    memoryClear (pointer.takeD (bytes newSize / 8) none) (bytes oldSize / 8)
      (bytes (newSize - oldSize) / 8)
  else .error .assertion

def arrayNew (allocates : ℕ → Bool) (size : ℕ) : Except ArrayError (GrowableArray α) := do
  let values ← allocatePointers allocates size
  return ⟨size, size, 0, values, false, []⟩

def arraySetDestroyFn (self : GrowableArray α) (destroyFn : Bool) : GrowableArray α :=
  { self with destroyFn }

def arraySetGrowStep (self : GrowableArray α) (growStep : ℕ) : GrowableArray α :=
  { self with growStep }

def arrayLength (self : GrowableArray α) : ℕ := self.cursor

def arrayIsFull (self : GrowableArray α) : Bool := self.cursor = self.size

def arrayResize (allocates : ℕ → Bool) (self : GrowableArray α) (largerSize : ℕ) :
    Except ArrayError (GrowableArray α) :=
  if largerSize < self.size then .error .assertion
  else if largerSize = self.size then .ok self
  else do
    let values ← reallocatePointers allocates self.values self.size largerSize
    return { self with values, size := largerSize }

def arrayPop (self : GrowableArray α) : Except ArrayError (GrowableArray α × Option α) :=
  if self.cursor = 0 then .error .assertion
  else do
    let cursor := self.cursor - 1
    let value ← load self.values cursor
    let values ← store self.values cursor none
    return ({ self with values, cursor }, value)

def arrayPush (allocates : ℕ → Bool) (self : GrowableArray α) (value : Option α) :
    Except ArrayError (GrowableArray α) := do
  let self ←
    (if self.arrayIsFull then self.arrayResize allocates (sizeAdd self.size self.growStep)
    else .ok self)
  let values ← store self.values self.cursor value
  return { self with values, cursor := self.cursor + 1 }

def arrayGet (self : GrowableArray α) (index : ℕ) : Except ArrayError (Option α) :=
  if self.size ≤ index then .ok none else load self.values index

def arrayPick (self : GrowableArray α) (backIndex : ℕ) : Except ArrayError (Option α) :=
  if backIndex < self.cursor then self.arrayGet (self.cursor - 1 - backIndex)
  else .error .assertion

def arraySet (allocates : ℕ → Bool) (self : GrowableArray α) (index : ℕ) (value : Option α) :
    Except ArrayError (GrowableArray α) := do
  let self ←
    (if self.size ≤ index then self.arrayResize allocates (sizeAdd index self.growStep)
    else .ok self)
  let values ← store self.values index value
  return { self with values, cursor := if self.cursor ≤ index then index + 1 else self.cursor }

/-- One round of the loop of `array_purge`. -/
def purgeSlot (allocates : ℕ → Bool) (self : GrowableArray α) (i : ℕ) :
    Except ArrayError (GrowableArray α) := do
  match ← self.arrayGet i with
  | some value =>
    let self := { self with destroyed := self.destroyed ++ [value] }
    self.arraySet allocates i none
  | none => return self

def arrayPurge (allocates : ℕ → Bool) (self : GrowableArray α) :
    Except ArrayError (GrowableArray α) := do
  let self ←
    (if self.destroyFn then (List.range self.size).foldlM (purgeSlot allocates) self
    else do
      let values ← memoryClear self.values 0 (bytes self.size / 8)
      return { self with values })
  return { self with cursor := 0 }

inductive Call (α : Type*) where
  | setDestroyFn (destroyFn : Bool)
  | setGrowStep (growStep : ℕ)
  | resize (largerSize : ℕ)
  | pop
  | push (value : Option α)
  | get (index : ℕ)
  | pick (backIndex : ℕ)
  | set (index : ℕ) (value : Option α)
  | purge

/-- The call, with the value that it returns, if any. -/
def call (allocates : ℕ → Bool) (self : GrowableArray α) :
    Call α → Except ArrayError (GrowableArray α × Option α)
  | .setDestroyFn destroyFn => .ok (self.arraySetDestroyFn destroyFn, none)
  | .setGrowStep growStep => .ok (self.arraySetGrowStep growStep, none)
  | .resize largerSize => return (← self.arrayResize allocates largerSize, none)
  | .pop => self.arrayPop
  | .push value => return (← self.arrayPush allocates value, none)
  | .get index => return (self, ← self.arrayGet index)
  | .pick backIndex => return (self, ← self.arrayPick backIndex)
  | .set index value => return (← self.arraySet allocates index value, none)
  | .purge => return (← self.arrayPurge allocates, none)

end GrowableArray

end InetLisp
