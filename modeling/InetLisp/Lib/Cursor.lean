import Mathlib.Data.List.Basic

/-! # Lists with a cursor

A list is read with a cursor that stands at an element or at none. From none the cursor
goes on to the first element.
-/

namespace Lib

variable {α : Type*}

/-- The elements from the cursor on are the rest; there is no rest if it stands at none. -/
structure Cursor (α : Type*) where
  list : List α
  rest : List α

namespace Cursor

def first (list : List α) : Cursor α := ⟨list, list⟩

def current (self : Cursor α) : Option α := self.rest.head?

def next (self : Cursor α) : Cursor α :=
  match self.rest with
  | [] => first self.list
  | _ :: rest => ⟨self.list, rest⟩

variable {x : α} {l rest : List α}

@[simp] theorem rest_first : (first l).rest = l := rfl

@[simp] theorem next_first_nil : (first ([] : List α)).next = first [] := rfl

@[simp] theorem next_cons : (⟨l, x :: rest⟩ : Cursor α).next = ⟨l, rest⟩ := rfl

@[simp] theorem next_first_cons : (first (x :: l)).next = ⟨x :: l, l⟩ := rfl

/-- Behind the last element the list is read again. -/
@[simp] theorem next_nil : (⟨l, []⟩ : Cursor α).next = first l := rfl

@[simp] theorem current_nil : (⟨l, []⟩ : Cursor α).current = none := rfl

@[simp] theorem current_cons : (⟨l, x :: rest⟩ : Cursor α).current = some x := rfl

@[simp] theorem current_first : (first l).current = l.head? := rfl

end Cursor

end Lib
