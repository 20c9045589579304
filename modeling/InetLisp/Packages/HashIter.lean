import InetLisp.Lib.Loop
import InetLisp.Packages.Hash

/-! # Going through a hash table

The cursor of a table stands at a bucket and at an entry of its chain. Going on returns the
entry, or searches the next bucket that is not empty; what the cursor was left at by an
earlier scan does not matter, as the first call moves it to the first bucket.
-/

namespace InetLisp.Hash

open Lib

/-- A table with its cursor. Values are pointers, and a pointer to an entry is given by the
chain from the entry on. -/
structure Scan (K V : Type) where
  table : Hash K (Option V)
  cursorIndex : ℕ
  cursorEntry : List (Entry K (Option V))
  cursorKey : Option K

namespace Scan

variable {K V A : Type}

/-- A loop over the values: the value that it has and what it has collected. -/
abbrev Loop (K V A : Type) := (Option V × Scan K V) × List A

def more (s : Loop K V A) : Bool := s.1.1.isSome

def remaining (self : Scan K V) : List (Entry K (Option V)) :=
  self.cursorEntry ++ (self.table.entries.drop (self.cursorIndex + 1)).flatten

structure Within (scan : Scan K V) : Prop where
  size : scan.table.entries.length = scan.table.limit
  index : scan.cursorIndex < scan.table.limit

variable {self : Scan K V} {table : Hash K (Option V)} {index : ℕ}
  {chain : List (Entry K (Option V))} {e : Entry K (Option V)} {l : List (Entry K (Option V))}
  {f : Option K → V → A}

end Scan

section

variable {K V : Type} {F : HashFns K} {G : HashFns V}

/-- The operations of a set, in which a value is its own key. -/
inductive SetOp (V : Type) where
  | add (value : V)
  | put (value : V)
  | delete (value : V)
  | has (value : V)
  | length

/-- `set_add`, `set_put`, `set_delete`, `set_has` and `set_length` -/
def SetOp.op : SetOp V → Op V (Option V)
  | add value => .set value (some value)
  | put value => .put value (some value)
  | delete value => .delete value
  | has value => .has value
  | length => .length

/-- Every entry of a set stands for its value. -/
def SetMap (m : Map G (Option V)) : Prop :=
  ∀ q p, m q = some p → G.classOf p.1 = q ∧ ∃ v, p.2 = some v ∧ G.classOf v = q

theorem SetMap.update {m : Map G (Option V)} (h : SetMap m) {k v : V}
    (hk : G.classOf k = G.classOf v) :
    SetMap (Function.update m (G.classOf v) (some (k, some v))) := by
  intro q p hp
  by_cases hq : q = G.classOf v
  · subst hq
    rw [Function.update_self] at hp
    obtain rfl := Option.some.inj hp
    exact ⟨hk, v, rfl, rfl⟩
  · rw [Function.update_of_ne hq] at hp
    exact h q p hp

theorem SetMap.erase {m : Map G (Option V)} (h : SetMap m) (r : G.Class) :
    SetMap (Function.update m r none) := by
  intro q p hp
  by_cases hq : q = r
  · subst hq
    rw [Function.update_self] at hp
    cases hp
  · rw [Function.update_of_ne hq] at hp
    exact h q p hp

theorem SetMap.step {m : Map G (Option V)} (h : SetMap m) (op : SetOp V) :
    SetMap (Map.step G m op.op).1 := by
  cases op with
  | add v =>
    by_cases hm : m (G.classOf v) = none
    · rw [SetOp.op, Map.step, if_pos hm]
      exact h.update rfl
    · rw [SetOp.op, Map.step, if_neg hm]
      exact h
  | put v =>
    apply h.update
    cases hm : m (G.classOf v) with
    | none => rfl
    | some p => exact (h _ p hm).1
  | delete v => exact h.erase (G.classOf v)
  | has v => exact h
  | length => exact h

theorem SetMap.run {m : Map G (Option V)} (h : SetMap m) (ops : List (SetOp V)) :
    SetMap (Map.run G m (ops.map SetOp.op)).1 := by
  induction ops generalizing m with
  | nil => exact h
  | cons op ops ih => exact ih (h.step op)

end

end InetLisp.Hash
