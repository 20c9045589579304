import InetLisp.Value.Basic
import InetLisp.Lib.Pointer
import InetLisp.Lib.Cells

/-! # Wires

A wire is fuzed with at most one value. Following the fuzed values from one end
of a wire leads to what that end is connected to. A freed wire stays in the heap
as a destroyed cell; reading it has no result.
-/

namespace InetLisp

open Lib

structure Wire where
  fuzedValue : Option Value := none
  isDestroyed : Bool := false
  deriving DecidableEq, Repr

/-- The first passes of the loop in `walk`. -/
def walkFuel (wires : List Wire) : ℕ → Value → Option Value
  | 0, _ => none
  | k + 1, .wire w => match wires[w]? with
    | some ⟨none, false⟩ => some (.wire w)
    | some ⟨some v, false⟩ => walkFuel wires k v
    | _ => none
  | _ + 1, v => some v

/-- `walk`; the loop visits each wire once or does not end. -/
def walk (wires : List Wire) (v : Value) : Option Value := walkFuel wires (wires.length + 1) v

/-- `is_connected`, on what `walk` returns for the two values. -/
def isConnectedWalked (oppsite : ℕ → Option ℕ) : Value → Value → Bool
  | .principalWire p, .principalWire q => p = q || oppsite p = some q && oppsite q = some p
  | .wire v, .wire w => v = w
  | _, _ => false

def isConnected (wires : List Wire) (oppsite : ℕ → Option ℕ) (x y : Value) : Option Bool := do
  let x ← walk wires x
  let y ← walk wires y
  return isConnectedWalked oppsite x y

namespace Wire

/-- What a value points to: a live wire to the value it is fuzed with. -/
def next (wires : List Wire) : Value → Option Value
  | .wire w => match wires[w]? with
    | some ⟨v, false⟩ => v
    | _ => none
  | _ => none

/-- The value is no destroyed wire and no wire outside the heap. -/
def Alive (wires : List Wire) : Value → Prop
  | .wire w => ∃ v, wires[w]? = some ⟨v, false⟩
  | _ => True

def edges (w : ℕ) (c : Wire) : Multiset (Sym2 Value) :=
  if c.isDestroyed then 0 else c.fuzedValue.elim 0 fun v => {s(.wire w, v)}

variable {wires : List Wire} {v : Value} {w k : ℕ}

@[simp] theorem edges_new : edges w ⟨none, false⟩ = 0 := rfl
@[simp] theorem edges_fuzed : edges w ⟨some v, false⟩ = {s(.wire w, v)} := rfl
@[simp] theorem edges_destroyed {o : Option Value} : edges w ⟨o, true⟩ = 0 := rfl

theorem isWire_of_next (h : next wires v ≠ none) : v.IsWire := by
  by_contra hv
  cases v <;> first | exact hv trivial | exact h rfl

theorem alive_of_next_ne_none (h : next wires v ≠ none) : Alive wires v := by
  obtain ⟨w, rfl⟩ := (isWire_of_next h).exists
  rcases hc : wires[w]? with _ | ⟨o, _ | _⟩
  · exact (h (by simp [next, hc])).elim
  · exact ⟨o, hc⟩
  · exact (h (by simp [next, hc])).elim

theorem next_wire (h : wires[w]? = some ⟨v, false⟩) : next wires (.wire w) = v := by
  simp [next, h]

def cells (wires : List Wire) : Finset Value := (Finset.range wires.length).image .wire

theorem mem_cells (h : next wires v ≠ none) : v ∈ cells wires := by
  obtain ⟨w, rfl⟩ := (isWire_of_next h).exists
  refine Finset.mem_image_of_mem _ (Finset.mem_range.mpr ?_)
  by_contra hw
  exact h (by simp [next, List.getElem?_eq_none (not_lt.mp hw)])

theorem card_cells : (cells wires).card = wires.length := by
  rw [cells, Finset.card_image_of_injective _ fun _ _ h => Value.wire.inj h, Finset.card_range]

/-- The connections that the cells record are those that `walk` follows. -/
theorem sum_edges (wires : List Wire) :
    Cells.sum edges wires = Pointer.edges (next wires) (cells wires) := by
  rw [Cells.sum_eq_range, Pointer.edges, cells,
    Finset.sum_image fun _ _ _ _ h => Value.wire.inj h]
  refine Finset.sum_congr rfl fun w _ => ?_
  rcases h : wires[w]? with _ | ⟨v, _ | _⟩ <;> simp [Pointer.edge, next, h, edges]

theorem walkFuel_eq_chase (ha : ∀ x y, next wires x = some y → Alive wires y)
    (hv : Alive wires v) : walkFuel wires k v = Pointer.chase (next wires) k v := by
  induction k generalizing v with
  | zero => rfl
  | succ k ih =>
    cases v with
    | wire w =>
      obtain ⟨o, ho⟩ := hv
      cases o with
      | none => simp [walkFuel, Pointer.chase, next, ho]
      | some u =>
        have hu : next wires (.wire w) = some u := next_wire ho
        simp only [walkFuel, ho, Pointer.chase, hu]
        exact ih (ha _ _ hu)
    | _ => rfl

end Wire

end InetLisp
