import Mathlib.Data.List.Nodup
import Mathlib.Data.List.Perm.Subperm
import Mathlib.Logic.Relation

/-! # Searching a graph with a stack

A search keeps the nodes that occurred and a stack of nodes that it still has to look
at, on which a node may be many times. What a node on top of the stack leads to is put
on the stack when the node occurs for the first time, and the node is dropped otherwise.
-/

namespace Lib

open Relation

variable {α : Type*}

/-- The search from the root has met these nodes, the newest first, and these remain. -/
structure Search (r : α → α → Prop) (root : α) (occurred remaining : List α) : Prop where
  last : occurred.getLast? = some root
  nodup : occurred.Nodup
  reach : ∀ x ∈ occurred, ReflTransGen r root x
  pending : ∀ y ∈ remaining, ∃ x ∈ occurred, r x y
  closed : ∀ x ∈ occurred, ∀ y, r x y → y ∈ occurred ∨ y ∈ remaining

namespace Search

variable {r : α → α → Prop} {root x y : α} {occurred remaining l : List α}

theorem start (h : ∀ y, y ∈ l ↔ r root y) : Search r root [root] l where
  last := rfl
  nodup := List.nodup_singleton root
  reach := by
    intro x hx
    obtain rfl := List.mem_singleton.mp hx
    exact .refl
  pending := fun y hy => ⟨root, List.mem_singleton_self root, (h y).mp hy⟩
  closed := by
    intro x hx y hy
    obtain rfl := List.mem_singleton.mp hx
    exact .inr ((h y).mpr hy)

theorem skip (h : Search r root occurred (y :: remaining)) (hy : y ∈ occurred) :
    Search r root occurred remaining where
  last := h.last
  nodup := h.nodup
  reach := h.reach
  pending := fun z hz => h.pending z (List.mem_cons_of_mem y hz)
  closed := by
    intro x hx z hz
    rcases h.closed x hx z hz with hz | hz
    · exact .inl hz
    · rcases List.mem_cons.mp hz with rfl | hz
      · exact .inl hy
      · exact .inr hz

theorem reach_top (h : Search r root occurred (y :: remaining)) : ReflTransGen r root y := by
  obtain ⟨x, hx, hxy⟩ := h.pending y List.mem_cons_self
  exact (h.reach x hx).tail hxy

theorem take (h : Search r root occurred (y :: remaining)) (hy : y ∉ occurred)
    (hl : ∀ z, z ∈ l ↔ r y z) : Search r root (y :: occurred) (l ++ remaining) where
  last := by rw [List.getLast?_cons, h.last, Option.getD_some]
  nodup := List.nodup_cons.mpr ⟨hy, h.nodup⟩
  reach := by
    intro x hx
    rcases List.mem_cons.mp hx with rfl | hx
    · exact h.reach_top
    · exact h.reach x hx
  pending := by
    intro z hz
    rcases List.mem_append.mp hz with hz | hz
    · exact ⟨y, List.mem_cons_self, (hl z).mp hz⟩
    · obtain ⟨x, hx, hxz⟩ := h.pending z (List.mem_cons_of_mem y hz)
      exact ⟨x, List.mem_cons_of_mem y hx, hxz⟩
  closed := by
    intro x hx z hz
    rcases List.mem_cons.mp hx with rfl | hx
    · exact .inr (List.mem_append_left remaining ((hl z).mpr hz))
    · rcases h.closed x hx z hz with hz | hz
      · exact .inl (List.mem_cons_of_mem y hz)
      · rcases List.mem_cons.mp hz with rfl | hz
        · exact .inl List.mem_cons_self
        · exact .inr (List.mem_append_right l hz)

/-- When the stack is empty, the nodes that occurred are those that can be reached. -/
theorem mem_iff (h : Search r root occurred []) : x ∈ occurred ↔ ReflTransGen r root x := by
  constructor
  · exact h.reach x
  · intro hx
    induction hx with
    | refl => exact List.mem_of_getLast? h.last
    | tail _ hyz ih =>
      rcases h.closed _ ih _ hyz with hz | hz
      · exact hz
      · cases hz

theorem length_le (h : Search r root occurred remaining)
    (hl : ∀ x, ReflTransGen r root x → x ∈ l) : occurred.length ≤ l.length :=
  (h.nodup.subperm fun x hx => hl x (h.reach x hx)).length_le

end Search

end Lib
