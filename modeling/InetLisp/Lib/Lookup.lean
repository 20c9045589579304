import Mathlib.Data.Set.Card
import Mathlib.Data.List.Nodup
import Mathlib.Data.List.Perm.Basic

/-! # Entries found by their keys

A list of entries with distinct keys is a finite map. Which entry a key leads to
does not depend on the order of the list; adding and removing an entry changes
the map at its key only.
-/

namespace Lib

variable {α β κ : Type*} [DecidableEq κ]

/-- The first entry with the key. -/
def lookup (key : α → κ) (l : List α) (q : κ) : Option α := l.find? fun a => key a = q

variable {key : α → κ} {l m : List α} {a : α} {q : κ}

theorem lookup_eq_none : lookup key l q = none ↔ ∀ a ∈ l, key a ≠ q := by
  simp [lookup]

theorem mem_of_lookup (h : lookup key l q = some a) : a ∈ l ∧ key a = q :=
  ⟨List.mem_of_find?_eq_some h, by simpa using List.find?_some h⟩

theorem lookup_eq_some (hd : (l.map key).Nodup) :
    lookup key l q = some a ↔ a ∈ l ∧ key a = q := by
  constructor
  · exact mem_of_lookup
  · rintro ⟨ha, rfl⟩
    cases hb : lookup key l (key a) with
    | none => exact (lookup_eq_none.mp hb a ha rfl).elim
    | some b =>
      obtain ⟨hm, hk⟩ := mem_of_lookup hb
      rw [List.inj_on_of_nodup_map hd hm ha hk]

theorem lookup_perm (hd : (l.map key).Nodup) (h : l.Perm m) : lookup key l = lookup key m := by
  have hd' : (m.map key).Nodup := (h.map key).nodup_iff.mp hd
  funext q
  ext a
  rw [lookup_eq_some hd, lookup_eq_some hd', h.mem_iff]

theorem lookup_cons : lookup key (a :: l) = Function.update (lookup key l) (key a) (some a) := by
  funext q
  rw [Function.update_apply, lookup, List.find?_cons]
  by_cases h : key a = q
  · simp [h]
  · rw [if_neg (Ne.symm h)]
    simp [h, lookup]

theorem lookup_of_perm_cons (hd : (l.map key).Nodup) (h : l.Perm (a :: m)) :
    lookup key m = Function.update (lookup key l) (key a) none := by
  have hd' : ((a :: m).map key).Nodup := (h.map key).nodup_iff.mp hd
  have ha : lookup key m (key a) = none :=
    lookup_eq_none.mpr fun b hb hk =>
      (List.nodup_cons.mp hd').1 (hk ▸ List.mem_map_of_mem hb)
  rw [lookup_perm hd h, lookup_cons, Function.update_idem, ← ha, Function.update_eq_self]

theorem ncard_lookup (hd : (l.map key).Nodup) : {q | lookup key l q ≠ none}.ncard = l.length := by
  have hs : {q | lookup key l q ≠ none} = ((l.map key).toFinset : Set κ) := by
    ext q
    simp only [Set.mem_ofPred_eq, ne_eq, lookup_eq_none, List.coe_toFinset, List.mem_map]
    push Not
    rfl
  rw [hs, Set.ncard_coe_finset, List.toFinset_card_of_nodup hd, List.length_map]

/-- Entries made for the keys of a list, each under its key, are found there. -/
theorem exists_mapM_lookup {f : κ → Option α} {l : List κ}
    (h : ∀ q ∈ l, ∃ a, f q = some a ∧ key a = q) :
    ∃ m, l.mapM f = some m ∧ ∀ q ∈ l, lookup key m q = f q := by
  induction l with
  | nil => exact ⟨[], rfl, nofun⟩
  | cons q l ih =>
    obtain ⟨m, hm, hl⟩ := ih fun r hr => h r (List.mem_cons_of_mem q hr)
    obtain ⟨a, ha, hk⟩ := h q List.mem_cons_self
    refine ⟨a :: m, by simp [List.mapM_cons, ha, hm], fun r hr => ?_⟩
    rw [lookup_cons, Function.update_apply, hk]
    split
    · rename_i hrq
      rw [hrq, ha]
    · rename_i hrq
      exact hl r ((List.mem_cons.mp hr).resolve_left hrq)

end Lib
