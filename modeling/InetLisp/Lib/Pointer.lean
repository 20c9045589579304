import InetLisp.Lib.Trail
import Mathlib.Logic.Relation
import Mathlib.Algebra.Order.BigOperators.Group.Finset
import Mathlib.Data.Multiset.AddSub

/-! # Graphs of pointers

A cell points to at most one other. When at most one cell points to a cell that
itself points on, the cells passed on the way from a cell without predecessor
are distinct. Seen as an undirected graph, a trail between two such cells follows
the pointers forward and then backward.
-/

namespace Lib.Pointer

open Relation

variable {α : Type*} {next : α → Option α} {P : α → Prop}

/-- The cells followed from the first value to the last. -/
inductive Chain (next : α → Option α) : α → List α → α → Prop where
  | nil (x : α) : Chain next x [] x
  | cons {x y z : α} {l : List α} (h : next x = some y) (hl : Chain next y l z) :
      Chain next x (x :: l) z

/-- Follow the pointers; none when the given number of steps does not reach an end. -/
def chase (next : α → Option α) : ℕ → α → Option α
  | 0, _ => none
  | k + 1, x => match next x with
    | none => some x
    | some y => chase next k y

variable {k : ℕ} {x y z r : α} {l m : List α}

theorem chase_none (h : chase next k x = none) : ∃ l z, l.length = k ∧ Chain next x l z := by
  induction k generalizing x with
  | zero => exact ⟨[], x, rfl, .nil x⟩
  | succ k ih =>
    unfold chase at h
    split at h
    · cases h
    · rename_i y hy
      obtain ⟨l, z, hl, hc⟩ := ih h
      exact ⟨x :: l, z, by simp [hl], .cons hy hc⟩

theorem chase_some (h : chase next k x = some r) : next r = none ∧ ∃ l, Chain next x l r := by
  induction k generalizing x with
  | zero => cases h
  | succ k ih =>
    unfold chase at h
    split at h
    · rename_i hx
      cases h
      exact ⟨hx, [], .nil _⟩
    · rename_i y hy
      obtain ⟨hr, l, hc⟩ := ih h
      exact ⟨hr, _, .cons hy hc⟩

theorem Chain.next_ne_none (h : Chain next x l z) (hy : y ∈ l) : next y ≠ none := by
  induction h with
  | nil => cases hy
  | cons hn _ ih =>
    rcases List.mem_cons.mp hy with rfl | hy
    · simp [hn]
    · exact ih hy

theorem Chain.to_mem (h : Chain next x l z) (hy : y ∈ l) : ∃ m, Chain next x m y := by
  induction h with
  | nil => cases hy
  | cons hn _ ih =>
    rcases List.mem_cons.mp hy with rfl | hy
    · exact ⟨[], .nil _⟩
    · obtain ⟨m, hm⟩ := ih hy
      exact ⟨_, .cons hn hm⟩

theorem Chain.snoc (h : Chain next x l y) (hn : next y = some z) :
    Chain next x (l ++ [y]) z := by
  induction h with
  | nil => exact .cons hn (.nil z)
  | cons hn' _ ih => exact .cons hn' (ih hn)

theorem Chain.last (h : Chain next x l z) :
    l = [] ∧ x = z ∨ ∃ m y, l = m ++ [y] ∧ Chain next x m y ∧ next y = some z := by
  induction h with
  | nil => exact .inl ⟨rfl, rfl⟩
  | @cons x y z l hn _ ih =>
    rcases ih with ⟨rfl, rfl⟩ | ⟨m, w, rfl, hm, hw⟩
    · exact .inr ⟨[], x, rfl, .nil x, hn⟩
    · exact .inr ⟨x :: m, w, rfl, .cons hn hm, hw⟩

theorem Chain.end_unique {r' : α} (h : Chain next x l r) (hr : next r = none)
    (h' : Chain next x m r') (hr' : next r' = none) : r = r' := by
  induction h generalizing m with
  | nil =>
    cases h' with
    | nil => rfl
    | cons hn _ => rw [hr] at hn; cases hn
  | cons hn _ ih =>
    cases h' with
    | nil => rw [hr'] at hn; cases hn
    | cons hn' h' =>
      rw [hn] at hn'
      cases hn'
      exact ih hr h'

/-- No two cells point to one that points on. -/
def Linear (next : α → Option α) : Prop :=
  ∀ x y z, next x = some z → next y = some z → next z ≠ none → x = y

/-- No cell points to this one when it points on. -/
def Initial (next : α → Option α) (x : α) : Prop := ∀ y, next y = some x → next x = none

section Linear

variable (hn : Linear next)

include hn

theorem Chain.initial_unique (hx : Initial next x) (hy : Initial next y) (h : Chain next x l z)
    (h' : Chain next y m z) (hz : next z ≠ none) : x = y := by
  induction l using List.reverseRecOn generalizing z m with
  | nil =>
    cases h
    rcases h'.last with ⟨_, rfl⟩ | ⟨_, w, _, _, hw⟩
    · rfl
    · exact (hz (hx w hw)).elim
  | append_singleton l a ih =>
    rcases h.last with ⟨hl, _⟩ | ⟨l', a', hl, hc, ha⟩
    · simp at hl
    obtain ⟨rfl, rfl⟩ : l = l' ∧ a = a' := by simpa using hl
    rcases h'.last with ⟨_, rfl⟩ | ⟨m', b, _, hm, hb⟩
    · exact (hz (hy a ha)).elim
    · obtain rfl := hn a b z ha hb hz
      exact ih hc hm (by simp [ha])

theorem Chain.acyclic (hx : Initial next x) (h : Chain next x l z) (hm : Chain next z m z)
    (hne : m ≠ []) : False := by
  induction l using List.reverseRecOn generalizing z m with
  | nil =>
    cases h
    rcases hm.last with ⟨rfl, _⟩ | ⟨_, w, _, _, hw⟩
    · exact hne rfl
    · cases hm with
      | nil => exact hne rfl
      | cons hx' _ => rw [hx w hw] at hx'; cases hx'
  | append_singleton l a ih =>
    rcases h.last with ⟨hl, _⟩ | ⟨l', a', hl, hc, ha⟩
    · simp at hl
    obtain ⟨rfl, rfl⟩ : l = l' ∧ a = a' := by simpa using hl
    have hz : next z ≠ none := by
      cases hm with
      | nil => exact (hne rfl).elim
      | cons h' _ => simp [h']
    rcases hm.last with ⟨rfl, _⟩ | ⟨m', b, rfl, hm', hb⟩
    · exact hne rfl
    · obtain rfl := hn a b z ha hb hz
      exact ih hc (.cons ha hm') (by simp)

theorem Chain.nodup (hx : Initial next x) (h : Chain next x l z) : l.Nodup := by
  have key : ∀ {y m}, Chain next x m y → ∀ {l z}, Chain next y l z → l.Nodup := by
    intro y m hm l z hl
    induction hl generalizing m with
    | nil => exact List.nodup_nil
    | cons hy hl ih =>
      refine List.nodup_cons.mpr ⟨fun hmem => ?_, ih (hm.snoc hy)⟩
      obtain ⟨p, hp⟩ := hl.to_mem hmem
      exact hm.acyclic hn hx (.cons hy hp) (by simp)
  exact key (.nil x) h

/-- From an initial cell the pointers come to an end within the number of cells. -/
theorem chase_isSome [DecidableEq α] {S : Finset α} (hS : ∀ y, next y ≠ none → y ∈ S)
    (hx : Initial next x) : ∃ r, chase next (S.card + 1) x = some r := by
  rcases hc : chase next (S.card + 1) x with _ | r
  · obtain ⟨l, z, hl, h⟩ := chase_none hc
    have hsub : l.toFinset ⊆ S := fun y hy =>
      hS y (h.next_ne_none (List.mem_toFinset.mp hy))
    have := Finset.card_le_card hsub
    rw [List.toFinset_card_of_nodup (h.nodup hn hx)] at this
    omega
  · exact ⟨r, rfl⟩

end Linear

section Edges

variable [DecidableEq α] {S : Finset α} {E F H : Multiset (Sym2 α)} {o v : α}

def edge (next : α → Option α) (x : α) : Multiset (Sym2 α) :=
  (next x).elim 0 fun y => {s(x, y)}

def edges (next : α → Option α) (S : Finset α) : Multiset (Sym2 α) := ∑ x ∈ S, edge next x

theorem edges_insert (ho : o ∉ S) (h : next o = some v) :
    edges next (insert o S) = s(o, v) ::ₘ edges next S := by
  rw [edges, Finset.sum_insert ho, edge, h]
  rfl

omit [DecidableEq α] in
theorem mem_edges (hx : x ∈ S) (h : next x = some y) : s(x, y) ∈ edges next S :=
  Multiset.mem_sum.mpr ⟨x, hx, by simp [edge, h]⟩

omit [DecidableEq α] in
theorem edges_mono (next : α → Option α) {T : Finset α} (h : S ⊆ T) : edges next S ≤ edges next T :=
  Finset.sum_le_sum_of_subset h

/-- A cell that points on has room for one more pointer to it. -/
theorem linear_of_degree (hS : ∀ a, next a ≠ none → a ∈ S)
    (hd : ∀ z, next z ≠ none → degree z (edges next S) ≤ 2) : Linear next := by
  intro x y z hx hy hz
  by_contra hne
  obtain ⟨u, hu⟩ := Option.ne_none_iff_exists'.mp hz
  have hsub : insert x (insert y (insert z ∅)) ⊆ S := by
    intro a ha
    simp only [Finset.mem_insert, Finset.notMem_empty, or_false] at ha
    rcases ha with rfl | rfl | rfl <;> exact hS _ (by simp [*])
  have hle := (degree_le (v := z) (edges_mono next hsub)).trans (hd z hz)
  by_cases hyz : y = z
  · subst y
    rw [Finset.insert_idem, edges_insert (by simp [hne]) hx, edges_insert (by simp) hy] at hle
    simp only [degree_cons, ↓reduceIte] at hle
    omega
  · rw [Finset.insert_comm x y, edges_insert (by simp [hyz, Ne.symm hne]) hy] at hle
    by_cases hxz : x = z
    · subst x
      rw [Finset.insert_idem, edges_insert (by simp) hx] at hle
      simp only [degree_cons, ↓reduceIte] at hle
      omega
    · rw [edges_insert (by simp [hxz]) hx, edges_insert (by simp) hu] at hle
      simp only [degree_cons, ↓reduceIte] at hle
      omega

theorem initial_of_degree (hS : ∀ a, next a ≠ none → a ∈ S) (hd : degree x (edges next S) ≤ 1) :
    Initial next x := by
  intro y hy
  by_contra hx
  obtain ⟨u, hu⟩ := Option.ne_none_iff_exists'.mp hx
  have hsub : insert y (insert x ∅) ⊆ S := by
    intro a ha
    simp only [Finset.mem_insert, Finset.notMem_empty, or_false] at ha
    rcases ha with rfl | rfl <;> exact hS _ (by simp [*])
  have hle := (degree_le (v := x) (edges_mono next hsub)).trans hd
  by_cases hxy : y = x
  · subst y
    rw [Finset.insert_idem, edges_insert (by simp) hy] at hle
    simp only [degree_cons, ↓reduceIte] at hle
    omega
  · rw [edges_insert (by simp [hxy]) hy, edges_insert (by simp) hu] at hle
    simp only [degree_cons, ↓reduceIte] at hle
    omega

theorem eq_of_degree (hS : ∀ a, next a ≠ none → a ∈ S) (hd : degree z (edges next S) ≤ 1)
    (hx : next x = some z) (hy : next y = some z) : x = y := by
  by_contra hne
  have hsub : insert x (insert y ∅) ⊆ S := by
    intro a ha
    simp only [Finset.mem_insert, Finset.notMem_empty, or_false] at ha
    rcases ha with rfl | rfl <;> exact hS _ (by simp [*])
  have hle := (degree_le (v := z) (edges_mono next hsub)).trans hd
  rw [edges_insert (by simp [hne]) hx, edges_insert (by simp) hy] at hle
  simp only [degree_cons, ↓reduceIte] at hle
  omega

theorem edges_cons (h : edges next S + H = s(v, z) ::ₘ F) :
    (∃ o ∈ S, (o = v ∧ next v = some z ∨ o = z ∧ next z = some v) ∧
      F = edges next (S.erase o) + H) ∨ s(v, z) ∈ H := by
  have hm : s(v, z) ∈ edges next S + H := h ▸ Multiset.mem_cons_self _ _
  rcases Multiset.mem_add.mp hm with hm | hm
  · obtain ⟨o, ho, hm⟩ := Multiset.mem_sum.mp hm
    cases hn : next o with
    | none => simp [edge, hn] at hm
    | some t =>
      simp only [edge, hn, Option.elim, Multiset.mem_singleton] at hm
      refine .inl ⟨o, ho, ?_, ?_⟩
      · rcases Sym2.eq_iff.mp hm with ⟨rfl, rfl⟩ | ⟨rfl, rfl⟩
        · exact .inl ⟨rfl, hn⟩
        · exact .inr ⟨rfl, hn⟩
      · rw [← Finset.insert_erase ho, edges_insert (Finset.notMem_erase o S) hn, hm,
          Multiset.cons_add, Multiset.cons_inj_right] at h
        exact h.symm
  · exact .inr hm

section Follow

variable (hH : ∀ e ∈ H, ∀ x ∈ e, ¬ P x)

include hH

/-- Past a cell whose own edge is spent, a trail goes against the pointers. -/
theorem trail_back (h : Lib.Trail P (edges next S + H) v y) (hv : v ∉ S) :
    s(v, y) ∈ H ∨ ∃ l, Chain next y l v := by
  generalize hE : edges next S + H = E at h
  induction h generalizing S with
  | edge =>
    rcases edges_cons hE with ⟨o, ho, ⟨rfl, _⟩ | ⟨rfl, hn⟩, _⟩ | hm
    · exact (hv ho).elim
    · exact .inr ⟨_, .cons hn (.nil _)⟩
    · exact .inl hm
  | @step E v w y hw _ ih =>
    rcases edges_cons hE with ⟨o, ho, ⟨rfl, _⟩ | ⟨rfl, hn⟩, rfl⟩ | hm
    · exact (hv ho).elim
    · rcases ih (Finset.notMem_erase _ _) rfl with hm | ⟨l, hl⟩
      · exact (hH _ hm _ (Sym2.mem_mk_left _ _) hw).elim
      · exact .inr ⟨_, hl.snoc hn⟩
    · exact (hH _ hm _ (Sym2.mem_mk_right _ _) hw).elim

/-- The pointers from the two ends of a trail meet at an internal vertex. -/
theorem trail_meet (h : Lib.Trail P (edges next S + H) x y) (hx : P x) (hy : P y) :
    ∃ r l m, P r ∧ Chain next x l r ∧ Chain next y m r := by
  generalize hE : edges next S + H = E at h
  induction h generalizing S with
  | @edge E x y =>
    rcases edges_cons hE with ⟨o, _, ⟨rfl, hn⟩ | ⟨rfl, hn⟩, _⟩ | hm
    · exact ⟨y, _, _, hy, .cons hn (.nil _), .nil y⟩
    · exact ⟨x, _, _, hx, .nil x, .cons hn (.nil _)⟩
    · exact (hH _ hm _ (Sym2.mem_mk_left _ _) hx).elim
  | @step E x w y hw ht ih =>
    rcases edges_cons hE with ⟨o, _, ⟨rfl, hn⟩ | ⟨rfl, hn⟩, rfl⟩ | hm
    · obtain ⟨r, l, m, hr, hl, hm⟩ := ih hw hy rfl
      exact ⟨r, _, m, hr, .cons hn hl, hm⟩
    · rcases trail_back hH ht (Finset.notMem_erase _ _) with hm | ⟨m, hm⟩
      · exact (hH _ hm _ (Sym2.mem_mk_left _ _) hw).elim
      · exact ⟨x, _, _, hx, .nil x, hm.snoc hn⟩
    · exact (hH _ hm _ (Sym2.mem_mk_left _ _) hx).elim

end Follow

theorem Chain.trail (h : Chain next x l r) (hl : l.Nodup) (hne : l ≠ []) (hP : ∀ a ∈ l, P a) :
    Lib.Trail P (edges next l.toFinset) x r := by
  induction h with
  | nil => exact (hne rfl).elim
  | @cons x y z l hn hc ih =>
    have hx : x ∉ l.toFinset := by simpa using (List.nodup_cons.mp hl).1
    rw [List.toFinset_cons, edges_insert hx hn]
    cases hc with
    | nil => exact .edge
    | @cons _ w _ l hn' hc' =>
      exact .step (hP _ (by simp)) (ih (List.nodup_cons.mp hl).2 (by simp)
        fun a ha => hP a (List.mem_cons_of_mem _ ha))

theorem Chain.extend (h : Chain next y m r) (hm : m.Nodup) (hP : ∀ a ∈ m, P a) (hr : P r)
    (ht : Lib.Trail P E x r) : Lib.Trail P (edges next m.toFinset + E) x y := by
  induction h with
  | nil => exact ht.mono (Multiset.le_add_left _ _)
  | @cons y w z m hn hc ih =>
    have hy : y ∉ m.toFinset := by simpa using (List.nodup_cons.mp hm).1
    rw [List.toFinset_cons, edges_insert hy hn, Multiset.cons_add, Sym2.eq_swap]
    refine .snoc ?_ (ih (List.nodup_cons.mp hm).2 (fun a ha => hP a (List.mem_cons_of_mem _ ha))
      hr ht)
    cases hc with
    | nil => exact hr
    | cons => exact hP _ (by simp)

/-- Two initial cells whose pointers meet are the ends of a trail. -/
theorem trail_of_meet (hn : Linear next) (hS : ∀ a, next a ≠ none → a ∈ S)
    (hP : ∀ a, next a ≠ none → P a) (hx : Initial next x) (hy : Initial next y) (hxy : x ≠ y)
    (hr : P r) (hl : Chain next x l r) (hm : Chain next y m r) :
    Lib.Trail P (edges next S) x y := by
  have hdisj : Disjoint l.toFinset m.toFinset := by
    refine Finset.disjoint_left.mpr fun a hal ham => hxy ?_
    obtain ⟨_, hl'⟩ := hl.to_mem (List.mem_toFinset.mp hal)
    obtain ⟨_, hm'⟩ := hm.to_mem (List.mem_toFinset.mp ham)
    exact hl'.initial_unique hn hx hy hm' (hl.next_ne_none (List.mem_toFinset.mp hal))
  have hsub : ∀ {x l}, Chain next x l r → l.toFinset ⊆ S := fun h a ha =>
    hS a (h.next_ne_none (List.mem_toFinset.mp ha))
  have hle : edges next m.toFinset + edges next l.toFinset ≤ edges next S := by
    rw [edges, edges, ← Finset.sum_union hdisj.symm]
    exact edges_mono next (Finset.union_subset (hsub hm) (hsub hl))
  have hPl : ∀ {x l}, Chain next x l r → ∀ a ∈ l, P a := fun h a ha => hP a (h.next_ne_none ha)
  by_cases hnil : l = []
  · subst hnil
    cases hl
    have hmne : m ≠ [] := by rintro rfl; cases hm; exact hxy rfl
    exact ((hm.trail (hm.nodup hn hy) hmne (hPl hm)).mono (edges_mono next (hsub hm))).symm
  · exact (hm.extend (hm.nodup hn hy) (hPl hm) hr
      (hl.trail (hl.nodup hn hx) hnil (hPl hl))).mono hle

end Edges

end Lib.Pointer
