import Mathlib.Data.List.Perm.Basic

/-! # Chained buckets

A table of chains holds the elements of all its chains. Overwriting one chain
exchanges the elements of that chain only. Elements lie in the bucket that a
function of them gives, so each one is found in a single chain.
-/

namespace Lib.Chains

variable {α : Type*} {t : List (List α)} {b p : ℕ} {l d : List α} {a : α}

theorem exists_perm (h : t[b]? = some l) :
    ∃ r, t.flatten.Perm (l ++ r) ∧ ∀ d, (t.set b d).flatten.Perm (d ++ r) := by
  induction t generalizing b with
  | nil => simp at h
  | cons e t ih =>
    cases b with
    | zero =>
      obtain rfl : e = l := by simpa using h
      exact ⟨t.flatten, .refl _, fun d => .refl _⟩
    | succ b =>
      obtain ⟨r, hr, hd⟩ := ih (by simpa using h)
      have comm (d : List α) : (e ++ (d ++ r)).Perm (d ++ (e ++ r)) := by
        rw [← List.append_assoc, ← List.append_assoc]
        exact List.perm_append_comm.append_right r
      exact ⟨e ++ r, (hr.append_left e).trans (comm l), fun d => ((hd d).append_left e).trans (comm d)⟩

theorem perm_cons (h : t[b]? = some l) : (t.set b (a :: l)).flatten.Perm (a :: t.flatten) := by
  obtain ⟨r, hr, hd⟩ := exists_perm h
  exact (hd (a :: l)).trans (hr.symm.cons a)

theorem perm_eraseIdx (h : t[b]? = some l) (hp : l[p]? = some a) :
    t.flatten.Perm (a :: (t.set b (l.eraseIdx p)).flatten) := by
  obtain ⟨r, hr, hd⟩ := exists_perm h
  obtain ⟨hlt, ha⟩ := List.getElem?_eq_some_iff.mp hp
  have hc : l.Perm (a :: l.eraseIdx p) := ha ▸ (List.getElem_cons_eraseIdx_perm hlt).symm
  exact (hr.trans (hc.append_right r)).trans ((hd _).symm.cons a)

theorem perm_set (h : t[b]? = some l) (hp : l[p]? = some a) (e : α) :
    (t.set b (l.set p e)).flatten.Perm (e :: (t.set b (l.eraseIdx p)).flatten) := by
  obtain ⟨r, -, hd⟩ := exists_perm h
  obtain ⟨hlt, -⟩ := List.getElem?_eq_some_iff.mp hp
  have hc : (l.set p e).Perm (e :: l.eraseIdx p) := List.set_perm_cons_eraseIdx hlt e
  exact ((hd _).trans (hc.append_right r)).trans ((hd _).symm.cons e)

/-- Every element lies in its bucket. -/
def InPlace (bucket : α → ℕ) (t : List (List α)) : Prop :=
  ∀ b l, t[b]? = some l → ∀ a ∈ l, bucket a = b

variable {bucket : α → ℕ}

theorem InPlace.set (h : InPlace bucket t) (hd : ∀ a ∈ d, bucket a = b) :
    InPlace bucket (t.set b d) := by
  intro i l hc a ha
  rw [List.getElem?_set] at hc
  split at hc
  · subst i
    split at hc
    · exact hd a (Option.some.inj hc ▸ ha)
    · cases hc
  · exact h i l hc a ha

theorem InPlace.mem (h : InPlace bucket t) (ha : a ∈ t.flatten) (hc : t[bucket a]? = some l) :
    a ∈ l := by
  obtain ⟨e, he, hae⟩ := List.mem_flatten.mp ha
  obtain ⟨i, hi⟩ := List.mem_iff_getElem?.mp he
  rw [h i e hi a hae, hi] at hc
  exact Option.some.inj hc ▸ hae

theorem inPlace_replicate {n : ℕ} : InPlace bucket (List.replicate n []) := by
  intro b l hc a ha
  rw [List.getElem?_replicate] at hc
  split at hc
  · obtain rfl := Option.some.inj hc
    cases ha
  · cases hc

def inUse (t : List (List α)) : ℕ := t.countP fun l => !l.isEmpty

theorem inUse_le_length : inUse t ≤ t.length := List.countP_le_length

@[simp] theorem inUse_replicate {n : ℕ} : inUse (List.replicate n ([] : List α)) = 0 := by
  simp [inUse]

/-- Overwriting a chain counts for that chain only. -/
theorem inUse_set (h : t[b]? = some l) (d : List α) :
    inUse (t.set b d) + (if l = [] then 0 else 1) = inUse t + if d = [] then 0 else 1 := by
  induction t generalizing b with
  | nil => simp at h
  | cons e t ih =>
    cases b with
    | zero =>
      obtain rfl : e = l := by simpa using h
      cases e <;> cases d <;> simp [inUse]
    | succ b =>
      have ih := ih (b := b) (by simpa using h)
      simp only [inUse] at ih
      simp only [inUse, List.set_cons_succ, List.countP_cons]
      omega

theorem inUse_pos (h : t[b]? = some l) (hl : l ≠ []) : 0 < inUse t := by
  have hs := inUse_set h []
  rw [if_neg hl, if_pos rfl] at hs
  omega

end Lib.Chains
