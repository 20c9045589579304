import InetLisp.Lib.Loop

/-! # Stuttering simulations of loops

A second loop may make rounds that the first does not make, as long as these get
smaller. Then both loops end on the same inputs, with the same errors and in related
states.
-/

namespace Lib

universe u u' v

variable {σ : Type u} {τ : Type u'} {ε : Type v} {more : σ → Bool} {step : σ → Except ε σ}
  {more' : τ → Bool} {step' : τ → Except ε τ} {R : σ → τ → Prop} {μ : τ → ℕ} {s : σ} {t : τ}

/-- What two related states do next. -/
inductive Answers (more : σ → Bool) (step : σ → Except ε σ) (more' : τ → Bool)
    (step' : τ → Except ε τ) (R : σ → τ → Prop) (μ : τ → ℕ) (s : σ) (t : τ) : Prop
  | done (h : more s = false) (h' : more' t = false)
  | error (e : ε) (h : more s = true) (hs : step s = .error e) (h' : more' t = true)
      (ht : step' t = .error e)
  | both (s' : σ) (t' : τ) (h : Next more step s s') (h' : Next more' step' t t') (hR : R s' t')
  | stutter (t' : τ) (h : Next more' step' t t') (hR : R s t') (hμ : μ t' < μ t)

/-- Results of the same kind: one error, or related states at the end. -/
def Agree (more : σ → Bool) (more' : τ → Bool) (R : σ → τ → Prop) :
    Except ε σ → Except ε τ → Prop
  | .ok s, .ok t => R s t ∧ more s = false ∧ more' t = false
  | .error e, .error e' => e = e'
  | _, _ => False

theorem ends_of_answers (h : ∀ s t, R s t → Answers more step more' step' R μ s t)
    (hR : R s t) {r : Except ε σ} (hr : Ends more step s r) :
    ∃ r', Ends more' step' t r' ∧ Agree more more' R r r' := by
  obtain ⟨n, hn⟩ := hr
  induction n generalizing s t with
  | zero => cases hn
  | succ n ih =>
    -- Rounds of the second loop alone come first; the measure bounds them.
    induction hm : μ t using Nat.strongRecOn generalizing t with
    | ind m ihm =>
      cases h s t hR with
      | done hs ht =>
        simp only [loop, hs, Bool.false_eq_true, if_false, Option.some.injEq] at hn
        subst hn
        exact ⟨_, .of_not_more ht, hR, hs, ht⟩
      | error e hs he ht he' =>
        simp only [loop, hs, if_true, he, Option.some.injEq] at hn
        subst hn
        exact ⟨_, .of_error ht he', rfl⟩
      | both s' t' hs ht hR' =>
        rw [loop_succ_of_ok hs.1 hs.2] at hn
        obtain ⟨r', hr', ha⟩ := ih hR' hn
        exact ⟨r', hr'.of_next ht, ha⟩
      | stutter t' ht hR' hlt =>
        obtain ⟨r', hr', ha⟩ := ihm _ (hm ▸ hlt) hR' rfl
        exact ⟨r', hr'.of_next ht, ha⟩

theorem ends_of_answers_right (h : ∀ s t, R s t → Answers more step more' step' R μ s t)
    (hR : R s t) {r' : Except ε τ} (hr : Ends more' step' t r') :
    ∃ r, Ends more step s r ∧ Agree more more' R r r' := by
  obtain ⟨n, hn⟩ := hr
  induction n generalizing s t with
  | zero => cases hn
  | succ n ih =>
    cases h s t hR with
    | done hs ht =>
      simp only [loop, ht, Bool.false_eq_true, if_false, Option.some.injEq] at hn
      subst hn
      exact ⟨_, .of_not_more hs, hR, hs, ht⟩
    | error e hs he ht he' =>
      simp only [loop, ht, if_true, he', Option.some.injEq] at hn
      subst hn
      exact ⟨_, .of_error hs he, rfl⟩
    | both s' t' hs ht hR' =>
      rw [loop_succ_of_ok ht.1 ht.2] at hn
      obtain ⟨r, hr, ha⟩ := ih hR' hn
      exact ⟨r, hr.of_next hs, ha⟩
    | stutter t' ht hR' hlt =>
      rw [loop_succ_of_ok ht.1 ht.2] at hn
      exact ih hR' hn

end Lib
