import InetLisp.Core.Depict
import InetLisp.Lang.Draw
import InetLisp.Lang.Evaluate

/-! # Evaluating what is drawn

The evaluator does with values on the net what the drawing does with the ends that they stand
for, and stops only at a tie that cannot be made.
-/

namespace InetLisp

open Lib Wiring

/-- The evaluator has done what is drawn, or it has stopped at a tie that cannot be made. -/
def Evaluates (P : Program) (origin : ℕ → ℕ → Prop) (base : Wiring End) (d : Drawing) {α : Type}
    (Q : α → Prop) (x : Except (Stop EvalError) α) : Prop :=
  Outcome (fun stop => ∃ a e log, stop = .error (.rejected a e) log ∧ e.Expected ∧
    ¬ d.Proper P origin base) Q x

/-- Each name and each place on the stack stands for an end by its value. -/
def Shown (P : Program) (missed : Set Redex) (base : Wiring End) (origin : ℕ → ℕ → Prop)
    (bottom : List Value) (others : Multiset Value) (tasks : Multiset Task) (held : Glue)
    (τ : Labels × Drawing) (σ : Env × Store × Trace) : Prop :=
  ∃ (bound : List (String × Option (End × Value))) (stack : List (End × Value)),
    σ.1 = mapNames Prod.snd bound ∧ τ.1 = mapNames Prod.fst bound ∧
      σ.2.1.Depicts P missed base origin bottom others tasks ∅
        (Slots.content (bound.map Prod.snd) + held) stack τ.2

variable {P : Program} {missed : Set Redex} {base : Wiring End} {origin : ℕ → ℕ → Prop}
  {bottom : List Value} {others : Multiset Value} {tasks : Multiset Task} {held : Glue}
  {σ : Env × Store × Trace} {τ τ' : Labels × Drawing} {d d' : Drawing} {name : String}
  {find : String → Option Value} {nameList : List String} {arity : ℕ}

theorem Evaluates.bind {α β : Type} {Q : α → Prop} {R : β → Prop}
    {x : Except (Stop EvalError) α} {f : α → Except (Stop EvalError) β}
    (h : Evaluates P origin base d Q x) (hd : Drawing.Extends d d')
    (hf : ∀ a, Q a → Evaluates P origin base d' R (f a)) :
    Evaluates P origin base d' R (x >>= f) := by
  refine Outcome.bind (Outcome.imp h ?_ fun _ => id) hf
  rintro stop ⟨a, e, log, rfl, he, hp⟩
  exact ⟨a, e, log, rfl, he, fun hp' => hp (hp'.of_extends hd)⟩

theorem Env.set_eq {env : Env} {o : Option Value} : env.set name o = setName env name o := by
  induction env with
  | nil => rfl
  | cons x env ih =>
    obtain ⟨x, v⟩ := x
    unfold Env.set setName
    rw [ih]

theorem evalVar_shown (h : Shown P missed base origin bottom others tasks held τ σ)
    (hd : drawVar find name τ = some τ') :
    Evaluates P origin base τ'.2 (Shown P missed base origin bottom others tasks held τ')
      (evalVar find name σ) := by
  obtain ⟨env, s, t⟩ := σ
  obtain ⟨l, d⟩ := τ
  obtain ⟨bound, stack, henv, hl, h⟩ := h
  dsimp only at henv hl h
  subst henv hl
  unfold drawVar at hd
  unfold evalVar
  dsimp only at hd ⊢
  rw [lookup_mapNames] at hd ⊢
  cases hlook : bound.lookup name with
  | none =>
    rw [hlook] at hd
    dsimp only [Option.map_none] at hd ⊢
    cases hfind : find name with
    | none =>
      rw [hfind] at hd
      cases hd
    | some v =>
      rw [hfind] at hd
      dsimp only at hd ⊢
      split at hd
      · cases hd
        exact ⟨bound, _, rfl, rfl, h.pushAtom ‹_›⟩
      · cases hd
  | some o =>
    rw [hlook] at hd
    rcases o with _ | ⟨e, v⟩
    · cases hd
    · cases hd
      refine ⟨setName bound name none, (e, v) :: stack, ?_, ?_, ?_⟩
      · rw [Env.set_eq, mapNames_setName, Option.map_none]
      · rw [mapNames_setName, Option.map_none]
      · have hc := content_setName bound name none
        rw [hlook, Option.join_some, Slots.single_some, Slots.single_none, add_zero] at hc
        have hle := h.of_le ((e, v) :: stack)
          (Slots.content ((setName bound name none).map Prod.snd) + held) (by
            rw [← hc, ← Multiset.cons_coe, ← Multiset.singleton_add]
            apply le_of_eq
            abel)
        have hs : s.push v = { s with valueStack := ((e, v) :: stack).map Prod.snd ++ bottom } := by
          rw [Store.push, h.values]
          rfl
        have hd : d.push e = { d with stack := ((e, v) :: stack).map Prod.fst } := by
          rw [Drawing.push, h.ends]
          rfl
        dsimp only
        rw [hs, hd]
        exact hle

theorem evalBind_shown (h : Shown P missed base origin bottom others tasks held τ σ)
    (hd : drawBind name τ = some τ') :
    Evaluates P origin base τ'.2 (Shown P missed base origin bottom others tasks held τ')
      (evalBind name σ) := by
  obtain ⟨env, s, t⟩ := σ
  obtain ⟨l, d⟩ := τ
  obtain ⟨bound, stack, henv, hl, h⟩ := h
  dsimp only at henv hl h
  subst henv hl
  unfold drawBind at hd
  unfold evalBind
  dsimp only at hd ⊢
  split at hd
  · cases hd
  rename_i e ends hends
  rcases stack with _ | ⟨⟨e', v⟩, stack⟩
  · cases hends.symm.trans h.ends
  obtain ⟨rfl, rfl⟩ := List.cons.inj (hends.symm.trans h.ends)
  have hvalues : s.valueStack = v :: (stack.map Prod.snd ++ bottom) := h.values
  rw [hvalues]
  dsimp only
  have hmain : (bound.lookup name).join = none →
      Shown P missed base origin bottom others tasks held
        (setName (mapNames Prod.fst bound) name (some e), { d with stack := stack.map Prod.fst })
        (Env.set (mapNames Prod.snd bound) name (some v),
          { s with valueStack := stack.map Prod.snd ++ bottom }, t) := by
    intro hnone
    refine ⟨setName bound name (some (e, v)), stack, ?_, ?_, ?_⟩
    · rw [Env.set_eq, mapNames_setName, Option.map_some]
    · rw [mapNames_setName, Option.map_some]
    · have hc := content_setName bound name (some (e, v))
      rw [hnone, Slots.single_some, Slots.single_none, add_zero] at hc
      apply h.of_le
      rw [hc, ← Multiset.cons_coe, ← Multiset.singleton_add]
      apply le_of_eq
      abel
  rw [lookup_mapNames] at hd ⊢
  cases hlook : bound.lookup name with
  | none =>
    rw [hlook] at hd hmain
    cases hd
    exact hmain rfl
  | some o =>
    rw [hlook] at hd hmain
    rcases o with _ | ⟨e', v'⟩
    · cases hd
      exact hmain rfl
    · cases hd

theorem evalBindList_shown (h : Shown P missed base origin bottom others tasks held τ σ)
    (hd : drawBindList nameList τ = some τ') :
    Evaluates P origin base τ'.2 (Shown P missed base origin bottom others tasks held τ')
      (evalBindList nameList σ) := by
  unfold drawBindList at hd
  unfold evalBindList
  induction nameList generalizing τ' with
  | nil =>
    cases hd
    exact h
  | cons name nameList ih =>
    rw [List.foldrM_cons] at hd ⊢
    obtain ⟨τ₁, h₁, hd⟩ := Option.bind_eq_some_iff.mp hd
    apply (ih h₁).bind (.of_bind hd)
    exact fun σ₁ hσ₁ => evalBind_shown hσ₁ hd

/-- A call does on the net what it draws. -/
def CallsShown (P : Program) (missed : Set Redex) (base : Wiring End) (origin : ℕ → ℕ → Prop)
    (bottom : List Value) (others : Multiset Value) (tasks : Multiset Task)
    (draw : ℕ → Drawing → Option Drawing)
    (call : ℕ → Store × Trace → Except (Stop EvalError) (Store × Trace)) : Prop :=
  ∀ (held : Glue) (f : ℕ) (s : Store) (t : Trace) (stack : List (End × Value)) (d d' : Drawing),
    s.Depicts P missed base origin bottom others tasks ∅ held stack d → draw f d = some d' →
      Evaluates P origin base d' (fun σ => ∃ stack',
        σ.1.Depicts P missed base origin bottom others tasks ∅ held stack' d') (call f (s, t))

variable {draw : ℕ → Drawing → Option Drawing}
  {call : ℕ → Store × Trace → Except (Stop EvalError) (Store × Trace)}

theorem evalApply_shown (hP : P.Ok)
    (hcall : CallsShown P missed base origin bottom others tasks draw call)
    (hdraw : ∀ f d d', draw f d = some d' → Drawing.Extends d d')
    (h : Shown P missed base origin bottom others tasks held τ σ)
    (hd : drawApply P draw arity τ = some τ') :
    Evaluates P origin base τ'.2 (Shown P missed base origin bottom others tasks held τ')
      (evalApply P call arity σ) := by
  obtain ⟨env, s, t⟩ := σ
  obtain ⟨l, d⟩ := τ
  obtain ⟨bound, stack, henv, hl, h⟩ := h
  dsimp only at henv hl h
  unfold drawApply at hd
  unfold evalApply
  dsimp only at hd ⊢
  split at hd
  swap
  · cases hd
  rename_i v ends hends
  rcases stack with _ | ⟨⟨e, u⟩, stack⟩
  · cases hends.symm.trans h.ends
  obtain ⟨rfl, rfl⟩ := List.cons.inj (hends.symm.trans h.ends)
  obtain ⟨rfl, hv⟩ := h.atom_of_mem
  have hvalues : s.valueStack = u :: (stack.map Prod.snd ++ bottom) := h.values
  rw [hvalues]
  dsimp only
  have h₁ := h.of_le stack _ (by
    rw [← Multiset.cons_coe, Multiset.cons_add]
    exact Multiset.le_cons_self _ _)
  have happly : ∀ s : Store, s.applyTarget P u arity = s.applyNonWire P u arity := by
    intro s
    unfold Store.applyTarget
    split
    · exact hv.elim
    · rfl
  rw [happly]
  split at hd
  · cases hd
  · rename_i d₁ hd₁
    cases hd
    have hstep := h₁.applyNonWire hP hd₁
    cases hx : Store.applyNonWire P
      { s with valueStack := stack.map Prod.snd ++ bottom } u arity with
    | error er =>
      obtain ⟨he, hp⟩ := hstep.of_error hx
      exact ⟨_, er, _, rfl, he, hp⟩
    | ok x =>
      obtain ⟨s₁, f⟩ := x
      obtain ⟨rfl, stack₁, h₂⟩ := hstep.of_ok hx
      exact ⟨bound, stack₁, henv, hl, h₂⟩
  · rename_i d₁ f hd₁
    obtain ⟨d₂, hf, rfl⟩ := Option.map_eq_some_iff.mp hd
    have hstep := h₁.applyNonWire hP hd₁
    cases hx : Store.applyNonWire P
      { s with valueStack := stack.map Prod.snd ++ bottom } u arity with
    | error er =>
      obtain ⟨he, hp⟩ := hstep.of_error hx
      exact ⟨_, er, _, rfl, he, fun hp' => hp (hp'.of_extends (hdraw f _ _ hf))⟩
    | ok x =>
      obtain ⟨s₁, f'⟩ := x
      obtain ⟨rfl, stack₁, h₂⟩ := hstep.of_ok hx
      apply (hcall _ f s₁ _ stack₁ d₁ d₂ h₂ hf).bind (Drawing.Extends.refl _)
      rintro ⟨s₂, t₂⟩ ⟨stack₂, h₃⟩
      exact ⟨bound, stack₂, henv, hl, h₃⟩

mutual

theorem evalExp_shown (hP : P.Ok)
    (hcall : CallsShown P missed base origin bottom others tasks draw call)
    (hdraw : ∀ f d d', draw f d = some d' → Drawing.Extends d d') {exp : Exp}
    {τ τ' : Labels × Drawing} {σ : Env × Store × Trace}
    (h : Shown P missed base origin bottom others tasks held τ σ)
    (hd : drawExp P draw find exp τ = some τ') :
    Evaluates P origin base τ'.2 (Shown P missed base origin bottom others tasks held τ')
      (evalExp P call find exp σ) := by
  cases exp with
  | var name =>
    unfold drawExp at hd
    unfold evalExp
    exact evalVar_shown h hd
  | ap target argList =>
    unfold drawExp at hd
    unfold evalExp
    obtain ⟨τ₁, h₁, hd⟩ := Option.bind_eq_some_iff.mp hd
    obtain ⟨τ₂, h₂, hd⟩ := Option.bind_eq_some_iff.mp hd
    have he₁ := Drawing.Extends.of_exp hdraw h₂
    have he₂ := Drawing.Extends.of_apply hdraw hd
    apply (evalExpList_shown hP hcall hdraw h h₁).bind (he₁.trans he₂)
    intro σ₁ hσ₁
    apply (evalExp_shown hP hcall hdraw hσ₁ h₂).bind he₂
    exact fun σ₂ hσ₂ => evalApply_shown hP hcall hdraw hσ₂ hd
  | assign nameList exp =>
    unfold drawExp at hd
    unfold evalExp
    obtain ⟨τ₁, h₁, hd⟩ := Option.bind_eq_some_iff.mp hd
    apply (evalExp_shown hP hcall hdraw h h₁).bind (.of_bindList hd)
    exact fun σ₁ hσ₁ => evalBindList_shown hσ₁ hd
  | int target =>
    obtain ⟨env, s, t⟩ := σ
    obtain ⟨l, d⟩ := τ
    obtain ⟨bound, stack, henv, hl, h⟩ := h
    cases hd
    exact ⟨bound, _, henv, hl, h.pushAtom trivial⟩
  | float target =>
    obtain ⟨env, s, t⟩ := σ
    obtain ⟨l, d⟩ := τ
    obtain ⟨bound, stack, henv, hl, h⟩ := h
    cases hd
    exact ⟨bound, _, henv, hl, h.pushAtom trivial⟩

theorem evalExpList_shown (hP : P.Ok)
    (hcall : CallsShown P missed base origin bottom others tasks draw call)
    (hdraw : ∀ f d d', draw f d = some d' → Drawing.Extends d d') {expList : List Exp}
    {τ τ' : Labels × Drawing} {σ : Env × Store × Trace}
    (h : Shown P missed base origin bottom others tasks held τ σ)
    (hd : drawExpList P draw find expList τ = some τ') :
    Evaluates P origin base τ'.2 (Shown P missed base origin bottom others tasks held τ')
      (evalExpList P call find expList σ) := by
  cases expList with
  | nil =>
    cases hd
    exact h
  | cons exp expList =>
    unfold drawExpList at hd
    unfold evalExpList
    obtain ⟨τ₁, h₁, hd⟩ := Option.bind_eq_some_iff.mp hd
    apply (evalExp_shown hP hcall hdraw h h₁).bind (.of_expList hdraw hd)
    exact fun σ₁ hσ₁ => evalExpList_shown hP hcall hdraw hσ₁ hd

end

/-- A call of a function; what its names still stand for in the end is dropped. -/
theorem evalCall_shown (hP : P.Ok) (bodies : List Body) (k : ℕ) :
    CallsShown P missed base origin bottom others tasks (drawCall P bodies k)
      (evalCall P bodies k) := by
  induction k with
  | zero => exact fun _ _ _ _ _ _ _ _ hd => by cases hd
  | succ k ih =>
    intro held f s t stack d d' h hd
    unfold drawCall at hd
    unfold evalCall
    obtain ⟨body, hbody, hd⟩ := Option.bind_eq_some_iff.mp hd
    obtain ⟨τ₁, h₁, hd⟩ := Option.bind_eq_some_iff.mp hd
    obtain ⟨⟨l, d₂⟩, h₂, hd⟩ := Option.bind_eq_some_iff.mp hd
    cases hd
    rw [hbody]
    dsimp only
    have hdraw : ∀ f d d', drawCall P bodies k f d = some d' → Drawing.Extends d d' :=
      fun _ _ _ => Drawing.Extends.of_call
    have h₀ : Shown P missed base origin bottom others tasks held ([], d) ([], s, t) :=
      ⟨[], stack, rfl, rfl, by simpa using h⟩
    apply (evalBindList_shown h₀ h₁).bind (.of_expList hdraw h₂)
    intro σ₁ hσ₁
    apply (evalExpList_shown hP ih hdraw hσ₁ h₂).bind (Drawing.Extends.refl _)
    rintro ⟨env, s₂, t₂⟩ ⟨bound, stack₂, -, -, h₃⟩
    refine ⟨stack₂, ?_⟩
    have hdrop := h₃.of_le stack₂ held
      (add_le_add le_rfl (Multiset.le_add_left _ _))
    dsimp only at h₃ hdrop
    rwa [← h₃.values, ← h₃.ends] at hdrop

end InetLisp
