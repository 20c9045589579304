import InetLisp.Lang.Draw

/-! # New names in a drawing

What is drawn does not depend on the names of nodes and links: with other names for those that are
there, and new names counted from other numbers on, the same is drawn in the other names. So the
body of a rule is drawn once, and each use of the rule draws that in names of its own.
-/

namespace InetLisp

/-- Names for nodes and links. -/
structure Naming where
  node : ℕ → ℕ
  link : ℕ → ℕ

def End.rename (ρ : Naming) : End → End
  | .port n i => .port (ρ.node n) i
  | .link k b => .link (ρ.link k) b
  | .value v => .value v

namespace Drawing

structure Renamed (ρ : Naming) (d d' : Drawing) : Prop where
  next : ∀ j, ρ.node (d.next + j) = d'.next + j
  links : ∀ j, ρ.link (d.links + j) = d'.links + j
  nodes : d'.nodes = d.nodes.map (Prod.map ρ.node id)
  ties : d'.ties = d.ties.map (Prod.map (End.rename ρ) (End.rename ρ))
  stack : d'.stack = d.stack.map (End.rename ρ)

variable {P : Program} {ρ : Naming} {d d' d₁ : Drawing} {n c i k arity : ℕ} {ctor : NodeCtor}
  {e : End} {l : List End} {target : Value} {fn : PrimitiveFn} {f : Option ℕ}

namespace Renamed

theorem push (h : Renamed ρ d d') (e : End) : Renamed ρ (d.push e) (d'.push (e.rename ρ)) where
  next := h.next
  links := h.links
  nodes := h.nodes
  ties := h.ties
  stack := by simp [Drawing.push, h.stack]

theorem setStack (h : Renamed ρ d d') (l : List End) :
    Renamed ρ { d with stack := l } { d' with stack := l.map (End.rename ρ) } where
  next := h.next
  links := h.links
  nodes := h.nodes
  ties := h.ties
  stack := rfl

theorem tie (h : Renamed ρ d d') (l : List End) (e₁ e₂ : End) :
    Renamed ρ { d with stack := l, ties := d.ties ++ [(e₁, e₂)] }
      { d' with
        stack := l.map (End.rename ρ)
        ties := d'.ties ++ [(e₁.rename ρ, e₂.rename ρ)] } where
  next := h.next
  links := h.links
  nodes := h.nodes
  ties := by simp [h.ties]
  stack := rfl

theorem inputs (h : Renamed ρ d d') (hd : d.inputs n i = some d₁) :
    ∃ d₁', d'.inputs (ρ.node n) i = some d₁' ∧ Renamed ρ d₁ d₁' := by
  induction i generalizing d d' with
  | zero =>
    cases hd
    exact ⟨d', rfl, h⟩
  | succ i ih =>
    unfold Drawing.inputs at hd ⊢
    cases hs : d.stack with
    | nil =>
      rw [hs] at hd
      cases hd
    | cons e l =>
      rw [hs] at hd
      rw [h.stack, hs]
      exact ih (h.tie l (.port n i) e) hd

theorem outputs (h : Renamed ρ d d') : Renamed ρ (d.outputs n k i) (d'.outputs (ρ.node n) k i) := by
  induction k generalizing d d' i with
  | zero => exact h
  | succ k ih => exact ih (h.push (.port n i))

theorem node (h : Renamed ρ d d') (hd : d.node ctor c arity = some d₁) :
    ∃ d₁', d'.node ctor c arity = some d₁' ∧ Renamed ρ d₁ d₁' := by
  unfold Drawing.node at hd ⊢
  split at hd
  · rename_i harity
    obtain ⟨d₂, h₂, rfl⟩ := Option.map_eq_some_iff.mp hd
    have hnext : ρ.node d.next = d'.next := h.next 0
    have h₀ : Renamed ρ { d with next := d.next + 1, nodes := d.nodes ++ [(d.next, c)] }
        { d' with next := d'.next + 1, nodes := d'.nodes ++ [(d'.next, c)] } := by
      constructor
      · intro j
        rw [add_assoc, add_assoc, h.next]
      · exact h.links
      · simp [h.nodes, hnext]
      · exact h.ties
      · exact h.stack
    obtain ⟨d₂', h₂', hr⟩ := h₀.inputs h₂
    rw [hnext] at h₂'
    rw [if_pos harity, h₂', ← hnext]
    exact ⟨_, rfl, hr.outputs⟩
  · cases hd

theorem primitive (h : Renamed ρ d d') (hd : d.primitive fn = some d₁) :
    ∃ d₁', d'.primitive fn = some d₁' ∧ Renamed ρ d₁ d₁' := by
  unfold Drawing.primitive at hd ⊢
  split at hd
  · split at hd
    · rename_i second first l hs
      cases hd
      rw [h.stack, hs]
      exact ⟨_, rfl, h.tie l first second⟩
    · cases hd
  · cases hd
    have hlinks : ρ.link d.links = d'.links := h.links 0
    refine ⟨_, rfl, h.next, ?_, h.nodes, ?_, ?_⟩
    · intro j
      dsimp only
      rw [add_assoc, add_assoc, h.links]
    · simp [h.ties, End.rename, hlinks]
    · simp [h.stack, End.rename, hlinks]
  · cases hd

theorem apply (h : Renamed ρ d d') (hd : d.apply P target arity = some (d₁, f)) :
    ∃ d₁', d'.apply P target arity = some (d₁', f) ∧ Renamed ρ d₁ d₁' := by
  unfold Drawing.apply at hd ⊢
  split at hd
  · obtain ⟨ctor, hc, hd⟩ := Option.bind_eq_some_iff.mp hd
    obtain ⟨d₂, h₂, hd⟩ := Option.bind_eq_some_iff.mp hd
    cases hd
    obtain ⟨d₂', h₂', hr⟩ := h.node h₂
    exact ⟨d₂', by simp [hc, h₂'], hr⟩
  · obtain ⟨function, hf, hd⟩ := Option.bind_eq_some_iff.mp hd
    split at hd
    · rename_i ha
      cases hd
      exact ⟨d', by simp [hf, ha], h⟩
    · cases hd
  · obtain ⟨p, hp, hd⟩ := Option.bind_eq_some_iff.mp hd
    split at hd
    · rename_i c hpc
      obtain ⟨ctor, hc, hd⟩ := Option.bind_eq_some_iff.mp hd
      obtain ⟨d₂, h₂, hd⟩ := Option.bind_eq_some_iff.mp hd
      cases hd
      obtain ⟨d₂', h₂', hr⟩ := h.node h₂
      exact ⟨d₂', by simp [hp, hpc, hc, h₂'], hr⟩
    · rename_i hpc
      split at hd
      · rename_i ha
        obtain ⟨d₂, h₂, hd⟩ := Option.bind_eq_some_iff.mp hd
        cases hd
        obtain ⟨d₂', h₂', hr⟩ := h.primitive h₂
        exact ⟨d₂', by simp [hp, hpc, ha, h₂'], hr⟩
      · cases hd
  · cases hd

end Renamed

end Drawing

def Relabeled (ρ : Naming) (σ σ' : Labels × Drawing) : Prop :=
  σ'.1 = mapNames (End.rename ρ) σ.1 ∧ Drawing.Renamed ρ σ.2 σ'.2

namespace Relabeled

variable {P : Program} {ρ : Naming} {σ σ' τ : Labels × Drawing} {find : String → Option Value}
  {call : ℕ → Drawing → Option Drawing} {name : String} {nameList : List String} {arity : ℕ}
  {bodies : List Body} {d d' d₁ : Drawing} {k f : ℕ}

theorem var (h : Relabeled ρ σ σ') (hd : drawVar find name σ = some τ) :
    ∃ τ', drawVar find name σ' = some τ' ∧ Relabeled ρ τ τ' := by
  obtain ⟨l, d⟩ := σ
  obtain ⟨l', d'⟩ := σ'
  obtain ⟨rfl, h⟩ := h
  unfold drawVar at hd ⊢
  dsimp only at hd h ⊢
  rw [lookup_mapNames]
  split at hd
  · rename_i e hl
    cases hd
    rw [hl]
    exact ⟨_, rfl, by rw [mapNames_setName]; rfl, h.push e⟩
  · cases hd
  · rename_i hl
    rw [hl]
    dsimp only [Option.map_none]
    split at hd
    · rename_i v hv
      split at hd
      · rename_i hw
        cases hd
        exact ⟨_, if_pos hw, rfl, h.push (.value v)⟩
      · cases hd
    · cases hd

theorem bind (h : Relabeled ρ σ σ') (hd : drawBind name σ = some τ) :
    ∃ τ', drawBind name σ' = some τ' ∧ Relabeled ρ τ τ' := by
  obtain ⟨l, d⟩ := σ
  obtain ⟨l', d'⟩ := σ'
  obtain ⟨rfl, h⟩ := h
  unfold drawBind at hd ⊢
  dsimp only at hd h ⊢
  split at hd
  · cases hd
  · rename_i e stack hs
    rw [h.stack, hs, lookup_mapNames]
    cases hl : l.lookup name with
    | none =>
      rw [hl] at hd
      cases hd
      exact ⟨_, rfl, by rw [mapNames_setName]; rfl, h.setStack stack⟩
    | some o =>
      rw [hl] at hd
      cases o with
      | none =>
        cases hd
        exact ⟨_, rfl, by rw [mapNames_setName]; rfl, h.setStack stack⟩
      | some e' => cases hd

theorem bindList (h : Relabeled ρ σ σ') (hd : drawBindList nameList σ = some τ) :
    ∃ τ', drawBindList nameList σ' = some τ' ∧ Relabeled ρ τ τ' := by
  unfold drawBindList at hd ⊢
  induction nameList generalizing τ with
  | nil =>
    cases hd
    exact ⟨σ', rfl, h⟩
  | cons name nameList ih =>
    rw [List.foldrM_cons] at hd
    obtain ⟨σ₁, h₁, hd⟩ := Option.bind_eq_some_iff.mp hd
    obtain ⟨σ₁', h₁', hr₁⟩ := ih h₁
    obtain ⟨τ', hτ, hr⟩ := hr₁.bind hd
    rw [List.foldrM_cons, h₁']
    exact ⟨τ', hτ, hr⟩

/-- A function that draws the same in other names. -/
def Uniform (ρ : Naming) (call : ℕ → Drawing → Option Drawing) : Prop :=
  ∀ f d d' d₁, Drawing.Renamed ρ d d' → call f d = some d₁ →
    ∃ d₁', call f d' = some d₁' ∧ Drawing.Renamed ρ d₁ d₁'

theorem apply (hcall : Uniform ρ call) (h : Relabeled ρ σ σ')
    (hd : drawApply P call arity σ = some τ) :
    ∃ τ', drawApply P call arity σ' = some τ' ∧ Relabeled ρ τ τ' := by
  obtain ⟨l, d⟩ := σ
  obtain ⟨l', d'⟩ := σ'
  obtain ⟨rfl, h⟩ := h
  unfold drawApply at hd ⊢
  dsimp only at hd h ⊢
  split at hd
  · rename_i v stack hs
    rw [h.stack, hs]
    split at hd
    · cases hd
    · rename_i d₂ h₂
      cases hd
      obtain ⟨d₂', h₂', hr⟩ := (h.setStack stack).apply h₂
      exact ⟨(mapNames (End.rename ρ) l, d₂'), by simp [End.rename, h₂'], rfl, hr⟩
    · rename_i d₂ f h₂
      obtain ⟨d₃, h₃, rfl⟩ := Option.map_eq_some_iff.mp hd
      obtain ⟨d₂', h₂', hr⟩ := (h.setStack stack).apply h₂
      obtain ⟨d₃', h₃', hr'⟩ := hcall f d₂ d₂' d₃ hr h₃
      exact ⟨(mapNames (End.rename ρ) l, d₃'), by simp [End.rename, h₂', h₃'], rfl, hr'⟩
  · cases hd

mutual

theorem exp (hcall : Uniform ρ call) {exp : Exp} {σ σ' τ : Labels × Drawing}
    (h : Relabeled ρ σ σ') (hd : drawExp P call find exp σ = some τ) :
    ∃ τ', drawExp P call find exp σ' = some τ' ∧ Relabeled ρ τ τ' := by
  cases exp with
  | var name => exact h.var hd
  | ap target argList =>
    unfold drawExp at hd ⊢
    obtain ⟨σ₁, h₁, hd⟩ := Option.bind_eq_some_iff.mp hd
    obtain ⟨σ₂, h₂, hd⟩ := Option.bind_eq_some_iff.mp hd
    obtain ⟨σ₁', h₁', hr₁⟩ := expList hcall h h₁
    obtain ⟨σ₂', h₂', hr₂⟩ := exp hcall hr₁ h₂
    obtain ⟨τ', hτ, hr⟩ := hr₂.apply hcall hd
    exact ⟨τ', by simp [h₁', h₂', hτ], hr⟩
  | assign nameList exp' =>
    unfold drawExp at hd ⊢
    obtain ⟨σ₁, h₁, hd⟩ := Option.bind_eq_some_iff.mp hd
    obtain ⟨σ₁', h₁', hr₁⟩ := exp hcall h h₁
    obtain ⟨τ', hτ, hr⟩ := hr₁.bindList hd
    exact ⟨τ', by simp [h₁', hτ], hr⟩
  | int target =>
    cases hd
    exact ⟨_, rfl, h.1, h.2.push (.value (xint target))⟩
  | float target =>
    cases hd
    exact ⟨_, rfl, h.1, h.2.push (.value (xfloat target))⟩

theorem expList (hcall : Uniform ρ call) {expList' : List Exp} {σ σ' τ : Labels × Drawing}
    (h : Relabeled ρ σ σ') (hd : drawExpList P call find expList' σ = some τ) :
    ∃ τ', drawExpList P call find expList' σ' = some τ' ∧ Relabeled ρ τ τ' := by
  cases expList' with
  | nil =>
    cases hd
    exact ⟨σ', rfl, h⟩
  | cons exp' rest =>
    unfold drawExpList at hd ⊢
    obtain ⟨σ₁, h₁, hd⟩ := Option.bind_eq_some_iff.mp hd
    obtain ⟨σ₁', h₁', hr₁⟩ := exp hcall h h₁
    obtain ⟨τ', hτ, hr⟩ := expList hcall hr₁ hd
    exact ⟨τ', by simp [h₁', hτ], hr⟩

end

/-- A body is drawn alike in all names. -/
theorem uniform_drawCall (P : Program) (bodies : List Body) (ρ : Naming) (k : ℕ) :
    Uniform ρ (drawCall P bodies k) := by
  induction k with
  | zero => exact fun _ _ _ _ _ hd => by cases hd
  | succ k ih =>
    intro f d d' d₁ h hd
    unfold drawCall at hd ⊢
    obtain ⟨body, hbody, hd⟩ := Option.bind_eq_some_iff.mp hd
    obtain ⟨σ₁, h₁, hd⟩ := Option.bind_eq_some_iff.mp hd
    obtain ⟨⟨l, d₂⟩, h₂, hd⟩ := Option.bind_eq_some_iff.mp hd
    cases hd
    have h₀ : Relabeled ρ ([], d) ([], d') := ⟨rfl, h⟩
    obtain ⟨σ₁', h₁', hr₁⟩ := h₀.bindList h₁
    obtain ⟨⟨l', d₂'⟩, h₂', -, hr₂⟩ := hr₁.expList ih h₂
    exact ⟨d₂', by simp [hbody, h₁', h₂'], hr₂⟩

end Relabeled

end InetLisp
