import InetLisp.Lang.Draw

/-! # The ends of a drawing

What a body ties are ends that it has been given, ports of nodes that it draws, its own links and
atoms; and it draws each node once.
-/

namespace InetLisp

/-- The end is given, is an atom, or has been drawn. -/
def End.Within (E : Set End) (d : Drawing) (e : End) : Prop :=
  e ∈ E ∨ e.IsAtom ∨ (∃ k i c, e = .port k i ∧ (k, c) ∈ d.nodes) ∨
    ∃ k b, e = .link k b ∧ k < d.links

namespace Drawing

structure Grown (d d' : Drawing) : Prop where
  nodes : d.nodes ⊆ d'.nodes
  links : d.links ≤ d'.links

/-- All ends are given ones, or have been drawn; names of nodes are new from a number on. -/
structure Within (E : Set End) (first : ℕ) (d : Drawing) : Prop where
  stack : ∀ e ∈ d.stack, e.Within E d
  ties : ∀ t ∈ d.ties, t.1.Within E d ∧ t.2.Within E d
  nodes : ∀ x ∈ d.nodes, first ≤ x.1 ∧ x.1 < d.next
  nodup : (d.nodes.map Prod.fst).Nodup
  next : first ≤ d.next

variable {P : Program} {E : Set End} {first : ℕ} {d d' d'' : Drawing} {n c i k arity : ℕ}
  {ctor : NodeCtor} {e : End} {l : List End} {target : Value} {fn : PrimitiveFn} {f : Option ℕ}

namespace Grown

theorem refl (d : Drawing) : Grown d d := ⟨fun _ h => h, le_rfl⟩

theorem trans (h : Grown d d') (h' : Grown d' d'') : Grown d d'' :=
  ⟨fun _ hm => h'.nodes (h.nodes hm), h.links.trans h'.links⟩

theorem within (h : Grown d d') (he : e.Within E d) : e.Within E d' := by
  rcases he with he | he | ⟨k, i, c, rfl, hm⟩ | ⟨k, b, rfl, hk⟩
  · exact .inl he
  · exact .inr (.inl he)
  · exact .inr (.inr (.inl ⟨k, i, c, rfl, h.nodes hm⟩))
  · exact .inr (.inr (.inr ⟨k, b, rfl, hk.trans_le h.links⟩))

end Grown

namespace Within

theorem push (h : d.Within E first) (he : e.Within E d) : (d.push e).Within E first where
  stack x hx := by
    rcases List.mem_cons.mp hx with rfl | hx
    · exact he
    · exact h.stack x hx
  ties := h.ties
  nodes := h.nodes
  nodup := h.nodup
  next := h.next

theorem setStack (h : d.Within E first) (hl : ∀ e ∈ l, e ∈ d.stack) :
    ({ d with stack := l } : Drawing).Within E first where
  stack e he := h.stack e (hl e he)
  ties := h.ties
  nodes := h.nodes
  nodup := h.nodup
  next := h.next

theorem tie {e₁ e₂ : End} (h : d.Within E first) (hl : ∀ e ∈ l, e ∈ d.stack)
    (h₁ : e₁.Within E d) (h₂ : e₂.Within E d) :
    ({ d with stack := l, ties := d.ties ++ [(e₁, e₂)] } : Drawing).Within E first where
  stack e he := h.stack e (hl e he)
  ties t ht := by
    rcases List.mem_append.mp ht with ht | ht
    · exact h.ties t ht
    · rw [List.mem_singleton.mp ht]
      exact ⟨h₁, h₂⟩
  nodes := h.nodes
  nodup := h.nodup
  next := h.next

theorem inputs (h : d.Within E first) (hn : (n, c) ∈ d.nodes) (hd : d.inputs n i = some d') :
    d'.Within E first ∧ Grown d d' ∧ (n, c) ∈ d'.nodes := by
  induction i generalizing d with
  | zero =>
    cases hd
    exact ⟨h, .refl _, hn⟩
  | succ i ih =>
    unfold Drawing.inputs at hd
    split at hd
    · cases hd
    · rename_i e l hs
      have hport : (End.port n i).Within E d := .inr (.inr (.inl ⟨n, i, c, rfl, hn⟩))
      have he : e.Within E d := h.stack e (hs ▸ List.mem_cons_self ..)
      have h₁ := h.tie (l := l) (fun x hx => hs ▸ List.mem_cons_of_mem _ hx) hport he
      obtain ⟨h₂, hg, hn'⟩ := ih h₁ hn hd
      exact ⟨h₂, ⟨hg.nodes, hg.links⟩, hn'⟩

theorem outputs (h : d.Within E first) (hn : (n, c) ∈ d.nodes) :
    (d.outputs n k i).Within E first ∧ Grown d (d.outputs n k i) := by
  induction k generalizing d i with
  | zero => exact ⟨h, .refl _⟩
  | succ k ih =>
    have h₁ := h.push (e := .port n i) (.inr (.inr (.inl ⟨n, i, c, rfl, hn⟩)))
    obtain ⟨h₂, hg⟩ := ih (i := i + 1) h₁ hn
    exact ⟨h₂, ⟨hg.nodes, hg.links⟩⟩

theorem node (h : d.Within E first) (hd : d.node ctor c arity = some d') :
    d'.Within E first ∧ Grown d d' := by
  unfold Drawing.node at hd
  split at hd
  · obtain ⟨d₁, h₁, rfl⟩ := Option.map_eq_some_iff.mp hd
    have hgrown : Grown d { d with next := d.next + 1, nodes := d.nodes ++ [(d.next, c)] } :=
      ⟨List.subset_append_left _ _, le_rfl⟩
    have hnew : (d.next, c) ∈ d.nodes ++ [(d.next, c)] := by simp
    have h₀ : Drawing.Within E first
        { d with next := d.next + 1, nodes := d.nodes ++ [(d.next, c)] } := by
      constructor
      · exact fun e he => hgrown.within (h.stack e he)
      · exact fun t ht => ⟨hgrown.within (h.ties t ht).1, hgrown.within (h.ties t ht).2⟩
      · intro x hx
        rcases List.mem_append.mp hx with hx | hx
        · exact ⟨(h.nodes x hx).1, (h.nodes x hx).2.trans (Nat.lt_succ_self _)⟩
        · rw [List.mem_singleton.mp hx]
          exact ⟨h.next, Nat.lt_succ_self _⟩
      · rw [List.map_append, List.map_singleton, List.nodup_append']
        refine ⟨h.nodup, List.nodup_singleton _, ?_⟩
        intro x hx hx'
        obtain ⟨y, hy, rfl⟩ := List.mem_map.mp hx
        have hlt := (h.nodes y hy).2
        have heq := List.mem_singleton.mp hx'
        omega
      · exact h.next.trans (Nat.le_succ _)
    obtain ⟨h₂, hg₂, hn⟩ := h₀.inputs hnew h₁
    obtain ⟨h₃, hg₃⟩ := h₂.outputs (k := ctor.arity - arity) (i := arity) hn
    exact ⟨h₃, hgrown.trans (hg₂.trans hg₃)⟩
  · cases hd

theorem primitive (h : d.Within E first) (hd : d.primitive fn = some d') :
    d'.Within E first ∧ Grown d d' := by
  unfold Drawing.primitive at hd
  split at hd
  · split at hd
    · rename_i second first' l hs
      cases hd
      refine ⟨h.tie ?_ ?_ ?_, ⟨fun _ h => h, le_rfl⟩⟩
      · exact fun x hx => hs ▸ List.mem_cons_of_mem _ (List.mem_cons_of_mem _ hx)
      · exact h.stack first' (hs ▸ List.mem_cons_of_mem _ (List.mem_cons_self ..))
      · exact h.stack second (hs ▸ List.mem_cons_self ..)
    · cases hd
  · cases hd
    have hgrown : Grown d { d with links := d.links + 1 } := ⟨fun _ h => h, Nat.le_succ _⟩
    have h₀ : Drawing.Within E first { d with links := d.links + 1 } :=
      ⟨fun e he => hgrown.within (h.stack e he),
        fun t ht => ⟨hgrown.within (h.ties t ht).1, hgrown.within (h.ties t ht).2⟩, h.nodes,
          h.nodup, h.next⟩
    have hlink : ∀ b, (End.link d.links b).Within E { d with links := d.links + 1 } :=
      fun b => .inr (.inr (.inr ⟨_, b, rfl, Nat.lt_succ_self _⟩))
    have h₁ := h₀.tie (fun _ hx => hx) (hlink false) (hlink true)
    have h₂ := (h₁.push (hlink false)).push (hlink true)
    exact ⟨h₂, ⟨hgrown.nodes, hgrown.links⟩⟩
  · cases hd

theorem apply (h : d.Within E first) (hd : d.apply P target arity = some (d', f)) :
    d'.Within E first ∧ Grown d d' := by
  unfold Drawing.apply at hd
  split at hd
  · obtain ⟨ctor, -, hd⟩ := Option.bind_eq_some_iff.mp hd
    obtain ⟨d₁, h₁, hd⟩ := Option.bind_eq_some_iff.mp hd
    cases hd
    exact h.node h₁
  · obtain ⟨function, -, hd⟩ := Option.bind_eq_some_iff.mp hd
    split at hd <;> cases hd
    exact ⟨h, .refl _⟩
  · obtain ⟨p, -, hd⟩ := Option.bind_eq_some_iff.mp hd
    split at hd
    · obtain ⟨ctor, -, hd⟩ := Option.bind_eq_some_iff.mp hd
      obtain ⟨d₁, h₁, hd⟩ := Option.bind_eq_some_iff.mp hd
      cases hd
      exact h.node h₁
    · split at hd
      · obtain ⟨d₁, h₁, hd⟩ := Option.bind_eq_some_iff.mp hd
        cases hd
        exact h.primitive h₁
      · cases hd
  · cases hd

end Within

end Drawing

/-- All ends of the labels and the drawing are given ones, or have been drawn. -/
structure Tame (E : Set End) (first : ℕ) (σ : Labels × Drawing) : Prop where
  drawing : σ.2.Within E first
  labels : ∀ name e, (name, some e) ∈ σ.1 → e.Within E σ.2

theorem mem_setName {α : Type} {l : List (String × Option α)} {name x : String} {o : Option α}
    {a : α} (h : (x, some a) ∈ setName l name o) : (x, some a) ∈ l ∨ o = some a := by
  induction l with
  | nil =>
    have he := List.mem_singleton.mp h
    exact .inr (Prod.mk.inj he).2.symm
  | cons y l ih =>
    obtain ⟨y, b⟩ := y
    unfold setName at h
    split at h
    · rcases List.mem_cons.mp h with he | h
      · exact .inr (Prod.mk.inj he).2.symm
      · exact .inl (List.mem_cons_of_mem _ h)
    · rcases List.mem_cons.mp h with he | h
      · exact .inl (he ▸ List.mem_cons_self ..)
      · exact (ih h).imp_left (List.mem_cons_of_mem _)

namespace Tame

variable {P : Program} {E : Set End} {first : ℕ} {σ τ : Labels × Drawing} {l : Labels}
  {find : String → Option Value} {call : ℕ → Drawing → Option Drawing} {name : String}
  {nameList : List String} {arity : ℕ} {d d' : Drawing} {e : End}

theorem grow (h : Tame E first (l, d)) (hd : d'.Within E first) (hg : d.Grown d') :
    Tame E first (l, d') :=
  ⟨hd, fun name e he => hg.within (h.labels name e he)⟩

theorem push (h : Tame E first (l, d)) (he : e.Within E d) : Tame E first (l, d.push e) :=
  ⟨h.drawing.push he, h.labels⟩

theorem set {o : Option End} (h : Tame E first (l, d)) (ho : ∀ e ∈ o, e.Within E d) :
    Tame E first (setName l name o, d) := by
  refine ⟨h.drawing, fun x e he => ?_⟩
  rcases mem_setName he with he | rfl
  · exact h.labels x e he
  · exact ho e rfl

theorem var (h : Tame E first σ) (hd : drawVar find name σ = some τ) :
    Tame E first τ ∧ σ.2.Grown τ.2 := by
  obtain ⟨l, d⟩ := σ
  unfold drawVar at hd
  dsimp only at hd
  split at hd
  · rename_i e hl
    cases hd
    refine ⟨Tame.push ?_ ?_, ⟨fun _ h => h, le_rfl⟩⟩
    · exact h.set (by simp)
    · obtain ⟨l₁, l₂, he, -⟩ := List.lookup_eq_some_iff.mp hl
      exact h.labels name e (by simp [he])
  · cases hd
  · split at hd
    · split at hd <;> cases hd
      exact ⟨h.push (.inr (.inl ‹_›)), ⟨fun _ h => h, le_rfl⟩⟩
    · cases hd

theorem bind (h : Tame E first σ) (hd : drawBind name σ = some τ) :
    Tame E first τ ∧ σ.2.Grown τ.2 := by
  obtain ⟨l, d⟩ := σ
  unfold drawBind at hd
  dsimp only at hd
  split at hd
  · cases hd
  · rename_i e stack hs
    have he : e.Within E d := h.drawing.stack e (hs ▸ List.mem_cons_self ..)
    have hdrawing := h.drawing.setStack (l := stack) fun x hx => hs ▸ List.mem_cons_of_mem _ hx
    split at hd <;> cases hd
    refine ⟨Tame.set ?_ ?_, ⟨fun _ h => h, le_rfl⟩⟩
    · exact ⟨hdrawing, h.labels⟩
    · rintro e' ⟨⟩
      exact he

theorem bindList (h : Tame E first σ) (hd : drawBindList nameList σ = some τ) :
    Tame E first τ ∧ σ.2.Grown τ.2 := by
  unfold drawBindList at hd
  induction nameList generalizing τ with
  | nil =>
    cases hd
    exact ⟨h, .refl _⟩
  | cons name nameList ih =>
    rw [List.foldrM_cons] at hd
    obtain ⟨σ₁, h₁, hd⟩ := Option.bind_eq_some_iff.mp hd
    obtain ⟨ht, hg⟩ := ih h₁
    obtain ⟨ht', hg'⟩ := ht.bind hd
    exact ⟨ht', hg.trans hg'⟩

/-- A function that draws such ends only. -/
def Calls (E : Set End) (first : ℕ) (call : ℕ → Drawing → Option Drawing) : Prop :=
  ∀ f d d', d.Within E first → call f d = some d' → d'.Within E first ∧ d.Grown d'

theorem apply (hcall : Calls E first call) (h : Tame E first σ)
    (hd : drawApply P call arity σ = some τ) : Tame E first τ ∧ σ.2.Grown τ.2 := by
  obtain ⟨l, d⟩ := σ
  unfold drawApply at hd
  dsimp only at hd
  split at hd
  · rename_i v stack hs
    have h₀ := h.drawing.setStack (l := stack) fun x hx => hs ▸ List.mem_cons_of_mem _ hx
    have ht : Tame E first (l, { d with stack }) := ⟨h₀, h.labels⟩
    split at hd
    · cases hd
    · rename_i d₁ h₁
      cases hd
      obtain ⟨hw, hg⟩ := h₀.apply h₁
      exact ⟨ht.grow hw hg, ⟨hg.nodes, hg.links⟩⟩
    · rename_i d₁ f h₁
      obtain ⟨d₂, h₂, rfl⟩ := Option.map_eq_some_iff.mp hd
      obtain ⟨hw, hg⟩ := h₀.apply h₁
      obtain ⟨hw', hg'⟩ := hcall f d₁ d₂ hw h₂
      have hg₂ := hg.trans hg'
      exact ⟨ht.grow hw' hg₂, ⟨hg₂.nodes, hg₂.links⟩⟩
  · cases hd

mutual

theorem exp (hcall : Calls E first call) {exp : Exp} {σ τ : Labels × Drawing}
    (h : Tame E first σ) (hd : drawExp P call find exp σ = some τ) :
    Tame E first τ ∧ σ.2.Grown τ.2 := by
  cases exp with
  | var name => exact h.var hd
  | ap target argList =>
    unfold drawExp at hd
    obtain ⟨σ₁, h₁, hd⟩ := Option.bind_eq_some_iff.mp hd
    obtain ⟨σ₂, h₂, hd⟩ := Option.bind_eq_some_iff.mp hd
    obtain ⟨ht₁, hg₁⟩ := expList hcall h h₁
    obtain ⟨ht₂, hg₂⟩ := exp hcall ht₁ h₂
    obtain ⟨ht₃, hg₃⟩ := ht₂.apply hcall hd
    exact ⟨ht₃, hg₁.trans (hg₂.trans hg₃)⟩
  | assign nameList exp' =>
    unfold drawExp at hd
    obtain ⟨σ₁, h₁, hd⟩ := Option.bind_eq_some_iff.mp hd
    obtain ⟨ht₁, hg₁⟩ := exp hcall h h₁
    obtain ⟨ht₂, hg₂⟩ := ht₁.bindList hd
    exact ⟨ht₂, hg₁.trans hg₂⟩
  | int target =>
    cases hd
    exact ⟨h.push (.inr (.inl trivial)), ⟨fun _ h => h, le_rfl⟩⟩
  | float target =>
    cases hd
    exact ⟨h.push (.inr (.inl trivial)), ⟨fun _ h => h, le_rfl⟩⟩

theorem expList (hcall : Calls E first call) {expList' : List Exp} {σ τ : Labels × Drawing}
    (h : Tame E first σ) (hd : drawExpList P call find expList' σ = some τ) :
    Tame E first τ ∧ σ.2.Grown τ.2 := by
  cases expList' with
  | nil =>
    cases hd
    exact ⟨h, .refl _⟩
  | cons exp' rest =>
    unfold drawExpList at hd
    obtain ⟨σ₁, h₁, hd⟩ := Option.bind_eq_some_iff.mp hd
    obtain ⟨ht₁, hg₁⟩ := exp hcall h h₁
    obtain ⟨ht₂, hg₂⟩ := expList hcall ht₁ hd
    exact ⟨ht₂, hg₁.trans hg₂⟩

end

theorem calls_drawCall (P : Program) (bodies : List Body) (k : ℕ) :
    Calls E first (drawCall P bodies k) := by
  induction k with
  | zero => exact fun _ _ _ _ hd => by cases hd
  | succ k ih =>
    intro f d d' h hd
    unfold drawCall at hd
    obtain ⟨body, -, hd⟩ := Option.bind_eq_some_iff.mp hd
    obtain ⟨σ₁, h₁, hd⟩ := Option.bind_eq_some_iff.mp hd
    obtain ⟨⟨l, d₂⟩, h₂, hd⟩ := Option.bind_eq_some_iff.mp hd
    cases hd
    have h₀ : Tame E first ([], d) := ⟨h, by simp⟩
    obtain ⟨ht₁, hg₁⟩ := h₀.bindList h₁
    obtain ⟨ht₂, hg₂⟩ := ht₁.expList ih h₂
    exact ⟨ht₂.drawing, hg₁.trans hg₂⟩

end Tame

end InetLisp
