import InetLisp.Core.Clash

/-! # Drawings

What a body is to build, said without a net: nodes, ties between their ports, and ends on a stack.
A net shows a drawing if its ways between the ports of its nodes, and to what is at hand, are those
of the drawing.
-/

namespace InetLisp

open Lib Wiring

/-- Nodes with their ctors, ties, and the ends that are left on the stack; the names of the next
node and the next link are new. -/
structure Drawing where
  next : ℕ
  links : ℕ := 0
  nodes : List (ℕ × ℕ) := []
  ties : List (End × End) := []
  stack : List End := []
  deriving DecidableEq, Repr

namespace Drawing

def wiring (ties : List (End × End)) : Wiring End := fun x y => ∃ t ∈ ties, tie t.1 t.2 x y

def push (d : Drawing) (e : End) : Drawing := { d with stack := e :: d.stack }

/-- The top ends are tied to the ports below an index, the topmost to the last of them. -/
def inputs (n : ℕ) : ℕ → Drawing → Option Drawing
  | 0, d => some d
  | i + 1, d => match d.stack with
    | [] => none
    | e :: l => inputs n i { d with stack := l, ties := d.ties ++ [(.port n i, e)] }

/-- So many ports from the index up are pushed. -/
def outputs (n : ℕ) : ℕ → ℕ → Drawing → Drawing
  | 0, _, d => d
  | k + 1, i, d => outputs n k (i + 1) (d.push (.port n i))

/-- A new node: its first ports take the arguments, and the others are the results. -/
def node (ctor : NodeCtor) (c arity : ℕ) (d : Drawing) : Option Drawing :=
  if arity ≤ ctor.arity then
    (inputs d.next arity { d with next := d.next + 1, nodes := d.nodes ++ [(d.next, c)] }).map
      (outputs d.next (ctor.arity - arity) arity)
  else none

/-- A primitive that builds connections; a link has two sides. -/
def primitive (d : Drawing) : PrimitiveFn → Option Drawing
  | .connect => match d.stack with
    | second :: first :: l => some { d with stack := l, ties := d.ties ++ [(first, second)] }
    | _ => none
  | .link => some { d with
      links := d.links + 1
      ties := d.ties ++ [(.link d.links false, .link d.links true)]
      stack := .link d.links true :: .link d.links false :: d.stack }
  | .fn _ => none

/-- The application of a value to so many arguments; a function is still to be called. -/
def apply (P : Program) (target : Value) (arity : ℕ) (d : Drawing) : Option (Drawing × Option ℕ) :=
  match target with
  | .nodeCtor c => do
    let ctor ← P.nodeCtor c
    let d ← d.node ctor c arity
    return (d, none)
  | .function f => do
    let function ← P.functions[f]?
    if function.arity = arity then some (d, some f) else none
  | .primitive k => do
    let p ← P.primitives[k]?
    match p.nodeCtor with
    | some c => do
      let ctor ← P.nodeCtor c
      let d ← d.node ctor c arity
      return (d, none)
    | none => do
      if p.inputArity = arity then
        let d ← d.primitive p.fn
        return (d, none)
      else none
  | _ => none

/-- The ctors of the nodes, where those that are not drawn have the given ones. -/
def ctorOf (d : Drawing) (origin : ℕ → ℕ → Prop) (n c : ℕ) : Prop := origin n c ∨ (n, c) ∈ d.nodes

/-- No tie joins what, by the ties before it, cannot be connected. -/
def Proper (P : Program) (origin : ℕ → ℕ → Prop) (base : Wiring End) (d : Drawing) : Prop :=
  ∀ l₁ t l₂, d.ties = l₁ ++ t :: l₂ →
    ¬ Clash P (d.ctorOf origin) (base ⊔ wiring l₁) t.1 t.2

/-- More has been drawn. -/
structure Extends (d d' : Drawing) : Prop where
  ties : d.ties <+: d'.ties
  nodes : d.nodes ⊆ d'.nodes

variable {P : Program} {origin : ℕ → ℕ → Prop} {base : Wiring End} {d d' d'' : Drawing}
  {n i k c arity : ℕ} {ctor : NodeCtor} {t : End × End} {l l' : List (End × End)} {f : Option ℕ}
  {target : Value} {fn : PrimitiveFn}

@[simp] theorem wiring_nil : wiring [] = ⊥ := by
  ext x y
  simp [wiring]

theorem wiring_snoc : wiring (l ++ [t]) = wiring l ⊔ tie t.1 t.2 := by
  ext x y
  change (∃ t' ∈ l ++ [t], _) ↔ (∃ t' ∈ l, _) ∨ _
  simp only [List.mem_append, List.mem_singleton]
  constructor
  · rintro ⟨t', ht | rfl, hxy⟩
    · exact .inl ⟨t', ht, hxy⟩
    · exact .inr hxy
  · rintro (⟨t', ht, hxy⟩ | hxy)
    · exact ⟨t', .inl ht, hxy⟩
    · exact ⟨t, .inr rfl, hxy⟩

namespace Extends

theorem refl (d : Drawing) : Extends d d := ⟨List.prefix_rfl, fun _ h => h⟩

theorem trans (h : Extends d d') (h' : Extends d' d'') : Extends d d'' :=
  ⟨h.ties.trans h'.ties, fun _ hm => h'.nodes (h.nodes hm)⟩

theorem inputs (h : d.inputs n i = some d') : Extends d d' := by
  induction i generalizing d with
  | zero =>
    cases h
    exact refl _
  | succ i ih =>
    unfold Drawing.inputs at h
    split at h
    · cases h
    · rename_i e l _
      have h₁ : Extends d { d with stack := l, ties := d.ties ++ [(.port n i, e)] } :=
        ⟨List.prefix_append _ _, fun _ h => h⟩
      exact h₁.trans (ih h)

theorem outputs : Extends d (d.outputs n k i) := by
  induction k generalizing d i with
  | zero => exact refl _
  | succ k ih =>
    have h₁ : Extends d (d.push (.port n i)) := ⟨List.prefix_rfl, fun _ h => h⟩
    exact h₁.trans ih

theorem node (h : d.node ctor c arity = some d') : Extends d d' := by
  unfold Drawing.node at h
  split at h
  · obtain ⟨d₁, h₁, rfl⟩ := Option.map_eq_some_iff.mp h
    have h₀ : Extends d { d with next := d.next + 1, nodes := d.nodes ++ [(d.next, c)] } :=
      ⟨List.prefix_rfl, List.subset_append_left _ _⟩
    exact (h₀.trans (inputs h₁)).trans outputs
  · cases h

theorem primitive (h : d.primitive fn = some d') : Extends d d' := by
  unfold Drawing.primitive at h
  split at h
  · split at h <;> cases h
    exact ⟨List.prefix_append _ _, fun _ h => h⟩
  · cases h
    exact ⟨List.prefix_append _ _, fun _ h => h⟩
  · cases h

theorem apply (h : d.apply P target arity = some (d', f)) : Extends d d' := by
  unfold Drawing.apply at h
  split at h
  · obtain ⟨ctor, -, h⟩ := Option.bind_eq_some_iff.mp h
    obtain ⟨d₁, h₁, h⟩ := Option.bind_eq_some_iff.mp h
    cases h
    exact node h₁
  · obtain ⟨function, -, h⟩ := Option.bind_eq_some_iff.mp h
    split at h <;> cases h
    exact refl _
  · obtain ⟨p, -, h⟩ := Option.bind_eq_some_iff.mp h
    split at h
    · obtain ⟨ctor, -, h⟩ := Option.bind_eq_some_iff.mp h
      obtain ⟨d₁, h₁, h⟩ := Option.bind_eq_some_iff.mp h
      cases h
      exact node h₁
    · split at h
      · obtain ⟨d₁, h₁, h⟩ := Option.bind_eq_some_iff.mp h
        cases h
        exact primitive h₁
      · cases h
  · cases h

end Extends

/-- What is drawn later makes no clash go away. -/
theorem Proper.of_extends (h : d'.Proper P origin base) (hd : Extends d d') :
    d.Proper P origin base := by
  rintro l₁ t l₂ hl hclash
  obtain ⟨l₃, hl₃⟩ := hd.ties
  rw [hl, List.append_assoc, List.cons_append] at hl₃
  apply h l₁ t _ hl₃.symm
  exact hclash.imp (fun n c => Or.imp_right fun hm => hd.nodes hm) (fun _ _ => id) fun _ _ => id

theorem Proper.not_clash (h : d'.Proper P origin base) (e e' : End)
    (hd : Extends { d with ties := d.ties ++ [(e, e')] } d') :
    ¬ Clash P (d.ctorOf origin) (base ⊔ wiring d.ties) e e' :=
  h.of_extends hd d.ties (e, e') [] rfl

end Drawing

end InetLisp
