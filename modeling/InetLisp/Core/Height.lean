import InetLisp.Core.Apply
import Mathlib.Tactic.IntervalCases

/-! # The height of the value stack

Every function that takes values from the value stack and puts values on it, by the
numbers of both.
-/

namespace InetLisp

open Lib

/-- The numbers of arguments and results of a primitive are those of what it runs. -/
def Primitive.Ok (p : Primitive) : Prop :=
  match p.fn with
  | .connect => p.inputArity = 2 ∧ p.outputArity = 0
  | .link => p.inputArity = 0 ∧ p.outputArity = 2
  | .fn f => ∀ args results, f.run args = .ok results → results.length = p.outputArity

namespace Store

variable {P : Program} {s s' : Store} {net net' : Net} {n i k arity c : ℕ} {v target : Value}
  {task found found' : Option Task} {ctor : NodeCtor}

def height (s : Store) : ℤ := s.valueStack.length

@[simp] theorem height_setNet : (s.setNet net).height = s.height := rfl

@[simp] theorem height_push : (s.push v).height = s.height + 1 := by
  simp [height, push]

@[simp] theorem height_addFound : (s.addFound task).height = s.height := by
  cases task with
  | none => rfl
  | some t =>
    simp only [addFound, Option.elim, addTask]
    split <;> rfl

theorem height_pop (h : s.pop = .ok (v, s')) : s.height = s'.height + 1 := by
  unfold pop at h
  split at h
  · cases h
  · rename_i hs
    cases h
    simp [height, hs]

theorem height_connect {left right : Value} (h : s.connect P left right = .ok s') :
    s'.height = s.height := by
  obtain ⟨⟨net, task⟩, -, h⟩ := Outcome.of_bind_eq_ok h
  cases h
  rw [height_addFound, height_setNet]

theorem reconnectInput_ctor (h : reconnectInput P net n i v = .ok (net', task)) :
    net'.shape.1 = net.shape.1 ∧ ∃ ctor, P.getNodeCtor net n = .ok ctor ∧ i < ctor.arity := by
  obtain ⟨ctor, hc, h⟩ := Outcome.of_bind_eq_ok h
  dsimp only at h
  split at h
  · cases h
  · rename_i info hi
    refine ⟨?_, ctor, hc, (List.getElem?_eq_some_iff.mp hi).1⟩
    split at h
    · obtain ⟨net₁, h₁, h⟩ := Outcome.of_bind_eq_ok h
      rw [(connect_shape h).1, Net.shape_setValue h₁, Net.shape_newPrincipalWire]
    · split at h
      · obtain ⟨net₁, h₁, h⟩ := Outcome.of_bind_eq_ok h
        rw [(connect_shape h).1, Net.shape_setValue h₁, Net.shape_newWire]
      · obtain ⟨net₁, h₁, h⟩ := Outcome.of_bind_eq_ok h
        cases h
        rw [Net.shape_setValue h₁]

theorem getNodeCtor_congr (h : net'.shape.1 = net.shape.1) :
    P.getNodeCtor net' n = P.getNodeCtor net n := by
  have hc : net'.getCtor n = net.getCtor n := by
    cases hn : net.getCtor n with
    | ok c => rwa [Net.getCtor_eq_ok, h, ← Net.getCtor_eq_ok]
    | error e =>
      cases hn' : net'.getCtor n with
      | ok c =>
        rw [Net.getCtor_eq_ok, h, ← Net.getCtor_eq_ok, hn] at hn'
        cases hn'
      | error e' =>
        unfold Net.getCtor at hn hn'
        split at hn
        · cases hn
        · split at hn'
          · cases hn'
          · cases hn
            cases hn'
            rfl
  simp only [Program.getNodeCtor, hc]

theorem height_reconnectInputs (h : reconnectInputs P n k s found = .ok (s', found')) :
    s.height = s'.height + k ∧ s'.shape.1 = s.shape.1 ∧
      ∀ ctor, P.getNodeCtor s.toNet n = .ok ctor → k ≤ ctor.arity := by
  induction k generalizing s found with
  | zero =>
    cases h
    simp
  | succ k ih =>
    obtain ⟨⟨v, s₁⟩, hp, h⟩ := Outcome.of_bind_eq_ok h
    obtain ⟨⟨net, task⟩, hr, h⟩ := Outcome.of_bind_eq_ok h
    dsimp only at h
    split at h
    · cases h
    · obtain ⟨hh, hs, -⟩ := ih h
      obtain ⟨hs', ctor, hc, hk⟩ := reconnectInput_ctor hr
      have hnet : s₁.toNet = s.toNet := by
        unfold pop at hp
        split at hp <;> cases hp
        rfl
      refine ⟨?_, ?_, fun ctor' hc' => ?_⟩
      · rw [height_pop hp, ← @height_setNet s₁ net, hh]
        push_cast
        omega
      · rw [hs, ← hnet, ← hs']
        rfl
      · rw [← hnet, hc] at hc'
        cases hc'
        exact hk

theorem height_reconnectOutputs (h : reconnectOutputs P n k i s = .ok s') :
    s'.height = s.height + k := by
  induction k generalizing s i with
  | zero =>
    cases h
    simp
  | succ k ih =>
    obtain ⟨⟨net, v⟩, -, h⟩ := Outcome.of_bind_eq_ok h
    rw [ih h, height_push, height_setNet]
    push_cast
    omega

theorem height_reconnectNode (h : s.reconnectNode P n arity = .ok s') :
    ∃ ctor, P.getNodeCtor s.toNet n = .ok ctor ∧
      s'.height = s.height - arity + (ctor.arity - arity) := by
  obtain ⟨⟨s₁, found⟩, hi, h⟩ := Outcome.of_bind_eq_ok h
  obtain ⟨ctor, hc, h⟩ := Outcome.of_bind_eq_ok h
  obtain ⟨s₂, ho, h⟩ := Outcome.of_bind_eq_ok h
  cases h
  obtain ⟨hh, hs, hk⟩ := height_reconnectInputs hi
  rw [getNodeCtor_congr hs] at hc
  refine ⟨ctor, hc, ?_⟩
  rw [height_addFound, height_reconnectOutputs ho, hh, Nat.cast_sub (hk ctor hc)]
  omega

def portsLeft (P : Program) (arity c : ℕ) : ℤ :=
  (P.nodeCtor c).elim 0 fun ctor => ctor.arity - arity

theorem height_applyNodeCtor (h : s.applyNodeCtor P c arity = .ok s') :
    s'.height = s.height - arity + portsLeft P arity c := by
  obtain ⟨ctor, hc, hh⟩ := height_reconnectNode h
  rw [hh, height_setNet]
  obtain ⟨c', hg, hm⟩ := Outcome.of_bind_eq_ok hc
  have hc' : c' = c := by
    simpa [Net.getCtor, Net.newNode, setNet, eq_comm] using hg
  subst hc'
  split at hm
  · rename_i ctor' hctor
    cases hm
    simp [portsLeft, hctor]
  · cases hm

theorem height_applyPrimitive {p : Primitive} (hp : p.Ok) (h : s.applyPrimitive P p = .ok s') :
    s'.height = s.height - p.inputArity + p.outputArity := by
  unfold Primitive.Ok at hp
  unfold applyPrimitive at h
  split at h
  · rename_i hf
    rw [hf] at hp
    obtain ⟨⟨x, s₁⟩, h₁, h⟩ := Outcome.of_bind_eq_ok h
    obtain ⟨⟨y, s₂⟩, h₂, h⟩ := Outcome.of_bind_eq_ok h
    rw [height_connect h, height_pop h₁, height_pop h₂, hp.1, hp.2]
    omega
  · rename_i hf
    rw [hf] at hp
    cases h
    rw [height_push, height_push, height_setNet, hp.1, hp.2]
    omega
  · rename_i f hf
    rw [hf] at hp
    dsimp only at h
    split at h
    · cases h
    · rename_i hlt
      obtain ⟨results, hr, h⟩ := Outcome.of_bind_eq_ok h
      cases h
      have hl := hp _ _ hr
      simp only [height, List.length_append, List.length_reverse, List.length_drop, hl]
      omega

/-- The number of values that a value leaves when it is applied, of a function as given. -/
def leaves (P : Program) (results : ℕ → ℤ) (arity : ℕ) : Value → ℤ
  | .nodeCtor c => portsLeft P arity c
  | .function f => results f
  | .primitive k => (P.primitives[k]?).elim 0 fun p =>
    p.nodeCtor.elim (p.outputArity : ℤ) (portsLeft P arity)
  | .wire _ => 1
  | _ => 0

/-- A function that is entered takes its arguments and leaves its results later. -/
def pending (P : Program) (results : ℕ → ℤ) (f : Option ℕ) : ℤ :=
  f.elim 0 fun f => (P.functions[f]?).elim 0 fun function => results f - function.arity

variable {f : Option ℕ} {results : ℕ → ℤ}

theorem height_applyNonWire (hP : ∀ p ∈ P.primitives, p.Ok)
    (h : s.applyNonWire P v arity = .ok (s', f)) :
    s'.height + pending P results f = s.height - arity + leaves P results arity v := by
  unfold applyNonWire at h
  split at h
  · rename_i c
    split at h
    · obtain ⟨s₁, h₁, h⟩ := Outcome.of_bind_eq_ok h
      cases h
      rw [height_applyNodeCtor h₁]
      simp [leaves, pending]
    · cases h
  · rename_i g
    split at h
    · rename_i function hf
      split at h
      · rename_i ha
        cases h
        simp only [pending, Option.elim, hf, leaves, ha]
        omega
      · cases h
    · cases h
  · rename_i k
    split at h
    · rename_i p hp
      split at h
      · rename_i c hn
        obtain ⟨s₁, h₁, h⟩ := Outcome.of_bind_eq_ok h
        cases h
        rw [height_applyNodeCtor h₁]
        simp [leaves, pending, hp, hn]
      · rename_i hn
        dsimp only at h
        split at h
        · cases h
        · rename_i ha
          obtain ⟨s₁, h₁, h⟩ := Outcome.of_bind_eq_ok h
          cases h
          rw [not_not] at ha
          have hh := height_applyPrimitive (hP p (List.mem_of_getElem? hp)) h₁
          simp only [pending, Option.elim, leaves, hp, hn, hh, ha]
          omega
    · cases h
  · cases h

theorem height_tuck (h : s.tuck v n = .ok s') : s'.height = s.height + 1 := by
  unfold tuck at h
  split at h
  · cases h
  · cases h
    simp only [height, List.length_append, List.length_cons, List.length_take, List.length_drop]
    omega

theorem portsLeft_applyNodeCtor (h : 0 < arity ∧ arity ≤ maxApplyArity) :
    portsLeft P (arity + 1) (InetLisp.applyNodeCtor arity) = 1 := by
  obtain ⟨h₁, h₂⟩ := h
  unfold maxApplyArity at h₂
  interval_cases arity <;> rfl

theorem height_applyWire {w : ℕ} (hP : ∀ p ∈ P.primitives, p.Ok)
    (h : s.applyWire P w arity = .ok (s', f)) :
    ∃ net v, defuze s.toNet (.wire w) = .ok (net, v) ∧
      s'.height + pending P results f = s.height - arity + leaves P results arity v := by
  obtain ⟨⟨net, v⟩, hd, h⟩ := Outcome.of_bind_eq_ok h
  refine ⟨net, v, hd, ?_⟩
  dsimp only at h
  split at h
  · split at h
    · cases h
    · rename_i ha
      obtain ⟨s₁, h₁, h⟩ := Outcome.of_bind_eq_ok h
      obtain ⟨s₂, h₂, h⟩ := Outcome.of_bind_eq_ok h
      cases h
      rw [height_applyNodeCtor h₂, height_tuck h₁, height_setNet,
        portsLeft_applyNodeCtor (not_not.mp ha)]
      simp only [leaves, pending, Option.elim]
      push_cast
      omega
  · rw [height_applyNonWire hP h, height_setNet]

/-- What an application takes and leaves, by the value at the end of the wires. -/
theorem height_applyTarget (results : ℕ → ℤ) (hP : ∀ p ∈ P.primitives, p.Ok)
    (h : s.applyTarget P target arity = .ok (s', f)) :
    ∃ net v, defuze s.toNet target = .ok (net, v) ∧
      s'.height + pending P results f = s.height - arity + leaves P results arity v := by
  unfold applyTarget at h
  split at h
  · exact height_applyWire hP h
  · rename_i hw
    refine ⟨s.toNet, target, ?_, height_applyNonWire hP h⟩
    cases target with
    | wire w => exact (hw w rfl).elim
    | _ => rfl

end Store

end InetLisp
