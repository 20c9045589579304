import InetLisp.Lang.Compile
import Mathlib.Data.Set.Insert

/-! # Names in scope

A name may stand in an expression once it is a local name or where the module defines it.
Compiling a body stops exactly at a name that is neither.
-/

namespace InetLisp

mutual

def Exp.bound : Exp → Set String
  | .var _ => ∅
  | .ap target argList => Exp.boundList argList ∪ target.bound
  | .assign nameList exp => exp.bound ∪ {name | name ∈ nameList}
  | .int _ => ∅
  | .float _ => ∅

def Exp.boundList : List Exp → Set String
  | [] => ∅
  | exp :: expList => exp.bound ∪ Exp.boundList expList

end

mutual

/-- Every name is in scope when it is used. -/
def Exp.Scoped (find : String → Option Value) (scope : Set String) : Exp → Prop
  | .var name => name ∈ scope ∨ (find name).isSome
  | .ap target argList =>
    Exp.ScopedList find scope argList ∧ target.Scoped find (scope ∪ Exp.boundList argList)
  | .assign _ exp => exp.Scoped find scope
  | .int _ => True
  | .float _ => True

def Exp.ScopedList (find : String → Option Value) (scope : Set String) : List Exp → Prop
  | [] => True
  | exp :: expList => exp.Scoped find scope ∧ Exp.ScopedList find (scope ∪ exp.bound) expList

end

/-- Compiling succeeds if this holds, and the local names are then those in scope. -/
def Compiled.Succeeds (x : Compiled) (scope : Set String) (p : Prop) : Prop :=
  match x with
  | .ok (_, locals) => p ∧ {name | name ∈ locals} = scope
  | .error _ => ¬ p

variable {find : String → Option Value} {locals names : List String} {name : String}
  {scope scope' : Set String} {p q : Prop} {x : Compiled}

theorem Compiled.Succeeds.bind {f : List Opcode × List String → Compiled}
    (h : Compiled.Succeeds x scope p)
    (hf : ∀ ops locals, {name | name ∈ locals} = scope →
      Compiled.Succeeds (f (ops, locals)) scope' q) :
    Compiled.Succeeds (x >>= f) scope' (p ∧ q) := by
  rcases x with e | ⟨ops, locals⟩
  · exact fun hpq => h hpq.1
  · obtain ⟨hp, hl⟩ := h
    have := hf ops locals hl
    change Compiled.Succeeds (f (ops, locals)) _ _
    rcases hx : f (ops, locals) with e | ⟨ops', locals'⟩
    · rw [hx] at this
      exact fun hpq => this hpq.2
    · rw [hx] at this
      exact ⟨⟨hp, this.1⟩, this.2⟩

theorem Compiled.Succeeds.ok {ops : List Opcode} (hl : {name | name ∈ locals} = scope) :
    Compiled.Succeeds (.ok (ops, locals)) scope True :=
  ⟨trivial, hl⟩

theorem mem_compileSetVariable {n : String} :
    n ∈ (compileSetVariable locals name).2 ↔ n ∈ locals ∨ n = name := by
  unfold compileSetVariable
  split
  · rename_i i hi
    have hm : name ∈ locals := by
      by_contra hm
      rw [localIndex, List.idxOf?_eq_none_iff.mpr hm] at hi
      cases hi
    refine ⟨.inl, ?_⟩
    rintro (h | rfl)
    · exact h
    · exact hm
  · rw [List.mem_append, List.mem_singleton]

theorem mem_compileSetVariables {n : String} :
    n ∈ (compileSetVariables locals names).2 ↔ n ∈ locals ∨ n ∈ names := by
  induction names generalizing locals with
  | nil => simp [compileSetVariables]
  | cons name names ih =>
    unfold compileSetVariables
    rw [ih, mem_compileSetVariable, List.mem_cons, or_assoc]

theorem names_compileSetVariableList :
    {n | n ∈ (compileSetVariableList locals names).2} = {n | n ∈ locals} ∪ {n | n ∈ names} := by
  ext n
  simp [compileSetVariableList, mem_compileSetVariables]

theorem compileVar_succeeds (hl : {name | name ∈ locals} = scope) :
    Compiled.Succeeds (compileVar find locals name) scope (name ∈ scope ∨ (find name).isSome) := by
  subst hl
  unfold compileVar
  cases hi : localIndex locals name with
  | some i =>
    refine ⟨.inl ?_, rfl⟩
    by_contra hm
    rw [localIndex, List.idxOf?_eq_none_iff.mpr hm] at hi
    cases hi
  | none =>
    rw [localIndex, List.idxOf?_eq_none_iff] at hi
    cases hf : find name with
    | some value => exact ⟨.inr rfl, rfl⟩
    | none =>
      rintro (h | h)
      · exact hi h
      · cases h

mutual

/-- An expression compiles exactly when its names are in scope. -/
theorem compileExp_succeeds (exp : Exp) {locals : List String} {scope : Set String}
    (hl : {name | name ∈ locals} = scope) :
    Compiled.Succeeds (compileExp find locals exp) (scope ∪ exp.bound) (exp.Scoped find scope) := by
  cases exp with
  | var name =>
    rw [compileExp, Exp.bound, Set.union_empty, Exp.Scoped]
    exact compileVar_succeeds hl
  | ap target argList =>
    rw [compileExp, Exp.bound, Exp.Scoped, ← Set.union_assoc]
    apply (compileExpList_succeeds argList hl).bind
    intro ops locals' hl'
    rw [← and_true (target.Scoped find _)]
    apply (compileExp_succeeds target hl').bind
    intro ops' locals'' hl''
    exact .ok hl''
  | assign nameList exp =>
    rw [compileExp, Exp.bound, Exp.Scoped, ← Set.union_assoc, ← and_true (exp.Scoped find _)]
    apply (compileExp_succeeds exp hl).bind
    intro ops locals' hl'
    rw [← hl', ← names_compileSetVariableList]
    exact .ok rfl
  | int target =>
    rw [compileExp, Exp.bound, Set.union_empty, Exp.Scoped]
    exact .ok hl
  | float target =>
    rw [compileExp, Exp.bound, Set.union_empty, Exp.Scoped]
    exact .ok hl

theorem compileExpList_succeeds (expList : List Exp) {locals : List String} {scope : Set String}
    (hl : {name | name ∈ locals} = scope) :
    Compiled.Succeeds (compileExpList find locals expList) (scope ∪ Exp.boundList expList)
      (Exp.ScopedList find scope expList) := by
  cases expList with
  | nil =>
    rw [compileExpList, Exp.boundList, Set.union_empty, Exp.ScopedList]
    exact .ok hl
  | cons exp expList =>
    rw [compileExpList, Exp.boundList, Exp.ScopedList, ← Set.union_assoc]
    apply (compileExp_succeeds exp hl).bind
    intro ops locals' hl'
    rw [← and_true (Exp.ScopedList find _ expList)]
    apply (compileExpList_succeeds expList hl').bind
    intro ops' locals'' hl''
    exact .ok hl''

end

/-- The names of a body are in scope, after those that it binds first. -/
def Body.Scoped (b : Body) : Prop := Exp.ScopedList b.find {name | name ∈ b.nameList} b.expList

theorem Body.compile_isOk (b : Body) : (∃ function, b.compile = .ok function) ↔ b.Scoped := by
  have hn : {n | n ∈ (compileSetVariableList [] b.nameList).2} = {n | n ∈ b.nameList} := by
    rw [names_compileSetVariableList]
    simp
  have h : Compiled.Succeeds (compileExpList b.find _ b.expList) _ _ :=
    compileExpList_succeeds b.expList hn
  unfold Body.compile Body.Scoped
  dsimp only
  rcases hx : compileExpList b.find (compileSetVariableList [] b.nameList).2 b.expList with
    e | ⟨ops, locals⟩
  · rw [hx] at h
    constructor
    · rintro ⟨function, hf⟩
      cases hf
    · exact fun hs => absurd hs h
  · rw [hx] at h
    exact ⟨fun _ => h.1, fun _ => ⟨_, rfl⟩⟩

end InetLisp
