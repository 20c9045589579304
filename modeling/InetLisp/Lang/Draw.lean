import InetLisp.Core.Drawing
import InetLisp.Lang.Compile

/-! # Drawing a body

The evaluator of expressions on ends in place of values. Nothing is known of an end but where it
comes from, so what is drawn from a body depends on no net. Only values that are written in the
body or defined in the module are applied.
-/

namespace InetLisp

section Names

variable {α β : Type}

/-- Change what a name stands for, or add the name at the end. -/
def setName : List (String × Option α) → String → Option α → List (String × Option α)
  | [], name, o => [(name, o)]
  | (x, a) :: l, name, o => if x = name then (x, o) :: l else (x, a) :: setName l name o

/-- The same names for other things. -/
def mapNames (f : α → β) (l : List (String × Option α)) : List (String × Option β) :=
  l.map (Prod.map id (Option.map f))

variable {l : List (String × Option α)} {name : String} {o : Option α} {f : α → β}

theorem mapNames_setName : mapNames f (setName l name o) = setName (mapNames f l) name (o.map f) := by
  induction l with
  | nil => rfl
  | cons x l ih =>
    obtain ⟨x, a⟩ := x
    by_cases h : x = name
    · simp [setName, mapNames, h]
    · unfold mapNames at ih
      simp [setName, mapNames, h, ih]

theorem lookup_mapNames : (mapNames f l).lookup name = (l.lookup name).map (Option.map f) := by
  induction l with
  | nil => rfl
  | cons x l ih =>
    obtain ⟨x, a⟩ := x
    unfold mapNames at ih
    by_cases h : name = x
    · simp [mapNames, h]
    · have h' : (name == x) = false := by simpa using h
      simp [mapNames, List.lookup_cons, h', ih]

theorem content_setName (l : List (String × Option α)) (name : String) (o : Option α) :
    Lib.Slots.content ((setName l name o).map Prod.snd) +
    Lib.Slots.single (l.lookup name).join =
      Lib.Slots.content (l.map Prod.snd) + Lib.Slots.single o := by
  induction l with
  | nil => simp [setName]
  | cons x l ih =>
    obtain ⟨x, a⟩ := x
    by_cases h : name = x
    · subst h
      simp only [setName, if_true, List.map_cons, Lib.Slots.content_cons, List.lookup_cons_self,
        Option.join_some]
      abel
    · have h' : (name == x) = false := by simpa using h
      simp only [setName, if_neg (Ne.symm h), List.map_cons, Lib.Slots.content_cons,
        List.lookup_cons, h']
      rw [add_assoc, ih, add_assoc]

end Names

/-- Names with the ends that they stand for; a consumed name stands for none. -/
abbrev Labels := List (String × Option End)

/-- Read a name: a local one is consumed, any other one is a definition of the module. -/
def drawVar (find : String → Option Value) (name : String) :
    Labels × Drawing → Option (Labels × Drawing)
  | (l, d) => match l.lookup name with
    | some (some e) => some (setName l name none, d.push e)
    | some none => none
    | none => match find name with
      | some v => if v.IsNonWire then some (l, d.push (.value v)) else none
      | none => none

def drawBind (name : String) : Labels × Drawing → Option (Labels × Drawing)
  | (l, d) => match d.stack with
    | [] => none
    | e :: stack => match l.lookup name with
      | some (some _) => none
      | _ => some (setName l name (some e), { d with stack })

/-- Bind the names to the top ends, of which the last name gets the topmost. -/
def drawBindList (nameList : List String) (σ : Labels × Drawing) : Option (Labels × Drawing) :=
  nameList.foldrM drawBind σ

/-- Apply the value on top to the ends below it; `call` draws the body of a function. -/
def drawApply (P : Program) (call : ℕ → Drawing → Option Drawing) (arity : ℕ) :
    Labels × Drawing → Option (Labels × Drawing)
  | (l, d) => match d.stack with
    | .value v :: stack => match ({ d with stack } : Drawing).apply P v arity with
      | none => none
      | some (d, none) => some (l, d)
      | some (d, some f) => (call f d).map fun d => (l, d)
    | _ => none

mutual

/-- Draw an expression: arguments from left to right, then the target. -/
def drawExp (P : Program) (call : ℕ → Drawing → Option Drawing) (find : String → Option Value) :
    Exp → Labels × Drawing → Option (Labels × Drawing)
  | .var name, σ => drawVar find name σ
  | .ap target argList, σ => do
    let σ ← drawExpList P call find argList σ
    let σ ← drawExp P call find target σ
    drawApply P call argList.length σ
  | .assign nameList exp, σ => do
    let σ ← drawExp P call find exp σ
    drawBindList nameList σ
  | .int target, (l, d) => some (l, d.push (.value (xint target)))
  | .float target, (l, d) => some (l, d.push (.value (xfloat target)))

def drawExpList (P : Program) (call : ℕ → Drawing → Option Drawing)
    (find : String → Option Value) : List Exp → Labels × Drawing → Option (Labels × Drawing)
  | [], σ => some σ
  | exp :: expList, σ => do
    let σ ← drawExp P call find exp σ
    drawExpList P call find expList σ

end

/-- Draw the body of a function, with calls that are nested at most so deep. -/
def drawCall (P : Program) (bodies : List Body) : ℕ → ℕ → Drawing → Option Drawing
  | 0, _, _ => none
  | k + 1, f, d => do
    let body ← bodies[f]?
    let σ ← drawBindList body.nameList ([], d)
    let (_, d) ← drawExpList P (drawCall P bodies k) body.find body.expList σ
    return d

namespace Drawing.Extends

variable {P : Program} {call : ℕ → Drawing → Option Drawing} {find : String → Option Value}
  {bodies : List Body} {σ σ' : Labels × Drawing} {d d' : Drawing} {name : String} {arity k f : ℕ}
  {nameList : List String}

theorem of_var (h : drawVar find name σ = some σ') : Extends σ.2 σ'.2 := by
  obtain ⟨l, d⟩ := σ
  unfold drawVar at h
  dsimp only at h
  split at h
  · cases h
    exact ⟨List.prefix_rfl, fun _ h => h⟩
  · cases h
  · split at h
    · split at h <;> cases h
      exact ⟨List.prefix_rfl, fun _ h => h⟩
    · cases h

theorem of_bind (h : drawBind name σ = some σ') : Extends σ.2 σ'.2 := by
  obtain ⟨l, d⟩ := σ
  unfold drawBind at h
  dsimp only at h
  split at h
  · cases h
  · split at h <;> cases h
    exact ⟨List.prefix_rfl, fun _ h => h⟩

theorem of_bindList (h : drawBindList nameList σ = some σ') : Extends σ.2 σ'.2 := by
  unfold drawBindList at h
  induction nameList generalizing σ' with
  | nil =>
    cases h
    exact refl _
  | cons name nameList ih =>
    rw [List.foldrM_cons] at h
    obtain ⟨σ₁, h₁, h⟩ := Option.bind_eq_some_iff.mp h
    exact (ih h₁).trans (of_bind h)

theorem of_apply (hcall : ∀ f d d', call f d = some d' → Extends d d')
    (h : drawApply P call arity σ = some σ') : Extends σ.2 σ'.2 := by
  obtain ⟨l, d⟩ := σ
  unfold drawApply at h
  dsimp only at h
  split at h
  · rename_i v stack hstack
    have h₀ : Extends d { d with stack } := ⟨List.prefix_rfl, fun _ h => h⟩
    split at h
    · cases h
    · rename_i d₁ hd
      cases h
      exact h₀.trans (apply hd)
    · rename_i d₁ f hd
      obtain ⟨d₂, hf, rfl⟩ := Option.map_eq_some_iff.mp h
      exact h₀.trans ((apply hd).trans (hcall f d₁ d₂ hf))
  · cases h

mutual

theorem of_exp (hcall : ∀ f d d', call f d = some d' → Extends d d') {exp : Exp}
    {σ σ' : Labels × Drawing} (h : drawExp P call find exp σ = some σ') : Extends σ.2 σ'.2 := by
  cases exp with
  | var name => exact of_var h
  | ap target argList =>
    unfold drawExp at h
    obtain ⟨σ₁, h₁, h⟩ := Option.bind_eq_some_iff.mp h
    obtain ⟨σ₂, h₂, h⟩ := Option.bind_eq_some_iff.mp h
    exact (of_expList hcall h₁).trans ((of_exp hcall h₂).trans (of_apply hcall h))
  | assign nameList exp =>
    unfold drawExp at h
    obtain ⟨σ₁, h₁, h⟩ := Option.bind_eq_some_iff.mp h
    exact (of_exp hcall h₁).trans (of_bindList h)
  | int target =>
    cases h
    exact ⟨List.prefix_rfl, fun _ h => h⟩
  | float target =>
    cases h
    exact ⟨List.prefix_rfl, fun _ h => h⟩

theorem of_expList (hcall : ∀ f d d', call f d = some d' → Extends d d') {expList : List Exp}
    {σ σ' : Labels × Drawing} (h : drawExpList P call find expList σ = some σ') :
    Extends σ.2 σ'.2 := by
  cases expList with
  | nil =>
    cases h
    exact refl _
  | cons exp expList =>
    unfold drawExpList at h
    obtain ⟨σ₁, h₁, h⟩ := Option.bind_eq_some_iff.mp h
    exact (of_exp hcall h₁).trans (of_expList hcall h)

end

theorem of_call (h : drawCall P bodies k f d = some d') : Extends d d' := by
  induction k generalizing f d d' with
  | zero => cases h
  | succ k ih =>
    unfold drawCall at h
    obtain ⟨body, -, h⟩ := Option.bind_eq_some_iff.mp h
    obtain ⟨σ₁, h₁, h⟩ := Option.bind_eq_some_iff.mp h
    obtain ⟨⟨l, d₂⟩, h₂, h⟩ := Option.bind_eq_some_iff.mp h
    cases h
    exact (of_bindList h₁).trans (of_expList (fun _ _ _ => ih) h₂)

end Drawing.Extends

end InetLisp
