import InetLisp.Core.Trace
import InetLisp.Lang.Compile

/-! # Evaluating expressions

The meaning of a body without opcodes and frames: a stack evaluator of its
expressions with an environment from names to values. A compiled body does on the
machine what the evaluator does with its expressions.
-/

namespace InetLisp

open Lib

/-- The names in the order in which they were first bound; a consumed name has no value. -/
abbrev Env := List (String × Option Value)

/-- What stops the evaluation of a body. -/
inductive EvalError where
  | consumed (name : String)
  | rebound (name : String)
  | emptyStack
  /-- `worker_apply` itself stops. -/
  | rejected (a : Application) (e : Error)

/-- What the machine says of it. -/
def EvalError.toError : EvalError → Error
  | .consumed _ => .undefinedVariable
  | .rebound _ => .usedVariable
  | .emptyStack => .emptyStack
  | .rejected _ e => e

namespace Env

/-- Change the value of a name, or add the name at the end. -/
def set : Env → String → Option Value → Env
  | [], name, o => [(name, o)]
  | (x, v) :: env, name, o => if x = name then (x, o) :: env else (x, v) :: set env name o

variable {env : Env} {name : String} {o : Option Value}

theorem lookup_eq : env.lookup name =
    (localIndex (env.map Prod.fst) name).map fun i => Slots.get (env.map Prod.snd) i := by
  induction env with
  | nil => rfl
  | cons x env ih =>
    obtain ⟨x, v⟩ := x
    by_cases h : x = name
    · subst h
      simp [localIndex, List.idxOf?_cons]
    · have h' : (name == x) = false := by simp [Ne.symm h]
      simp [localIndex, List.idxOf?_cons, List.lookup_cons, h, h', ih, Function.comp_def]

theorem map_snd_set : (env.set name o).map Prod.snd =
    Slots.set (env.map Prod.snd) ((localIndex (env.map Prod.fst) name).getD env.length) o := by
  induction env with
  | nil => rfl
  | cons x env ih =>
    obtain ⟨x, v⟩ := x
    by_cases h : x = name
    · subst h
      simp [set, localIndex, List.idxOf?_cons, Slots.set]
    · unfold localIndex at ih
      simp only [set, h, if_false, List.map_cons, ih, localIndex, List.idxOf?_cons, beq_iff_eq]
      cases (env.map Prod.fst).idxOf? name <;> simp [Slots.set]

theorem map_fst_set : (env.set name o).map Prod.fst =
    (compileSetVariable (env.map Prod.fst) name).2 := by
  induction env with
  | nil => rfl
  | cons x env ih =>
    obtain ⟨x, v⟩ := x
    by_cases h : x = name
    · subst h
      simp [set, compileSetVariable, localIndex, List.idxOf?_cons]
    · unfold compileSetVariable localIndex at ih ⊢
      simp only [set, h, if_false, List.map_cons, ih, List.idxOf?_cons, beq_iff_eq]
      cases (env.map Prod.fst).idxOf? name <;> simp

end Env

abbrev EvalResult := Except (Stop EvalError) (Env × Store × Trace)

/-- Read a name: a local one is consumed, any other one is a definition of the module. -/
def evalVar (find : String → Option Value) (name : String) : Env × Store × Trace → EvalResult
  | (env, s, t) => match env.lookup name with
    | some (some v) => .ok (env.set name none, s.push v, t)
    | some none => .error (.error (.consumed name) t.log)
    | none => match find name with
      | some v => .ok (env, s.push v, t)
      | none => .error .noResult

def evalBind (name : String) : Env × Store × Trace → EvalResult
  | (env, s, t) => match s.valueStack with
    | [] => .error (.error .emptyStack t.log)
    | v :: values => match env.lookup name with
      | some (some _) => .error (.error (.rebound name) t.log)
      | _ => .ok (env.set name (some v), { s with valueStack := values }, t)

/-- Bind the names to the top values, of which the last name gets the topmost. -/
def evalBindList (nameList : List String) (σ : Env × Store × Trace) : EvalResult :=
  nameList.foldrM evalBind σ

/-- Apply the top value to the values below it; `call` evaluates the body of a function. -/
def evalApply (P : Program) (call : ℕ → Store × Trace → Except (Stop EvalError) (Store × Trace))
    (arity : ℕ) : Env × Store × Trace → EvalResult
  | (env, s, t) => match s.valueStack with
    | [] => .error (.error .emptyStack t.log)
    | target :: values =>
      let a : Application := ⟨target, (values.take arity).reverse⟩
      let t := t.note (some a)
      match ({ s with valueStack := values } : Store).applyTarget P target arity with
      | .error e => .error (.error (.rejected a e) t.log)
      | .ok (s, none) => .ok (env, s, t)
      | .ok (s, some f) => do
        let (s, t) ← call f (s, t)
        return (env, s, t)

mutual

/-- Evaluate an expression: arguments from left to right, then the target. -/
def evalExp (P : Program) (call : ℕ → Store × Trace → Except (Stop EvalError) (Store × Trace))
    (find : String → Option Value) : Exp → Env × Store × Trace → EvalResult
  | .var name, σ => evalVar find name σ
  | .ap target argList, σ => do
    let σ ← evalExpList P call find argList σ
    let σ ← evalExp P call find target σ
    evalApply P call argList.length σ
  | .assign nameList exp, σ => do
    let σ ← evalExp P call find exp σ
    evalBindList nameList σ
  | .int target, (env, s, t) => .ok (env, s.push (xint target), t)
  | .float target, (env, s, t) => .ok (env, s.push (xfloat target), t)

def evalExpList (P : Program) (call : ℕ → Store × Trace → Except (Stop EvalError) (Store × Trace))
    (find : String → Option Value) : List Exp → Env × Store × Trace → EvalResult
  | [], σ => .ok σ
  | exp :: expList, σ => do
    let σ ← evalExp P call find exp σ
    evalExpList P call find expList σ

end

/--
Evaluate the body of a function, with calls that are nested at most so deep: bind its
names, then evaluate its expressions from an environment without names.
-/
def evalCall (P : Program) (bodies : List Body) :
    ℕ → ℕ → Store × Trace → Except (Stop EvalError) (Store × Trace)
  | 0, _, _ => .error .noResult
  | d + 1, f, σ => match bodies[f]? with
    | none => .error .noResult
    | some body => do
      let σ ← evalBindList body.nameList ([], σ)
      let (env, s, t) ← evalExpList P (evalCall P bodies d) body.find body.expList σ
      return (s, t.finish f (env.map Prod.snd))

/-- Every function of the program is compiled from its body. -/
def Compiles (P : Program) (bodies : List Body) : Prop :=
  bodies.map Body.compile = P.functions.map .ok

section Agreement

variable {P : Program} {locals : List String} {env : Env} {frame : Frame} {s : Store} {t : Trace}
  {find : String → Option Value} {name : String} {ops : List Opcode} {bodies : List Body}
  {callM : ℕ → Store × Trace → Except (Stop Error) (Store × Trace)}
  {callE : ℕ → Store × Trace → Except (Stop EvalError) (Store × Trace)}

/-- Code and evaluator end alike: the variables of the frame are the values of the names. -/
def Agrees (locals : List String) :
    Except (Stop Error) (Frame × Store × Trace) → EvalResult → Prop
  | .ok (frame, s, t), .ok (env, s', t') =>
    frame.variableArray = env.map Prod.snd ∧ env.map Prod.fst = locals ∧ s = s' ∧ t = t'
  | .error e, .error e' => e = e'.map EvalError.toError
  | _, _ => False

def CallsAgree (P : Program) (callM : ℕ → Store × Trace → Except (Stop Error) (Store × Trace))
    (callE : ℕ → Store × Trace → Except (Stop EvalError) (Store × Trace)) : Prop :=
  ∀ f < P.functions.length, ∀ σ, callM f σ = (callE f σ).mapError (Stop.map EvalError.toError)

theorem Agrees.bind {x : Except (Stop Error) (Frame × Store × Trace)} {y : EvalResult}
    {f : Frame × Store × Trace → Except (Stop Error) (Frame × Store × Trace)}
    {g : Env × Store × Trace → EvalResult} {locals' : List String} (h : Agrees locals x y)
    (hfg : ∀ frame env s t, frame.variableArray = env.map Prod.snd → env.map Prod.fst = locals →
      Agrees locals' (f (frame, s, t)) (g (env, s, t))) :
    Agrees locals' (x >>= f) (y >>= g) := by
  rcases x with e | ⟨frame, s, t⟩ <;> rcases y with e' | ⟨env, s', t'⟩
  · exact h
  · exact h.elim
  · exact h.elim
  · obtain ⟨hv, hl, rfl, rfl⟩ := h
    exact hfg frame env s t hv hl

theorem Agrees.finish {x : Except (Stop Error) (Frame × Store × Trace)} {y : EvalResult}
    (h : Agrees locals x y) {f : ℕ} :
    (x >>= fun σ => pure (σ.2.1, σ.2.2.finish f σ.1.variableArray)) =
      (y >>= fun σ => pure (σ.2.1, σ.2.2.finish f (σ.1.map Prod.snd))).mapError
        (Stop.map EvalError.toError) := by
  rcases x with e | ⟨frame, s, t⟩ <;> rcases y with e' | ⟨env, s', t'⟩
  · exact congrArg Except.error h
  · exact h.elim
  · exact h.elim
  · obtain ⟨hv, -, rfl, rfl⟩ := h
    exact congrArg (fun l => Except.ok (s, t.finish f l)) hv

theorem execOpcodes_append {ops' : List Opcode} {σ : Frame × Store × Trace} :
    execOpcodes P callM (ops ++ ops') σ =
      execOpcodes P callM ops σ >>= execOpcodes P callM ops' := by
  induction ops generalizing σ with
  | nil => rfl
  | cons op ops ih =>
    obtain ⟨frame, s, t⟩ := σ
    rw [List.cons_append, execOpcodes_cons, execOpcodes_cons, bind_assoc]
    exact bind_congr fun σ => ih

theorem execOpcodes_singleton {op : Opcode} :
    execOpcodes P callM [op] (frame, s, t) =
      execOpcode P callM op ({ frame with cursor := frame.cursor + 1 }, s, t) := by
  rw [execOpcodes_cons]
  exact bind_pure _

theorem compileSetVariables_cons {names : List String} :
    compileSetVariables locals (name :: names) =
      ((compileSetVariable locals name).1 ++
          (compileSetVariables (compileSetVariable locals name).2 names).1,
        (compileSetVariables (compileSetVariable locals name).2 names).2) := rfl

theorem evalVar_agrees (hv : frame.variableArray = env.map Prod.snd)
    (h : compileVar find (env.map Prod.fst) name = .ok (ops, locals)) :
    Agrees locals (execOpcodes P callM ops (frame, s, t)) (evalVar find name (env, s, t)) := by
  unfold compileVar at h
  simp only [evalVar, Env.lookup_eq]
  split at h
  · rename_i i hi
    cases h
    rw [execOpcodes_singleton, hi, Option.map_some]
    cases hg : Slots.get (env.map Prod.snd) i with
    | none =>
      rw [execOpcode_of_error (e := .undefinedVariable)]
      · simp [Agrees, Stop.map, EvalError.toError, Store.application]
      · simp [Store.executeOpcode, Frame.getVariable, hv, hg, bind, Except.bind]
    | some v =>
      have hx : s.executeOpcode P { frame with cursor := frame.cursor + 1 } (.getVariable i) =
          .ok (s.push v, ⟨frame.cursor + 1, frame.function, Slots.set (env.map Prod.snd) i none⟩,
            none) := by
        simp [Store.executeOpcode, Frame.getVariable, hv, hg, bind, Except.bind, pure, Except.pure]
      rw [execOpcode_of_none hx]
      refine ⟨?_, ?_, rfl, by simp [Store.application]⟩
      · rw [Env.map_snd_set, hi, Option.getD_some]
      · rw [Env.map_fst_set, compileSetVariable, hi]
  · rename_i hi
    rw [hi, Option.map_none]
    cases hf : find name with
    | none =>
      rw [hf] at h
      cases h
    | some v =>
      rw [hf] at h
      cases h
      have hx : s.executeOpcode P { frame with cursor := frame.cursor + 1 } (.literal v) =
          .ok (s.push v, { frame with cursor := frame.cursor + 1 }, none) := rfl
      rw [execOpcodes_singleton, execOpcode_of_none hx]
      exact ⟨hv, rfl, rfl, by simp [Store.application]⟩

theorem evalBind_agrees (hv : frame.variableArray = env.map Prod.snd) :
    Agrees (compileSetVariable (env.map Prod.fst) name).2
      (execOpcodes P callM (compileSetVariable (env.map Prod.fst) name).1 (frame, s, t))
      (evalBind name (env, s, t)) := by
  obtain ⟨i, hc, hi⟩ : ∃ i, (compileSetVariable (env.map Prod.fst) name).1 = [.setVariable i] ∧
      (localIndex (env.map Prod.fst) name).getD env.length = i := by
    unfold compileSetVariable
    split <;> simp_all
  have hget : (env.lookup name).join = Slots.get (env.map Prod.snd) i := by
    rw [Env.lookup_eq, ← hi]
    cases localIndex (env.map Prod.fst) name <;> simp [Slots.get]
  rw [hc, execOpcodes_singleton]
  cases hs : s.valueStack with
  | nil =>
    rw [execOpcode_of_error (e := .emptyStack)]
    · simp [evalBind, hs, Agrees, Stop.map, EvalError.toError, Store.application]
    · simp [Store.executeOpcode, Store.pop, hs, bind, Except.bind]
  | cons v values =>
    cases hg : Slots.get (env.map Prod.snd) i with
    | some v' =>
      have hl : env.lookup name = some (some v') := Option.join_eq_some_iff.mp (hget.trans hg)
      rw [execOpcode_of_error (e := .usedVariable)]
      · simp [evalBind, hs, hl, Agrees, Stop.map, EvalError.toError, Store.application]
      · simp [Store.executeOpcode, Store.pop, Frame.setVariable, hs, hv, hg, bind, Except.bind]
    | none =>
      have hl : ∀ v', env.lookup name ≠ some (some v') := by
        intro v' hl
        rw [hl, hg] at hget
        cases hget
      have hx : s.executeOpcode P { frame with cursor := frame.cursor + 1 } (.setVariable i) =
          .ok ({ s with valueStack := values },
            ⟨frame.cursor + 1, frame.function, Slots.set (env.map Prod.snd) i (some v)⟩, none) := by
        simp [Store.executeOpcode, Store.pop, Frame.setVariable, hs, hv, hg, bind, Except.bind,
          pure, Except.pure]
      have he : evalBind name (env, s, t) =
          .ok (env.set name (some v), { s with valueStack := values }, t) := by
        simp only [evalBind, hs]
      rw [execOpcode_of_none hx, he]
      refine ⟨?_, Env.map_fst_set, rfl, by simp [Store.application]⟩
      rw [Env.map_snd_set, hi]

theorem evalBindList_agrees {nameList : List String} (hv : frame.variableArray = env.map Prod.snd) :
    Agrees (compileSetVariableList (env.map Prod.fst) nameList).2
      (execOpcodes P callM (compileSetVariableList (env.map Prod.fst) nameList).1 (frame, s, t))
      (evalBindList nameList (env, s, t)) := by
  unfold compileSetVariableList evalBindList List.foldrM
  induction nameList.reverse generalizing env frame s t with
  | nil => exact ⟨hv, rfl, rfl, rfl⟩
  | cons name names ih =>
    rw [compileSetVariables_cons, execOpcodes_append, List.foldlM_cons]
    apply Agrees.bind (evalBind_agrees hv)
    intro frame' env' s' t' hv' hl
    rw [← hl]
    exact ih hv'

theorem lt_of_applyNonWire {target : Value} {arity f : ℕ} {s' : Store}
    (h : s.applyNonWire P target arity = .ok (s', some f)) : f < P.functions.length := by
  unfold Store.applyNonWire at h
  cases target with
  | nodeCtor c =>
    dsimp only at h
    split at h
    · obtain ⟨_, -, h⟩ := Outcome.of_bind_eq_ok h
      cases h
    · cases h
  | function g =>
    dsimp only at h
    split at h
    · rename_i hg
      split at h
      · cases h
        exact (List.getElem?_eq_some_iff.mp hg).1
      · cases h
    · cases h
  | primitive k =>
    dsimp only at h
    split at h
    · split at h
      · obtain ⟨_, -, h⟩ := Outcome.of_bind_eq_ok h
        cases h
      · split at h
        · cases h
        · obtain ⟨_, -, h⟩ := Outcome.of_bind_eq_ok h
          cases h
    · cases h
  | _ => cases h

theorem lt_of_applyTarget {target : Value} {arity f : ℕ} {s' : Store}
    (h : s.applyTarget P target arity = .ok (s', some f)) : f < P.functions.length := by
  unfold Store.applyTarget Store.applyWire at h
  split at h
  · obtain ⟨⟨net, defuzed⟩, -, h⟩ := Outcome.of_bind_eq_ok h
    dsimp only at h
    split at h
    · split at h
      · cases h
      · obtain ⟨_, -, h⟩ := Outcome.of_bind_eq_ok h
        obtain ⟨_, -, h⟩ := Outcome.of_bind_eq_ok h
        cases h
    · exact lt_of_applyNonWire h
  · exact lt_of_applyNonWire h

theorem evalApply_agrees {arity : ℕ} (hcall : CallsAgree P callM callE)
    (hv : frame.variableArray = env.map Prod.snd) :
    Agrees (env.map Prod.fst) (execOpcodes P callM [.apply arity] (frame, s, t))
      (evalApply P callE arity (env, s, t)) := by
  rw [execOpcodes_singleton]
  cases hs : s.valueStack with
  | nil =>
    rw [execOpcode_of_error (e := .emptyStack)]
    · simp [evalApply, hs, Agrees, Stop.map, EvalError.toError, Store.application]
    · simp [Store.executeOpcode, Store.pop, hs, bind, Except.bind]
  | cons target values =>
    have ha : s.application (.apply arity) = some ⟨target, (values.take arity).reverse⟩ := by
      simp [Store.application, hs]
    simp only [evalApply, hs]
    cases he : ({ s with valueStack := values } : Store).applyTarget P target arity with
    | error e =>
      rw [execOpcode_of_error (e := e), ha]
      · rfl
      · simp [Store.executeOpcode, Store.pop, hs, he, bind, Except.bind]
    | ok x =>
      obtain ⟨s', f⟩ := x
      have hx : s.executeOpcode P { frame with cursor := frame.cursor + 1 } (.apply arity) =
          .ok (s', { frame with cursor := frame.cursor + 1 }, f) := by
        simp [Store.executeOpcode, Store.pop, hs, he, bind, Except.bind, pure, Except.pure]
      cases f with
      | none =>
        rw [execOpcode_of_none hx, ha]
        exact ⟨hv, rfl, rfl, rfl⟩
      | some f =>
        rw [execOpcode_of_some hx, ha, hcall f (lt_of_applyTarget he)]
        dsimp only
        generalize callE f _ = r
        rcases r with e | ⟨s'', t''⟩
        · rfl
        · exact ⟨hv, rfl, rfl, rfl⟩

mutual

theorem evalExp_agrees (hcall : CallsAgree P callM callE) {env : Env} {frame : Frame} {s : Store}
    {t : Trace} {ops : List Opcode} {locals : List String}
    (hv : frame.variableArray = env.map Prod.snd) :
    ∀ exp : Exp, compileExp find (env.map Prod.fst) exp = .ok (ops, locals) →
      Agrees locals (execOpcodes P callM ops (frame, s, t))
        (evalExp P callE find exp (env, s, t))
  | .var name, h => evalVar_agrees hv h
  | .ap target argList, h => by
    obtain ⟨⟨ops₁, locals₁⟩, h₁, h⟩ := Outcome.of_bind_eq_ok h
    obtain ⟨⟨ops₂, locals₂⟩, h₂, h⟩ := Outcome.of_bind_eq_ok h
    cases h
    rw [execOpcodes_append, execOpcodes_append, bind_assoc]
    apply Agrees.bind (evalExpList_agrees hcall hv argList h₁)
    intro frame' env' s' t' hv' hl
    subst hl
    apply Agrees.bind (evalExp_agrees hcall hv' target h₂)
    intro frame'' env'' s'' t'' hv'' hl
    subst hl
    exact evalApply_agrees hcall hv''
  | .assign nameList exp, h => by
    obtain ⟨⟨ops₁, locals₁⟩, h₁, h⟩ := Outcome.of_bind_eq_ok h
    cases h
    rw [execOpcodes_append]
    apply Agrees.bind (evalExp_agrees hcall hv exp h₁)
    intro frame' env' s' t' hv' hl
    subst hl
    exact evalBindList_agrees hv'
  | .int target, h => by
    cases h
    rw [execOpcodes_singleton]
    exact ⟨hv, rfl, rfl, by simp [Store.application]⟩
  | .float target, h => by
    cases h
    rw [execOpcodes_singleton]
    exact ⟨hv, rfl, rfl, by simp [Store.application]⟩

theorem evalExpList_agrees (hcall : CallsAgree P callM callE) {env : Env} {frame : Frame}
    {s : Store} {t : Trace} {ops : List Opcode} {locals : List String}
    (hv : frame.variableArray = env.map Prod.snd) :
    ∀ expList : List Exp, compileExpList find (env.map Prod.fst) expList = .ok (ops, locals) →
      Agrees locals (execOpcodes P callM ops (frame, s, t))
        (evalExpList P callE find expList (env, s, t))
  | [], h => by
    cases h
    exact ⟨hv, rfl, rfl, rfl⟩
  | exp :: expList, h => by
    obtain ⟨⟨ops₁, locals₁⟩, h₁, h⟩ := Outcome.of_bind_eq_ok h
    obtain ⟨⟨ops₂, locals₂⟩, h₂, h⟩ := Outcome.of_bind_eq_ok h
    cases h
    rw [execOpcodes_append]
    apply Agrees.bind (evalExp_agrees hcall hv exp h₁)
    intro frame' env' s' t' hv' hl
    subst hl
    exact evalExpList_agrees hcall hv' expList h₂

end

/-- A compiled function ends as its body, at every depth of calls. -/
theorem callFunction_agrees (hP : Compiles P bodies) (d : ℕ) :
    CallsAgree P (callFunction P d) (evalCall P bodies d) := by
  induction d with
  | zero =>
    intro f _ σ
    rfl
  | succ d ih =>
    rintro f hf ⟨s, t⟩
    have hget : (bodies[f]?).map Body.compile = some (.ok P.functions[f]) := by
      rw [← List.getElem?_map, hP, List.getElem?_map, List.getElem?_eq_getElem hf, Option.map_some]
    obtain ⟨body, hbody, hb⟩ := Option.map_eq_some_iff.mp hget
    obtain ⟨⟨ops, locals⟩, h₁, h₂⟩ := Outcome.of_bind_eq_ok hb
    simp only [callFunction, evalCall, hbody, List.getElem?_eq_getElem hf, ← Except.ok.inj h₂]
    rw [execOpcodes_append]
    have hv : ({ function := f } : Frame).variableArray = ([] : Env).map Prod.snd := rfl
    have hb : Agrees (compileSetVariableList [] body.nameList).2
        (execOpcodes P (callFunction P d) (compileSetVariableList [] body.nameList).1
          ({ function := f }, s, t))
        (evalBindList body.nameList ([], s, t)) := evalBindList_agrees hv
    have h := hb.bind fun frame env s t hv hl =>
      evalExpList_agrees (s := s) (t := t) ih hv body.expList (hl ▸ h₁)
    exact h.finish.trans (congrArg _ (bind_assoc _ _ _))

/-- Compiled code run by the machine against the evaluator, with calls of any depth. -/
theorem tracedUntil_iff_evalCall (hP : Compiles P bodies) {f : ℕ} (hf : f < bodies.length)
    (s : Store) (R : List Frame) :
    (∀ w t, (∃ n, Worker.tracedUntil P R.length n
          ({ toStore := s, returnStack := { function := f } :: R }, {}) = some (.ok (w, t))) ↔
        w.returnStack = R ∧ ∃ d, evalCall P bodies d f (s, {}) = .ok (w.toStore, t)) ∧
      ∀ e log, (∃ n, Worker.tracedUntil P R.length n
          ({ toStore := s, returnStack := { function := f } :: R }, {}) =
            some (.error (e, log))) ↔
        ∃ d er, evalCall P bodies d f (s, {}) = .error (.error er log) ∧ er.toError = e := by
  have hf' : f < P.functions.length := by
    have hl := congrArg List.length hP
    rw [List.length_map, List.length_map] at hl
    exact hl ▸ hf
  have hends := fun r => ends_iff_callFunction (P := P) (R := R) (s := s) (t := {}) (f := f) (r := r)
  simp only [callFunction_agrees hP _ f hf'] at hends
  constructor
  · rintro ⟨s', R'⟩ t
    apply (hends _).trans
    constructor
    · rintro ⟨d, h⟩
      cases hd : evalCall P bodies d f (s, {}) with
      | error e => rcases e with e | _ <;> simp [hd, Except.mapError, Stop.map] at h
      | ok x =>
        simp only [hd, Except.mapError, Except.ok.injEq, Prod.mk.injEq, Worker.mk.injEq] at h
        obtain ⟨⟨rfl, rfl⟩, rfl⟩ := h
        exact ⟨rfl, d, hd⟩
    · rintro ⟨rfl, d, hd⟩
      use d
      simp [hd, Except.mapError]
  · intro e log
    apply (hends _).trans
    constructor
    · rintro ⟨d, h⟩
      cases hd : evalCall P bodies d f (s, {}) with
      | ok x => simp [hd, Except.mapError] at h
      | error er =>
        rcases er with ⟨er, log'⟩ | _
        · simp only [hd, Except.mapError, Stop.map, Except.error.injEq, Prod.mk.injEq] at h
          obtain ⟨rfl, rfl⟩ := h
          exact ⟨d, er, hd, rfl⟩
        · simp [hd, Except.mapError, Stop.map] at h
    · rintro ⟨d, er, hd, rfl⟩
      use d
      simp [hd, Except.mapError, Stop.map]

end Agreement

/-- `(define (swap x y) y x)`, and a body that calls it twice, the second time as a tail call. -/
def swapBodies : List Body :=
  let find := fun name => if name = "swap" then some (Value.function 0) else none
  [⟨find, ["x", "y"], [.var "y", .var "x"]⟩,
    ⟨find, [], [.assign ["a", "b"] (.ap (.var "swap") [.int 1#64, .int 2#64]),
      .ap (.var "swap") [.var "a", .var "b"]]⟩]

def swapProgram : Program where
  functions :=
    [⟨2, [.setVariable 0, .setVariable 1, .getVariable 0, .getVariable 1]⟩,
      ⟨0, [.literal (xint 1#64), .literal (xint 2#64), .literal (.function 0), .apply 2,
        .setVariable 0, .setVariable 1, .getVariable 1, .getVariable 0, .literal (.function 0),
        .apply 2]⟩]

theorem tracedUntil_iff_evalCall_swap : ∃ n t,
    Worker.tracedUntil swapProgram 0 n ({ returnStack := [{ function := 1 }] }, {}) =
      some (.ok ({ valueStack := [xint 2#64, xint 1#64] }, t)) := by
  have hP : Compiles swapProgram swapBodies := rfl
  have h := (tracedUntil_iff_evalCall hP (f := 1) (by decide) {} []).1
    { valueStack := [xint 2#64, xint 1#64] }
  obtain ⟨n, hn⟩ := (h _).mpr ⟨rfl, 2, rfl⟩
  exact ⟨n, _, hn⟩

end InetLisp
