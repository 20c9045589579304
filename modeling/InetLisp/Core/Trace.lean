import InetLisp.Core.RunUntil
import InetLisp.Lib.Loop
import Mathlib.Data.Multiset.AddSub

/-! # What a run does

A run applies values and leaves bindings in the frames that it destroys. The machine
that records both is set against code that is run to its end before the caller goes
on, where a call is a recursion and not a frame.
-/

namespace InetLisp

open Lib

/-- One call of `worker_apply`; the first argument is the deepest. -/
structure Application where
  target : Value
  args : List Value
  deriving DecidableEq, Repr

/--
What has happened so far. A frame that is destroyed leaves its function and its
variables; which of two frames is destroyed first depends on tail calls.
-/
structure Trace where
  log : List Application := []
  finished : Multiset (ℕ × Slots Value) := 0

/-- Why there is no result: an error, or nothing that can be said. -/
inductive Stop (ε : Type) where
  | error (e : ε) (log : List Application)
  | noResult

namespace Stop

def map {ε ε' : Type} (f : ε → ε') : Stop ε → Stop ε'
  | .error e log => .error (f e) log
  | .noResult => .noResult

end Stop

namespace Trace

def note (t : Trace) (a : Option Application) : Trace :=
  { t with log := t.log ++ a.toList }

def finish (t : Trace) (f : ℕ) (bindings : Slots Value) : Trace :=
  { t with finished := (f, bindings) ::ₘ t.finished }

/-- Further frames have been finished, outside of what the trace is about. -/
def around (t : Trace) (rest : Multiset (ℕ × Slots Value)) : Trace :=
  { t with finished := t.finished + rest }

variable {t : Trace} {rest : Multiset (ℕ × Slots Value)} {f : ℕ} {l : Slots Value}

@[simp] theorem around_zero : t.around 0 = t := by simp [around]

@[simp] theorem note_none : t.note none = t := by simp [note]

@[simp] theorem log_around : (t.around rest).log = t.log := rfl

@[simp] theorem note_around {a : Option Application} :
    (t.around rest).note a = (t.note a).around rest := rfl

theorem finish_around : (t.around rest).finish f l = (t.finish f l).around rest := by
  simp [finish, around, Multiset.cons_add]

theorem around_cons : t.around ((f, l) ::ₘ rest) = (t.finish f l).around rest := by
  simp [finish, around, Multiset.cons_add, Multiset.add_cons]

end Trace

def Store.application (s : Store) : Opcode → Option Application
  | .apply arity => s.valueStack.head?.map fun target =>
    ⟨target, (s.valueStack.tail.take arity).reverse⟩
  | _ => none

namespace Worker

def application (P : Program) (w : Worker) : Option Application := do
  let frame ← w.returnStack.head?
  let function ← P.functions[frame.function]?
  let (opcode, _) ← frame.fetchOpcode function
  w.toStore.application opcode

/-- The frame that the next step destroys, as it leaves it. -/
def destroyed (P : Program) (w : Worker) : Option Frame := do
  let frame ← w.returnStack.head?
  let function ← P.functions[frame.function]?
  match frame.fetchOpcode function with
  | none => some frame
  | some (opcode, frame) =>
    let (_, frame, _) ← (w.toStore.executeOpcode P frame opcode).toOption
    if frame.isFinished function then some frame else none

/-- `worker_run_one_step`, recorded; a run that stops with an error keeps its log. -/
def tracedStep (P : Program) : Worker × Trace → Except (Error × List Application) (Worker × Trace)
  | (w, t) =>
    let t := t.note (w.application P)
    match w.runOneStep P with
    | .error e => .error (e, t.log)
    | .ok w' => .ok (w', (w.destroyed P).elim t fun frame =>
      t.finish frame.function frame.variableArray)

/-- The condition of the loop in `worker_run_until`. -/
def above (returnStackBase : ℕ) (w : Worker × Trace) : Bool :=
  returnStackBase < w.1.returnStack.length

/-- `worker_run_until`, recorded. -/
def tracedUntil (P : Program) (returnStackBase : ℕ) :
    ℕ → Worker × Trace → Option (Except (Error × List Application) (Worker × Trace)) :=
  loop (above returnStackBase) (tracedStep P)

/-- To record a run does not change it. -/
theorem runUntil_eq {P : Program} {base n : ℕ} {w : Worker} {t : Trace} :
    w.runUntil P base n = match tracedUntil P base n (w, t) with
      | none => .error .outOfFuel
      | some (.ok (w', _)) => .ok w'
      | some (.error (e, _)) => .error e := by
  induction n generalizing w t with
  | zero => rfl
  | succ n ih =>
    unfold runUntil tracedUntil loop
    by_cases h : base < w.returnStack.length
    · simp only [above, h, if_true, decide_true]
      cases hw : w.runOneStep P with
      | error e => simp [tracedStep, hw, bind, Except.bind]
      | ok w' => simpa [tracedStep, tracedUntil, hw, bind, Except.bind] using ih
    · simp [above, h]

end Worker

/-! ### Calls as recursion -/

/-- Execute an opcode; `call` runs a function to its end. -/
def execOpcode (P : Program) (call : ℕ → Store × Trace → Except (Stop Error) (Store × Trace))
    (opcode : Opcode) : Frame × Store × Trace → Except (Stop Error) (Frame × Store × Trace)
  | (frame, s, t) =>
    let t := t.note (s.application opcode)
    match s.executeOpcode P frame opcode with
    | .error e => .error (.error e t.log)
    | .ok (s, frame, none) => .ok (frame, s, t)
    | .ok (s, frame, some f) => do
      let (s, t) ← call f (s, t)
      return (frame, s, t)

def execOpcodes (P : Program) (call : ℕ → Store × Trace → Except (Stop Error) (Store × Trace)) :
    List Opcode → Frame × Store × Trace → Except (Stop Error) (Frame × Store × Trace)
  | [], σ => .ok σ
  | opcode :: opcodes, (frame, σ) => do
    let σ ← execOpcode P call opcode ({ frame with cursor := frame.cursor + 1 }, σ)
    execOpcodes P call opcodes σ

/-- Run a function, with calls that are nested at most so deep. -/
def callFunction (P : Program) : ℕ → ℕ → Store × Trace → Except (Stop Error) (Store × Trace)
  | 0, _, _ => .error .noResult
  | d + 1, f, σ => match P.functions[f]? with
    | none => .error (.error .useAfterFree σ.2.log)
    | some function => do
      let (frame, s, t) ← execOpcodes P (callFunction P d) function.opcodeArray ({ function := f }, σ)
      return (s, t.finish f frame.variableArray)

section Simulation

variable {P : Program} {base d : ℕ} {R : List Frame} {rest : Multiset (ℕ × Slots Value)}
  {s s' : Store} {t t' : Trace} {w w' : Worker × Trace}
  {call : ℕ → Store × Trace → Except (Stop Error) (Store × Trace)}

/--
The machine does what a result says: it comes back to the given return stack, stops
with the error, or goes on for at least so many steps.
-/
def Runs (P : Program) (base d : ℕ) (R : List Frame) (rest : Multiset (ℕ × Slots Value))
    (w : Worker × Trace) : Except (Stop Error) (Store × Trace) → Prop
  | .ok (s, t) => Leads (Worker.above base) (Worker.tracedStep P) w
      ({ toStore := s, returnStack := R }, t.around rest)
  | .error (.error e log) => Ends (Worker.above base) (Worker.tracedStep P) w (.error (e, log))
  | .error .noResult => Worker.tracedUntil P base d w = none

/-- The machine does what a call says, whatever lies below the frame of the function. -/
def Simulates (P : Program) (base d : ℕ)
    (call : ℕ → Store × Trace → Except (Stop Error) (Store × Trace)) : Prop :=
  ∀ f s t R rest, base ≤ R.length → Runs P base d R rest
    ({ toStore := s, returnStack := { function := f } :: R }, t.around rest) (call f (s, t))

theorem Runs.of_leads {r : Except (Stop Error) (Store × Trace)}
    (h : Leads (Worker.above base) (Worker.tracedStep P) w w') (hr : Runs P base d R rest w' r) :
    Runs P base d R rest w r := by
  rcases r with (⟨e, log⟩ | _) | ⟨s, t⟩
  · exact Leads.ends h hr
  · exact Leads.eq_none h hr
  · exact Leads.trans h hr

/-- A step makes room for one more step of the rest. -/
theorem Runs.of_step {r : Except (Stop Error) (Store × Trace)} (hw : Worker.above base w = true)
    (h : Worker.tracedStep P w = .ok w') (hr : Runs P base d R rest w' r) :
    Runs P base (d + 1) R rest w r := by
  rcases r with (⟨e, log⟩ | _) | ⟨s, t⟩
  · exact (Leads.of_step hw h).ends hr
  · exact (loop_succ_of_ok hw h).trans hr
  · exact (Leads.of_step hw h).trans hr

theorem Runs.mono {r : Except (Stop Error) (Store × Trace)} (hr : Runs P base (d + 1) R rest w r) :
    Runs P base d R rest w r := by
  rcases r with (⟨e, log⟩ | _) | ⟨s, t⟩
  · exact hr
  · exact loop_eq_none_of_le hr (Nat.le_succ d)
  · exact hr

/-- What follows a call starts where the call has led. -/
theorem Runs.bind {r : Except (Stop Error) (Store × Trace)} {R' : List Frame}
    {rest' : Multiset (ℕ × Slots Value)}
    {k : Store × Trace → Except (Stop Error) (Store × Trace)} (hr : Runs P base d R' rest' w r)
    (hk : ∀ s t, r = .ok (s, t) →
      Runs P base d R rest ({ toStore := s, returnStack := R' }, t.around rest') (k (s, t))) :
    Runs P base d R rest w (r >>= k) := by
  rcases r with (⟨e, log⟩ | _) | ⟨s, t⟩
  · exact hr
  · exact hr
  · exact .of_leads hr (hk s t rfl)

theorem above_cons {f : Frame} (h : base ≤ R.length) :
    Worker.above base ({ toStore := s, returnStack := f :: R }, t) = true := by
  simp only [Worker.above, List.length_cons, decide_eq_true_eq]
  omega

theorem executeOpcode_frame {frame frame' : Frame} {opcode : Opcode} {f : Option ℕ}
    (h : s.executeOpcode P frame opcode = .ok (s', frame', f)) :
    frame'.cursor = frame.cursor ∧ frame'.function = frame.function := by
  cases opcode with
  | apply arity =>
    obtain ⟨⟨v, s₁⟩, -, h⟩ := Outcome.of_bind_eq_ok h
    obtain ⟨⟨s₂, f'⟩, -, h⟩ := Outcome.of_bind_eq_ok h
    cases h
    exact ⟨rfl, rfl⟩
  | literal v =>
    cases h
    exact ⟨rfl, rfl⟩
  | getVariable i =>
    obtain ⟨⟨v, frame₁⟩, hv, h⟩ := Outcome.of_bind_eq_ok h
    cases h
    unfold Frame.getVariable at hv
    split at hv <;> cases hv
    exact ⟨rfl, rfl⟩
  | setVariable i =>
    obtain ⟨⟨v, s₁⟩, -, h⟩ := Outcome.of_bind_eq_ok h
    obtain ⟨frame₁, hv, h⟩ := Outcome.of_bind_eq_ok h
    cases h
    unfold Frame.setVariable at hv
    split at hv <;> cases hv
    exact ⟨rfl, rfl⟩

section Step

variable {frame frame' : Frame} {function : Function} {opcode : Opcode} {opcodes : List Opcode}
  {f : Option ℕ} {e : Error}

theorem execOpcodes_cons {σ : Store × Trace} :
    execOpcodes P call (opcode :: opcodes) (frame, σ) =
      execOpcode P call opcode ({ frame with cursor := frame.cursor + 1 }, σ) >>=
        execOpcodes P call opcodes := rfl

theorem execOpcode_of_error (he : s.executeOpcode P frame opcode = .error e) :
    execOpcode P call opcode (frame, s, t) =
      .error (.error e (t.note (s.application opcode)).log) := by
  simp only [execOpcode, he]

theorem execOpcode_of_none (he : s.executeOpcode P frame opcode = .ok (s', frame', none)) :
    execOpcode P call opcode (frame, s, t) = .ok (frame', s', t.note (s.application opcode)) := by
  simp only [execOpcode, he]

theorem execOpcode_of_some {f : ℕ} (he : s.executeOpcode P frame opcode = .ok (s', frame', some f)) :
    execOpcode P call opcode (frame, s, t) = (do
      let (s, t) ← call f (s', t.note (s.application opcode))
      return (frame', s, t)) := by
  simp only [execOpcode, he]

theorem application_frame (hf : P.functions[frame.function]? = some function)
    (hc : function.opcodeArray.drop frame.cursor = opcode :: opcodes) :
    Worker.application P { toStore := s, returnStack := frame :: R } = s.application opcode := by
  have hop : function.opcodeArray[frame.cursor]? = some opcode := by
    rw [← List.head?_drop, hc, List.head?_cons]
  simp [Worker.application, Frame.fetchOpcode, hf, hop]

theorem tracedStep_of_error (hf : P.functions[frame.function]? = some function)
    (hc : function.opcodeArray.drop frame.cursor = opcode :: opcodes)
    (he : s.executeOpcode P { frame with cursor := frame.cursor + 1 } opcode = .error e) :
    Worker.tracedStep P ({ toStore := s, returnStack := frame :: R }, t) =
      .error (e, (t.note (s.application opcode)).log) := by
  have hop : function.opcodeArray[frame.cursor]? = some opcode := by
    rw [← List.head?_drop, hc, List.head?_cons]
  simp [Worker.tracedStep, Worker.runOneStep, Frame.fetchOpcode, application_frame hf hc, hf, hop,
    he, bind, Except.bind]

theorem isFinished_iff (hc : function.opcodeArray.drop frame.cursor = opcode :: opcodes)
    (hf : frame'.cursor = frame.cursor + 1) :
    frame'.isFinished function = true ↔ opcodes = [] := by
  have hl := congrArg List.length hc
  rw [List.length_drop, List.length_cons] at hl
  rw [Frame.isFinished, decide_eq_true_eq, ← List.length_eq_zero_iff]
  omega

theorem tracedStep_last (hf : P.functions[frame.function]? = some function)
    (hc : function.opcodeArray.drop frame.cursor = [opcode])
    (he : s.executeOpcode P { frame with cursor := frame.cursor + 1 } opcode =
      .ok (s', frame', f)) :
    Worker.tracedStep P ({ toStore := s, returnStack := frame :: R }, t) =
      .ok (Worker.enter { toStore := s', returnStack := R } f,
        (t.note (s.application opcode)).finish frame.function frame'.variableArray) := by
  have hop : function.opcodeArray[frame.cursor]? = some opcode := by
    rw [← List.head?_drop, hc, List.head?_cons]
  obtain ⟨hcur, hfun⟩ := executeOpcode_frame he
  have hfin := (isFinished_iff hc hcur).mpr rfl
  simp [Worker.tracedStep, Worker.runOneStep, Worker.destroyed, Frame.fetchOpcode,
    Worker.pushUnfinished, application_frame hf hc, hf, hop, he, hfin, hfun, bind, Except.bind,
    Except.toOption, pure, Except.pure]

theorem tracedStep_inner {opcode' : Opcode} (hf : P.functions[frame.function]? = some function)
    (hc : function.opcodeArray.drop frame.cursor = opcode :: opcode' :: opcodes)
    (he : s.executeOpcode P { frame with cursor := frame.cursor + 1 } opcode =
      .ok (s', frame', f)) :
    Worker.tracedStep P ({ toStore := s, returnStack := frame :: R }, t) =
      .ok (Worker.enter { toStore := s', returnStack := frame' :: R } f,
        t.note (s.application opcode)) := by
  have hop : function.opcodeArray[frame.cursor]? = some opcode := by
    rw [← List.head?_drop, hc, List.head?_cons]
  obtain ⟨hcur, -⟩ := executeOpcode_frame he
  have hfin : frame'.isFinished function = false :=
    Bool.eq_false_iff.mpr fun h => by cases (isFinished_iff hc hcur).mp h
  simp [Worker.tracedStep, Worker.runOneStep, Worker.destroyed, Frame.fetchOpcode,
    Worker.pushUnfinished, application_frame hf hc, hf, hop, he, hfin, bind, Except.bind,
    Except.toOption, pure, Except.pure]

/-- The code that a frame has left does on the machine what it does when calls are recursion. -/
theorem execOpcodes_runs (hs : Simulates P base d call)
    (hf : P.functions[frame.function]? = some function)
    (hc : function.opcodeArray.drop frame.cursor = opcodes) (hR : base ≤ R.length) :
    Runs P base (d + 1) R rest ({ toStore := s, returnStack := frame :: R }, t.around rest)
      (execOpcodes P call opcodes (frame, s, t) >>= fun (frame', s, t) =>
        .ok (s, t.finish frame.function frame'.variableArray)) := by
  induction opcodes generalizing frame s t with
  | nil =>
    apply Leads.of_step (above_cons hR)
    have hop : function.opcodeArray[frame.cursor]? = none := by
      rw [← List.head?_drop, hc, List.head?_nil]
    simp [Worker.tracedStep, Worker.runOneStep, Worker.application, Worker.destroyed,
      Frame.fetchOpcode, hf, hop, Trace.finish_around]
  | cons opcode opcodes ih =>
    have ho := above_cons (s := s) (t := t.around rest) (f := frame) hR
    rw [execOpcodes_cons, bind_assoc]
    cases he : s.executeOpcode P { frame with cursor := frame.cursor + 1 } opcode with
    | error e =>
      rw [execOpcode_of_error he]
      exact .of_error ho (tracedStep_of_error hf hc he)
    | ok x =>
      obtain ⟨s', frame', f⟩ := x
      obtain ⟨hcur, hfun⟩ := executeOpcode_frame he
      simp only at hcur hfun
      have hc' : function.opcodeArray.drop frame'.cursor = opcodes := by
        rw [hcur, ← List.drop_drop, hc, List.drop_one, List.tail_cons]
      cases opcodes with
      | nil =>
        -- In last position the function finds the frame of its caller gone.
        have hstep := tracedStep_last (t := t.around rest) (R := R) hf hc he
        apply Runs.of_step ho hstep
        rw [Trace.note_around, Trace.finish_around, ← Trace.around_cons]
        cases f with
        | none =>
          rw [execOpcode_of_none he]
          apply Leads.of_eq
          rw [Trace.around_cons]
          rfl
        | some f =>
          rw [execOpcode_of_some he, bind_assoc]
          apply Runs.bind (hs f s' _ R _ hR)
          intro s'' t'' _
          apply Leads.of_eq
          rw [Trace.around_cons]
      | cons opcode' opcodes =>
        have hstep := tracedStep_inner (t := t.around rest) (R := R) hf hc he
        have ih := fun s t => @ih s t frame' (hfun.symm ▸ hf) hc'
        rw [hfun] at ih
        cases f with
        | none =>
          rw [execOpcode_of_none he]
          exact .of_leads (.of_step ho hstep) (ih s' _)
        | some f =>
          rw [execOpcode_of_some he, bind_assoc]
          apply Runs.of_step ho hstep
          apply Runs.bind (hs f s' _ (frame' :: R) rest (Nat.le_succ_of_le hR))
          intro s'' t'' _
          exact (ih s'' t'').mono

end Step

theorem callFunction_simulates (d : ℕ) : Simulates P base d (callFunction P d) := by
  induction d with
  | zero =>
    intro f s t R rest hR
    rfl
  | succ d ih =>
    intro f s t R rest hR
    unfold callFunction
    cases hf : P.functions[f]? with
    | none =>
      apply Ends.of_error (above_cons hR)
      simp [Worker.tracedStep, Worker.runOneStep, Worker.application, hf]
    | some function =>
      exact @execOpcodes_runs P base d R rest s t _ { function := f } function _ ih hf List.drop_zero hR

/-- The run that starts by entering the function ends as the call says, for any depth it needs. -/
theorem ends_iff_callFunction {f : ℕ} {r : Except (Error × List Application) (Worker × Trace)} :
    Ends (Worker.above R.length) (Worker.tracedStep P)
        ({ toStore := s, returnStack := { function := f } :: R }, t) r ↔
      ∃ d, match callFunction P d f (s, t) with
        | .ok (s', t') => r = .ok ({ toStore := s', returnStack := R }, t')
        | .error (.error e log) => r = .error (e, log)
        | .error .noResult => False := by
  have hsim : ∀ d, Runs P R.length d R 0
      ({ toStore := s, returnStack := { function := f } :: R }, t) (callFunction P d f (s, t)) := by
    intro d
    have := callFunction_simulates (P := P) d f s t R 0 le_rfl
    rwa [Trace.around_zero] at this
  have hends : ∀ d r', (match callFunction P d f (s, t) with
        | .ok (s', t') => r' = .ok ({ toStore := s', returnStack := R }, t')
        | .error (.error e log) => r' = .error (e, log)
        | .error .noResult => False) → Ends (Worker.above R.length) (Worker.tracedStep P)
          ({ toStore := s, returnStack := { function := f } :: R }, t) r' := by
    intro d r' h
    have hd := hsim d
    split at h
    · rename_i hc
      rw [hc] at hd
      subst h
      apply Leads.ends hd
      rw [Trace.around_zero]
      exact .of_not_more (by simp [Worker.above])
    · rename_i hc
      rw [hc] at hd
      subst h
      exact hd
    · exact h.elim
  constructor
  · rintro ⟨n, hn⟩
    use n
    have hd := hsim n
    have he := hends n
    split
    · rename_i hc
      rw [hc] at he
      exact Ends.unique ⟨n, hn⟩ (he _ rfl)
    · rename_i hc
      rw [hc] at he
      exact Ends.unique ⟨n, hn⟩ (he _ rfl)
    · rename_i hc
      rw [hc] at hd
      change loop _ _ n _ = none at hd
      rw [hd] at hn
      cases hn
  · rintro ⟨d, h⟩
    exact hends d r h

end Simulation

end InetLisp
