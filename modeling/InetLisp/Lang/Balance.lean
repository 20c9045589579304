import InetLisp.Core.HandleTask
import InetLisp.Core.TailCall
import InetLisp.Lang.Evaluate
import Mathlib.Logic.Relation

/-! # The balance of a body

A variable is read at most once, but nothing checks that it is read at all, and nothing
checks that the body of a rule leaves no value. What a frame leaves in its variables
is read off its code. What a rule leaves on the value stack is too, as far as every
application leaves as many values as its place in the code is for.
-/

namespace InetLisp

open Lib Relation

/-- Whether a slot holds a value after an opcode. -/
def Opcode.fills (i : ℕ) (filled : Bool) : Opcode → Bool
  | .getVariable j => filled && j ≠ i
  | .setVariable j => filled || j = i
  | _ => filled

/-- Whether a slot holds a value after some opcodes. -/
def holds (i : ℕ) (opcodes : List Opcode) : Bool := opcodes.foldl (Opcode.fills i) false

/-- The last access of every variable reads it. -/
def Function.Linear (function : Function) : Prop := ∀ i, holds i function.opcodeArray = false

/-- What an opcode adds to the height of the value stack; an application leaves values as given. -/
def Opcode.effect (leaves : ℕ) : Opcode → ℤ
  | .apply arity => leaves - (arity + 1)
  | .literal _ => 1
  | .getVariable _ => 1
  | .setVariable _ => -1

/-- What opcodes add to the height, with the values that the application at each place leaves. -/
def effect (leaves : ℕ → ℕ) : ℕ → List Opcode → ℤ
  | _, [] => 0
  | i, opcode :: opcodes => opcode.effect (leaves i) + effect leaves (i + 1) opcodes

def Program.effect (P : Program) (leaves : ℕ → ℕ → ℕ) (f : ℕ) : ℤ :=
  (P.functions[f]?).elim 0 fun function => InetLisp.effect (leaves f) 0 function.opcodeArray

/-- The number of values that a function leaves in place of its arguments. -/
def Program.results (P : Program) (leaves : ℕ → ℕ → ℕ) (f : ℕ) : ℤ :=
  (P.functions[f]?).elim 0 fun function =>
    function.arity + InetLisp.effect (leaves f) 0 function.opcodeArray

namespace Worker

/-- The next step, if it applies a value, leaves as many values as its place in the code is for. -/
def Meets (P : Program) (leaves : ℕ → ℕ → ℕ) (w : Worker) : Prop :=
  ∀ frame rest function arity target values net v, w.returnStack = frame :: rest →
    P.functions[frame.function]? = some function →
      function.opcodeArray[frame.cursor]? = some (.apply arity) →
        w.valueStack = target :: values → Store.defuze w.toNet target = .ok (net, v) →
          Store.leaves P (P.results leaves) arity v = leaves frame.function frame.cursor

/--
What can happen while a worker runs code: it takes a step, or other workers change
everything but its stacks.
-/
inductive Moves (P : Program) (base : ℕ) : Worker × Trace → Worker × Trace → Prop
  | step {x y : Worker × Trace} (h : Next (above base) (tracedStep P) x y) : Moves P base x y
  | other {w : Worker} {t : Trace} (s : Store) (h : s.valueStack = w.valueStack) :
    Moves P base (w, t) (w.setStore s, t)

/-- A run that has come back to the given number of frames without an error. -/
def Returns (P : Program) (base : ℕ) (start : Worker) (w : Worker) (t : Trace) : Prop :=
  ReflTransGen (Moves P base) (start, {}) (w, t) ∧ above base (w, t) = false

end Worker

/-- Every variable has been consumed when its frame is destroyed. -/
def Consumes (P : Program) : Prop :=
  ∀ f s R w t, Worker.Returns P R.length { toStore := s, returnStack := { function := f } :: R }
    w t → ∀ x ∈ t.finished, ∀ i, x.2.get i = none

/-- The value stack is as high after a rule as before. -/
def Balances (P : Program) : Prop :=
  ∀ (w : Worker) left right rule w₁ w₂ t, w.enterRule P left right rule = .ok w₁ →
    Worker.Returns P w.returnStack.length w₁ w₂ t → w₂.valueStack.length = w.valueStack.length

section Slots

variable {P : Program} {base i f₀ : ℕ} {s s' : Store} {frame frame' : Frame} {function : Function}
  {opcode : Opcode} {f : Option ℕ} {R : List Frame} {w w' : Worker} {t t' : Trace}

theorem holds_concat {opcodes : List Opcode} :
    holds i (opcodes ++ [opcode]) = opcode.fills i (holds i opcodes) := by
  simp [holds]

/-- The slots of a frame that hold a value are those that the code executed so far has filled. -/
def Frame.Tracks (P : Program) (frame : Frame) : Prop :=
  ∀ function, P.functions[frame.function]? = some function →
    ∀ i, (frame.variableArray.get i).isSome = holds i (function.opcodeArray.take frame.cursor)

theorem executeOpcode_fills (h : s.executeOpcode P frame opcode = .ok (s', frame', f)) :
    (frame'.variableArray.get i).isSome = opcode.fills i (frame.variableArray.get i).isSome := by
  cases opcode with
  | apply arity =>
    obtain ⟨⟨v, s₁⟩, -, h⟩ := Outcome.of_bind_eq_ok h
    obtain ⟨⟨s₂, f'⟩, -, h⟩ := Outcome.of_bind_eq_ok h
    cases h
    rfl
  | literal v =>
    cases h
    rfl
  | getVariable j =>
    obtain ⟨⟨v, frame₁⟩, hv, h⟩ := Outcome.of_bind_eq_ok h
    cases h
    unfold Frame.getVariable at hv
    split at hv
    · cases hv
    · cases hv
      by_cases hj : j = i <;> simp [Opcode.fills, Slots.get_set, hj]
  | setVariable j =>
    obtain ⟨⟨v, s₁⟩, -, h⟩ := Outcome.of_bind_eq_ok h
    obtain ⟨frame₁, hv, h⟩ := Outcome.of_bind_eq_ok h
    cases h
    unfold Frame.setVariable at hv
    split at hv
    · cases hv
      by_cases hj : j = i <;> simp [Opcode.fills, Slots.get_set, hj]
    · cases hv

theorem Frame.Tracks.fetchOpcode {frame₁ : Frame} (h : frame.Tracks P)
    (hf : P.functions[frame.function]? = some function)
    (hfetch : frame.fetchOpcode function = some (opcode, frame₁))
    (he : s.executeOpcode P frame₁ opcode = .ok (s', frame', f)) : frame'.Tracks P := by
  obtain ⟨o, ho, he'⟩ := Option.map_eq_some_iff.mp hfetch
  cases he'
  obtain ⟨hcur, hfun⟩ := executeOpcode_frame he
  intro function' hf' i
  rw [hfun, hf] at hf'
  cases hf'
  rw [executeOpcode_fills he, hcur, List.take_add_one, ho, Option.toList_some, holds_concat]
  exact congrArg (opcode.fills i) (h function hf i)

/-- What a destroyed frame leaves in its slots is what its whole code has filled. -/
def Leaves (P : Program) (x : ℕ × Slots Value) : Prop :=
  ∃ function, P.functions[x.1]? = some function ∧
    ∀ i, (x.2.get i).isSome = holds i function.opcodeArray

theorem Leaves.iff_linear {x : ℕ × Slots Value} (h : Leaves P x) :
    (∀ i, x.2.get i = none) ↔ ∃ function, P.functions[x.1]? = some function ∧ function.Linear := by
  obtain ⟨function, hf, hl⟩ := h
  constructor
  · intro hn
    refine ⟨function, hf, fun i => ?_⟩
    rw [← hl i, hn i, Option.isSome_none]
  · rintro ⟨function', hf', hl'⟩ i
    rw [hf] at hf'
    cases hf'
    rw [← Option.not_isSome_iff_eq_none, hl i, hl' i]
    exact Bool.false_ne_true

/-- What a step of running code can do. -/
inductive Stepped (P : Program) (s : Store) (frame : Frame) (R : List Frame) (t : Trace) :
    Worker × Trace → Prop
  | empty (function : Function) (hf : P.functions[frame.function]? = some function)
    (hc : frame.fetchOpcode function = none) : Stepped P s frame R t
      ({ toStore := s, returnStack := R }, t.finish frame.function frame.variableArray)
  | last (function : Function) (opcode : Opcode) (frame₁ : Frame) (s' : Store) (frame' : Frame)
    (f : Option ℕ) (hf : P.functions[frame.function]? = some function)
    (hc : frame.fetchOpcode function = some (opcode, frame₁))
    (he : s.executeOpcode P frame₁ opcode = .ok (s', frame', f))
    (hl : frame'.isFinished function = true) : Stepped P s frame R t
      (Worker.enter { toStore := s', returnStack := R } f,
        (t.note (s.application opcode)).finish frame'.function frame'.variableArray)
  | inner (function : Function) (opcode : Opcode) (frame₁ : Frame) (s' : Store) (frame' : Frame)
    (f : Option ℕ) (hf : P.functions[frame.function]? = some function)
    (hc : frame.fetchOpcode function = some (opcode, frame₁))
    (he : s.executeOpcode P frame₁ opcode = .ok (s', frame', f))
    (hl : frame'.isFinished function = false) : Stepped P s frame R t
      (Worker.enter { toStore := s', returnStack := frame' :: R } f, t.note (s.application opcode))

theorem Stepped.of_tracedStep {x : Worker × Trace}
    (h : Worker.tracedStep P ({ toStore := s, returnStack := frame :: R }, t) = .ok x) :
    Stepped P s frame R t x := by
  cases hf : P.functions[frame.function]? with
  | none => simp [Worker.tracedStep, Worker.runOneStep, hf] at h
  | some function =>
    cases hc : frame.fetchOpcode function with
    | none =>
      have hx : x = ({ toStore := s, returnStack := R },
          t.finish frame.function frame.variableArray) := by
        simpa [Worker.tracedStep, Worker.runOneStep, Worker.application, Worker.destroyed, hf,
          hc] using h.symm
      subst hx
      exact .empty function hf hc
    | some y =>
      obtain ⟨opcode, frame₁⟩ := y
      cases he : s.executeOpcode P frame₁ opcode with
      | error e =>
        simp [Worker.tracedStep, Worker.runOneStep, hf, hc, he, bind, Except.bind] at h
      | ok y =>
        obtain ⟨s', frame', f⟩ := y
        cases hl : frame'.isFinished function with
        | true =>
          have hx : x = (Worker.enter { toStore := s', returnStack := R } f,
              (t.note (s.application opcode)).finish frame'.function frame'.variableArray) := by
            simpa [Worker.tracedStep, Worker.runOneStep, Worker.application, Worker.destroyed,
              Worker.pushUnfinished, hf, hc, he, hl, bind, Except.bind, Except.toOption, pure,
              Except.pure] using h.symm
          subst hx
          exact .last function opcode frame₁ s' frame' f hf hc he hl
        | false =>
          have hx : x = (Worker.enter { toStore := s', returnStack := frame' :: R } f,
              t.note (s.application opcode)) := by
            simpa [Worker.tracedStep, Worker.runOneStep, Worker.application, Worker.destroyed,
              Worker.pushUnfinished, hf, hc, he, hl, bind, Except.bind, Except.toOption, pure,
              Except.pure] using h.symm
          subst hx
          exact .inner function opcode frame₁ s' frame' f hf hc he hl

/-- The frames above the base track their code, and so have those that are destroyed. -/
structure Tracked (P : Program) (R : List Frame) (x : Worker × Trace) : Prop where
  stack : ∃ D, x.1.returnStack = D ++ R ∧ ∀ frame ∈ D, frame.Tracks P
  finished : ∀ l ∈ x.2.finished, Leaves P l

theorem Frame.Tracks.new (f : ℕ) : ({ function := f } : Frame).Tracks P := by
  intro function _ i
  rfl

/-- A frame with no code left leaves what its whole code has filled. -/
theorem Frame.Tracks.leaves (h : frame.Tracks P) (hf : P.functions[frame.function]? = some function)
    (hc : function.opcodeArray.length ≤ frame.cursor) :
    Leaves P (frame.function, frame.variableArray) := by
  refine ⟨function, hf, fun i => ?_⟩
  rw [h function hf i, List.take_of_length_le hc]

theorem Tracked.enter {D : List Frame} (hD : ∀ frame ∈ D, frame.Tracks P)
    (ht : ∀ l ∈ t.finished, Leaves P l) (f : Option ℕ) :
    Tracked P R (Worker.enter { toStore := s, returnStack := D ++ R } f, t) := by
  refine ⟨?_, ht⟩
  cases f with
  | none => exact ⟨D, rfl, hD⟩
  | some f =>
    refine ⟨{ function := f } :: D, rfl, ?_⟩
    simp only [List.mem_cons, forall_eq_or_imp]
    exact ⟨.new f, hD⟩

theorem Tracked.step {x y : Worker × Trace} (h : Tracked P R x)
    (hxy : Next (Worker.above R.length) (Worker.tracedStep P) x y) : Tracked P R y := by
  obtain ⟨⟨s, stack⟩, t⟩ := x
  obtain ⟨⟨D, hD, htr⟩, hfin⟩ := h
  obtain ⟨ha, hs⟩ := hxy
  dsimp only at hD
  subst hD
  cases D with
  | nil => simp [Worker.above] at ha
  | cons frame D =>
    rw [List.forall_mem_cons] at htr
    obtain ⟨hframe, htr⟩ := htr
    have hcons : ∀ {x : ℕ × Slots Value}, Leaves P x → ∀ l ∈ x ::ₘ t.finished, Leaves P l := by
      intro x hx l hl
      rcases Multiset.mem_cons.mp hl with rfl | hl
      · exact hx
      · exact hfin l hl
    cases Stepped.of_tracedStep hs with
    | empty function hf hc =>
      refine ⟨⟨D, rfl, htr⟩, hcons (hframe.leaves hf ?_)⟩
      simpa [Frame.fetchOpcode] using hc
    | last function opcode frame₁ s' frame' f hf hc he hl =>
      have hframe' := hframe.fetchOpcode hf hc he
      have hf' : P.functions[frame'.function]? = some function := by
        rw [(executeOpcode_frame he).2, (fetchOpcode_frame hc).2.2, hf]
      exact .enter htr (hcons (hframe'.leaves hf' (of_decide_eq_true hl).ge)) f
    | inner function opcode frame₁ s' frame' f hf hc he hl =>
      have hD : ∀ x ∈ frame' :: D, x.Tracks P := by
        rw [List.forall_mem_cons]
        exact ⟨hframe.fetchOpcode hf hc he, htr⟩
      exact Tracked.enter (t := t.note (s.application opcode)) hD hfin f

theorem Tracked.moves {x y : Worker × Trace} (h : Tracked P R x)
    (hxy : Worker.Moves P R.length x y) : Tracked P R y := by
  cases hxy with
  | step hs => exact h.step hs
  | other s hv => exact ⟨h.stack, h.finished⟩

theorem Tracked.returnStack_eq (h : Tracked P R (w, t))
    (ha : Worker.above R.length (w, t) = false) : w.returnStack = R := by
  obtain ⟨⟨D, hD, -⟩, -⟩ := h
  dsimp only at hD
  simp only [Worker.above, hD, List.length_append, decide_eq_false_iff_not, not_lt] at ha
  rw [hD, List.length_eq_zero_iff.mp (by omega : D.length = 0), List.nil_append]

/-- The frames below the base stay where they are, and every destroyed frame has tracked its code. -/
theorem Tracked.of_run {x : Worker × Trace}
    (h : ReflTransGen (Worker.Moves P R.length)
      ({ toStore := s, returnStack := { function := f₀ } :: R }, {}) x) : Tracked P R x := by
  induction h with
  | refl => exact ⟨⟨[{ function := f₀ }], rfl, by simpa using Frame.Tracks.new f₀⟩, by simp⟩
  | tail _ hxy ih => exact ih.moves hxy

end Slots

section Heights

variable {P : Program} {leaves : ℕ → ℕ → ℕ} {base f₀ : ℕ} {s s' : Store} {frame frame' : Frame}
  {function : Function} {opcode : Opcode} {f : Option ℕ} {R : List Frame} {w : Worker} {t : Trace}

/-- What the code that a frame has left adds to the height. -/
def Frame.remaining (P : Program) (leaves : ℕ → ℕ → ℕ) (frame : Frame) : ℤ :=
  (P.functions[frame.function]?).elim 0 fun function =>
    effect (leaves frame.function) frame.cursor (function.opcodeArray.drop frame.cursor)

/-- The height that a worker comes back with. -/
def Worker.total (P : Program) (leaves : ℕ → ℕ → ℕ) (w : Worker) : ℤ :=
  w.height + (w.returnStack.map (Frame.remaining P leaves)).sum

theorem effect_drop {l : ℕ → ℕ} {opcodes : List Opcode} {i : ℕ} (h : opcodes[i]? = some opcode) :
    effect l i (opcodes.drop i) =
      opcode.effect (l i) + effect l (i + 1) (opcodes.drop (i + 1)) := by
  obtain ⟨hi, rfl⟩ := List.getElem?_eq_some_iff.mp h
  rw [List.drop_eq_getElem_cons hi, effect]

theorem remaining_of_fetch {frame₁ : Frame} (hf : P.functions[frame.function]? = some function)
    (h : frame.fetchOpcode function = some (opcode, frame₁)) :
    frame.remaining P leaves =
      opcode.effect (leaves frame.function frame.cursor) + frame₁.remaining P leaves := by
  obtain ⟨o, ho, he⟩ := Option.map_eq_some_iff.mp h
  cases he
  simp only [Frame.remaining, hf, Option.elim]
  exact effect_drop ho

theorem remaining_of_finished (hf : P.functions[frame.function]? = some function)
    (hc : function.opcodeArray.length ≤ frame.cursor) : frame.remaining P leaves = 0 := by
  simp only [Frame.remaining, hf, Option.elim, List.drop_of_length_le hc, effect]

theorem remaining_congr (hc : frame'.cursor = frame.cursor) (hf : frame'.function = frame.function) :
    frame'.remaining P leaves = frame.remaining P leaves := by
  simp only [Frame.remaining, hc, hf]

theorem pending_results :
    Store.pending P (P.results leaves) f =
      f.elim 0 fun f => Frame.remaining P leaves { function := f } := by
  cases f with
  | none => rfl
  | some f =>
    simp only [Store.pending, Option.elim, Frame.remaining, Program.results]
    cases P.functions[f]? with
    | none => rfl
    | some function => simp

theorem total_enter : Worker.total P leaves (Worker.enter { toStore := s, returnStack := R } f) =
    s.height + Store.pending P (P.results leaves) f + (R.map (Frame.remaining P leaves)).sum := by
  rw [pending_results]
  cases f with
  | none => simp [Worker.total, Worker.enter]
  | some f =>
    simp only [Worker.total, Worker.enter, Option.elim, List.map_cons, List.sum_cons]
    omega

theorem height_executeOpcode (leaves : ℕ → ℕ → ℕ) (k : ℕ) (hP : ∀ p ∈ P.primitives, p.Ok)
    (hm : ∀ arity target values net v, opcode = .apply arity → s.valueStack = target :: values →
      Store.defuze s.toNet target = .ok (net, v) → Store.leaves P (P.results leaves) arity v = k)
    (h : s.executeOpcode P frame opcode = .ok (s', frame', f)) :
    s'.height + Store.pending P (P.results leaves) f = s.height + opcode.effect k := by
  cases opcode with
  | apply arity =>
    obtain ⟨⟨target, s₁⟩, hp, h⟩ := Outcome.of_bind_eq_ok h
    obtain ⟨⟨s₂, f'⟩, ha, h⟩ := Outcome.of_bind_eq_ok h
    cases h
    obtain ⟨net, v, hd, hh⟩ := Store.height_applyTarget (P.results leaves) hP ha
    have hpop := Store.height_pop hp
    unfold Store.pop at hp
    split at hp
    · cases hp
    · rename_i target' values hs
      cases hp
      rw [hh, hm arity target values net v rfl hs hd, hpop, Opcode.effect]
      omega
  | literal v =>
    cases h
    rw [Store.height_push]
    rfl
  | getVariable i =>
    obtain ⟨⟨v, frame₁⟩, -, h⟩ := Outcome.of_bind_eq_ok h
    cases h
    rw [Store.height_push]
    rfl
  | setVariable i =>
    obtain ⟨⟨v, s₁⟩, hp, h⟩ := Outcome.of_bind_eq_ok h
    obtain ⟨frame₁, -, h⟩ := Outcome.of_bind_eq_ok h
    cases h
    rw [Store.height_pop hp, Opcode.effect]
    simp [Store.pending]

/-- A step that leaves what its place is for does not change where the worker comes out. -/
theorem Stepped.total_eq {x : Worker × Trace} (hP : ∀ p ∈ P.primitives, p.Ok)
    (hm : Worker.Meets P leaves { toStore := s, returnStack := frame :: R })
    (h : Stepped P s frame R t x) :
    x.1.total P leaves = Worker.total P leaves { toStore := s, returnStack := frame :: R } := by
  have hstep : ∀ {function opcode frame₁ s' frame' f},
      P.functions[frame.function]? = some function →
        frame.fetchOpcode function = some (opcode, frame₁) →
          s.executeOpcode P frame₁ opcode = .ok (s', frame', f) →
            s'.height + Store.pending P (P.results leaves) f + frame'.remaining P leaves =
              s.height + frame.remaining P leaves := by
    intro function opcode frame₁ s' frame' f hf hc he
    obtain ⟨hcur, hfun⟩ := executeOpcode_frame he
    obtain ⟨o, ho, he'⟩ := Option.map_eq_some_iff.mp hc
    have ho : function.opcodeArray[frame.cursor]? = some opcode := by
      cases he'
      exact ho
    have hk : ∀ arity target values net v, opcode = .apply arity → s.valueStack = target :: values →
        Store.defuze s.toNet target = .ok (net, v) →
          Store.leaves P (P.results leaves) arity v = leaves frame.function frame.cursor := by
      rintro arity target values net v rfl hs hd
      exact hm frame R function arity target values net v rfl hf ho hs hd
    rw [remaining_congr hcur hfun, remaining_of_fetch hf hc,
      height_executeOpcode leaves _ hP hk he, add_assoc]
  cases h with
  | empty function hf hc =>
    have hr : frame.remaining P leaves = 0 :=
      remaining_of_finished hf (by simpa [Frame.fetchOpcode] using hc)
    simp only [Worker.total, List.map_cons, List.sum_cons, hr, zero_add]
  | last function opcode frame₁ s' frame' f hf hc he hl =>
    have hr : frame'.remaining P leaves = 0 := by
      refine remaining_of_finished ?_ (of_decide_eq_true hl).ge
      rw [(executeOpcode_frame he).2, (fetchOpcode_frame hc).2.2, hf]
    have hs := hstep hf hc he
    rw [total_enter]
    simp only [Worker.total, List.map_cons, List.sum_cons]
    omega
  | inner function opcode frame₁ s' frame' f hf hc he hl =>
    have hs := hstep hf hc he
    rw [total_enter]
    simp only [Worker.total, List.map_cons, List.sum_cons]
    omega

/-- A run whose applications leave what their places are for comes out as its start says. -/
theorem total_of_run {x y : Worker × Trace} (hP : ∀ p ∈ P.primitives, p.Ok)
    (h : ReflTransGen (Worker.Moves P base) x y)
    (hm : ∀ z, ReflTransGen (Worker.Moves P base) x z → Worker.above base z = true →
      z.1.Meets P leaves) :
    y.1.total P leaves = x.1.total P leaves := by
  induction h with
  | refl => rfl
  | @tail y z hxy hyz ih =>
    rw [← ih]
    cases hyz with
    | step hs =>
      obtain ⟨⟨s, stack⟩, t⟩ := y
      obtain ⟨ha, hs⟩ := hs
      cases stack with
      | nil => simp [Worker.above] at ha
      | cons frame R => exact (Stepped.of_tracedStep hs).total_eq hP (hm _ hxy ha)
    | other s hv =>
      simp only [Worker.total, Worker.setStore, Store.height, hv]

end Heights

section Literal

variable {P : Program} {leaves : ℕ → ℕ → ℕ} {f₀ : ℕ} {s s' : Store} {frame frame' : Frame}
  {function : Function} {opcode : Opcode} {f : Option ℕ} {R D : List Frame} {t : Trace}

/-- Every target is a literal, which leaves what its place is for: nothing depends on a run. -/
def LiteralTargets (P : Program) (leaves : ℕ → ℕ → ℕ) : Prop :=
  ∀ f function i arity, P.functions[f]? = some function →
    function.opcodeArray[i]? = some (.apply arity) →
      ∃ j v, i = j + 1 ∧ function.opcodeArray[j]? = some (.literal v) ∧ ¬ v.IsWire ∧
        Store.leaves P (P.results leaves) arity v = leaves f i

/-- If the opcode before the cursor is a literal, the property holds of it. -/
def Frame.After (P : Program) (p : Value → Prop) (frame : Frame) : Prop :=
  ∀ function j v, P.functions[frame.function]? = some function → frame.cursor = j + 1 →
    function.opcodeArray[j]? = some (.literal v) → p v

/-- A literal that was executed last is the topmost value, and no frame below waits after one. -/
def Topmost (P : Program) (s : Store) : List Frame → Prop
  | [] => True
  | frame :: D => frame.After P (fun v => s.valueStack.head? = some v) ∧
    ∀ x ∈ D, x.After P fun _ => False

theorem Topmost.of_below (h : ∀ x ∈ D, x.After P fun _ => False) : Topmost P s D := by
  cases D with
  | nil => trivial
  | cons frame D =>
    rw [List.forall_mem_cons] at h
    exact ⟨fun function j v hf hc hv => (h.1 function j v hf hc hv).elim, h.2⟩

theorem Topmost.enter (h : ∀ x ∈ D, x.After P fun _ => False) (f : ℕ) :
    Topmost P s ({ function := f } :: D) := by
  refine ⟨fun function j v _ hc _ => ?_, h⟩
  cases hc

theorem After.of_execute {frame₁ : Frame} (hf : P.functions[frame.function]? = some function)
    (hc : frame.fetchOpcode function = some (opcode, frame₁))
    (he : s.executeOpcode P frame₁ opcode = .ok (s', frame', f)) :
    frame'.After P fun v => s'.valueStack.head? = some v ∧ f = none := by
  obtain ⟨hcur, hfun⟩ := executeOpcode_frame he
  obtain ⟨o, ho, he'⟩ := Option.map_eq_some_iff.mp hc
  cases he'
  intro function' j v hf' hj hv
  rw [hfun, hf] at hf'
  cases hf'
  have hj' : j = frame.cursor := by
    rw [hcur] at hj
    exact (Nat.succ_injective hj).symm
  rw [hj', ho] at hv
  cases hv
  cases he
  exact ⟨rfl, rfl⟩

theorem Topmost.step {x : Worker × Trace} (h : Topmost P s (frame :: D))
    (hs : Stepped P s frame (D ++ R) t x) :
    ∃ D', x.1.returnStack = D' ++ R ∧ Topmost P x.1.toStore D' := by
  cases hs with
  | empty function hf hc => exact ⟨D, rfl, .of_below h.2⟩
  | last function opcode frame₁ s' frame' f hf hc he hl =>
    cases f with
    | none => exact ⟨D, rfl, .of_below h.2⟩
    | some f => exact ⟨{ function := f } :: D, rfl, .enter h.2 f⟩
  | inner function opcode frame₁ s' frame' f hf hc he hl =>
    have ha := After.of_execute hf hc he
    cases f with
    | none =>
      refine ⟨frame' :: D, rfl, fun function j v hf hj hv => (ha function j v hf hj hv).1, h.2⟩
    | some f =>
      refine ⟨{ function := f } :: frame' :: D, rfl, .enter ?_ f⟩
      rw [List.forall_mem_cons]
      refine ⟨fun function j v hf hj hv => ?_, h.2⟩
      cases (ha function j v hf hj hv).2

theorem Topmost.of_run {x : Worker × Trace}
    (h : ReflTransGen (Worker.Moves P R.length)
      ({ toStore := s, returnStack := { function := f₀ } :: R }, {}) x) :
    ∃ D, x.1.returnStack = D ++ R ∧ Topmost P x.1.toStore D := by
  induction h with
  | refl => exact ⟨[{ function := f₀ }], rfl, .enter (by simp) f₀⟩
  | @tail y z _ hyz ih =>
    obtain ⟨⟨s', stack⟩, t⟩ := y
    obtain ⟨D, rfl, hT⟩ := ih
    cases hyz with
    | step hs =>
      obtain ⟨ha, hs⟩ := hs
      cases D with
      | nil => simp [Worker.above] at ha
      | cons frame D => exact hT.step (Stepped.of_tracedStep hs)
    | other s hv =>
      refine ⟨D, rfl, ?_⟩
      cases D with
      | nil => trivial
      | cons frame D =>
        refine ⟨fun function j v hf hj hl => ?_, hT.2⟩
        simp only [Worker.setStore, hv]
        exact hT.1 function j v hf hj hl

theorem meets_of_literalTargets (hL : LiteralTargets P leaves) {x : Worker × Trace}
    (h : ReflTransGen (Worker.Moves P R.length)
      ({ toStore := s, returnStack := { function := f₀ } :: R }, {}) x)
    (ha : Worker.above R.length x = true) : x.1.Meets P leaves := by
  obtain ⟨D, hD, hT⟩ := Topmost.of_run h
  intro frame rest function arity target values net v hs hf hop hv hd
  cases D with
  | nil => simp [Worker.above, hD] at ha
  | cons frame' D =>
    obtain ⟨rfl, -⟩ := List.cons_eq_cons.mp (hs.symm.trans hD)
    obtain ⟨j, u, hj, hu, hw, hl⟩ := hL frame.function function frame.cursor arity hf hop
    have ht : target = u := by
      have := hT.1 function j u hf hj hu
      rwa [hv, List.head?_cons, Option.some_inj] at this
    subst ht
    have hvu : v = target := by
      cases target with
      | wire w => exact (hw trivial).elim
      | _ =>
        cases hd
        rfl
    rw [hvu, hl]

end Literal

/--
A frame is destroyed without a value in a variable if and only if the last access of every
variable of its function reads it. If every application leaves as many values as its place
in the code is for, the value stack is as high after a rule as before if and only if the
code of the rule takes away the values of the ports of both nodes, no more and no less.
-/
theorem linearBalance_iff (P : Program) (hP : ∀ p ∈ P.primitives, p.Ok) (leaves : ℕ → ℕ → ℕ) :
    (∀ f s R w t, Worker.Returns P R.length { toStore := s, returnStack := { function := f } :: R }
      w t → ∀ x ∈ t.finished, (∀ i, x.2.get i = none) ↔
        ∃ function, P.functions[x.1]? = some function ∧ function.Linear) ∧
    ∀ (w : Worker) left right rule w₁ w₂ t, w.enterRule P left right rule = .ok w₁ →
      Worker.Returns P w.returnStack.length w₁ w₂ t →
        (∀ z, ReflTransGen (Worker.Moves P w.returnStack.length) (w₁, {}) z →
          Worker.above w.returnStack.length z = true → z.1.Meets P leaves) →
          (w₂.valueStack.length = w.valueStack.length ↔
            w.freeCountAt P left + w.freeCountAt P right + P.effect leaves rule.function = 0) := by
  constructor
  · rintro f s R w t ⟨hr, -⟩ x hx
    exact ((Tracked.of_run hr).finished x hx).iff_linear
  · rintro w left right rule w₁ w₂ t hw ⟨hr, ha⟩ hm
    obtain ⟨hh, hs⟩ := Worker.enterRule_spec hw
    have htotal := total_of_run hP hr hm
    -- The frames below are those from before the task.
    have hstack : w₂.returnStack = w.returnStack := by
      obtain ⟨s₁, stack⟩ := w₁
      dsimp only at hs
      subst hs
      exact (Tracked.of_run hr).returnStack_eq ha
    have hrem : Frame.remaining P leaves { function := rule.function } =
        P.effect leaves rule.function := rfl
    simp only [Worker.total, hs, hstack, List.map_cons, List.sum_cons, hrem, hh] at htotal
    simp only [Store.height] at htotal
    omega

/-! ### Rules for zero -/

theorem moves_of_tracedUntil {P : Program} {base n : ℕ} {x : Worker × Trace} {w : Worker}
    {t : Trace} (h : Worker.tracedUntil P base n x = some (.ok (w, t))) :
    ReflTransGen (Worker.Moves P base) x (w, t) ∧ Worker.above base (w, t) = false := by
  induction n generalizing x with
  | zero => cases h
  | succ n ih =>
    unfold Worker.tracedUntil loop at h
    split at h
    · rename_i ha
      split at h
      · rename_i y hy
        obtain ⟨hr, hb⟩ := ih h
        exact ⟨.head (.step ⟨ha, hy⟩) hr, hb⟩
      · cases h
    · rename_i ha
      cases h
      exact ⟨.refl, Bool.eq_false_of_not_eq_true ha⟩

/-- What a worker does while no other one does anything is a run. -/
theorem returns_of_tracedUntil {P : Program} {base : ℕ} (n : ℕ) {w w' : Worker} {t : Trace}
    (h : Worker.tracedUntil P base n (w, {}) = some (.ok (w', t))) :
    Worker.Returns P base w w' t := moves_of_tracedUntil h

/--
`(define-node zero value!)`, `(define-node add target! addend result)` and
`(define-node nat-erase target!)`, with a rule of each of the last two for zero.
-/
def natProgram (functions : List Function) : Program where
  nodeCtors :=
    [{ name := "zero", portInfos := [⟨"value", true⟩], ruleArray := [⟨5, 4, 0⟩, ⟨6, 4, 1⟩] },
      { name := "add", portInfos := [⟨"target", true⟩, ⟨"addend", false⟩, ⟨"result", false⟩]
        ruleArray := [⟨5, 4, 0⟩] },
      { name := "nat-erase", portInfos := [⟨"target", true⟩], ruleArray := [⟨6, 4, 1⟩] }]
  functions := functions
  primitives := [{ inputArity := 2, outputArity := 0, fn := .connect, nodeCtor := none }]

/-- `(add (zero) x y)`, where x and y are wires with nothing at their other ends. -/
def addZero : Worker where
  wires := [{}, {}]
  principalWires := [⟨0, 0, some 1, false⟩, ⟨1, 0, some 0, false⟩]
  nodes := [⟨some 4, [some (.principalWire 0)], 0⟩,
    ⟨some 5, [some (.principalWire 1), some (.wire 0), some (.wire 1)], 0⟩]

/-- `(nat-erase (zero))` -/
def eraseZero : Worker where
  principalWires := [⟨0, 0, some 1, false⟩, ⟨1, 0, some 0, false⟩]
  nodes := [⟨some 4, [some (.principalWire 0)], 0⟩, ⟨some 6, [some (.principalWire 1)], 0⟩]

/-- `(define-rule (add (zero) addend result) (connect addend result))` -/
def addZeroRule : Function where
  arity := 2
  opcodeArray := [.setVariable 0, .setVariable 1, .getVariable 1, .getVariable 0,
    .literal (.primitive 0), .apply 2]

/-- The nodes are gone; their wires are on the value stack. -/
def addZeroTaken : Store where
  wires := [{}, {}]
  principalWires := [⟨0, 0, some 1, true⟩, ⟨1, 0, some 0, true⟩]
  nodes := [⟨none, [], 0⟩, ⟨none, [], 0⟩]
  valueStack := [.wire 1, .wire 0]

theorem linear_addZeroRule : addZeroRule.Linear := by
  rintro (_ | _ | i) <;> simp [addZeroRule, holds, Opcode.fills]

theorem literalTargets_addZeroRule : LiteralTargets (natProgram [addZeroRule]) fun _ _ => 0 := by
  intro f function i arity hf hop
  obtain ⟨rfl, rfl⟩ : f = 0 ∧ addZeroRule = function := by
    simpa [natProgram, List.getElem?_cons, List.getElem?_nil] using hf
  obtain ⟨hi, hop⟩ := List.getElem?_eq_some_iff.mp hop
  simp only [addZeroRule, List.length_cons, List.length_nil] at hi
  interval_cases i
  · cases hop
  · cases hop
  · cases hop
  · cases hop
  · cases hop
  · cases hop
    exact ⟨4, .primitive 0, rfl, rfl, id, rfl⟩

theorem linearBalance_iff_addZero : ∃ w t,
    addZero.enterRule (natProgram [addZeroRule]) 1 0 ⟨5, 4, 0⟩ =
      .ok { toStore := addZeroTaken, returnStack := [{ function := 0 }] } ∧
    Worker.Returns (natProgram [addZeroRule]) 0
      { toStore := addZeroTaken, returnStack := [{ function := 0 }] } w t ∧
    w.valueStack.length = 0 ∧ ∀ x ∈ t.finished, ∀ i, x.2.get i = none := by
  have hP : ∀ p ∈ (natProgram [addZeroRule]).primitives, p.Ok := by
    simp [natProgram, Primitive.Ok]
  obtain ⟨hc, hb⟩ := linearBalance_iff (natProgram [addZeroRule]) hP fun _ _ => 0
  have hr : Worker.Returns (natProgram [addZeroRule]) 0
      { toStore := addZeroTaken, returnStack := [{ function := 0 }] } _ _ :=
    returns_of_tracedUntil 7 rfl
  refine ⟨_, _, rfl, hr, ?_, ?_⟩
  · apply (hb addZero 1 0 ⟨5, 4, 0⟩ _ _ _ rfl hr ?_).mpr
    · decide
    · intro z hz ha
      exact meets_of_literalTargets (R := []) literalTargets_addZeroRule hz ha
  · intro x hx
    apply (hc 0 addZeroTaken [] _ _ hr x hx).mpr
    obtain ⟨function, hf, -⟩ := (Tracked.of_run (R := []) hr.1).finished x hx
    obtain rfl := List.mem_singleton.mp (List.mem_of_getElem? hf)
    exact ⟨addZeroRule, hf, linear_addZeroRule⟩

/-- `(define (f x) 1)`, and `(define-rule (nat-erase (zero)) 1)` -/
def dropBodies : List Body :=
  [⟨fun _ => none, ["x"], [.int 1#64]⟩, ⟨fun _ => none, [], [.int 1#64]⟩]

def dropFunctions : List Function :=
  [⟨1, [.setVariable 0, .literal (xint 1#64)]⟩, ⟨0, [.literal (xint 1#64)]⟩]

/-- The function drops its argument, and the rule leaves a value. -/
theorem not_linearBalance : Compiles (natProgram dropFunctions) dropBodies ∧
    ¬ Consumes (natProgram dropFunctions) ∧ ¬ Balances (natProgram dropFunctions) := by
  refine ⟨rfl, fun h => ?_, fun h => ?_⟩
  · have hr : Worker.Returns (natProgram dropFunctions) 0
        { valueStack := [xint 0#64], returnStack := [{ function := 0 }] }
        { valueStack := [xint 1#64] } { finished := (0, [some (xint 0#64)]) ::ₘ 0 } :=
      returns_of_tracedUntil 3 rfl
    have hx := h 0 { valueStack := [xint 0#64] } [] _ _ hr (0, [some (xint 0#64)])
      (by simp) 0
    cases hx
  · have hr : Worker.Returns (natProgram dropFunctions) 0
        { principalWires := [⟨0, 0, some 1, true⟩, ⟨1, 0, some 0, true⟩]
          nodes := [⟨none, [], 0⟩, ⟨none, [], 0⟩]
          returnStack := [{ function := 1 }] } _ _ :=
      returns_of_tracedUntil 2 rfl
    have hl := h eraseZero 1 0 ⟨6, 4, 1⟩ _ _ _ rfl hr
    cases hl

end InetLisp
