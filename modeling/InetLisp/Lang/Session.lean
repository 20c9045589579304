import InetLisp.Core.References
import InetLisp.Lang.Prelude

/-! # Definitions and nets together

Modules are loaded, nets are built and tasks are handled, by any number of workers. A worker
that loads a module has the definitions of that module, and what it leaves on its stack can be
defined, so values get from nets into later programs.
-/

namespace InetLisp

open Lib Relation

/-- What has been defined in the modules of the workers, and the workers with their net. -/
structure Session (ι : Type) where
  program : Program := {}
  valueHash : ι → Define.ValueHash := fun _ => []
  system : System ι := {}

namespace Session

inductive Event (ι : Type) where
  /-- `import_prelude`, for the new module of a worker. -/
  | importPrelude (i : ι)
  /-- `execute`, of a statement that builds no net. -/
  | execute (i : ι) (stmt : Define.Stmt)
  /-- `STMT_IMPORT`, for a name in the module of another worker. -/
  | stmtImport (i j : ι) (name : String)
  /-- `build_net`, up to `worker_run_until`. -/
  | buildNet (i : ι) (exp : Exp)
  /-- `STMT_DEFINE`, after `run_exp`. -/
  | define (i : ι) (name : String)
  /-- A step in `worker_run_until` or `worker_work`. -/
  | work (i : ι) (action : Action ι)

variable {ι : Type} [DecidableEq ι]

/-- What stops a step: a definition, or a worker. -/
inductive Failure where
  | define (e : Define.Error)
  | run (e : Error)

def setValueHash (s : Session ι) (i : ι) (valueHash : Define.ValueHash) : Session ι :=
  { s with valueHash := Function.update s.valueHash i valueHash }

/-- `define`, in the module of a worker. -/
def define (s : Session ι) (i : ι) (name : String) (value : Value) :
    Except Failure (Session ι) := do
  let valueHash ← (Define.define (s.valueHash i) name value).mapError .define
  return s.setValueHash i valueHash

def work (s : Session ι) (i : ι) (action : Action ι) : Except Failure (Session ι) := do
  let system ← (s.system.step s.program i action).mapError .run
  return { s with system }

def step (fn : String → PureFn) (s : Session ι) : Event ι → Except Failure (Session ι)
  | .importPrelude i =>
    -- Each `define` of the prelude asserts that the name is new.
    if s.valueHash i ≠ [] then .error (.define .assertion)
    else
      let (P, valueHash) := (Define.prelude fn).foldl Define.definePrimitive
        (s.program, Define.preludeValues)
      .ok ({ s with program := P }.setValueHash i valueHash)
  | .execute i stmt =>
    match Define.execute Define.noRun ⟨s.program, ()⟩ (s.valueHash i) stmt with
    | (w, valueHash, none) => .ok ({ s with program := w.program }.setValueHash i valueHash)
    | (_, _, some e) => .error (.define e)
  | .stmtImport i j name => match Define.modFind (s.valueHash j) name with
    | none => .error (.define (.undefinedName name))
    | some value => s.define i name value
  | .buildNet i exp => match (⟨Define.modFind (s.valueHash i), [], [exp]⟩ : Body).compile with
    | .error e => .error (.define (.undefinedName e.name))
    | .ok function =>
      let P := { s.program with functions := s.program.functions ++ [function] }
      { s with program := P }.work i (.call s.program.functions.length)
  | .define i name => match (s.system.seat i).valueStack with
    | [] => .error (.run .emptyStack)
    | value :: valueStack =>
      let system := s.system.setSeat i { s.system.seat i with valueStack }
      { s with system }.define i name value
  | .work i action => s.work i action

/-- The states of the runs whose steps meet the condition. -/
def Reaches (fn : String → PureFn) (c : Session ι → Event ι → Prop) : Session ι → Prop :=
  ReflTransGen (fun s t => ∃ e, c s e ∧ s.step fn e = .ok t) {}

/-- Where no wire gets a third reference: a new node ctor has one principal port at most, wires
are neither imported nor copied by a literal, and the wire that is applied is not fuzed with one
that is still open. -/
def Meets (s : Session ι) : Event ι → Prop
  | .execute i stmt => Define.Stmt.IsRegular s.program (s.valueHash i) stmt
  | .stmtImport _ j name => ∀ value ∈ Define.modFind (s.valueHash j) name, value.IsNonWire
  | .work i action => System.Safe s.program (s.system.worker i) action
  | _ => True

instance (s : Session ι) : DecidablePred s.Meets
  | .execute i stmt =>
    inferInstanceAs (Decidable (Define.Stmt.IsRegular s.program (s.valueHash i) stmt))
  | .stmtImport _ j name =>
    inferInstanceAs (Decidable (∀ value ∈ Define.modFind (s.valueHash j) name, value.IsNonWire))
  | .work i action => inferInstanceAs (Decidable (System.Safe s.program (s.system.worker i) action))
  | .importPrelude _ | .buildNet _ _ | .define _ _ => .isTrue trivial

variable [Fintype ι] {fn : String → PureFn} {s t : Session ι} {i j : ι} {e : Event ι}
  {c : Session ι → Event ι → Prop}

def defined (s : Session ι) : Multiset Value := ∑ i, ↑((s.valueHash i).map Prod.snd)

/-- Definitions fit together, and the workers keep the invariant of the net. -/
structure Ok (s : Session ι) : Prop where
  fits : s.program.Fits
  system : s.system.Ok s.program Set.univ s.defined

/-- No wire is used after it was destroyed, and no second task is found. -/
def Failure.Expected : Failure → Prop
  | .define _ => True
  | .run e => e.Expected

theorem defined_setValueHash (added : Define.ValueHash) :
    (s.setValueHash i (added ++ s.valueHash i)).defined =
      s.defined + ↑(added.map Prod.snd) := by
  apply Sums.sum_update_eq_add (g := fun valueHash : Define.ValueHash =>
    (↑(valueHash.map Prod.snd) : Multiset Value))
  rw [List.map_append, ← Multiset.coe_add, add_comm]

namespace Ok

omit [DecidableEq ι] in
theorem start : Ok ({} : Session ι) where
  fits := ⟨nofun, nofun⟩
  system := by
    have hd : ({} : Session ι).defined = 0 := Finset.sum_eq_zero fun _ _ => rfl
    rw [hd]
    exact System.Ok.start

theorem grown {P : Program} {valueHash : Define.ValueHash} (h : s.Ok)
    (hg : Define.Grown s.program P (s.valueHash i) valueHash) :
    ({ s with program := P }.setValueHash i valueHash).Ok := by
  obtain ⟨added, rfl, ha⟩ := hg.adds
  refine ⟨hg.fits, ?_⟩
  rw [defined_setValueHash (s := { s with program := P })]
  apply (h.system.grows h.fits.closed hg.grows).addNonWires
  intro v hv
  obtain ⟨x, hx, rfl⟩ := List.mem_map.mp (Multiset.mem_coe.mp hv)
  exact ha x hx

theorem work {action : Action ι} (h : s.Ok)
    (hs : System.Safe s.program (s.system.worker i) action) :
    Outcome Failure.Expected Ok (s.work i action) := by
  have hstep := h.system.step h.fits.closed hs
  unfold Session.work
  cases hx : s.system.step s.program i action with
  | error er => exact hstep.of_error hx
  | ok system => exact ⟨h.fits, hstep.of_ok hx⟩

theorem define {name : String} {value : Value} (h : s.Ok) (hv : value.IsNonWire) :
    Outcome Failure.Expected Ok (s.define i name value) := by
  unfold Session.define
  cases hd : Define.define (s.valueHash i) name value with
  | error er => trivial
  | ok valueHash =>
    exact h.grown ⟨.refl _, h.fits, Define.addsNonWires_define hd hv⟩

theorem pop {name : String} {value : Value} {valueStack : List Value} (h : s.Ok)
    (hv : (s.system.seat i).valueStack = value :: valueStack) :
    Outcome Failure.Expected Ok (Session.define { s with
      system := s.system.setSeat i { s.system.seat i with valueStack } } i name value) := by
  unfold Session.define
  dsimp only
  cases hd : Define.define (s.valueHash i) name value with
  | error er => trivial
  | ok valueHash =>
    refine ⟨h.fits, ?_⟩
    have hdefined : ({ s with system := s.system.setSeat i { s.system.seat i with valueStack }
        }.setValueHash i valueHash).defined = s.defined + {value} := by
      rw [Define.define_eq_ok hd]
      exact defined_setValueHash [(name.toList, value)]
    have houtside : s.system.outside =
        (s.system.setSeat i { s.system.seat i with valueStack }).outside + {value} := by
      apply Sums.sum_eq_update_add
      rw [Seat.outside, hv, ← Multiset.cons_coe, ← Multiset.singleton_add]
      simp only [Seat.outside]
      abel
    have hsame : ∀ {α : Type} (f : Seat → α),
        f { s.system.seat i with valueStack } = f (s.system.seat i) → ∀ k,
          f ((s.system.setSeat i { s.system.seat i with valueStack }).seat k) =
            f (s.system.seat k) := fun f hf =>
      System.seat_setSeat (Q := fun x y => f y = f x) (fun _ => rfl) hf
    change System.Ok _ _ _ _
    rw [hdefined]
    apply h.system.of_count_le
    · rfl
    · exact Finset.sum_congr rfl fun k _ => hsame Seat.tasks rfl k
    · intro v _
      rw [houtside]
      apply le_of_eq
      congr 1
      simp only [setValueHash]
      abel
    · exact hsame Seat.returnStack rfl
    · exact hsame Seat.hand rfl

/-- A step that meets the condition keeps the invariant, or stops the program with a report. -/
theorem step (h : s.Ok) (hm : s.Meets e) : Outcome Failure.Expected Ok (s.step fn e) := by
  cases e with
  | importPrelude i =>
    unfold Session.step
    dsimp only
    split
    · trivial
    · rename_i he
      have he : s.valueHash i = [] := not_not.mp he
      have hg := Define.grown_foldl_definePrimitive Define.preludeValues h.fits
        fun d hd => Define.isRegular_of_mem_prelude fn hd
      obtain ⟨added, hadded, ha⟩ := hg.adds
      apply h.grown
      refine ⟨hg.grows, hg.fits, added ++ Define.preludeValues, ?_, fun x hx => ?_⟩
      · rw [hadded, he, List.append_nil]
      · exact (List.mem_append.mp hx).elim (ha x) Define.isNonWire_of_mem_preludeValues
  | execute i stmt =>
    unfold Session.step
    dsimp only
    split
    · rename_i w valueHash hx
      exact h.grown (Define.grown_execute h.fits hm hx)
    · trivial
  | stmtImport i j name =>
    unfold Session.step
    dsimp only
    split
    · trivial
    · rename_i value hv
      exact h.define (hm value hv)
  | buildNet i exp =>
    unfold Session.step
    dsimp only
    split
    · trivial
    · rename_i function _
      have hg := Program.Grows.addFunction s.program function
      have h' : Ok { s with program := { s.program with
          functions := s.program.functions ++ [function] } } :=
        ⟨h.fits.addFunction function, h.system.grows h.fits.closed hg⟩
      exact h'.work trivial
  | define i name =>
    unfold Session.step
    dsimp only
    split
    · exact ⟨trivial, nofun⟩
    · rename_i value valueStack hv
      exact h.pop hv
  | work i action => exact h.work hm

end Ok

theorem ok_of_reaches (h : Reaches fn Meets s) : s.Ok := by
  induction h with
  | refl => exact .start
  | tail _ hn ih =>
    obtain ⟨e, hm, he⟩ := hn
    exact (ih.step hm).of_ok he

/-- Steps that all meet the condition, one after another. -/
def run (fn : String → PureFn) (c : Session ι → Event ι → Prop) [∀ s e, Decidable (c s e)]
    (s : Session ι) : List (Event ι) → Option (Session ι)
  | [] => some s
  | e :: events => if c s e then match s.step fn e with
      | .ok s => run fn c s events
      | .error _ => none
    else none

omit [Fintype ι] in
theorem reaches_of_run [∀ s e, Decidable (c s e)] {events : List (Event ι)}
    (hs : Reaches fn c s) (h : run fn c s events = some t) : Reaches fn c t := by
  induction events generalizing s with
  | nil =>
    cases h
    exact hs
  | cons e events ih =>
    unfold run at h
    split at h
    · rename_i hc
      split at h
      · rename_i s' he
        exact ih (hs.tail ⟨e, hc, he⟩) h
      · cases h
    · cases h

/-- A function that always stops the program. -/
def noFn : PureFn where
  run _ := .error .primitiveFn
  isNonWire := nofun
  error_eq := by
    rintro _ _ ⟨⟩
    rfl

/-! ### Linear wires -/

/-- Whatever refers to a wire: stacks, frames, definitions and the net. The input ports of a
primitive that is running are left out: their values have been pushed to the stack of its worker,
and the ports are not read again before the node is recycled. -/
noncomputable def references (s : Session ι) : Multiset Value :=
  s.system.outside + s.defined + s.system.net.references (s.system.inputs s.program)

/-- A wire has two references at most, a principal wire the port that owns it and one other at
most, and no step uses a wire or a node that is gone. -/
structure IsLinear (fn : String → PureFn) (c : Session ι → Event ι → Prop) (s : Session ι) :
    Prop where
  count_le : ∀ v : Value, ¬ v.IsNonWire → s.references.count v ≤ 2
  owner : ∀ (p n i : ℕ) (o : Option ℕ),
    s.system.net.principalWires[p]? = some ⟨n, i, o, false⟩ → (n, i) ∉ s.system.inputs s.program ∧
      ∃ (c : ℕ) (l : Slots Value) (k : ℕ), s.system.net.nodes[n]? = some ⟨some c, l, k⟩ ∧
        l.get i = some (.principalWire p)
  alive : ∀ v ∈ s.references, v.Alive s.system.net
  step : ∀ e, c s e → s.step fn e ≠ .error (.run .useAfterFree)

/-- In every run whose steps all meet the condition, wires stay linear. -/
theorem isLinear_of_reaches (h : Reaches fn Meets s) : s.IsLinear fn Meets := by
  have hs := ok_of_reaches h
  constructor
  · intro v hv
    exact hs.system.inv.count_references_le rfl hv
  · intro p n i o hp
    obtain ⟨ht, c, l, k, ctor, hn, hi, -⟩ := hs.system.inv.shape.owner p n i o hp
    exact ⟨ht, c, l, k, hn, hi⟩
  · intro v hv
    exact hs.system.inv.alive_of_mem rfl hv
  · intro e hm he
    exact ((hs.step hm).of_error he).1

/-- `(define-node left x value!)`, `(define-node right value! y)`, `(define-node both x y)`,
`(define-rule* ((left x value!) (right value! y)) (both x y))` and `(define y (right (left)))` by
the worker `false`. The other one imports `both`, and handles the task. -/
def bothEvents : List (Event Bool) := [.importPrelude false,
  .execute false (.defineNode "left" ["x", "value!"]),
  .execute false (.defineNode "right" ["value!", "y"]),
  .execute false (.defineNode "both" ["x", "y"]),
  .execute false (.defineRuleStar [.ap (.var "left") [.var "x", .var "value!"],
    .ap (.var "right") [.var "value!", .var "y"]] [.ap (.var "both") [.var "x", .var "y"]]),
  .buildNet false (.ap (.var "right") [.ap (.var "left") []]),
  .work false .step, .work false .step, .work false .step, .work false .step,
  .define false "y", .stmtImport true false "both",
  .work true (.take false), .work true .begin, .work true .step, .work true .step,
  .work true .step, .work true .step, .work true .step, .work true .step, .work true .finish]

theorem run_bothEvents : (run (fun _ => noFn) Meets {} bothEvents).map (fun s =>
      (s.system.net.nodes.map Node.ctor, (s.valueHash false).head?, (s.system.seat true).hand)) =
    some ([none, none, some 28], some ("y".toList, .wire 1), .free) := rfl

/-- The rule has been run, and the wires of the pair end at the new node. -/
theorem isLinear_both : ∃ s : Session Bool,
    s.system.net.nodes.map Node.ctor = [none, none, some 28] ∧
      (s.valueHash false).head? = some ("y".toList, .wire 1) ∧ (s.system.seat true).hand = .free ∧
        s.IsLinear (fun _ => noFn) Meets := by
  obtain ⟨s, hs, he⟩ := Option.map_eq_some_iff.mp run_bothEvents
  simp only [Prod.mk.injEq] at he
  obtain ⟨hnodes, hvalue, hhand⟩ := he
  exact ⟨s, hnodes, hvalue, hhand, isLinear_of_reaches (reaches_of_run .refl hs)⟩

def AlwaysLinear : Prop := ∀ (ι : Type) [DecidableEq ι] [Fintype ι] (fn : String → PureFn)
  (s : Session ι), Reaches fn (fun _ _ => True) s → s.IsLinear fn fun _ _ => True

/-- The net of `(zero)` -/
def zeroNet : Net where
  principalWires := [⟨0, 0, none, false⟩]
  nodes := [⟨some 26, [some (.principalWire 0)], 0⟩]

/-- `(define-node zero value!)`, `(define x (zero))` and `x` -/
def definedTwice : List (Event Unit) := [.importPrelude (),
  .execute () (.defineNode "zero" ["value!"]), .buildNet () (.ap (.var "zero") []),
  .work () .step, .work () .step, .define () "x", .buildNet () (.var "x"), .work () .step]

theorem run_definedTwice : (run (fun _ => noFn) (fun _ _ => True) {} definedTwice).map (fun s =>
      (s.system.net, (s.system.seat ()).valueStack, (s.valueHash ()).head?)) =
    some (zeroNet, [.principalWire 0], some ("x".toList, .principalWire 0)) := rfl

/-- The definition is still there when its value is on the stack. -/
theorem not_alwaysLinear : ¬ AlwaysLinear := by
  intro h
  obtain ⟨s, hs, he⟩ := Option.map_eq_some_iff.mp run_definedTwice
  have hl := h Unit _ s (reaches_of_run .refl hs)
  simp only [Prod.mk.injEq] at he
  obtain ⟨hnet, hstack, hhash⟩ := he
  obtain ⟨rest, hhash⟩ := List.head?_eq_some_iff.mp hhash
  obtain ⟨ht, -⟩ := hl.owner 0 0 0 none (by rw [hnet]; rfl)
  have hport : .principalWire 0 ∈ s.system.net.values (s.system.inputs s.program) :=
    Net.mem_values (i := 0) (by rw [hnet]; rfl) rfl ht
  have hseat : .principalWire 0 ∈ s.system.outside := by
    rw [System.outside_eq s.system (), Seat.outside, hstack]
    simp
  have hdefined : .principalWire 0 ∈ s.defined := by
    rw [defined, Fintype.sum_unique]
    change _ ∈ ((s.valueHash ()).map Prod.snd : List Value)
    rw [hhash]
    exact List.mem_cons_self
  have hcount := hl.count_le (.principalWire 0) id
  rw [references, Net.references] at hcount
  simp only [Multiset.count_add] at hcount
  have := Multiset.count_pos.mpr hport
  have := Multiset.count_pos.mpr hseat
  have := Multiset.count_pos.mpr hdefined
  omega

/-! ### Pending tasks -/

/-- A node takes part in one pending task at most, pending tasks are about nodes that are there,
and no step finds a second task for a node. -/
structure OneTask (fn : String → PureFn) (c : Session ι → Event ι → Prop) (s : Session ι) :
    Prop where
  valid : ∀ t ∈ s.system.pending, t.Valid s.program s.system.net.principalWires s.system.net.nodes
  single : ∀ (n : ℕ) (t t' : Task) (tasks : Multiset Task),
    s.system.pending = t ::ₘ t' ::ₘ tasks → t.On s.system.net.shape.2 n →
      ¬ t'.On s.system.net.shape.2 n
  step : ∀ e, c s e → s.step fn e ≠ .error (.run .foundTask)

/-- In every run whose steps all meet the condition, a node has one pending task at most. -/
theorem oneTask_of_reaches (h : Reaches fn Meets s) : s.OneTask fn Meets := by
  have hs := ok_of_reaches h
  constructor
  · intro t ht
    apply hs.system.inv.pending.valid t
    rw [System.tasks_eq_pending]
    exact Multiset.mem_add.mpr (.inl ht)
  · intro n t t' tasks hp ht ht'
    have hi := hs.system.inv
    rw [System.tasks_eq_pending, hp, Multiset.cons_add, Multiset.cons_add] at hi
    exact hi.not_on_both hs.fits.closed.toOk ht ht'
  · intro e hm he
    exact ((hs.step hm).of_error he).2 rfl

/-- `(define-node end value!)`, `(define-node start value!)`,
`(define-rule* ((start value!) (end value!)))` and `(start (end))` -/
def pairEvents : List (Event Unit) := [.importPrelude (),
  .execute () (.defineNode "end" ["value!"]), .execute () (.defineNode "start" ["value!"]),
  .execute () (.defineRuleStar
    [.ap (.var "start") [.var "value!"], .ap (.var "end") [.var "value!"]] []),
  .buildNet () (.ap (.var "start") [.ap (.var "end") []]),
  .work () .step, .work () .step, .work () .step, .work () .step]

theorem run_pairEvents : (run (fun _ => noFn) Meets {} pairEvents).map (fun s =>
    (s.system.seat ()).taskQueue.length) = some 1 := rfl

/-- The two nodes of `(start (end))` have a task. -/
theorem oneTask_pair : ∃ s : Session Unit, (s.system.seat ()).taskQueue.length = 1 ∧
    s.OneTask (fun _ => noFn) Meets := by
  obtain ⟨s, hs, hq⟩ := Option.map_eq_some_iff.mp run_pairEvents
  exact ⟨s, hq, oneTask_of_reaches (reaches_of_run .refl hs)⟩

/-- `(define-node end value!)`, `(define-node two left! right!)`,
`(define-rule* ((two left! right!) (end value!)))` and `(two (end) (end))`, up to the
application of `two` -/
def twoEvents : List (Event Unit) := [.importPrelude (),
  .execute () (.defineNode "end" ["value!"]), .execute () (.defineNode "two" ["left!", "right!"]),
  .execute () (.defineRuleStar
    [.ap (.var "two") [.var "left!", .var "right!"], .ap (.var "end") [.var "value!"]] []),
  .buildNet () (.ap (.var "two") [.ap (.var "end") [], .ap (.var "end") []]),
  .work () .step, .work () .step, .work () .step, .work () .step, .work () .step]

theorem run_twoEvents : (run (fun _ => noFn) (fun _ _ => True) {} twoEvents).map (fun s =>
      match s.step (fun _ => noFn) (.work () .step) with
      | .error (.run e) => some e
      | _ => none) = some (some .foundTask) := rfl

def AlwaysOneTask : Prop := ∀ (ι : Type) [DecidableEq ι] [Fintype ι] (fn : String → PureFn)
  (s : Session ι), Reaches fn (fun _ _ => True) s → s.OneTask fn fun _ _ => True

/-- Both principal ports of a node meet an active pair. -/
theorem not_alwaysOneTask : ¬ AlwaysOneTask := by
  intro h
  obtain ⟨s, hs, he⟩ := Option.map_eq_some_iff.mp run_twoEvents
  have hstep := (h Unit _ s (reaches_of_run .refl hs)).step (.work () .step) trivial
  split at he
  · rename_i e hx
    cases he
    exact hstep hx
  · cases he

end Session

end InetLisp
