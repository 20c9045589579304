import InetLisp.Core.System
import Mathlib.Tactic.FinCases
import Mathlib.Tactic.IntervalCases

/-! # Every redex is scheduled once

Between any two steps of any run, the tasks in the queues and in hand are about the
redexes of the net, one task for each, as long as no queue has been full. A full queue
loses a task, and its redex is never scheduled again.
-/

namespace InetLisp

open Lib

namespace System

variable {ι : Type} [DecidableEq ι] [Fintype ι] {P : Program} {missed : Set Redex}
  {s s' : System ι} {i : ι} {a : Action ι} {defined : Multiset Value}

/-- Wires and principal wires are not referenced from more places than they have ends. -/
def Linear (P : Program) (s : System ι) (defined : Multiset Value) : Prop :=
  InetLisp.Linear s.net (s.outside + defined + s.net.ledger (s.inputs P))

/-- The states of the runs that start from the empty net, in which wires are linear. -/
inductive LinearRun (P : Program) : System ι → Prop
  | start : LinearRun P {}
  | step {s s' : System ι} (i : ι) (a : Action ι) (h : LinearRun P s) (hs : s.step P i a = .ok s')
    (hl : s'.Linear P 0) : LinearRun P s'

def pending (s : System ι) : Multiset Task := ∑ i, (↑(s.seat i).taskQueue + (s.seat i).hand.tasks)

/-- The tasks that full queues have lost. -/
def lost (s : System ι) : Multiset Task := ∑ i, ↑(s.seat i).refused

/-- The pending tasks are in bijection with the redexes of the net. -/
def Scheduled (P : Program) (s : System ι) : Prop :=
  (s.pending.map Task.redex).Nodup ∧
    ∀ x, x ∈ s.pending.map Task.redex ↔ IsRedex P s.net.principalWires s.net.nodes x

omit [DecidableEq ι] in
theorem tasks_eq_pending : s.tasks = s.pending + s.lost := by
  rw [pending, lost, ← Finset.sum_add_distrib]
  apply Finset.sum_congr rfl
  intro i _
  rw [Seat.tasks, add_right_comm]

omit [DecidableEq ι] in
theorem lost_eq_zero : s.lost = 0 ↔ ∀ i, (s.seat i).refused = [] := by
  simp [lost, Finset.sum_eq_zero_iff]

namespace Ok

omit [DecidableEq ι] in
theorem linear (h : s.Ok P missed defined) : s.Linear P defined := h.inv.linear

omit [DecidableEq ι] in
theorem start : System.Ok P missed 0 ({} : System ι) where
  inv := by
    have ho : ({} : System ι).outside = 0 := Finset.sum_eq_zero fun _ _ => rfl
    have ht : ({} : System ι).tasks = 0 := Finset.sum_eq_zero fun _ _ => rfl
    rw [ho, ht]
    constructor
    · constructor
      · intro v _
        simp [Net.ledger]
      · intro v hv
        simp [Net.ledger] at hv
    · constructor
      all_goals simp [inputs, Hand.inputs]
    · constructor
      · simp
      · simp
      · rintro x ⟨t, ht, rfl⟩
        cases t with
        | activePair p q rule =>
          obtain ⟨⟨n, i, m, j, hp, -⟩, -⟩ := ht
          cases hp
        | primitive n =>
          obtain ⟨c, l, k, ctor, hn, -⟩ := ht
          cases hn
  function := by simp
  hand := by simp

end Ok

end System

def Worker.AtLiteral (P : Program) (w : Worker) : Prop :=
  ∃ frame rest function v, w.returnStack = frame :: rest ∧
    P.functions[frame.function]? = some function ∧
      function.opcodeArray[frame.cursor]? = some (.literal v)

theorem Worker.runOneStep_of_atLiteral {P : Program} {w w' : Worker} (h : w.AtLiteral P)
    (hw : w.runOneStep P = .ok w') : w'.toNet = w.toNet ∧ w'.taskQueue = w.taskQueue ∧
      w'.refused = w.refused ∧ ∀ frame ∈ w'.returnStack, ∃ frame' ∈ w.returnStack,
        frame.function = frame'.function := by
  obtain ⟨frame, rest, function, v, hs, hf, ho⟩ := h
  simp only [Worker.runOneStep, hs, hf, Frame.fetchOpcode, ho, Option.map_some,
    Store.executeOpcode] at hw
  cases hw
  unfold Worker.pushUnfinished
  split
  · refine ⟨rfl, rfl, rfl, ?_⟩
    intro x hx
    exact ⟨x, by rw [hs]; exact List.mem_cons_of_mem _ hx, rfl⟩
  · refine ⟨rfl, rfl, rfl, ?_⟩
    intro x hx
    rcases List.mem_cons.mp hx with rfl | hx
    · exact ⟨frame, by rw [hs]; exact List.mem_cons_self .., rfl⟩
    · exact ⟨x, by rw [hs]; exact List.mem_cons_of_mem _ hx, rfl⟩

/-- A step that succeeds and pushes no literal is safe. -/
theorem Worker.safe_of_runOneStep {P : Program} {w w' : Worker} (h : w.runOneStep P = .ok w')
    (hl : ¬ w.AtLiteral P) : w.Safe P := by
  intro frame rest function opcode hs hf ho
  cases opcode with
  | apply arity =>
    simp only [Worker.runOneStep, hs, hf, Frame.fetchOpcode, ho, Option.map_some] at h
    obtain ⟨⟨s, frame', f⟩, he, -⟩ := Outcome.of_bind_eq_ok h
    obtain ⟨⟨target, s₁⟩, hp, he⟩ := Outcome.of_bind_eq_ok he
    obtain ⟨⟨s₂, g⟩, ha, -⟩ := Outcome.of_bind_eq_ok he
    have hd := Store.direct_of_applyTarget ha
    rw [Store.grows_pop hp] at hd
    intro v hv
    unfold Store.pop at hp
    split at hp
    · cases hp
    · rename_i u l hl'
      cases hp
      rw [hl'] at hv
      cases hv
      exact hd
  | literal v => exact (hl ⟨frame, rest, function, v, hs, hf, ho⟩).elim
  | _ => trivial

namespace System

variable {ι : Type} [DecidableEq ι] [Fintype ι] {P : Program} {missed : Set Redex}
  {s s' : System ι} {i : ι} {a : Action ι} {defined : Multiset Value}

omit [Fintype ι] in
theorem safe_of_step (h : s.step P i a = .ok s')
    (hl : a = .step → ¬ (s.worker i).AtLiteral P) : Safe P (s.worker i) a := by
  cases a with
  | apply arity =>
    obtain ⟨w, hw, -⟩ := Outcome.of_bind_eq_ok h
    obtain ⟨⟨target, s₁⟩, hp, hw⟩ := Outcome.of_bind_eq_ok hw
    obtain ⟨⟨s₂, f⟩, ha, -⟩ := Outcome.of_bind_eq_ok hw
    have hd := Store.direct_of_applyTarget ha
    have hnet := Store.grows_pop hp
    intro v hv
    unfold Store.pop at hp
    split at hp
    · cases hp
    · rename_i u l hl'
      cases hp
      rw [hl'] at hv
      cases hv
      exact hd
  | step =>
    obtain ⟨w, hw, -⟩ := Outcome.of_bind_eq_ok h
    exact Worker.safe_of_runOneStep hw (hl rfl)
  | _ => trivial

namespace Ok

theorem of_step (hP : P.Closed) (h : s.Ok P missed defined) (hs : s.step P i a = .ok s')
    (hl : s'.Linear P defined) : s'.Ok P missed defined := by
  by_cases hlit : a = .step ∧ (s.worker i).AtLiteral P
  · obtain ⟨rfl, hlit⟩ := hlit
    obtain ⟨w, hw, he⟩ := Outcome.of_bind_eq_ok hs
    cases he
    obtain ⟨hnet, hqueue, hrefused, hframes⟩ := Worker.runOneStep_of_atLiteral hlit hw
    have htasks : (s.put i w (s.seat i).hand).tasks = s.tasks := by
      rw [tasks_eq _ i, tasks_eq s i, tasksBut_put, seat_put]
      simp only [Seat.tasks, hqueue, hrefused]
      rfl
    have hinputs : (s.put i w (s.seat i).hand).inputs P = s.inputs P := by
      rw [inputs_eq _ _ i, inputs_eq P s i, inputsBut_put, seat_put]
    constructor
    · constructor
      · exact hl
      · rw [hinputs]
        simp only [System.put, hnet]
        exact h.inv.shape
      · rw [htasks]
        simp only [System.put, hnet]
        exact h.inv.pending
    · intro j frame hf
      by_cases hj : j = i
      · subst hj
        rw [seat_put] at hf
        obtain ⟨frame', hf', hfun⟩ := hframes frame hf
        rw [hfun]
        exact h.function j frame' hf'
      · simp only [System.put, Function.update_of_ne hj] at hf
        exact h.function j frame hf
    · intro j n primitive base hj
      have hhand : ((s.put i w (s.seat i).hand).seat j).hand = (s.seat j).hand := by
        by_cases hji : j = i
        · subst hji
          rw [seat_put]
        · simp only [System.put, Function.update_of_ne hji]
      rw [hhand] at hj
      simp only [System.put, hnet]
      exact h.hand j n primitive base hj
  · have hsafe := safe_of_step hs fun ha hw => hlit ⟨ha, hw⟩
    exact (h.step hP hsafe).of_ok hs

theorem of_linearRun (hP : P.Closed) (h : LinearRun P s) : s.Ok P ∅ 0 := by
  induction h with
  | start => exact Ok.start
  | step i a _ hs hl ih => exact ih.of_step hP hs hl

omit [DecidableEq ι] in
/-- Pending tasks and redexes match, unless a task has been lost. -/
theorem scheduled_iff (h : s.Ok P ∅ defined) : s.Scheduled P ↔ s.lost = 0 := by
  have hnodup := h.inv.pending.nodup
  have hmem : ∀ x, x ∈ s.tasks.map Task.redex ↔ IsRedex P s.net.principalWires s.net.nodes x := by
    intro x
    constructor
    · intro hx
      obtain ⟨t, ht, rfl⟩ := Multiset.mem_map.mp hx
      exact ⟨t, h.inv.pending.valid t ht, rfl⟩
    · exact fun hx => h.inv.pending.complete x hx (Set.notMem_empty x)
  rw [tasks_eq_pending, Multiset.map_add] at hnodup hmem
  constructor
  · rintro ⟨-, hs⟩
    by_contra hlost
    obtain ⟨t, ht⟩ := Multiset.exists_mem_of_ne_zero hlost
    have hx := Multiset.mem_map_of_mem Task.redex ht
    apply Multiset.disjoint_left.mp (Multiset.nodup_add.mp hnodup).2.2 _ hx
    rw [hs, ← hmem]
    exact Multiset.mem_add.mpr (.inr hx)
  · intro hlost
    rw [hlost, Multiset.map_zero, add_zero] at hnodup hmem
    exact ⟨hnodup, hmem⟩

end Ok

theorem LinearRun.safe_step (hP : P.Closed) (h : LinearRun P s) (hs : Safe P (s.worker i) a)
    (he : s.step P i a = .ok s') : LinearRun P s' :=
  .step i a h he (((Ok.of_linearRun hP h).step hP hs).of_ok he).linear

/-- Safe steps, one after another; none when one of them fails. -/
def run (P : Program) : System ι → List (ι × Action ι) → Option (System ι) :=
  Transition.run fun s e => if Safe P (s.worker e.1) e.2 then (s.step P e.1 e.2).toOption else none

theorem LinearRun.run (hP : P.Closed) {l : List (ι × Action ι)} (h : LinearRun P s)
    (hr : s.run P l = some s') : LinearRun P s' := by
  induction l generalizing s with
  | nil =>
    cases hr
    exact h
  | cons e l ih =>
    obtain ⟨t, ht, hl⟩ := Transition.run_cons_iff.mp hr
    split at ht
    · rename_i hs
      cases he : s.step P e.1 e.2 with
      | error x =>
        rw [he] at ht
        cases ht
      | ok u =>
        rw [he] at ht
        cases ht
        exact ih (h.safe_step hP hs he) hl
    · cases ht

omit [DecidableEq ι] in
theorem pending_eq_zero (hq : ∀ i, (s.seat i).taskQueue = [])
    (hh : ∀ i, (s.seat i).hand.tasks = 0) : s.pending = 0 := by
  apply Finset.sum_eq_zero
  intro i _
  rw [hq i, hh i]
  rfl

end System

/-! ### A full queue -/

/-- `(define-node point value!)` and `(define-rule (point (point)))`, with an empty body. -/
def pointProgram : Program where
  nodeCtors := [{ name := "point", portInfos := [⟨"value", true⟩]
                  ruleArray := [⟨4, 4, 0⟩, ⟨4, 4, 0⟩] }]
  functions := [⟨0, []⟩]

theorem closed_pointProgram : pointProgram.Closed := by
  apply Program.Closed.of_user
  · intro ctor hm
    obtain rfl := List.mem_singleton.mp hm
    refine ⟨rfl, ?_⟩
    rintro i j ⟨x, hi, -⟩ ⟨y, hj, -⟩
    have hi := (List.getElem?_eq_some_iff.mp hi).1
    have hj := (List.getElem?_eq_some_iff.mp hj).1
    simp only [List.length_singleton] at hi hj
    omega
  · intro ctor hm rule hr
    obtain rfl := List.mem_singleton.mp hm
    have hr : rule = ⟨4, 4, 0⟩ := by simpa using hr
    subst hr
    decide
  · intro p hm
    cases hm

theorem applyNodeCtor_point (s : Store) : s.applyNodeCtor pointProgram 4 0 = .ok
    { s with
      principalWires := s.principalWires ++ [⟨s.nodes.length, 0, none, false⟩]
      nodes := s.nodes ++ [⟨some 4, [some (.principalWire s.principalWires.length)], 0⟩]
      valueStack := .principalWire s.principalWires.length :: s.valueStack } := by
  have hc : pointProgram.nodeCtor 4 = some
      { name := "point"
        portInfos := [⟨"value", true⟩]
        ruleArray := [⟨4, 4, 0⟩, ⟨4, 4, 0⟩] } := rfl
  simp [Store.applyNodeCtor, Store.reconnectNode, Store.reconnectInputs, Store.reconnectOutputs,
    Store.reconnectOutput, Program.getNodeCtor, Net.getCtor, Net.newNode, Store.setNet, hc,
    Net.newPrincipalWire, Net.setValue, Net.setNode, Store.push, NodeCtor.arity, Store.addFound]
  rfl

theorem findRule_point (p q : ℕ) :
    findRule pointProgram p q 4 4 = some (.activePair p q ⟨4, 4, 0⟩) := by
  simp [findRule, pointProgram, Program.nodeCtor, applyNodeCtors, maxApplyArity, ruleMatch,
    List.range_succ]

theorem connect_point {net : Net} {Q : List PrincipalWire} {m n : ℕ} {l l' : Slots Value}
    {k k' : ℕ} (hq : net.principalWires = Q ++ [⟨m, 0, none, false⟩, ⟨n, 0, none, false⟩])
    (hm : net.nodes[m]? = some ⟨some 4, l, k⟩) (hn : net.nodes[n]? = some ⟨some 4, l', k'⟩) :
    connect pointProgram net (.principalWire Q.length) (.principalWire (Q.length + 1)) =
      .ok ({ net with principalWires := Q ++ [⟨m, 0, some (Q.length + 1), false⟩,
        ⟨n, 0, some Q.length, false⟩] },
        some (.activePair Q.length (Q.length + 1) ⟨4, 4, 0⟩)) := by
  obtain ⟨wires, principalWires, nodes⟩ := net
  dsimp only at hq hm hn
  subst hq
  simp [connect, connectFuel, connectActivePair, Net.getPrincipalWire, Net.setPrincipalWire,
    Net.getCtor, hm, hn, findRule_point]

namespace System

variable {ι : Type} [DecidableEq ι] {s : System ι} {i : ι} {hand : Hand}

@[simp] theorem worker_put {w : Worker} : (s.put i w hand).worker i = w := by
  simp [worker, put]

def addPoint (w : Worker) : Worker := { w with
  principalWires := w.principalWires ++ [⟨w.nodes.length, 0, none, false⟩]
  nodes := w.nodes ++ [⟨some 4, [some (.principalWire w.principalWires.length)], 0⟩]
  valueStack := .principalWire w.principalWires.length :: w.valueStack }

omit [DecidableEq ι] in
theorem work_point (w : Worker) :
    work pointProgram w (.reconnectNode 4 0 : Action ι) = .ok (addPoint w) := by
  have hc : ∃ ctor, pointProgram.nodeCtor 4 = some ctor := ⟨_, rfl⟩
  obtain ⟨ctor, hc⟩ := hc
  simp only [work, hc, applyNodeCtor_point]
  rfl

theorem addTask_congr {s s' : Store} {t : Task} (hq : s.taskQueue = s'.taskQueue)
    (hr : s.refused = s'.refused) : (s.addTask t).valueStack = s.valueStack ∧
      (s.addTask t).taskQueue = (s'.addTask t).taskQueue ∧
        (s.addTask t).refused = (s'.addTask t).refused := by
  unfold Store.addTask
  rw [hq, hr]
  split
  · exact ⟨rfl, rfl, rfl⟩
  · exact ⟨rfl, rfl, rfl⟩

omit [DecidableEq ι] in
theorem work_connect_point (w : Worker) : ∃ w' t,
    work pointProgram (addPoint (addPoint w)) (.connect : Action ι) = .ok w' ∧
      w'.valueStack = w.valueStack ∧ w'.taskQueue = (w.addTask t).taskQueue ∧
        w'.refused = (w.addTask t).refused := by
  have hq : (addPoint (addPoint w)).principalWires = w.principalWires ++
      [⟨w.nodes.length, 0, none, false⟩, ⟨w.nodes.length + 1, 0, none, false⟩] := by
    simp [addPoint]
  have hm : (addPoint (addPoint w)).nodes[w.nodes.length]? = some
      ⟨some 4, [some (.principalWire w.principalWires.length)], 0⟩ := by
    simp [addPoint]
  have hn : (addPoint (addPoint w)).nodes[w.nodes.length + 1]? = some
      ⟨some 4, [some (.principalWire (w.principalWires.length + 1))], 0⟩ := by
    simp [addPoint]
  have hstack : (addPoint (addPoint w)).valueStack =
      .principalWire (w.principalWires.length + 1) :: .principalWire w.principalWires.length ::
        w.valueStack := by
    simp [addPoint]
  have hconnect := connect_point hq hm hn
  simp only [work, Store.pop, hstack, Outcome.ok_bind, Store.connect, hconnect]
  refine ⟨_, .activePair w.principalWires.length (w.principalWires.length + 1) ⟨4, 4, 0⟩, rfl, ?_⟩
  exact addTask_congr rfl rfl

/-- Pairs of new nodes can be connected for ever; from some time on, their tasks are lost. -/
theorem linearRun_point (k : ℕ) : ∃ s : System Unit, s.LinearRun pointProgram ∧
    (s.seat ()).valueStack = [] ∧ (s.seat ()).taskQueue.length = min k workerTaskQueueSize ∧
      (s.seat ()).taskQueue.length + (s.seat ()).refused.length = k := by
  induction k with
  | zero => exact ⟨{}, .start, rfl, (Nat.zero_min _).symm, rfl⟩
  | succ k ih =>
    obtain ⟨s, hr, hv, hq, hk⟩ := ih
    obtain ⟨w, t, hw, hstack, hqueue, hrefused⟩ := work_connect_point (ι := Unit) (s.worker ())
    have step₁ : ∀ s : System Unit, s.step pointProgram () (.reconnectNode 4 0) =
        .ok (s.put () (addPoint (s.worker ())) (s.seat ()).hand) := by
      intro s
      simp only [step, work_point, Outcome.ok_bind]
      rfl
    have hr₁ := hr.safe_step closed_pointProgram (i := ()) (a := .reconnectNode 4 0) trivial (step₁ s)
    have hr₂ := hr₁.safe_step closed_pointProgram (i := ()) (a := .reconnectNode 4 0) trivial (step₁ _)
    simp only [worker_put, seat_put] at hr₂
    have h₃ : ((s.put () (addPoint (s.worker ())) (s.seat ()).hand).put ()
        (addPoint (addPoint (s.worker ()))) (s.seat ()).hand).step pointProgram () .connect =
        .ok (((s.put () (addPoint (s.worker ())) (s.seat ()).hand).put ()
          (addPoint (addPoint (s.worker ()))) (s.seat ()).hand).put () w (s.seat ()).hand) := by
      simp only [step, worker_put, hw, seat_put, Outcome.ok_bind]
      rfl
    have hr₃ := hr₂.safe_step closed_pointProgram (i := ()) (a := .connect) trivial h₃
    refine ⟨_, hr₃, ?_⟩
    simp only [seat_put, hstack, hqueue, hrefused]
    unfold Store.addTask
    split
    · rename_i hlt
      have hlt : (s.seat ()).taskQueue.length < workerTaskQueueSize := hlt
      refine ⟨hv, ?_, ?_⟩
      · simp only [List.length_append, List.length_singleton, worker]
        omega
      · simp only [List.length_append, List.length_singleton, worker]
        omega
    · rename_i hge
      have hge : ¬ (s.seat ()).taskQueue.length < workerTaskQueueSize := hge
      refine ⟨hv, ?_, ?_⟩
      · simp only [worker]
        omega
      · simp only [List.length_append, List.length_singleton, worker]
        omega

end System

/--
Between any two steps of any run in which wires stay linear, the tasks that are pending are in
bijection with the redexes if and only if no task was added to a full queue. Then no redex is
left when the queues are empty and no task is in hand.
-/
theorem scheduled_iff_of_linearRun {ι : Type} [DecidableEq ι] [Fintype ι] {P : Program}
    {s : System ι} (hP : P.Closed) (h : s.LinearRun P) :
    (s.Scheduled P ↔ ∀ i, (s.seat i).refused = []) ∧
      ((∀ i, (s.seat i).refused = []) → (∀ i, (s.seat i).taskQueue = []) →
        (∀ i, (s.seat i).hand = .free) → ∀ x, ¬ IsRedex P s.net.principalWires s.net.nodes x) := by
  have hiff := (System.Ok.of_linearRun hP h).scheduled_iff
  rw [System.lost_eq_zero] at hiff
  constructor
  · exact hiff
  · intro hr hq hh x hx
    have hzero : s.pending = 0 := System.pending_eq_zero hq fun i => by rw [hh i]; rfl
    have hmem := ((hiff.mpr hr).2 x).mpr hx
    rw [hzero] at hmem
    simp at hmem

/-- The rule of `(define-rule (left x value!) (right value! y) (both x y))`. -/
def mergeRule : Rule := ⟨4, 5, 0⟩

/-- `(define-node left x value!)`, `(define-node right value! y)`, `(define-node both x y)` and the
rule -/
def mergeProgram : Program where
  nodeCtors := [
    { name := "left", portInfos := [⟨"x", false⟩, ⟨"value", true⟩], ruleArray := [mergeRule] },
    { name := "right", portInfos := [⟨"value", true⟩, ⟨"y", false⟩], ruleArray := [mergeRule] },
    { name := "both", portInfos := [⟨"x", false⟩, ⟨"y", false⟩] }]
  functions := [⟨2, [.setVariable 0, .setVariable 1, .getVariable 1, .getVariable 0,
    .literal (.nodeCtor 6), .apply 2]⟩]

theorem closed_mergeProgram : mergeProgram.Closed := by
  apply Program.Closed.of_user
  · intro ctor hm
    fin_cases hm
    all_goals
      refine ⟨rfl, ?_⟩
      rintro i j ⟨x, hi, hx⟩ ⟨y, hj, hy⟩
      have hi' := (List.getElem?_eq_some_iff.mp hi).1
      have hj' := (List.getElem?_eq_some_iff.mp hj).1
      simp only [List.length_cons, List.length_nil] at hi' hj'
      interval_cases i <;> interval_cases j <;> cases hi <;> cases hj <;> first
        | rfl
        | exact absurd hx (by decide)
        | exact absurd hy (by decide)
  · intro ctor hm rule hr
    fin_cases hm <;> fin_cases hr <;> decide
  · intro p hm
    cases hm

/-- Two times `(right (left))` by the worker `false`. The other one takes the task of one pair, and
makes a node of `both` of it. -/
def mergeSteps : List (Bool × Action Bool) := [
  (false, .reconnectNode 4 0), (false, .reconnectNode 5 1), (false, .reconnectNode 4 0),
  (false, .reconnectNode 5 1), (true, .take false), (true, .begin), (true, .step), (true, .step),
  (true, .step), (true, .step), (true, .step), (true, .step), (true, .finish)]

def mergeRest : List (Bool × Action Bool) := [
  (false, .take false), (false, .begin), (false, .step), (false, .step), (false, .step),
  (false, .step), (false, .step), (false, .step), (false, .finish)]

theorem run_mergeSteps : (System.run mergeProgram {} mergeSteps).map (fun s =>
    ((s.seat false).taskQueue.length, s.net.nodes.map Node.ctor,
      decide (∀ i, (s.seat i).refused = []))) =
    some (1, [none, none, some 4, some 5, some 6], true) := rfl

theorem run_mergeRest : ((System.run mergeProgram {} mergeSteps).bind fun s =>
    System.run mergeProgram s mergeRest).map (fun s => (s.net.nodes.map Node.ctor,
      decide (∀ i, (s.seat i).refused = []), decide (∀ i, (s.seat i).taskQueue = []),
      decide (∀ i, (s.seat i).hand = .free))) =
    some ([none, none, none, none, some 6, some 6], true, true, true) := rfl

/-- When one pair is handled, the other one is scheduled; when both are, no redex is left. -/
theorem scheduled_iff_of_linearRun_merge : ∃ s t : System Bool, s.LinearRun mergeProgram ∧
    (s.seat false).taskQueue.length = 1 ∧ s.net.nodes.map Node.ctor =
      [none, none, some 4, some 5, some 6] ∧ s.Scheduled mergeProgram ∧
    s.run mergeProgram mergeRest = some t ∧
      ∀ x, ¬ IsRedex mergeProgram t.net.principalWires t.net.nodes x := by
  obtain ⟨s, hs, he⟩ := Option.map_eq_some_iff.mp run_mergeSteps
  obtain ⟨t, ht, he'⟩ := Option.map_eq_some_iff.mp run_mergeRest
  rw [hs, Option.bind_some] at ht
  simp only [Prod.mk.injEq, decide_eq_true_eq] at he he'
  obtain ⟨hq, hnodes, hrefused⟩ := he
  obtain ⟨-, hrefused', hq', hhand⟩ := he'
  have hr := System.LinearRun.start.run closed_mergeProgram hs
  have hr' := hr.run closed_mergeProgram ht
  refine ⟨s, t, hr, hq, hnodes, ?_, ht, ?_⟩
  · exact (scheduled_iff_of_linearRun closed_mergeProgram hr).1.mpr hrefused
  · exact (scheduled_iff_of_linearRun closed_mergeProgram hr').2 hrefused' hq' hhand

/-- The pending tasks match the redexes in every state of every run. -/
def AlwaysScheduled : Prop :=
  ∀ (ι : Type) [DecidableEq ι] [Fintype ι] (P : Program) (s : System ι), P.Closed → s.LinearRun P →
    s.Scheduled P

/-- One task more than fit into a queue: a redex that nobody will handle. -/
theorem not_alwaysScheduled : ¬ AlwaysScheduled := by
  intro h
  obtain ⟨s, hr, -, hq, hk⟩ := System.linearRun_point (workerTaskQueueSize + 1)
  have hs := h Unit pointProgram s closed_pointProgram hr
  have hlost := (System.Ok.of_linearRun closed_pointProgram hr).scheduled_iff.mp hs
  rw [System.lost_eq_zero] at hlost
  rw [hlost ()] at hk
  simp only [List.length_nil] at hk
  omega

end InetLisp
