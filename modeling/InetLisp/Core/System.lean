import InetLisp.Core.Grow
import InetLisp.Core.HandlePrimitive
import InetLisp.Lib.Sums
import InetLisp.Lib.Transition

/-! # Workers on one net

Any number of workers build and apply on one net, take tasks from their queues or from
those of others and handle them, one step of one worker at a time. What the workers hold
lies outside of the net, and what a worker is about to do with a task is pending until the
nodes of the task are gone.
-/

namespace InetLisp

open Lib

inductive Hand where
  | free
  | taken (task : Task)
  /-- The rule runs; the nodes of the pair are gone. -/
  | activePair (returnStackBase : ℕ)
  /-- The primitive of the node runs, or what it has called. -/
  | primitive (node : ℕ) (primitive : NodePrimitive) (returnStackBase : ℕ)
  deriving DecidableEq

/-- `worker_t`, and where it is in `worker_handle_task`. -/
structure Seat where
  valueStack : List Value := []
  taskQueue : List Task := []
  refused : List Task := []
  returnStack : List Frame := []
  hand : Hand := .free

structure System (ι : Type) where
  net : Net := {}
  seat : ι → Seat := fun _ => {}

inductive Action (ι : Type) where
  /-- `worker_connect`, on the two values on top of the stack. -/
  | connect
  /-- `worker_new_node` and `worker_reconnect_node`. -/
  | reconnectNode (ctor arity : ℕ)
  /-- `worker_apply`, on the value on top of the stack. -/
  | apply (arity : ℕ)
  /-- A frame for a function that has been compiled, as in `build_net`. -/
  | call (function : ℕ)
  /-- `worker_run_one_step` -/
  | step
  /-- A task is popped off the own queue, or off the one of another worker. -/
  | take (victim : ι)
  /-- `worker_handle_task`, up to `worker_run_until`. -/
  | begin
  /-- `worker_handle_task`, after `worker_run_until`. -/
  | finish

namespace System

variable {ι : Type} [DecidableEq ι]

def worker (s : System ι) (i : ι) : Worker where
  toNet := s.net
  valueStack := (s.seat i).valueStack
  taskQueue := (s.seat i).taskQueue
  refused := (s.seat i).refused
  returnStack := (s.seat i).returnStack

def put (s : System ι) (i : ι) (w : Worker) (hand : Hand) : System ι where
  net := w.toNet
  seat := Function.update s.seat i
    { valueStack := w.valueStack, taskQueue := w.taskQueue, refused := w.refused
      returnStack := w.returnStack, hand }

/-- The calls and steps that can be made at any time, whatever task is in hand. -/
def work (P : Program) (w : Worker) : Action ι → Except Error Worker
  | .connect => do
    let (second, s) ← w.pop
    let (first, s) ← s.pop
    let s ← s.connect P first second
    return w.setStore s
  | .reconnectNode ctor arity => match P.nodeCtor ctor with
    | some _ => do
      let s ← w.applyNodeCtor P ctor arity
      return w.setStore s
    | none => .error .unknownTarget
  | .apply arity => do
    let (target, s) ← w.pop
    (w.setStore s).apply P target arity
  | .call function => match P.functions[function]? with
    | some _ => .ok (w.enter (some function))
    | none => .error .unknownTarget
  | .step => w.runOneStep P
  | _ => .ok w

/-- The task in hand is handled, up to `worker_run_until`. -/
def begin (P : Program) (w : Worker) : Hand → Except Error (Worker × Hand)
  | .taken (.activePair left right rule) => do
    let w' ← w.enterRule P left right rule
    return (w', .activePair w.returnStack.length)
  | .taken (.primitive n) => do
    let ctor ← P.getNodeCtor w.toNet n
    match ctor.primitive with
    | some primitive => do
      let w' ← w.enterPrimitive P n primitive
      return (w', .primitive n primitive w.returnStack.length)
    | none => .error .notPrimitiveNode
  | hand => .ok (w, hand)

/-- The task in hand is finished, once its frames are gone. -/
def finish (P : Program) (w : Worker) : Hand → Except Error (Worker × Hand)
  | .activePair base =>
    if base < w.returnStack.length then .ok (w, .activePair base) else .ok (w, .free)
  | .primitive n primitive base =>
    if base < w.returnStack.length then .ok (w, .primitive n primitive base)
    else do
      let w' ← w.leavePrimitive P n primitive
      return (w', .free)
  | hand => .ok (w, hand)

def setSeat (s : System ι) (i : ι) (x : Seat) : System ι :=
  { s with seat := Function.update s.seat i x }

def take (s : System ι) (i j : ι) : System ι :=
  match (s.seat i).hand, (s.seat j).taskQueue with
  | .free, task :: rest =>
    let s := s.setSeat j { s.seat j with taskQueue := rest }
    s.setSeat i { s.seat i with hand := .taken task }
  | _, _ => s

/-- A worker with nothing to do leaves everything as it is. -/
def step (P : Program) (s : System ι) (i : ι) : Action ι → Except Error (System ι)
  | .take j => .ok (s.take i j)
  | .begin => do
    let (w, hand) ← begin P (s.worker i) (s.seat i).hand
    return s.put i w hand
  | .finish => do
    let (w, hand) ← finish P (s.worker i) (s.seat i).hand
    return s.put i w hand
  | action => do
    let w ← work P (s.worker i) action
    return s.put i w (s.seat i).hand

end System

/-- What is pending while the task is in hand. -/
def Hand.tasks : Hand → Multiset Task
  | .taken task => {task}
  | .primitive n _ _ => {.primitive n}
  | _ => 0

/-- The ports whose values a primitive has got. -/
def Hand.inputs (P : Program) : Hand → Set (ℕ × ℕ)
  | .primitive n p _ => Store.Ok.above n 0 (P.primitiveArity p).1
  | _ => ∅

def Seat.outside (x : Seat) : Multiset Value := ↑x.valueStack + held x.returnStack

/-- The tasks that the worker has still to handle, and those that its queue has refused. -/
def Seat.tasks (x : Seat) : Multiset Task := ↑x.taskQueue + ↑x.refused + x.hand.tasks

/-- The worker keeps what it holds, and the node of a primitive that it runs. -/
structure Seat.SameButTasks (P : Program) (x y : Seat) : Prop where
  outside : y.outside = x.outside
  returnStack : y.returnStack = x.returnStack
  inputs : y.hand.inputs P = x.hand.inputs P
  hand : ∀ n primitive base, y.hand = .primitive n primitive base →
    x.hand = .primitive n primitive base

namespace Seat.SameButTasks

variable {P : Program} {x y z : Seat}

theorem refl (P : Program) (x : Seat) : SameButTasks P x x := ⟨rfl, rfl, rfl, fun _ _ _ h => h⟩

theorem trans (h : SameButTasks P x y) (h' : SameButTasks P y z) : SameButTasks P x z where
  outside := h'.outside.trans h.outside
  returnStack := h'.returnStack.trans h.returnStack
  inputs := h'.inputs.trans h.inputs
  hand n primitive base hz := h.hand n primitive base (h'.hand n primitive base hz)

end Seat.SameButTasks

/-- The ctor of a node does not change while the node is there. -/
def Net.Evolves (net net' : Net) : Prop :=
  ∀ n c c', CtorOf net.nodes n c → CtorOf net'.nodes n c' → c' = c

namespace Net

variable {net net' net'' : Net} {n : ℕ}

theorem Grows.evolves (h : Grows net net') : net.Evolves net' :=
  fun _ _ _ hc hc' => hc'.unique (h.ctorOf hc)

/-- A node that is there in the end was there all the time. -/
theorem evolves_recycle (h : ∀ m c, CtorOf net'.nodes m c → CtorOf net.nodes m c) :
    net.Evolves net' :=
  fun m _ c' hc hc' => (h m c' hc').unique hc

theorem ctorOf_of_set {nodes : List Node} {m c : ℕ}
    (h : CtorOf (nodes.set n ⟨none, [], 0⟩) m c) : CtorOf nodes m c := by
  obtain ⟨l, k, hm⟩ := h
  rw [List.getElem?_set] at hm
  split at hm
  · split at hm <;> cases hm
  · exact ⟨l, k, hm⟩

end Net

theorem Worker.evolves_leavePrimitive {P : Program} {w w' : Worker} {n : ℕ}
    {primitive : NodePrimitive} (h : w.leavePrimitive P n primitive = .ok w') :
    w.Evolves w'.toNet := by
  obtain ⟨s₁, h₁, h⟩ := Outcome.of_bind_eq_ok h
  obtain ⟨net, h₂, h⟩ := Outcome.of_bind_eq_ok h
  cases h
  intro m c c' hc hc'
  have hc₁ := (Store.grows_connectOutputs h₁).ctorOf hc
  unfold Net.recycleNode at h₂
  split at h₂
  · cases h₂
    exact (Net.ctorOf_of_set hc').unique hc₁
  · cases h₂

namespace System

variable {ι : Type} [DecidableEq ι] [Fintype ι] {P : Program} {missed : Set Redex}
  {s s' : System ι} {w : Worker} {i : ι} {hand : Hand} {defined : Multiset Value}

def outside (s : System ι) : Multiset Value := ∑ i, (s.seat i).outside

def tasks (s : System ι) : Multiset Task := ∑ i, (s.seat i).tasks

def inputs (P : Program) (s : System ι) : Set (ℕ × ℕ) := {x | ∃ i, x ∈ (s.seat i).hand.inputs P}

def outsideBut (s : System ι) (i : ι) : Multiset Value :=
  ∑ j ∈ Finset.univ.erase i, (s.seat j).outside

def tasksBut (s : System ι) (i : ι) : Multiset Task :=
  ∑ j ∈ Finset.univ.erase i, (s.seat j).tasks

def inputsBut (P : Program) (s : System ι) (i : ι) : Set (ℕ × ℕ) :=
  {x | ∃ j, j ≠ i ∧ x ∈ (s.seat j).hand.inputs P}

/-- The invariant of the net, and of what the workers do with their tasks. -/
structure Ok (P : Program) (missed : Set Redex) (defined : Multiset Value) (s : System ι) :
    Prop where
  inv : Inv P missed s.net (s.outside + defined) s.tasks { taken := s.inputs P }
  function : ∀ i, ∀ frame ∈ (s.seat i).returnStack,
    ∃ function, P.functions[frame.function]? = some function
  hand : ∀ (i : ι) (n : ℕ) (primitive : NodePrimitive) (base : ℕ),
    (s.seat i).hand = .primitive n primitive base → ∃ c ctor, CtorOf s.net.nodes n c ∧
      P.nodeCtor c = some ctor ∧ ctor.primitive = some primitive

/-- The ports that the task in hand has emptied, and those that others have. -/
def opened (P : Program) (s : System ι) (i : ι) (hand : Hand) : Open :=
  { taken := hand.inputs P ∪ s.inputsBut P i }

theorem outside_eq (s : System ι) (i : ι) :
    s.outside = (s.seat i).outside + s.outsideBut i :=
  (Finset.add_sum_erase _ _ (Finset.mem_univ i)).symm

theorem tasks_eq (s : System ι) (i : ι) : s.tasks = (s.seat i).tasks + s.tasksBut i :=
  (Finset.add_sum_erase _ _ (Finset.mem_univ i)).symm

omit [Fintype ι] in
theorem inputs_eq (P : Program) (s : System ι) (i : ι) :
    s.inputs P = (s.seat i).hand.inputs P ∪ s.inputsBut P i := by
  ext x
  constructor
  · rintro ⟨j, hj⟩
    by_cases h : j = i
    · subst h
      exact .inl hj
    · exact .inr ⟨j, h, hj⟩
  · rintro (h | ⟨j, -, hj⟩)
    · exact ⟨i, h⟩
    · exact ⟨j, hj⟩

@[simp] theorem outsideBut_put : (s.put i w hand).outsideBut i = s.outsideBut i :=
  Sums.sum_erase_update _ _ _ _

@[simp] theorem tasksBut_put : (s.put i w hand).tasksBut i = s.tasksBut i :=
  Sums.sum_erase_update _ _ _ _

omit [Fintype ι] in
@[simp] theorem inputsBut_put : (s.put i w hand).inputsBut P i = s.inputsBut P i := by
  ext x
  simp only [inputsBut, put, Set.mem_ofPred_eq]
  apply exists_congr
  intro j
  apply and_congr_right
  intro hj
  rw [Function.update_of_ne hj]

omit [Fintype ι] in
@[simp] theorem seat_put : (s.put i w hand).seat i =
    { valueStack := w.valueStack, taskQueue := w.taskQueue, refused := w.refused
      returnStack := w.returnStack, hand } := Function.update_self ..

omit [Fintype ι] in
theorem seat_setSeat {Q : Seat → Seat → Prop} {x : Seat} (hrefl : ∀ y, Q y y)
    (hx : Q (s.seat i) x) (k : ι) : Q (s.seat k) ((s.setSeat i x).seat k) := by
  simp only [setSeat, Function.update_apply]
  split
  · subst k
    exact hx
  · exact hrefl _

namespace Ok

theorem worker (h : s.Ok P missed defined) (i : ι) :
    (s.worker i).Ok P missed (s.outsideBut i + defined) ((s.seat i).hand.tasks + s.tasksBut i)
      (s.opened P i (s.seat i).hand) := by
  constructor
  · have hi := h.inv
    rw [outside_eq s i, tasks_eq s i, inputs_eq P s i] at hi
    have ho : (s.seat i).outside + s.outsideBut i + defined =
        ↑(s.worker i).valueStack + (held (s.worker i).returnStack + (s.outsideBut i + defined)) := by
      simp only [Seat.outside, System.worker]
      abel
    have ht : (s.seat i).tasks + s.tasksBut i = ↑(s.worker i).taskQueue + ↑(s.worker i).refused +
        ((s.seat i).hand.tasks + s.tasksBut i) := by
      simp only [Seat.tasks, System.worker]
      abel
    rw [ho, ht] at hi
    exact hi
  · exact h.function i

/-- A step of one worker keeps what the others rely on. -/
theorem put (h : s.Ok P missed defined)
    (hw : w.Ok P missed (s.outsideBut i + defined) (hand.tasks + s.tasksBut i)
      (s.opened P i hand))
    (he : s.net.Evolves w.toNet)
    (hh : ∀ n primitive base, hand = .primitive n primitive base → ∃ c ctor,
      CtorOf w.nodes n c ∧ P.nodeCtor c = some ctor ∧ ctor.primitive = some primitive) :
    (s.put i w hand).Ok P missed defined where
  inv := by
    have hi := hw.store
    unfold Store.Ok at hi
    rw [outside_eq _ i, tasks_eq _ i, inputs_eq P _ i]
    simp only [outsideBut_put, tasksBut_put, inputsBut_put, seat_put, Seat.outside, Seat.tasks]
    have ho : ↑w.valueStack + held w.returnStack + s.outsideBut i + defined =
        ↑w.valueStack + (held w.returnStack + (s.outsideBut i + defined)) := by abel
    have ht : ↑w.taskQueue + ↑w.refused + hand.tasks + s.tasksBut i =
        ↑w.taskQueue + ↑w.refused + (hand.tasks + s.tasksBut i) := by abel
    rw [ho, ht]
    exact hi
  function j := by
    by_cases hj : j = i
    · subst hj
      rw [seat_put]
      exact hw.function
    · have := h.function j
      simpa only [System.put, Function.update_of_ne hj] using this
  hand j n primitive base hjn := by
    by_cases hj : j = i
    · subst hj
      rw [seat_put] at hjn
      exact hh n primitive base hjn
    · simp only [System.put, Function.update_of_ne hj] at hjn
      obtain ⟨c, ctor, hn, hc, hp⟩ := h.hand j n primitive base hjn
      -- The node is still there, since its task is pending.
      have hmem : .primitive n ∈ s.tasksBut i := by
        apply Multiset.mem_of_le (Finset.single_le_sum (fun _ _ => Multiset.zero_le _)
          (Finset.mem_erase.mpr ⟨hj, Finset.mem_univ j⟩))
        rw [Seat.tasks, hjn]
        exact Multiset.mem_add.mpr (.inr (Multiset.mem_singleton_self _))
      obtain ⟨c', l', k', ctor', hn', -⟩ := hw.store.pending.valid (.primitive n)
        (Multiset.mem_add.mpr (.inr (Multiset.mem_add.mpr (.inr hmem))))
      have hcc := he n c c' hn ⟨l', k', hn'⟩
      subst hcc
      exact ⟨c', ctor, ⟨l', k', hn'⟩, hc, hp⟩

/-- The inputs of a node are taken while its task is pending. -/
theorem saturated_of_inputs (h : s.Ok P missed defined) {n j : ℕ} (hn : (n, j) ∈ s.inputs P) :
    Saturated P s.net.nodes n := by
  obtain ⟨k, hk⟩ := hn
  cases hh : (s.seat k).hand with
  | primitive m p base =>
    rw [hh] at hk
    have hm : n = m := hk.1
    subst hm
    apply h.inv.pending.valid (.primitive n)
    rw [tasks_eq s k, Seat.tasks, hh]
    exact Multiset.mem_add.mpr (.inl (Multiset.mem_add.mpr (.inr (Multiset.mem_singleton_self _))))
  | _ => simp [hh, Hand.inputs] at hk

theorem notMem_inputsBut (h : s.Ok P missed defined) {n : ℕ}
    (hn : .primitive n ∈ (s.seat i).hand.tasks) (j : ℕ) : (n, j) ∉ s.inputsBut P i := by
  rintro ⟨k, hki, hk⟩
  cases hh : (s.seat k).hand with
  | primitive m p base =>
    rw [hh] at hk
    have hm : n = m := hk.1
    subst hm
    have hk' : .primitive n ∈ s.tasksBut i := by
      apply Multiset.mem_of_le (Finset.single_le_sum (fun _ _ => Multiset.zero_le _)
        (Finset.mem_erase.mpr ⟨hki, Finset.mem_univ k⟩))
      rw [Seat.tasks, hh]
      exact Multiset.mem_add.mpr (.inr (Multiset.mem_singleton_self _))
    have hd := h.inv.pending.nodup
    rw [tasks_eq s i, Seat.tasks, add_assoc, Multiset.map_add, Multiset.map_add] at hd
    have hd := (Multiset.nodup_add.mp hd).2.1
    rw [Multiset.map_add] at hd
    have hd := (Multiset.nodup_add.mp hd).2.2
    exact Multiset.disjoint_left.mp hd (Multiset.mem_map_of_mem _ hn) (Multiset.mem_map_of_mem _ hk')
  | _ => simp [hh, Hand.inputs] at hk

end Ok

/-- The step does not copy a reference, nor does it use a wire that `defuze` has destroyed. -/
def Safe (P : Program) (w : Worker) : Action ι → Prop
  | .apply _ => ∀ v ∈ w.valueStack.head?, Direct w.toNet v
  | .step => w.Safe P
  | _ => True

instance (P : Program) (w : Worker) : DecidablePred (Safe P w : Action ι → Prop)
  | .apply _ => inferInstanceAs (Decidable (∀ v ∈ w.valueStack.head?, Direct w.toNet v))
  | .step => inferInstanceAs (Decidable (w.Safe P))
  | .connect | .reconnectNode _ _ | .call _ | .take _ | .begin | .finish => .isTrue trivial

variable {a : Action ι}

omit [DecidableEq ι] [Fintype ι] in
theorem work_ok {outside : Multiset Value} {tasks : Multiset Task} {G : Open} (hP : P.Closed)
    (h : w.Ok P missed outside tasks G) (hG : G.unset = ∅) (hs : Safe P w a) :
    Outcome Error.Expected (fun w' => w'.Ok P missed outside tasks G) (work P w a) := by
  cases a with
  | connect =>
    apply h.store.pop.bind
    rintro ⟨second, s₁⟩ ⟨h₁, -⟩
    apply h₁.pop.bind
    rintro ⟨first, s₂⟩ ⟨h₂, -⟩
    apply h₂.connect.bind
    intro s₃ h₃
    exact h.setStore h₃
  | reconnectNode c arity =>
    unfold work
    dsimp only
    split
    · rename_i ctor hc
      apply (h.store.applyNodeCtor hP.toOk hG hc).bind
      intro s₁ h₁
      exact h.setStore h₁
    · exact ⟨trivial, by decide⟩
  | apply arity =>
    apply h.store.pop.bind
    rintro ⟨target, s₁⟩ ⟨h₁, hnet, hv⟩
    have hd : Direct s₁.toNet target := by
      rw [hnet]
      exact hs target (by rw [hv]; rfl)
    apply (h₁.applyTarget hP.toOk hG hd).bind
    rintro ⟨s₂, f⟩ ⟨h₂, hf⟩
    exact (h.setStore h₂).enter hf
  | call f =>
    unfold work
    dsimp only
    split
    · rename_i function hf
      apply h.enter
      rintro g ⟨⟩
      exact ⟨function, hf⟩
    · exact ⟨trivial, by decide⟩
  | step => exact h.runOneStep hP.toOk hG hs
  | _ => exact h

omit [DecidableEq ι] [Fintype ι] in
theorem grows_work {w' : Worker} (h : work P w a = .ok w') : w.Grows w'.toNet := by
  cases a with
  | connect =>
    obtain ⟨⟨second, s₁⟩, h₁, h⟩ := Outcome.of_bind_eq_ok h
    obtain ⟨⟨first, s₂⟩, h₂, h⟩ := Outcome.of_bind_eq_ok h
    obtain ⟨s₃, h₃, h⟩ := Outcome.of_bind_eq_ok h
    cases h
    rw [← Store.grows_pop h₁, ← Store.grows_pop h₂]
    exact Store.grows_storeConnect h₃
  | reconnectNode c arity =>
    unfold work at h
    dsimp only at h
    split at h
    · obtain ⟨s₁, h₁, h⟩ := Outcome.of_bind_eq_ok h
      cases h
      exact Store.grows_applyNodeCtor h₁
    · cases h
  | apply arity =>
    obtain ⟨⟨target, s₁⟩, h₁, h⟩ := Outcome.of_bind_eq_ok h
    obtain ⟨⟨s₂, f⟩, h₂, h⟩ := Outcome.of_bind_eq_ok h
    cases h
    rw [Worker.toNet_enter, ← Store.grows_pop h₁]
    exact Store.grows_applyTarget h₂
  | call f =>
    unfold work at h
    dsimp only at h
    split at h
    · cases h
      exact .refl _
    · cases h
  | step => exact Worker.grows_runOneStep h
  | _ =>
    cases h
    exact .refl _

namespace Ok

theorem put_self (h : s.Ok P missed defined) :
    (s.put i (s.worker i) (s.seat i).hand).Ok P missed defined :=
  h.put (h.worker i) (Net.Grows.refl _).evolves (h.hand i)

theorem notMem_opened (h : s.Ok P missed defined) {n : ℕ}
    (hn : .primitive n ∈ (s.seat i).hand.tasks) (j : ℕ) :
    (n, j) ∉ (s.opened P i .free).taken := by
  rintro (hj | hj)
  · exact hj
  · exact h.notMem_inputsBut hn j hj

omit [Fintype ι] [DecidableEq ι] in
theorem opened_union (s : System ι) (i : ι) (T : Set (ℕ × ℕ)) :
    (s.opened P i .free).taken ∪ T = T ∪ s.inputsBut P i := by
  rw [Set.union_comm]
  congr 1
  exact Set.empty_union _

theorem beginActivePair (hP : P.Closed) (h : s.Ok P missed defined) {left right : ℕ} {rule : Rule}
    (hh : (s.seat i).hand = .taken (.activePair left right rule)) :
    Outcome Error.Expected (fun x => (s.put i x.1 x.2).Ok P missed defined)
      (System.begin P (s.worker i) (.taken (.activePair left right rule))) := by
  have hw : (s.worker i).Ok P missed (s.outsideBut i + defined)
      (.activePair left right rule ::ₘ s.tasksBut i) (s.opened P i .free) := by
    have hw := h.worker i
    rw [hh] at hw
    rw [← Multiset.singleton_add]
    exact hw
  obtain ⟨-, hrule⟩ := hw.store.pending.valid (.activePair left right rule) (by
    rw [Multiset.add_cons]
    exact Multiset.mem_cons_self _ _)
  have hsat : ∀ n j, (n, j) ∈ (s.opened P i .free).taken → Saturated P s.net.nodes n := by
    rintro n j (hn | ⟨k, -, hk⟩)
    · exact hn.elim
    · exact h.saturated_of_inputs ⟨k, hk⟩
  apply ((hw.enterRule hP.toOk (hP.function rule hrule) rfl rfl hsat).bind)
  rintro w' ⟨h', n, m, c, d, -, -, hnodes⟩
  apply h.put
  · change w'.Ok P missed _ (0 + s.tasksBut i) _
    rw [zero_add]
    exact h'
  · apply Net.evolves_recycle
    intro q e hq
    dsimp only at hq
    rw [hnodes] at hq
    exact Net.ctorOf_of_set (Net.ctorOf_of_set hq)
  · intro q p base he
    cases he

theorem beginPrimitive (hP : P.Closed) (h : s.Ok P missed defined) {n : ℕ}
    (hh : (s.seat i).hand = .taken (.primitive n)) :
    Outcome Error.Expected (fun x => (s.put i x.1 x.2).Ok P missed defined)
      (System.begin P (s.worker i) (.taken (.primitive n))) := by
  have hw : (s.worker i).Ok P missed (s.outsideBut i + defined)
      (.primitive n ::ₘ s.tasksBut i) (s.opened P i .free) := by
    have hw := h.worker i
    rw [hh] at hw
    rw [← Multiset.singleton_add]
    exact hw
  have hsat : Saturated P s.net.nodes n := hw.store.pending.valid (.primitive n) (by
    rw [Multiset.add_cons]
    exact Multiset.mem_cons_self _ _)
  have hmem : .primitive n ∈ (s.seat i).hand.tasks := by
    rw [hh]
    exact Multiset.mem_singleton_self _
  obtain ⟨c, l, k, ctor, hn, hc, hp, -⟩ := id hsat
  obtain ⟨p, hp⟩ := Option.ne_none_iff_exists'.mp hp
  have hget : P.getNodeCtor s.net n = .ok ctor := by
    simp [Program.getNodeCtor, Net.getCtor, hn, hc]
  unfold System.begin
  dsimp only
  rw [System.worker, hget, Outcome.ok_bind]
  dsimp only
  rw [hp]
  dsimp only
  apply (hw.enterPrimitive hP rfl hsat ⟨l, k, hn⟩ hc hp (h.notMem_opened hmem)).and_eq.bind
  rintro w' ⟨h', he⟩
  have hgrow := Worker.grows_enterPrimitive he
  apply h.put
  · rw [opened_union, ← Multiset.singleton_add] at h'
    exact h'
  · exact hgrow.evolves
  · rintro q p' base he
    cases he
    exact ⟨c, ctor, hgrow.ctorOf ⟨l, k, hn⟩, hc, hp⟩

theorem begin (hP : P.Closed) (h : s.Ok P missed defined) :
    Outcome Error.Expected (fun x => (s.put i x.1 x.2).Ok P missed defined)
      (System.begin P (s.worker i) (s.seat i).hand) := by
  have hself := h.put_self (i := i)
  cases hh : (s.seat i).hand with
  | taken task =>
    cases task with
    | activePair left right rule => exact h.beginActivePair hP hh
    | primitive n => exact h.beginPrimitive hP hh
  | _ =>
    rw [hh] at hself
    exact hself

theorem finishPrimitive (hP : P.Closed) (h : s.Ok P missed defined) {n base : ℕ}
    {p : NodePrimitive} (hh : (s.seat i).hand = .primitive n p base) :
    Outcome Error.Expected (fun w => (s.put i w .free).Ok P missed defined)
      ((s.worker i).leavePrimitive P n p) := by
  obtain ⟨c, ctor, hn, hc, hp⟩ := h.hand i n p base hh
  have hmem : .primitive n ∈ (s.seat i).hand.tasks := by
    rw [hh]
    exact Multiset.mem_singleton_self _
  have hw : (s.worker i).Ok P missed (s.outsideBut i + defined)
      (.primitive n ::ₘ s.tasksBut i) { s.opened P i .free with
        taken := (s.opened P i .free).taken ∪ Store.Ok.above n 0 (P.primitiveArity p).1 } := by
    have hw := h.worker i
    rw [hh] at hw
    rw [opened_union, ← Multiset.singleton_add]
    exact hw
  refine (hw.leavePrimitive hP rfl hn hc hp (h.notMem_opened hmem)).and_eq.mono ?_
  rintro w' ⟨h', he⟩
  apply h.put
  · change w'.Ok P missed _ (0 + s.tasksBut i) _
    rw [zero_add]
    exact h'
  · exact Worker.evolves_leavePrimitive he
  · intro q p' b he
    cases he

theorem finish (hP : P.Closed) (h : s.Ok P missed defined) :
    Outcome Error.Expected (fun x => (s.put i x.1 x.2).Ok P missed defined)
      (System.finish P (s.worker i) (s.seat i).hand) := by
  have hw := h.worker i
  have hself := h.put_self (i := i)
  cases hh : (s.seat i).hand with
  | activePair base =>
    rw [hh] at hself hw
    unfold System.finish
    dsimp only
    split
    · exact hself
    · have hfree : (s.put i (s.worker i) .free).Ok P missed defined := by
        apply h.put
        · exact hw
        · exact (Net.Grows.refl _).evolves
        · intro q p b he
          cases he
      exact hfree
  | primitive n p base =>
    rw [hh] at hself
    unfold System.finish
    dsimp only
    split
    · exact hself
    · exact (h.finishPrimitive hP hh).bind fun _ h' => h'
  | _ =>
    rw [hh] at hself
    exact hself

omit [DecidableEq ι] in
/-- Moving tasks between queues and hands changes nothing else. -/
theorem congr (h : s.Ok P missed defined) (hn : s'.net = s.net) (ht : s'.tasks = s.tasks)
    (hs : ∀ k, Seat.SameButTasks P (s.seat k) (s'.seat k)) : s'.Ok P missed defined where
  inv := by
    have ho : s'.outside = s.outside := Finset.sum_congr rfl fun k _ => (hs k).outside
    have hi : s'.inputs P = s.inputs P := by
      ext x
      exact exists_congr fun k => by rw [(hs k).inputs]
    rw [hn, ht, ho, hi]
    exact h.inv
  function k frame hf := h.function k frame ((hs k).returnStack ▸ hf)
  hand k n primitive base hk := by
    rw [hn]
    exact h.hand k n primitive base ((hs k).hand n primitive base hk)

theorem take (h : s.Ok P missed defined) {j : ι} : (s.take i j).Ok P missed defined := by
  unfold System.take
  split
  · rename_i task rest hfree hqueue
    have hj : (s.seat j).tasks = Seat.tasks { s.seat j with taskQueue := rest } + {task} := by
      simp only [Seat.tasks, hqueue]
      rw [← Multiset.cons_coe, ← Multiset.singleton_add]
      abel
    have hs₁ : ∀ k, Seat.SameButTasks P (s.seat k)
        ((s.setSeat j { s.seat j with taskQueue := rest }).seat k) :=
      seat_setSeat (fun _ => .refl _ _) ⟨rfl, rfl, rfl, fun _ _ _ h => h⟩
    have hfree₁ : ((s.setSeat j { s.seat j with taskQueue := rest }).seat i).hand = .free := by
      simp only [setSeat, Function.update_apply]
      split
      · subst i
        exact hfree
      · exact hfree
    dsimp only
    apply h.congr
    · rfl
    · have hi : Seat.tasks { (s.setSeat j { s.seat j with taskQueue := rest }).seat i with
          hand := .taken task } =
          ((s.setSeat j { s.seat j with taskQueue := rest }).seat i).tasks + {task} := by
        simp only [Seat.tasks, hfree₁, Hand.tasks, add_zero]
      exact (Sums.sum_update_eq_add hi).trans (Sums.sum_eq_update_add hj).symm
    · intro k
      apply (hs₁ k).trans
      apply seat_setSeat (fun _ => .refl _ _)
      constructor
      · rfl
      · rfl
      · rw [hfree₁]
        rfl
      · intro n p b he
        cases he
  · exact h

/-- Every step of a worker that is safe keeps the invariant, or stops the program with a report. -/
theorem step (hP : P.Closed) (h : s.Ok P missed defined) (hs : Safe P (s.worker i) a) :
    Outcome Error.Expected (fun s' => s'.Ok P missed defined) (s.step P i a) := by
  have hwork : Outcome Error.Expected (fun s' => s'.Ok P missed defined) (do
      let w ← work P (s.worker i) a
      return s.put i w (s.seat i).hand) := by
    apply (work_ok hP (h.worker i) rfl hs).and_eq.bind
    rintro w ⟨hw, he⟩
    have hgrow := grows_work he
    apply h.put hw hgrow.evolves
    intro n p base hn
    obtain ⟨c, ctor, hn, hc, hp⟩ := h.hand i n p base hn
    exact ⟨c, ctor, hgrow.ctorOf hn, hc, hp⟩
  cases a with
  | take j => exact h.take
  | begin => exact (h.begin hP).bind fun _ hx => hx
  | finish => exact (h.finish hP).bind fun _ hx => hx
  | _ => exact hwork

end Ok

end System

end InetLisp
