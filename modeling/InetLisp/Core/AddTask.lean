import InetLisp.Packages.Queue
import InetLisp.Lib.Sums
import Mathlib.Algebra.BigOperators.Group.Finset.Basic
import Mathlib.Data.Multiset.Basic
import Mathlib.Tactic.Linarith

/-! # Adding tasks to a bounded queue

The queue of a worker holds a bounded number of tasks. `worker_add_task` does not
look at the answer of the queue: a task that the queue refuses is counted all the
same, and nobody will handle it.
-/

namespace InetLisp.AddTask

open Queue

/-- `WORKER_TASK_QUEUE_SIZE` is this power of two. -/
def sizeExponent : ℕ := 20

/-- What `worker_add_task` uses of a worker; the loader worker has no scheduler to count tasks. The
slot of the counter is an `int64_t`, which holds `taskCount` modulo `2 ^ 64`: it is added to and
summed, and no step tests it. -/
structure Worker (τ : Type) where
  taskQueue : Queue τ
  taskCount : Option ℤ

inductive Activity (τ : Type) where
  | idle
  | handle (task : τ)
  /-- `worker_work_sequentially` has returned. -/
  | returned
  deriving DecidableEq, Repr

/-- The last two fields are ghosts: the tasks ever created and those ever handled. -/
structure State (n : ℕ) (τ : Type) where
  worker : Fin n → Worker τ
  activity : Fin n → Activity τ
  created : List τ
  handled : List τ

inductive Action (n : ℕ) (τ : Type) where
  /-- A task is added to an idle worker from outside, before its loop is entered. -/
  | prepare (i : Fin n) (task : τ)
  /-- Worker `i` pops from the queue of worker `j`, its own or another one. -/
  | take (i j : Fin n)
  /-- The task at hand adds a task. -/
  | add (i : Fin n) (task : τ)
  | finish (i : Fin n)
  /-- The own queue is empty and the loop returns. -/
  | leave (i : Fin n)

variable {n : ℕ} {τ : Type}

/-- Nothing is returned, so no failure is ever reported: the flag is constant. -/
def workerAddTask (w : Worker τ) (t : τ) : Worker τ × Bool :=
  ({ taskQueue := (w.taskQueue.pushBack t).1, taskCount := w.taskCount.map (· + 1) }, false)

namespace State

def setWorker (s : State n τ) (i : Fin n) (w : Worker τ) : State n τ :=
  { s with worker := Function.update s.worker i w }

def goto (s : State n τ) (i : Fin n) (x : Activity τ) : State n τ :=
  { s with activity := Function.update s.activity i x }

def addTask (s : State n τ) (i : Fin n) (t : τ) : State n τ :=
  { s with created := s.created ++ [t] }.setWorker i (workerAddTask (s.worker i) t).1

/-- A step is a whole call. In `.finish` each thread is taken to use its own slot (the source reads
`thread->id` for it), and the load and the store of the slot to be one step: no other thread writes
it. -/
def step (s : State n τ) : Action n τ → Option (State n τ)
  | .prepare i t =>
    match s.activity i with
    | .idle => some (s.addTask i t)
    | _ => none
  | .take i j =>
    match s.activity i with
    | .idle =>
      let (q, task) := (s.worker j).taskQueue.popFront
      let s := s.setWorker j { s.worker j with taskQueue := q }
      match task with
      | some t => some (s.goto i (.handle t))
      | none => some s
    | _ => none
  | .add i t =>
    match s.activity i with
    | .handle _ => some (s.addTask i t)
    | _ => none
  | .finish i =>
    match s.activity i with
    | .handle t =>
      let w := { s.worker i with taskCount := (s.worker i).taskCount.map (· - 1) }
      some ({ s with handled := s.handled ++ [t] }.setWorker i w |>.goto i .idle)
    | _ => none
  | .leave i =>
    match s.activity i, (s.worker i).taskQueue.popFront with
    | .idle, (q, none) =>
      some (s.setWorker i { s.worker i with taskQueue := q } |>.goto i .returned)
    | _, _ => none

end State

def start (n : ℕ) (scheduler : Bool) (values : List τ) : State n τ where
  worker := fun _ =>
    { taskQueue := Queue.new (BitVec.ofNat 64 (2 ^ sizeExponent)) 0 values
      taskCount := if scheduler then some 0 else none }
  activity := fun _ => .idle
  created := []
  handled := []

/-- The task is queued and counted once, or a failure is reported and nothing has changed. -/
def Kept (w : Worker τ) (l : List τ) (t : τ) (r : Worker τ × Bool) : Prop :=
  (Holds sizeExponent r.1.taskQueue (l ++ [t]) ∧ r.1.taskCount = w.taskCount.map (· + 1)) ∨
    (r.2 = true ∧ Holds sizeExponent r.1.taskQueue l ∧ r.1.taskCount = w.taskCount)

def Activity.inHand : Activity τ → Multiset τ
  | handle t => {t}
  | _ => 0

@[simp] theorem inHand_idle : (Activity.idle : Activity τ).inHand = 0 := rfl
@[simp] theorem inHand_handle (t : τ) : (Activity.handle t).inHand = {t} := rfl
@[simp] theorem inHand_returned : (Activity.returned : Activity τ).inHand = 0 := rfl

/-- What holds whenever no worker is between two steps. -/
structure Balanced (s : State n τ) : Prop where
  /-- The counters add up to the tasks queued or being handled. -/
  counted : (∀ i, (s.worker i).taskCount.isSome) →
    ∑ i, (s.worker i).taskCount.getD 0 =
      ((∑ i, (s.worker i).taskQueue.queueLength + ∑ i, (s.activity i).inHand.card : ℕ) : ℤ)
  /-- When the loop has returned, every task ever created has been handled. -/
  handled : (∀ i, s.activity i = .returned) → s.created.Perm s.handled

/-- A task is added only to a queue that is not full. -/
def hasRoom (s : State n τ) : Action n τ → Bool
  | .prepare i _ | .add i _ => !(s.worker i).taskQueue.queueIsFull
  | _ => true

theorem sizeExponent_lt : sizeExponent < 64 := by decide

theorem kept_iff {w : Worker τ} {l : List τ} (h : Holds sizeExponent w.taskQueue l) (t : τ) :
    Kept w l t (workerAddTask w t) ↔ w.taskQueue.queueIsFull = false := by
  rw [← Bool.not_eq_true, h.queueIsFull_iff sizeExponent_lt]
  constructor
  · rintro (⟨hk, -⟩ | ⟨hr, -⟩)
    · have := hk.length_le
      rw [List.length_append, List.length_singleton] at this
      omega
    · cases hr
  · intro hn
    have hlt := lt_of_le_of_ne h.length_le hn
    obtain ⟨q, hq, hh⟩ := h.pushBack sizeExponent_lt t hlt
    exact .inl ⟨by rw [workerAddTask, hq]; exact hh, rfl⟩

structure Inv (scheduler : Bool) (lists : Fin n → List τ) (s : State n τ) : Prop where
  holds : ∀ i, Holds sizeExponent (s.worker i).taskQueue (lists i)
  isSome : ∀ i, (s.worker i).taskCount.isSome = scheduler
  counted : scheduler = true → ∑ i, (s.worker i).taskCount.getD 0 =
    ∑ i, ((lists i).length : ℤ) + ∑ i, ((s.activity i).inHand.card : ℤ)
  tasks : (s.created : Multiset τ) =
    s.handled + ∑ i, (s.activity i).inHand + ∑ i, (lists i : Multiset τ)
  left : ∀ i, s.activity i = .returned → lists i = []

variable {scheduler : Bool} {lists : Fin n → List τ} {s s' : State n τ}

theorem Inv.balanced (h : Inv scheduler lists s) : Balanced s := by
  constructor
  · intro hs
    cases n with
    | zero => rfl
    | succ n =>
      have hc := h.counted ((h.isSome 0).symm.trans (hs 0))
      simp only [fun i => (h.holds i).queueLength_eq sizeExponent_lt]
      push_cast
      exact hc
  · intro hr
    have ht := h.tasks
    simp only [hr, h.left _ (hr _), Activity.inHand, Finset.sum_const_zero, Multiset.coe_nil,
      add_zero] at ht
    exact Multiset.coe_eq_coe.mp ht

theorem Inv.of_start {values : List τ} (hv : values.length = 2 ^ sizeExponent) :
    Inv scheduler (fun _ => []) (start n scheduler values) where
  holds := fun _ => .new 0 hv
  isSome := fun _ => by cases scheduler <;> rfl
  counted := by rintro rfl; simp [start, Activity.inHand]
  tasks := by simp [start, Activity.inHand]
  left := fun _ _ => rfl

theorem Inv.getD_map (h : Inv scheduler lists s) (hs : scheduler = true) (i : Fin n) (f : ℤ → ℤ) :
    ((s.worker i).taskCount.map f).getD 0 = f ((s.worker i).taskCount.getD 0) := by
  obtain ⟨c, hc⟩ := Option.isSome_iff_exists.mp ((h.isSome i).trans hs)
  rw [hc]
  rfl

/-- A step of worker `k` that changes worker `j`; what is lost and gained is balanced. -/
theorem Inv.set (h : Inv scheduler lists s) (created handled : List τ) {j k : Fin n}
    {w : Worker τ} {l : List τ} {x : Activity τ} (hh : Holds sizeExponent w.taskQueue l)
    (hs : w.taskCount.isSome = scheduler)
    (hc : scheduler = true → w.taskCount.getD 0 + (lists j).length + (s.activity k).inHand.card =
      (s.worker j).taskCount.getD 0 + l.length + x.inHand.card)
    (ht : (created : Multiset τ) + s.handled + (s.activity k).inHand + lists j =
      s.created + handled + x.inHand + l)
    (hl : ∀ m, Function.update s.activity k x m = .returned → Function.update lists j l m = []) :
    Inv scheduler (Function.update lists j l)
      ⟨Function.update s.worker j w, Function.update s.activity k x, created, handled⟩ := by
  refine ⟨fun m => ?_, fun m => ?_, fun hb => ?_, ?_, hl⟩
  · rcases eq_or_ne m j with rfl | hm
    · simpa only [Function.update_self] using hh
    · simpa only [Function.update_of_ne hm] using h.holds m
  · rcases eq_or_ne m j with rfl | hm
    · simpa only [Function.update_self] using hs
    · simpa only [Function.update_of_ne hm] using h.isSome m
  · have hw := Sums.sum_update (fun w : Worker τ => w.taskCount.getD 0) s.worker j w
    have hl := Sums.sum_update (fun l : List τ => (l.length : ℤ)) lists j l
    have hx := Sums.sum_update (fun x : Activity τ => (x.inHand.card : ℤ)) s.activity k x
    have := h.counted hb
    have := hc hb
    simp only at hw hl hx ⊢
    linarith
  · have hl := Sums.sum_update (fun l : List τ => (l : Multiset τ)) lists j l
    have hx := Sums.sum_update (fun x : Activity τ => x.inHand) s.activity k x
    classical
    refine Multiset.ext.mpr fun a => ?_
    have hl := congrArg (Multiset.count a) hl
    have hx := congrArg (Multiset.count a) hx
    have ht := congrArg (Multiset.count a) ht
    have h₀ := congrArg (Multiset.count a) h.tasks
    simp only [Multiset.count_add] at hl hx ht h₀ ⊢
    omega

theorem Inv.addTask (h : Inv scheduler lists s) {i : Fin n} (hi : s.activity i ≠ .returned)
    {t : τ} (hr : (s.worker i).taskQueue.queueIsFull = false) :
    Inv scheduler (Function.update lists i (lists i ++ [t])) (s.addTask i t) := by
  obtain ⟨hk, hc⟩ | ⟨hf, -⟩ := (kept_iff (h.holds i) t).mpr hr
  · have := h.set (s.created ++ [t]) s.handled (j := i) (k := i) (x := s.activity i) hk
      (by rw [hc, Option.isSome_map]; exact h.isSome i) (fun hb => ?_) ?_ (fun m hm => ?_)
    · rwa [Function.update_eq_self] at this
    · rw [hc, h.getD_map hb, List.length_append, List.length_singleton]
      push_cast
      ring
    · rw [← Multiset.coe_add, ← Multiset.coe_add]
      abel
    · rw [Function.update_eq_self] at hm
      have hmi : m ≠ i := by
        rintro rfl
        exact hi hm
      rw [Function.update_of_ne hmi]
      exact h.left m hm
  · cases hf

/-- Nothing is added to a worker that has returned, so its queue stays empty. -/
theorem Inv.left_update (h : Inv scheduler lists s) {j k : Fin n} {x : Activity τ} {l : List τ}
    (hx : x = .returned → Function.update lists j l k = []) (hl : lists j = [] → l = [])
    (m : Fin n) (hm : Function.update s.activity k x m = .returned) :
    Function.update lists j l m = [] := by
  rcases eq_or_ne m k with rfl | hmk
  · rw [Function.update_self] at hm
    exact hx hm
  · rw [Function.update_of_ne hmk] at hm
    have := h.left m hm
    rcases eq_or_ne m j with rfl | hmj
    · rw [Function.update_self]
      exact hl this
    · rw [Function.update_of_ne hmj]
      exact this

theorem Inv.take (h : Inv scheduler lists s) {i j : Fin n}
    (ht : s.step (.take i j) = some s') : ∃ lists, Inv scheduler lists s' := by
  cases hi : s.activity i with
  | idle =>
    simp only [State.step, hi] at ht
    cases hl : lists j with
    | nil =>
      have hj := h.holds j
      rw [hl] at hj
      obtain ⟨q, hq, hh⟩ := hj.popFront_nil sizeExponent_lt
      simp only [hq, Option.some.injEq] at ht
      have := h.set s.created s.handled (j := j) (k := i) (x := s.activity i)
        (w := { s.worker j with taskQueue := q }) hh (h.isSome j) (fun _ => by rw [hl])
        (by rw [hl]) (h.left_update (by rw [hi]; nofun) fun _ => rfl)
      rw [Function.update_eq_self] at this
      subst ht
      exact ⟨_, this⟩
    | cons t l =>
      have hj := h.holds j
      rw [hl] at hj
      obtain ⟨q, hq, hh⟩ := hj.popFront sizeExponent_lt
      simp only [hq, Option.some.injEq] at ht
      have := h.set s.created s.handled (j := j) (k := i) (x := .handle t)
        (w := { s.worker j with taskQueue := q }) hh (h.isSome j) (fun _ => ?_) ?_
        (h.left_update nofun fun hn => by rw [hl] at hn; cases hn)
      · subst ht
        exact ⟨_, this⟩
      · rw [hl, hi, List.length_cons, inHand_idle, inHand_handle, Multiset.card_zero,
          Multiset.card_singleton]
        push_cast
        ring
      · rw [hl, hi, inHand_idle, inHand_handle, ← Multiset.cons_coe, ← Multiset.singleton_add]
        abel
  | _ => simp [State.step, hi] at ht

theorem Inv.finish (h : Inv scheduler lists s) {i : Fin n}
    (ht : s.step (.finish i) = some s') : ∃ lists, Inv scheduler lists s' := by
  cases hi : s.activity i with
  | handle t =>
    simp only [State.step, hi, Option.some.injEq] at ht
    have := h.set s.created (s.handled ++ [t]) (j := i) (k := i) (x := .idle) (l := lists i)
      (w := { s.worker i with taskCount := (s.worker i).taskCount.map (· - 1) }) (h.holds i)
      (by rw [Option.isSome_map]; exact h.isSome i) (fun hb => ?_) ?_
      (h.left_update nofun id)
    · subst ht
      exact ⟨_, this⟩
    · rw [h.getD_map hb, hi, inHand_idle, inHand_handle, Multiset.card_zero,
        Multiset.card_singleton]
      push_cast
      ring
    · rw [hi, inHand_idle, inHand_handle, ← Multiset.coe_add, Multiset.coe_singleton]
      abel
  | _ => simp [State.step, hi] at ht

theorem Inv.leave (h : Inv scheduler lists s) {i : Fin n}
    (ht : s.step (.leave i) = some s') : ∃ lists, Inv scheduler lists s' := by
  cases hi : s.activity i with
  | idle =>
    have hh := h.holds i
    cases hl : lists i with
    | nil =>
      rw [hl] at hh
      obtain ⟨q, hq, hh⟩ := hh.popFront_nil sizeExponent_lt
      simp only [State.step, hi, hq, Option.some.injEq] at ht
      have := h.set s.created s.handled (j := i) (k := i) (x := .returned)
        (w := { s.worker i with taskQueue := q }) hh (h.isSome i) (fun _ => by rw [hl, hi]; rfl)
        (by rw [hl, hi]; rfl) (h.left_update (fun _ => Function.update_self ..) fun _ => rfl)
      subst ht
      exact ⟨_, this⟩
    | cons t l =>
      rw [hl] at hh
      obtain ⟨q, hq, -⟩ := hh.popFront sizeExponent_lt
      simp [State.step, hi, hq] at ht
  | _ => simp [State.step, hi] at ht

theorem Inv.step {act : Action n τ} (h : Inv scheduler lists s)
    (ht : Transition.restrict hasRoom State.step s act = some s') :
    ∃ lists, Inv scheduler lists s' := by
  obtain ⟨hr, ht⟩ := Transition.restrict_eq_some.mp ht
  cases act with
  | prepare i t =>
    cases hi : s.activity i with
    | idle =>
      simp only [State.step, hi, Option.some.injEq] at ht
      exact ⟨_, ht ▸ h.addTask (by rw [hi]; nofun) (by simpa [hasRoom] using hr)⟩
    | _ => simp [State.step, hi] at ht
  | add i t =>
    cases hi : s.activity i with
    | handle u =>
      simp only [State.step, hi, Option.some.injEq] at ht
      exact ⟨_, ht ▸ h.addTask (by rw [hi]; nofun) (by simpa [hasRoom] using hr)⟩
    | _ => simp [State.step, hi] at ht
  | take i j => exact h.take ht
  | finish i => exact h.finish ht
  | leave i => exact h.leave ht

theorem balanced_of_run {values : List τ} (hv : values.length = 2 ^ sizeExponent)
    {l : List (Action n τ)}
    (h : Transition.run (Transition.restrict hasRoom State.step) (start n scheduler values) l =
      some s) : Balanced s := by
  obtain ⟨lists, hs⟩ := (Transition.Reaches.of_run h).invariant
    (P := fun s => ∃ lists, Inv scheduler lists s)
    (fun _ _ _ ⟨_, hs⟩ ht => hs.step ht) ⟨_, .of_start hv⟩
  exact hs.balanced

/--
One call keeps its task exactly when the queue is not full; runs in which no task is
added to a full queue keep every task.
-/
theorem addTask_keeps {values : List τ} (hv : values.length = 2 ^ sizeExponent) :
    (∀ (w : Worker τ) (l : List τ) (t : τ), Holds sizeExponent w.taskQueue l →
      (Kept w l t (workerAddTask w t) ↔ w.taskQueue.queueIsFull = false)) ∧
    ∀ (n : ℕ) (scheduler : Bool) (l : List (Action n τ)) (s : State n τ),
      Transition.run (Transition.restrict hasRoom State.step) (start n scheduler values) l =
        some s → Balanced s :=
  ⟨fun _ _ t h => kept_iff h t, fun _ _ _ _ h => balanced_of_run hv h⟩

def clear : List ℕ := List.replicate (2 ^ sizeExponent) 0

def newWorker : Worker ℕ := ⟨Queue.new (BitVec.ofNat 64 (2 ^ sizeExponent)) 0 clear, none⟩

/-- The loader adds a task, handles it and returns. -/
theorem addTask_keeps_one : Kept newWorker [] 7 (workerAddTask newWorker 7) ∧
    Balanced ((Transition.run (Transition.restrict hasRoom State.step) (start 1 false clear)
      [.prepare 0 7, .take 0 0, .finish 0, .leave 0]).get (by decide)) := by
  have h := @addTask_keeps ℕ clear List.length_replicate
  refine ⟨(h.1 _ _ 7 (.new 0 List.length_replicate)).mpr (by decide), ?_⟩
  exact h.2 1 false _ _ (Option.some_get _).symm

theorem exists_holds {q : Queue τ} (h : Holds sizeExponent q []) (t : τ) :
    ∀ m ≤ 2 ^ sizeExponent, ∃ q, Holds sizeExponent q (List.replicate m t) := by
  intro m
  induction m with
  | zero => exact fun _ => ⟨q, h⟩
  | succ m ih =>
    intro hm
    obtain ⟨q, hq⟩ := ih (Nat.le_of_succ_le hm)
    obtain ⟨q', -, hq'⟩ := hq.pushBack sizeExponent_lt t (by rw [List.length_replicate]; exact hm)
    exact ⟨q', List.replicate_succ' ▸ hq'⟩

/-- A worker whose queue is full loses the task and counts it. -/
theorem not_addTask_keeps : ¬ ∀ (w : Worker ℕ) (l : List ℕ) (t : ℕ), Holds sizeExponent w.taskQueue l →
    Kept w l t (workerAddTask w t) := by
  intro h
  have hn : Holds sizeExponent newWorker.taskQueue [] := .new 0 List.length_replicate
  obtain ⟨q, hq⟩ := exists_holds hn 0 _ le_rfl
  have hf := (kept_iff (w := ⟨q, some 0⟩) hq 0).mp (h _ _ _ hq)
  rw [← Bool.not_eq_true, hq.queueIsFull_iff sizeExponent_lt] at hf
  exact hf List.length_replicate

end InetLisp.AddTask
