import InetLisp.Core.Worker
import InetLisp.Lib.Transition
import InetLisp.Lib.Sums
import Mathlib.Data.BitVec
import Mathlib.Algebra.Order.BigOperators.Group.Finset
import Mathlib.Tactic.LinearCombination

/-! # Work stealing and termination detection

The loop of a worker thread: sum the counter slots, take a task from the own
queue or steal one, handle it, count its children and its end in the own slot.
The sum is read slot by slot while other workers change the slots, so a worker
may leave on a false zero. Some worker always has a sum that is still exact, and
that worker does not leave before every task has been handled.
-/

namespace InetLisp.WorkParallelly

/-- The two loops that test `scheduler_no_more_tasks`. -/
inductive Loop
  | workerThreadFn
  | workerStealTask
  deriving DecidableEq, Repr

/-- Where a worker thread stands between two atomic steps. -/
inductive Phase (n : ℕ) (τ : Type*) where
  /-- In `stats_counter_total`: the next slot to load and the sum of those loaded. -/
  | total (loop : Loop) (i : ℕ) (total : BitVec 64)
  /-- About to call `worker_next_task`. -/
  | nextTask
  /-- In `get_victim_id`. -/
  | getVictimId
  /-- About to call `worker_offer_task` on the victim. -/
  | offerTask (victim : Fin n)
  | handleTask (task : τ)
  /-- In `worker_add_task`, between `queue_push_back` and the count. -/
  | addTask (task : τ)
  | returned
  deriving DecidableEq, Repr

/--
A scheduler whose workers run `worker_thread_fn`. `added` and `handled` are
ghosts: every task ever pushed, and every task whose handling has ended.
-/
structure Scheduler (n : ℕ) (τ : Type*) where
  taskQueue : Fin n → List τ
  counter : Fin n → BitVec 64
  phase : Fin n → Phase n τ
  added : List τ
  handled : List τ
  deriving DecidableEq

variable {n : ℕ} {τ : Type*}

namespace Scheduler

def goto (s : Scheduler n τ) (i : Fin n) (p : Phase n τ) : Scheduler n τ :=
  { s with phase := Function.update s.phase i p }

/-- `queue_pop_front` on a queue, then continue with the task or without one. -/
def popFront (s : Scheduler n τ) (i v : Fin n) : Scheduler n τ :=
  match s.taskQueue v with
  | [] => s.goto i (.total .workerStealTask 0 0)
  | t :: q => { s with taskQueue := Function.update s.taskQueue v q }.goto i (.handleTask t)

/-- `queue_push_back`, the first half of `worker_add_task`. -/
def pushBack (s : Scheduler n τ) (i : Fin n) (t child : τ) : Scheduler n τ :=
  { s with
    taskQueue := Function.update s.taskQueue i (s.taskQueue i ++ [child])
    added := s.added ++ [child] }.goto i (.addTask t)

/-- `scheduler_task_count_add1`, the second half of `worker_add_task`. -/
def countAdd1 (s : Scheduler n τ) (i : Fin n) (t : τ) : Scheduler n τ :=
  { s with counter := Function.update s.counter i (s.counter i + 1) }.goto i (.handleTask t)

/-- `scheduler_task_count_sub1` after a task, then the loop condition again. -/
def countSub1 (s : Scheduler n τ) (i : Fin n) (t : τ) : Scheduler n τ :=
  { s with
    counter := Function.update s.counter i (s.counter i - 1)
    handled := s.handled ++ [t] }.goto i (.total .workerThreadFn 0 0)

end Scheduler

/-- What a worker does next; only the victim and the children are not determined. -/
inductive Action (n : ℕ) (τ : Type*) where
  | load
  | test
  | nextTask
  | getVictimId (victim : Fin n)
  | offerTask
  | addTask (child : τ)
  | count
  | finish
  deriving DecidableEq, Repr

/-- One atomic step of worker `i`. A push into a full queue is not enabled. -/
def workerStep (s : Scheduler n τ) (i : Fin n) (a : Action n τ) : Option (Scheduler n τ) :=
  match a, s.phase i with
  | .load, .total l k c =>
    if h : k < n then some (s.goto i (.total l (k + 1) (c + s.counter ⟨k, h⟩))) else none
  | .test, .total l k c =>
    if k = n then
      if c = 0 then some (s.goto i .returned)
      else match l with
        | .workerThreadFn => some (s.goto i .nextTask)
        | .workerStealTask => some (s.goto i .getVictimId)
    else none
  | .nextTask, .nextTask => some (s.popFront i i)
  | .getVictimId v, .getVictimId => if v ≠ i then some (s.goto i (.offerTask v)) else none
  | .offerTask, .offerTask v => some (s.popFront i v)
  | .addTask child, .handleTask t =>
    if (s.taskQueue i).length < workerTaskQueueSize then some (s.pushBack i t child) else none
  | .count, .addTask t => some (s.countAdd1 i t)
  | .finish, .handleTask t => some (s.countSub1 i t)
  | _, _ => none

/-- The workers take their steps in any order. -/
def step (s : Scheduler n τ) (l : Fin n × Action n τ) : Option (Scheduler n τ) :=
  workerStep s l.1 l.2

/-- The threads are started after `scheduler_prepare` has filled and counted the queues. -/
def prepared (queue : Fin n → List τ) : Scheduler n τ where
  taskQueue := queue
  counter i := ((queue i).length : BitVec 64)
  phase _ := .total .workerThreadFn 0 0
  added := (List.finRange n).flatMap queue
  handled := []

namespace Phase

/-- The task a worker is handling, counted once. -/
def inHand : Phase n τ → Multiset τ
  | .handleTask t => {t}
  | .addTask t => {t}
  | _ => 0

/--
What the slots hold beyond the queues: the task in hand is still counted, and a
child that is pushed but not counted makes up for it.
-/
def slack : Phase n τ → BitVec 64
  | .handleTask _ => 1
  | _ => 0

/-- Not between taking a task and counting its end. -/
def Free : Phase n τ → Prop
  | .handleTask _ => False
  | .addTask _ => False
  | _ => True

/-- Looking for a task: no sum begun, and one will be begun before the worker leaves. -/
def Searching : Phase n τ → Prop
  | .nextTask => True
  | .getVictimId => True
  | .offerTask _ => True
  | _ => False

theorem Free.inHand {p : Phase n τ} (h : p.Free) : p.inHand = 0 := by
  cases p <;> first | rfl | exact h.elim

theorem Free.slack {p : Phase n τ} (h : p.Free) : p.slack = 0 := by
  cases p <;> first | rfl | exact h.elim

@[simp] theorem inHand_total (l : Loop) (k : ℕ) (c : BitVec 64) :
    (total l k c : Phase n τ).inHand = 0 := rfl
@[simp] theorem slack_total (l : Loop) (k : ℕ) (c : BitVec 64) :
    (total l k c : Phase n τ).slack = 0 := rfl
@[simp] theorem inHand_handleTask (t : τ) : (handleTask t : Phase n τ).inHand = {t} := rfl
@[simp] theorem inHand_addTask (t : τ) : (addTask t : Phase n τ).inHand = {t} := rfl
@[simp] theorem slack_handleTask (t : τ) : (handleTask t : Phase n τ).slack = 1 := rfl
@[simp] theorem slack_addTask (t : τ) : (addTask t : Phase n τ).slack = 0 := rfl

theorem Searching.free {p : Phase n τ} (h : p.Searching) : p.Free := by
  cases p <;> trivial

end Phase

/-- Everything that one step of worker `i` can do. -/
inductive Steps (s : Scheduler n τ) (i : Fin n) : Scheduler n τ → Prop where
  | load {l k c} (hk : k < n) (hp : s.phase i = .total l k c) :
      Steps s i (s.goto i (.total l (k + 1) (c + s.counter ⟨k, hk⟩)))
  | leave {l} (hp : s.phase i = .total l n 0) : Steps s i (s.goto i .returned)
  | search {p} (hp : (s.phase i).Free) (hq : p.Searching) : Steps s i (s.goto i p)
  | popFront (v : Fin n) (hp : (s.phase i).Free) : Steps s i (s.popFront i v)
  | pushBack {t} (child : τ) (hp : s.phase i = .handleTask t)
      (hl : (s.taskQueue i).length < workerTaskQueueSize) : Steps s i (s.pushBack i t child)
  | countAdd1 {t} (hp : s.phase i = .addTask t) : Steps s i (s.countAdd1 i t)
  | countSub1 {t} (hp : s.phase i = .handleTask t) : Steps s i (s.countSub1 i t)

theorem steps_of_workerStep {s t : Scheduler n τ} {i : Fin n} {a : Action n τ}
    (h : workerStep s i a = some t) : Steps s i t := by
  unfold workerStep at h
  split at h
  case h_1 l k c hp =>
    split at h <;> cases h
    exact .load _ hp
  case h_2 l k c hp =>
    split at h
    · subst k
      split at h
      · subst c; cases h; exact .leave hp
      · cases l <;> cases h <;> exact .search (by rw [hp]; trivial) trivial
    · cases h
  case h_3 hp => cases h; exact .popFront i (by rw [hp]; trivial)
  case h_4 v hp =>
    split at h <;> cases h
    exact .search (by rw [hp]; trivial) trivial
  case h_5 v hp => cases h; exact .popFront v (by rw [hp]; trivial)
  case h_6 child t hp =>
    split at h <;> cases h
    exact .pushBack child hp ‹_›
  case h_7 t hp => cases h; exact .countAdd1 hp
  case h_8 t hp => cases h; exact .countSub1 hp
  case h_9 => cases h

namespace Scheduler

section Sums

variable {M : Type*} [AddCommMonoid M]

theorem sum_goto (g : Phase n τ → M) (s : Scheduler n τ) (i : Fin n) (p : Phase n τ) :
    ∑ j, g ((s.goto i p).phase j) + g (s.phase i) = ∑ j, g (s.phase j) + g p :=
  Sums.sum_update g s.phase i p

end Sums

/-- The sum of the slots that a scan has passed. -/
def countedTo (s : Scheduler n τ) (k : ℕ) : BitVec 64 :=
  ∑ j : Fin n, if j.val < k then s.counter j else 0

theorem countedTo_zero (s : Scheduler n τ) : s.countedTo 0 = 0 := by simp [countedTo]

theorem countedTo_succ (s : Scheduler n τ) {k : ℕ} (hk : k < n) :
    s.countedTo (k + 1) = s.countedTo k + s.counter ⟨k, hk⟩ := by
  have h : ∀ j : Fin n, (if j.val < k + 1 then s.counter j else 0) =
      (if j.val < k then s.counter j else 0) + if j = ⟨k, hk⟩ then s.counter j else 0 := by
    intro j
    by_cases hj : j = ⟨k, hk⟩
    · subst hj; simp
    · have : j.val ≠ k := fun he => hj (Fin.ext he)
      have hlt : j.val < k + 1 ↔ j.val < k := by omega
      simp [hj, hlt]
  simp only [countedTo, h, Finset.sum_add_distrib, Finset.sum_ite_eq', Finset.mem_univ, if_true]

theorem countedTo_all (s : Scheduler n τ) : s.countedTo n = ∑ j, s.counter j := by
  simp [countedTo]

/-- Nothing that worker `i` has read of the slots has changed since. -/
def Current (s : Scheduler n τ) (i : Fin n) : Prop :=
  match s.phase i with
  | .total _ k c => c = s.countedTo k
  | .returned => ∑ j, s.counter j = 0
  | _ => True

/-- Every slot change is counted, every task is somewhere, and some worker is current. -/
structure Inv (s : Scheduler n τ) : Prop where
  balance : ∑ i, s.counter i = ∑ i, ((s.taskQueue i).length : BitVec 64) + ∑ i, (s.phase i).slack
  tasks : (s.added : Multiset τ) =
    s.handled + (∑ i, (s.taskQueue i : Multiset τ) + ∑ i, (s.phase i).inHand)
  bounded : ∀ i, (s.taskQueue i).length ≤ workerTaskQueueSize
  current : 0 < n → ∃ i, s.Current i

variable {s t : Scheduler n τ} {i : Fin n}

theorem sum_goto_free {M : Type*} [AddCommMonoid M] (g : Phase n τ → M)
    (hg : ∀ p, Phase.Free p → g p = 0) {p : Phase n τ} (hp : (s.phase i).Free) (hq : p.Free) :
    ∑ j, g ((s.goto i p).phase j) = ∑ j, g (s.phase j) := by
  simpa [hg _ hp, hg _ hq] using sum_goto g s i p

theorem popFront_nil {v : Fin n} (h : s.taskQueue v = []) :
    s.popFront i v = s.goto i (.total .workerStealTask 0 0) := by
  simp [popFront, h]

theorem popFront_cons {v : Fin n} {c : τ} {q : List τ} (h : s.taskQueue v = c :: q) :
    s.popFront i v = { s with taskQueue := Function.update s.taskQueue v q }.goto i
      (.handleTask c) := by
  simp [popFront, h]

theorem balance_step (h : Steps s i t)
    (hb : ∑ i, s.counter i = ∑ i, ((s.taskQueue i).length : BitVec 64) + ∑ i, (s.phase i).slack) :
    ∑ i, t.counter i = ∑ i, ((t.taskQueue i).length : BitVec 64) + ∑ i, (t.phase i).slack := by
  have free : ∀ {p : Phase n τ}, (s.phase i).Free → p.Free →
      ∑ j, s.counter j = ∑ j, ((s.taskQueue j).length : BitVec 64) +
        ∑ j, ((s.goto i p).phase j).slack := by
    intro p hp hq
    rw [sum_goto_free Phase.slack (fun _ => Phase.Free.slack) hp hq]
    exact hb
  cases h with
  | load hk hp => exact free (by rw [hp]; trivial) trivial
  | leave hp => exact free (by rw [hp]; trivial) trivial
  | search hp hq => exact free hp hq.free
  | popFront v hp =>
    cases hv : s.taskQueue v with
    | nil => rw [popFront_nil hv]; exact free hp trivial
    | cons c q =>
      rw [popFront_cons hv]
      have hl := Sums.sum_update (fun q : List τ => (q.length : BitVec 64)) s.taskQueue v q
      have hc := sum_goto Phase.slack s i (.handleTask c)
      simp only [hp.slack, hv, List.length_cons, Nat.cast_add, Nat.cast_one, goto,
        Phase.slack_handleTask] at hl hc ⊢
      linear_combination hb - hl - hc
  | @pushBack c child hp _ =>
    have hl := Sums.sum_update (fun q : List τ => (q.length : BitVec 64)) s.taskQueue i
      (s.taskQueue i ++ [child])
    have hc := sum_goto Phase.slack s i (.addTask c)
    simp only [hp, List.length_append, List.length_singleton, Nat.cast_add, Nat.cast_one, goto,
      Phase.slack_handleTask, Phase.slack_addTask, pushBack] at hl hc ⊢
    linear_combination hb - hl - hc
  | @countAdd1 c hp =>
    have hl := Sums.sum_update id s.counter i (s.counter i + 1)
    have hc := sum_goto Phase.slack s i (.handleTask c)
    simp only [hp, id, goto, Phase.slack_handleTask, Phase.slack_addTask, countAdd1] at hl hc ⊢
    linear_combination hb + hl - hc
  | @countSub1 c hp =>
    have hl := Sums.sum_update id s.counter i (s.counter i - 1)
    have hc := sum_goto Phase.slack s i (.total .workerThreadFn 0 0)
    simp only [hp, id, goto, Phase.slack_handleTask, Phase.slack_total, countSub1] at hl hc ⊢
    linear_combination hb + hl - hc

theorem tasks_step (h : Steps s i t)
    (hb : (s.added : Multiset τ) =
      s.handled + (∑ i, (s.taskQueue i : Multiset τ) + ∑ i, (s.phase i).inHand)) :
    (t.added : Multiset τ) =
      t.handled + (∑ i, (t.taskQueue i : Multiset τ) + ∑ i, (t.phase i).inHand) := by
  classical
  have free : ∀ {p : Phase n τ}, (s.phase i).Free → p.Free →
      (s.added : Multiset τ) =
        s.handled + (∑ j, (s.taskQueue j : Multiset τ) + ∑ j, ((s.goto i p).phase j).inHand) := by
    intro p hp hq
    rw [sum_goto_free Phase.inHand (fun _ => Phase.Free.inHand) hp hq]
    exact hb
  cases h with
  | load hk hp => exact free (by rw [hp]; trivial) trivial
  | leave hp => exact free (by rw [hp]; trivial) trivial
  | search hp hq => exact free hp hq.free
  | popFront v hp =>
    cases hv : s.taskQueue v with
    | nil => rw [popFront_nil hv]; exact free hp trivial
    | cons c q =>
      rw [popFront_cons hv]
      have hl := Sums.sum_update (fun q : List τ => (q : Multiset τ)) s.taskQueue v q
      have hc := sum_goto Phase.inHand s i (.handleTask c)
      simp only [hp.inHand, hv, ← Multiset.cons_coe, ← Multiset.singleton_add, goto,
        Phase.inHand_handleTask] at hl hc ⊢
      rw [Multiset.ext] at hb hl hc ⊢
      intro x
      have := hb x; have := hl x; have := hc x
      simp only [Multiset.count_add, Multiset.count_zero] at *
      omega
  | @pushBack c child hp _ =>
    have hl := Sums.sum_update (fun q : List τ => (q : Multiset τ)) s.taskQueue i
      (s.taskQueue i ++ [child])
    have hc := sum_goto Phase.inHand s i (.addTask c)
    simp only [hp, ← Multiset.coe_add, Multiset.coe_singleton, goto, Phase.inHand_handleTask,
      Phase.inHand_addTask, pushBack] at hl hc ⊢
    rw [Multiset.ext] at hb hl hc ⊢
    intro x
    have := hb x; have := hl x; have := hc x
    simp only [Multiset.count_add] at *
    omega
  | @countAdd1 c hp =>
    have hc := sum_goto Phase.inHand s i (.handleTask c)
    simp only [hp, goto, Phase.inHand_handleTask, Phase.inHand_addTask, countAdd1] at hc ⊢
    rw [add_right_cancel hc]
    exact hb
  | @countSub1 c hp =>
    have hc := sum_goto Phase.inHand s i (.total .workerThreadFn 0 0)
    simp only [hp, goto, Phase.inHand_handleTask, Phase.inHand_total, ← Multiset.coe_add,
      Multiset.coe_singleton, countSub1] at hc ⊢
    rw [Multiset.ext] at hb hc ⊢
    intro x
    have := hb x; have := hc x
    simp only [Multiset.count_add, Multiset.count_zero] at *
    omega

theorem bounded_step (h : Steps s i t) (hs : ∀ j, (s.taskQueue j).length ≤ workerTaskQueueSize) :
    ∀ j, (t.taskQueue j).length ≤ workerTaskQueueSize := by
  intro j
  cases h with
  | popFront v hp =>
    cases hv : s.taskQueue v with
    | nil => rw [popFront_nil hv]; exact hs j
    | cons c q =>
      rw [popFront_cons hv]
      by_cases hj : j = v
      · subst hj
        have := hs j
        simp only [hv, List.length_cons] at this
        simp only [goto, Function.update_self]
        omega
      · simpa [goto, hj] using hs j
  | pushBack child hp hl =>
    by_cases hj : j = i
    · subst hj
      simp only [pushBack, goto, Function.update_self, List.length_append, List.length_singleton]
      omega
    · simpa [pushBack, goto, hj] using hs j
  | _ => exact hs j

theorem Current.congr {j : Fin n} (h : s.Current j) (hp : t.phase j = s.phase j)
    (hc : t.counter = s.counter) : t.Current j := by
  simpa only [Current, countedTo, hp, hc] using h

/-- The worker that changes a slot becomes current; other steps keep a current worker so. -/
theorem current_step (h : Steps s i t) (hs : ∃ j, s.Current j) : ∃ j, t.Current j := by
  obtain ⟨j, hj⟩ := hs
  have other : ∀ {p : Phase n τ} {u : Scheduler n τ}, j ≠ i → u.counter = s.counter →
      u.phase = Function.update s.phase i p → ∃ j, u.Current j := fun hne hc hu =>
    ⟨j, hj.congr (by rw [hu, Function.update_of_ne hne]) hc⟩
  cases h with
  | @load l k c hk hp =>
    by_cases hji : j = i
    · subst hji
      simp only [Current, hp] at hj
      refine ⟨j, ?_⟩
      simp only [Current, goto, Function.update_self]
      change _ = s.countedTo (k + 1)
      rw [countedTo_succ s hk, hj]
    · exact other hji rfl rfl
  | leave hp =>
    by_cases hji : j = i
    · subst hji
      simp only [Current, hp, countedTo_all] at hj
      exact ⟨j, by simpa only [Current, goto, Function.update_self] using hj.symm⟩
    · exact other hji rfl rfl
  | @search p hp hq =>
    refine ⟨i, ?_⟩
    simp only [Current, goto, Function.update_self]
    cases p <;> trivial
  | popFront v hp =>
    refine ⟨i, ?_⟩
    cases hv : s.taskQueue v with
    | nil => simp [popFront_nil hv, Current, goto, countedTo_zero]
    | cons c q => simp [popFront_cons hv, Current, goto]
  | pushBack child hp _ => exact ⟨i, by simp [pushBack, Current, goto]⟩
  | countAdd1 hp => exact ⟨i, by simp [countAdd1, Current, goto]⟩
  | countSub1 hp => exact ⟨i, by simp [countSub1, Current, goto, countedTo_zero]⟩

theorem inv_step (hs : s.Inv) {l : Fin n × Action n τ} (h : step s l = some t) : t.Inv := by
  have hc := steps_of_workerStep h
  exact ⟨balance_step hc hs.balance, tasks_step hc hs.tasks, bounded_step hc hs.bounded,
    fun hn => current_step hc (hs.current hn)⟩

end Scheduler

/--
The initial queues of the workers. Each queue is an array of pointers, and all
arrays lie in one 64-bit address space.
-/
structure Distribution (n : ℕ) (τ : Type*) where
  taskQueue : Fin n → List τ
  bounded : ∀ i, (taskQueue i).length ≤ workerTaskQueueSize
  fits : n * (workerTaskQueueSize * 8) ≤ 2 ^ 64

namespace Distribution

variable (d : Distribution n τ)

theorem inv_prepared : (prepared d.taskQueue).Inv where
  balance := by simp [prepared]
  tasks := by
    simp only [prepared, Phase.inHand_total, Finset.sum_const_zero, add_zero, Multiset.coe_nil,
      zero_add, Fin.sum_univ_def]
    induction List.finRange n with
    | nil => rfl
    | cons i l ih => simp [← Multiset.coe_add, ih]
  bounded := d.bounded
  current hn := ⟨⟨0, hn⟩, by simp [Scheduler.Current, prepared, Scheduler.countedTo_zero]⟩

include d in
theorem queue_eq_nil {q : Fin n → List τ} (hq : ∀ i, (q i).length ≤ workerTaskQueueSize)
    (h : ∑ i, ((q i).length : BitVec 64) = 0) (i : Fin n) : q i = [] := by
  have hle : ∑ i, (q i).length ≤ n * workerTaskQueueSize := by
    simpa using Finset.sum_le_sum fun i (_ : i ∈ Finset.univ) => hq i
  have hfits := d.fits
  have hlt : ∑ i, (q i).length < 2 ^ 64 := by unfold workerTaskQueueSize at *; omega
  rw [← Nat.cast_sum] at h
  have h0 : ∑ i, (q i).length = 0 := by
    have hz := congrArg BitVec.toNat h
    simp only [BitVec.natCast_eq_ofNat, BitVec.toNat_ofNat, Nat.mod_eq_of_lt hlt] at hz
    exact hz
  exact List.length_eq_zero_iff.mp (Finset.sum_eq_zero_iff.mp h0 i (Finset.mem_univ i))

/--
When all worker threads have returned, every task that was ever added has been
handled once and every queue is empty.
-/
theorem handled_of_returned {s : Scheduler n τ}
    (hr : Transition.Reaches step (prepared d.taskQueue) s)
    (hret : ∀ i, s.phase i = .returned) :
    s.handled.Perm s.added ∧ ∀ i, s.taskQueue i = [] := by
  have hs : s.Inv := hr.invariant (fun _ _ _ h hst => Scheduler.inv_step h hst) d.inv_prepared
  have hempty : ∀ i, s.taskQueue i = [] := by
    intro i
    obtain ⟨j, hj⟩ := hs.current (Nat.zero_lt_of_lt i.isLt)
    have hzero : ∑ j, s.counter j = 0 := by simpa only [Scheduler.Current, hret j] using hj
    have hb := hs.balance
    simp only [hret, hzero, show (Phase.returned : Phase n τ).slack = 0 from rfl,
      Finset.sum_const_zero, add_zero] at hb
    exact d.queue_eq_nil hs.bounded hb.symm i
  refine ⟨?_, hempty⟩
  have ht := hs.tasks
  simp only [hempty, hret, show (Phase.returned : Phase n τ).inHand = 0 from rfl,
    Multiset.coe_nil, Finset.sum_const_zero, add_zero] at ht
  exact (Multiset.coe_eq_coe.mp ht).symm

end Distribution

/-- Worker 0 starts with one task. -/
def oneTask : Distribution 2 ℕ where
  taskQueue i := if i = 0 then [0] else []
  bounded := by decide
  fits := by decide

/-- Worker 1 steals the child before its count, sums to zero and leaves while 0 is in hand. -/
def earlyLeave : List (Fin 2 × Action 2 ℕ) :=
  [(0, .load), (0, .load), (0, .test), (0, .nextTask),
    (1, .load), (1, .load), (1, .test), (1, .nextTask),
    (1, .load), (1, .load), (1, .test), (1, .getVictimId 0),
    (0, .addTask 1), (1, .offerTask), (1, .finish), (1, .load), (1, .load), (1, .test)]

def lateLeave : List (Fin 2 × Action 2 ℕ) :=
  [(0, .count), (0, .finish), (0, .load), (0, .load), (0, .test)]

/-- A false zero occurs, and the tasks are all handled nevertheless. -/
theorem handled_of_returned_earlyLeave :
    (∃ s, Transition.run step (prepared oneTask.taskQueue) earlyLeave = some s ∧
      s.phase 1 = .returned ∧ s.phase 0 = .addTask 0) ∧
    ∃ s, Transition.run step (prepared oneTask.taskQueue) (earlyLeave ++ lateLeave) = some s ∧
      (∀ i, s.phase i = .returned) ∧ s.handled.Perm s.added ∧ ∀ i, s.taskQueue i = [] := by
  refine ⟨⟨_, rfl, rfl, rfl⟩, _, rfl, by decide, ?_⟩
  exact oneTask.handled_of_returned (.of_run (l := earlyLeave ++ lateLeave) rfl) (by decide)

end InetLisp.WorkParallelly
