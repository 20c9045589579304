import InetLisp.Core.AddTask
import InetLisp.Core.WorkParallelly
import InetLisp.Lib.Deal
import InetLisp.Lib.Loop

/-! # Distributing the tasks of the loader

`worker_work_parallelly` makes one worker fewer than there are processors, and
`scheduler_prepare` deals the tasks of the loader to the workers in turn.
-/

namespace InetLisp.SchedulerPrepare

open Lib Queue
open AddTask (sizeExponent sizeExponent_lt)

structure Worker (τ : Type) where
  id : ℕ
  taskQueue : Queue τ

structure Scheduler (τ : Type) where
  workerArray : List (Worker τ)
  statsCounter : List ℤ

inductive Trap where
  | divideByZero
  /-- `array_get` beyond the end, and its result is used. -/
  | nullPointer
  deriving DecidableEq, Repr

variable {τ : Type}

/-- `worker_new` for the number of a worker -/
def workerNew (null : τ) (id : ℕ) : Worker τ :=
  ⟨id, .new (BitVec.ofNat 64 (2 ^ sizeExponent)) 0 (List.replicate (2 ^ sizeExponent) null)⟩

/-- `scheduler_new`, which calls `stats_counter_new` -/
def schedulerNew (null : τ) (workerCount : ℕ) : Scheduler τ where
  workerArray := (List.range workerCount).map (workerNew null)
  statsCounter := List.replicate workerCount 0

namespace Scheduler

def workerCount (self : Scheduler τ) : ℕ := self.workerArray.length

def taskCountAdd1 (self : Scheduler τ) (id : ℕ) : Except Trap (Scheduler τ) :=
  match self.statsCounter[id]? with
  | some count => .ok { self with statsCounter := self.statsCounter.set id (count + 1) }
  | none => .error .nullPointer

/-- `worker_add_task` for the worker at an index; the answer of the queue is not looked at. -/
def workerAddTask (self : Scheduler τ) (index : ℕ) (task : τ) : Except Trap (Scheduler τ) :=
  match self.workerArray[index]? with
  | some worker =>
    let worker := { worker with taskQueue := (worker.taskQueue.pushBack task).1 }
    { self with workerArray := self.workerArray.set index worker }.taskCountAdd1 worker.id
  | none => .error .nullPointer

end Scheduler

/-- The loop of `scheduler_prepare`; `taskQueue` is that of the loader. -/
structure State (τ : Type) where
  taskQueue : Queue τ
  scheduler : Scheduler τ
  cursor : ℕ
  returned : Bool

namespace State

def more (s : State τ) : Bool := !s.returned

/-- One round of `scheduler_prepare`. -/
def step (s : State τ) : Except Trap (State τ) :=
  match s.taskQueue.popFront with
  | (taskQueue, none) => .ok { s with taskQueue, returned := true }
  | (taskQueue, some task) =>
    if s.scheduler.workerCount = 0 then .error .divideByZero
    else (s.scheduler.workerAddTask (s.cursor % s.scheduler.workerCount) task).map fun scheduler =>
      { s with taskQueue, scheduler, cursor := s.cursor + 1 }

end State

/-- The worker count of `worker_work_parallelly`, computed in a `size_t` -/
def workerCount (processorCount : BitVec 64) : ℕ := (processorCount - 1).toNat

/-- `worker_work_parallelly`, up to its call of `scheduler_prepare` -/
def start (null : τ) (processorCount : BitVec 64) (taskQueue : Queue τ) : State τ where
  taskQueue := taskQueue
  scheduler := schedulerNew null (workerCount processorCount)
  cursor := 0
  returned := false

/-- The queues of `count` workers hold tasks that are dealt in turn, and they are counted. -/
structure Distributed (count : ℕ) (tasks : List τ) (scheduler : Scheduler τ) : Prop where
  workerCount : scheduler.workerCount = count
  worker : ∀ i < count, ∃ worker, scheduler.workerArray[i]? = some worker ∧ worker.id = i ∧
    Holds sizeExponent worker.taskQueue (deal count i tasks)
  statsCounter : scheduler.statsCounter =
    (List.range count).map fun i => ((deal count i tasks).length : ℤ)

/-- `scheduler_prepare` returns, with every task dealt once and counted, and some worker for it. -/
def Prepares (null : τ) (processorCount : BitVec 64) (taskQueue : Queue τ) (tasks : List τ) :
    Prop :=
  ∃ s, Ends State.more State.step (start null processorCount taskQueue) (.ok s) ∧
    Holds sizeExponent s.taskQueue [] ∧
    Distributed (workerCount processorCount) tasks s.scheduler ∧
    (tasks ≠ [] → 0 < s.scheduler.workerCount) ∧
    ∑ i ∈ Finset.range s.scheduler.workerCount,
      (deal s.scheduler.workerCount i tasks : Multiset τ) = tasks ∧
    s.scheduler.statsCounter.sum = tasks.length

variable {null task : τ} {n : BitVec 64} {count : ℕ} {tasks done : List τ} {self : Scheduler τ}
  {s : State τ} {q : Queue τ}

theorem Distributed.schedulerNew (null : τ) (count : ℕ) :
    Distributed count [] (schedulerNew null count) where
  workerCount := by simp [SchedulerPrepare.schedulerNew, Scheduler.workerCount]
  worker := by
    intro i hi
    have hnew := Holds.new (k := sizeExponent) (0 : BitVec 64) (List.length_replicate (a := null))
    exact ⟨workerNew null i, by simp [SchedulerPrepare.schedulerNew, hi], rfl, hnew⟩
  statsCounter := by
    simp [SchedulerPrepare.schedulerNew, List.map_const']

theorem Distributed.workerAddTask (h : Distributed count done self) (hc : 0 < count)
    (hl : done.length < 2 ^ sizeExponent) (task : τ) :
    ∃ self', self.workerAddTask (done.length % self.workerCount) task = .ok self' ∧
      Distributed count (done ++ [task]) self' := by
  obtain ⟨hcount, hworker, hcounter⟩ := h
  have hi : done.length % count < count := Nat.mod_lt _ hc
  obtain ⟨w, hw, hid, hq⟩ := hworker _ hi
  obtain ⟨q, hpush, hq'⟩ := hq.pushBack sizeExponent_lt task (length_deal_le.trans_lt hl)
  have hlen : done.length % count < self.statsCounter.length := by simpa [hcounter] using hi
  have hat : self.statsCounter[w.id]? =
      some ((deal count (done.length % count) done).length : ℤ) := by
    rw [hcounter, hid]
    simp [hi]
  refine ⟨⟨self.workerArray.set (done.length % count) { w with taskQueue := q },
    self.statsCounter.set w.id ((deal count (done.length % count) done).length + 1)⟩, ?_, ?_⟩
  · rw [Scheduler.workerAddTask, hcount, hw]
    simp only [hpush, Scheduler.taskCountAdd1, hat]
  · constructor
    · exact List.length_set.trans hcount
    · intro j hj
      rcases eq_or_ne j (done.length % count) with rfl | hne
      · refine ⟨{ w with taskQueue := q }, ?_, hid, ?_⟩
        · exact List.getElem?_set_self (hcount.symm ▸ hi)
        · rw [deal_snoc, if_pos rfl]
          exact hq'
      · obtain ⟨v, hv, hvid, hvq⟩ := hworker j hj
        refine ⟨v, (List.getElem?_set_ne hne.symm).trans hv, hvid, ?_⟩
        rw [deal_snoc, if_neg hne.symm, List.append_nil]
        exact hvq
    · apply List.ext_getElem
      · simp [hcounter]
      · intro j hj _
        simp only [List.getElem_set, hid, hcounter, List.getElem_map, List.getElem_range, deal_snoc,
          List.length_append]
        rcases eq_or_ne (done.length % count) j with rfl | hne
        · simp
        · simp [hne]

theorem prepares_from {rest : List τ} (hc : 0 < count) (hq : Holds sizeExponent s.taskQueue rest)
    (h : Distributed count done s.scheduler) (hs : s.cursor = done.length)
    (hr : s.returned = false) (hl : (done ++ rest).length ≤ 2 ^ sizeExponent) :
    ∃ t, Ends State.more State.step s (.ok t) ∧ Holds sizeExponent t.taskQueue [] ∧
      Distributed count (done ++ rest) t.scheduler := by
  have hmore : s.more = true := by rw [State.more, hr]; rfl
  induction rest generalizing s done with
  | nil =>
    obtain ⟨q, hpop, hh⟩ := hq.popFront_nil sizeExponent_lt
    have hstep : s.step = .ok { s with taskQueue := q, returned := true } := by
      rw [State.step, hpop]
    refine ⟨_, .of_next ⟨hmore, hstep⟩ (.of_not_more rfl), hh, ?_⟩
    rw [List.append_nil]
    exact h
  | cons task rest ih =>
    obtain ⟨q, hpop, hh⟩ := hq.popFront sizeExponent_lt
    rw [List.length_append, List.length_cons] at hl
    obtain ⟨self, hself, hd⟩ := h.workerAddTask hc (by omega) task
    have hne : s.scheduler.workerCount ≠ 0 := by rw [h.workerCount]; omega
    have hstep : s.step = .ok { s with
        taskQueue := q, scheduler := self, cursor := s.cursor + 1 } := by
      rw [State.step, hpop]
      simp only [if_neg hne, hs, hself]
      rfl
    obtain ⟨t, ht, hempty, hall⟩ := ih (s := { s with
      taskQueue := q, scheduler := self, cursor := s.cursor + 1 }) hh hd
      (by simp [hs]) hr (by simp only [List.length_append, List.length_singleton]; omega) hmore
    exact ⟨t, ht.of_next ⟨hmore, hstep⟩, hempty, by simpa using hall⟩

theorem Distributed.sum_statsCounter (h : Distributed count tasks self)
    (hc : tasks ≠ [] → 0 < count) : self.statsCounter.sum = tasks.length := by
  rw [h.statsCounter]
  rcases Nat.eq_zero_or_pos count with rfl | hpos
  · obtain rfl : tasks = [] := by
      by_contra hne
      exact absurd (hc hne) (lt_irrefl 0)
    rfl
  · have hsum : ((List.range count).map fun i => ((deal count i tasks).length : ℤ)).sum =
        ∑ i ∈ Finset.range count, ((deal count i tasks).length : ℤ) := rfl
    rw [hsum, ← Nat.cast_sum, sum_length_deal hpos]

/-- With no worker, the first task is a division by zero. -/
theorem ends_divideByZero (h : Holds sizeExponent q (task :: tasks)) :
    Ends State.more State.step (start null 1 q) (.error .divideByZero) := by
  obtain ⟨q', hpop, -⟩ := h.popFront sizeExponent_lt
  refine .of_error rfl ?_
  rw [State.step]
  simp only [start, hpop]
  rfl

theorem workerCount_eq_zero_iff : workerCount n = 0 ↔ n = 1 := by
  rw [workerCount]
  bv_omega

/-- The tasks are distributed, unless there are any and there is one processor only. -/
theorem prepares_iff (null : τ) (n : BitVec 64) (h : Holds sizeExponent q tasks) :
    Prepares null n q tasks ↔ (n = 1 → tasks = []) := by
  constructor
  · rintro ⟨s, hs, -⟩ rfl
    cases tasks with
    | nil => rfl
    | cons task tasks => cases hs.unique (ends_divideByZero h)
  · intro hn
    have hpos (hne : tasks ≠ []) : 0 < workerCount n := by
      rw [Nat.pos_iff_ne_zero, Ne, workerCount_eq_zero_iff]
      exact fun h1 => hne (hn h1)
    suffices ∃ t, Ends State.more State.step (start null n q) (.ok t) ∧
        Holds sizeExponent t.taskQueue [] ∧ Distributed (workerCount n) tasks t.scheduler by
      obtain ⟨t, ht, hempty, hd⟩ := this
      have hcount := hd.workerCount
      refine ⟨t, ht, hempty, hd, fun hne => hcount ▸ hpos hne, ?_, hd.sum_statsCounter hpos⟩
      rw [hcount]
      cases tasks with
      | nil => simp
      | cons task tasks => exact sum_deal (hpos (List.cons_ne_nil _ _)) _
    cases tasks with
    | nil =>
      obtain ⟨q', hpop, hh⟩ := h.popFront_nil sizeExponent_lt
      have hstep : (start null n q).step =
          .ok { start null n q with taskQueue := q', returned := true } := by
        simp only [State.step, start, hpop]
      exact ⟨_, .of_next ⟨rfl, hstep⟩ (.of_not_more rfl), hh, .schedulerNew null _⟩
    | cons task tasks =>
      have hd : Distributed (workerCount n) [] (start null n q).scheduler := .schedulerNew null _
      exact prepares_from (hpos (List.cons_ne_nil _ _)) h hd rfl rfl h.length_le

/-- The queue of a loader that has added the tasks -/
def queueOf (tasks : List ℕ) : Queue ℕ :=
  tasks.foldl (fun q task => (q.pushBack task).1)
    (.new (BitVec.ofNat 64 (2 ^ sizeExponent)) 0 (List.replicate (2 ^ sizeExponent) 0))

theorem holds_queueOf {tasks : List ℕ} (h : tasks.length ≤ 2 ^ sizeExponent) :
    Holds sizeExponent (queueOf tasks) tasks := by
  induction tasks using List.reverseRecOn with
  | nil => exact Holds.new (0 : BitVec 64) (List.length_replicate (a := 0))
  | append_singleton tasks task ih =>
    rw [List.length_append, List.length_singleton] at h
    obtain ⟨q, hpush, hq⟩ := (ih (by omega)).pushBack sizeExponent_lt task (by omega)
    rw [queueOf, List.foldl_append, List.foldl_cons, List.foldl_nil, ← queueOf, hpush]
    exact hq

theorem holds_queueOf_three : Holds sizeExponent (queueOf [7, 8, 9]) [7, 8, 9] :=
  holds_queueOf (by decide)

/-- Three processors make two workers, and the first one's turn comes again. -/
theorem prepares_three : Holds sizeExponent (queueOf [7, 8, 9]) [7, 8, 9] ∧
    Prepares 0 3 (queueOf [7, 8, 9]) [7, 8, 9] ∧ workerCount 3 = 2 ∧
    deal 2 0 [7, 8, 9] = [7, 9] ∧ deal 2 1 [7, 8, 9] = [8] :=
  ⟨holds_queueOf_three, (prepares_iff 0 3 holds_queueOf_three).mpr (by decide), rfl, rfl, rfl⟩

theorem holds_queueOf_one : Holds sizeExponent (queueOf [7]) [7] := holds_queueOf (by decide)

/-- One processor makes no worker. -/
theorem not_prepares_one : Holds sizeExponent (queueOf [7]) [7] ∧
    ¬ Prepares 0 1 (queueOf [7]) [7] := by
  refine ⟨holds_queueOf_one, ?_⟩
  rintro ⟨s, hs, -⟩
  cases hs.unique (ends_divideByZero holds_queueOf_one)

/-- What the workers are given is what their threads start from. -/
theorem Distributed.exists_distribution (h : Distributed count tasks self)
    (hl : tasks.length ≤ workerTaskQueueSize) (hf : count * (workerTaskQueueSize * 8) ≤ 2 ^ 64) :
    ∃ d : WorkParallelly.Distribution count τ, ∀ i : Fin count,
      (∃ worker, self.workerArray[i.val]? = some worker ∧
        Holds sizeExponent worker.taskQueue (d.taskQueue i)) ∧
      self.statsCounter[i.val]? = some ((d.taskQueue i).length : ℤ) := by
  refine ⟨⟨fun i => deal count i tasks, fun i => length_deal_le.trans hl, hf⟩, fun i => ?_⟩
  obtain ⟨w, hw, -, hq⟩ := h.worker i i.isLt
  refine ⟨⟨w, hw, hq⟩, ?_⟩
  rw [h.statsCounter]
  simp

end InetLisp.SchedulerPrepare
