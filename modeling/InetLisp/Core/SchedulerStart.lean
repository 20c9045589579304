import InetLisp.Lib.Sums
import InetLisp.Lib.Transition
import Mathlib.Tactic.Ring

/-! # Counting tasks while threads are started

Each worker counts tasks in a slot of its own by a load and a store. When it adds
a task it takes the slot from the worker; when it has finished one it takes the
slot from its thread, whose id the creator sets after the thread was started.
-/

namespace InetLisp.SchedulerStart

/-- Where the creator is in `scheduler_start`, in the call for worker `i`. -/
inductive Creator where
  /-- About to start the thread. -/
  | create (i : ℕ)
  /-- About to record the thread in the pool. -/
  | record (i : ℕ)
  /-- About to set the id of the thread. -/
  | setId (i id : ℕ)
  deriving DecidableEq, Repr

inductive Activity where
  | absent
  /-- Looking for a task. -/
  | idle
  | handle
  /-- In `worker_add_task`, after the push. -/
  | addLoad
  | addStore (count : ℤ)
  /-- Behind `worker_handle_task`; about to read the id of the thread. -/
  | readId
  | subLoad (id : ℕ)
  | subStore (id : ℕ) (count : ℤ)
  deriving DecidableEq, Repr

/-- The last three fields are ghosts; a write is recorded with the worker and the slot. A slot of
the counter is an `int64_t`, which holds this number modulo `2 ^ 64`: it is added to and summed, and
no step tests it. -/
structure State where
  creator : Creator
  threadArrayLength : ℕ
  id : ℕ → ℕ
  activity : ℕ → Activity
  counter : ℕ → ℤ
  queued : ℕ
  added : ℕ
  finished : ℕ
  writes : List (ℕ × ℕ)

inductive Action where
  | creator
  /-- A worker takes a task, from its own queue or another one. -/
  | take (i : ℕ)
  /-- The task at hand adds a task. -/
  | add (i : ℕ)
  /-- The task at hand is done. -/
  | done (i : ℕ)
  /-- Go on with the counting. -/
  | count (i : ℕ)
  deriving DecidableEq, Repr

namespace State

def goto (s : State) (i : ℕ) (x : Activity) : State :=
  { s with activity := Function.update s.activity i x }

/-- Worker `i` stores into a slot. -/
def store (s : State) (i slot : ℕ) (count : ℤ) : State :=
  { s with
    counter := Function.update s.counter slot count
    writes := (i, slot) :: s.writes }

/-- `scheduler_start` with `n` workers, one step. -/
def create (n : ℕ) (s : State) : Option State :=
  match s.creator with
  | .create i =>
    if i < n then
      some ({ s with
        creator := .record i
        id := Function.update s.id i 0 }.goto i .idle)
    else none
  | .record i =>
    some { s with
      creator := .setId i s.threadArrayLength
      threadArrayLength := s.threadArrayLength + 1 }
  | .setId i id =>
    some { s with
      creator := .create (i + 1)
      id := Function.update s.id i id }

/-- `stats_counter_per_thread_add1` and `stats_counter_per_thread_sub1`. -/
def count (s : State) (i : ℕ) : Option State :=
  match s.activity i with
  | .addLoad => some (s.goto i (.addStore (s.counter i)))
  | .addStore c => some ({ s with added := s.added + 1 }.store i i (c + 1) |>.goto i .handle)
  | .readId => some (s.goto i (.subLoad (s.id i)))
  | .subLoad id => some (s.goto i (.subStore id (s.counter id)))
  | .subStore id c =>
    some ({ s with finished := s.finished + 1 }.store i id (c - 1) |>.goto i .idle)
  | _ => none

def step (n : ℕ) (s : State) : Action → Option State
  | .creator => s.create n
  | .take i =>
    if s.activity i = .idle ∧ 0 < s.queued then
      some ({ s with queued := s.queued - 1 }.goto i .handle)
    else none
  | .add i =>
    if s.activity i = .handle then some ({ s with queued := s.queued + 1 }.goto i .addLoad)
    else none
  | .done i => if s.activity i = .handle then some (s.goto i .readId) else none
  | .count i => s.count i

end State

/-- `scheduler_prepare` has distributed tasks to `n` workers; no thread is started. -/
def start (n : ℕ) (tasks : ℕ → ℕ) : State where
  creator := .create 0
  threadArrayLength := 0
  id := fun _ => 0
  activity := fun _ => .absent
  counter := fun i => tasks i
  queued := ∑ i ∈ Finset.range n, tasks i
  added := ∑ i ∈ Finset.range n, tasks i
  finished := 0
  writes := []

/-- Each slot is written by its worker only, and nothing that was counted is lost. -/
structure Counted (n : ℕ) (s : State) : Prop where
  writer : ∀ i slot, (i, slot) ∈ s.writes → i = slot
  total : ∑ i ∈ Finset.range n, s.counter i = s.added - s.finished

/-- The creator has set the ids of the threads before this one. -/
def Creator.next : Creator → ℕ
  | create i | record i | setId i _ => i

/-- No thread reads its id before the creator has set it; that of worker 0 is 0 from the start. -/
def idSet (s : State) : Action → Bool
  | .count i => s.activity i = .readId → i = 0 ∨ i < s.creator.next
  | _ => true

/-- The threads before this one are started. -/
def Creator.started : Creator → ℕ
  | create i => i
  | record i | setId i _ => i + 1

/-- The call for worker `i` has seen `i` threads in the pool. -/
def Creator.Knows (length : ℕ) : Creator → Prop
  | create i | record i => length = i
  | setId i id => length = i + 1 ∧ id = i

/-- A worker counts in its own slot, and the slot has not changed since it was loaded. -/
def Activity.Knows (counter : ℕ → ℤ) (i : ℕ) : Activity → Prop
  | addStore c => c = counter i
  | subLoad id => id = i
  | subStore id c => id = i ∧ c = counter i
  | _ => True

theorem Activity.Knows.of_eq {counter counter' : ℕ → ℤ} {i : ℕ} {x : Activity}
    (h : x.Knows counter i) (he : counter' i = counter i) : x.Knows counter' i := by
  cases x with
  | addStore c => exact Eq.trans h he.symm
  | subStore id c => exact ⟨h.1, h.2.trans he.symm⟩
  | _ => exact h

structure Inv (n : ℕ) (s : State) : Prop where
  started : s.creator.started ≤ n
  absent : ∀ i, s.creator.started ≤ i → s.activity i = .absent
  creator : s.creator.Knows s.threadArrayLength
  id : ∀ i, i < s.creator.next → s.id i = i
  id_zero : s.id 0 = 0
  knows : ∀ i, (s.activity i).Knows s.counter i
  counted : Counted n s

variable {n : ℕ} {s t : State} {i : ℕ}

theorem Inv.of_start (tasks : ℕ → ℕ) : Inv n (start n tasks) where
  started := Nat.zero_le _
  absent := fun _ _ => rfl
  creator := rfl
  id := by rintro i ⟨⟩
  id_zero := rfl
  knows := fun _ => trivial
  counted := ⟨by rintro i slot ⟨⟩, by simp [start]⟩

theorem Inv.lt (h : Inv n s) (hi : s.activity i ≠ .absent) : i < s.creator.started := by
  by_contra hn
  exact hi (h.absent i (Nat.le_of_not_lt hn))

theorem Inv.goto (h : Inv n s) (hi : s.activity i ≠ .absent) {x : Activity}
    (hx : x.Knows s.counter i) : Inv n (s.goto i x) := by
  refine { h with absent := fun j hj => ?_, knows := ?_, counted := ⟨h.counted.1, h.counted.2⟩ }
  · have hji : j ≠ i := by
      rintro rfl
      exact hi (h.absent j hj)
    exact (Function.update_of_ne hji _ _).trans (h.absent j hj)
  · exact (Function.forall_update_iff _ fun j (y : Activity) => y.Knows s.counter j).mpr
      ⟨hx, fun j _ => h.knows j⟩

/-- A worker stores into its own slot; what the others have loaded stays right. -/
theorem Inv.store (h : Inv n s) (hi : s.activity i ≠ .absent) {x : Activity} {c : ℤ}
    {added finished : ℕ} (hx : x.Knows (Function.update s.counter i c) i)
    (hc : c + (s.added - s.finished) = s.counter i + (added - finished)) :
    Inv n ({ s with added := added, finished := finished }.store i i c |>.goto i x) := by
  have hin : i ∈ Finset.range n := Finset.mem_range.mpr ((h.lt hi).trans_le h.started)
  refine { h with absent := fun j hj => ?_, knows := ?_, counted := ⟨?_, ?_⟩ }
  · have hji : j ≠ i := by
      rintro rfl
      exact hi (h.absent j hj)
    exact (Function.update_of_ne hji _ _).trans (h.absent j hj)
  · refine (Function.forall_update_iff _ fun j (y : Activity) =>
      y.Knows (Function.update s.counter i c) j).mpr ⟨hx, fun j hj => ?_⟩
    exact (h.knows j).of_eq (Function.update_of_ne hj _ _)
  · rintro j slot hm
    rcases List.mem_cons.mp hm with hm | hm
    · cases hm
      rfl
    · exact h.counted.writer j slot hm
  · have hs := Sums.sum_update_of_mem hin s.counter c
    have ht := h.counted.total
    change ∑ j ∈ Finset.range n, Function.update s.counter i c j = added - finished
    omega

theorem Inv.create (h : Inv n s) (ht : s.create n = some t) : Inv n t := by
  have hk := h.creator
  have habs := h.absent
  have hid := h.id
  have hst := h.started
  cases hc : s.creator with
  | create i =>
    simp only [State.create, hc] at ht
    rw [hc] at hk habs hid
    split at ht
    · rename_i hi
      cases ht
      refine { h with started := hi, creator := hk, absent := ?_, id := ?_, id_zero := ?_, knows := ?_
                      counted := ⟨h.counted.1, h.counted.2⟩ }
      · intro j hj
        have hji : j ≠ i := Nat.ne_of_gt hj
        exact (Function.update_of_ne hji _ _).trans (habs j (Nat.le_of_lt hj))
      · intro j hj
        have hji : j ≠ i := Nat.ne_of_lt hj
        exact (Function.update_of_ne hji _ _).trans (hid j hj)
      · change Function.update s.id i 0 0 = 0
        rw [Function.update_apply, h.id_zero, ite_self]
      · exact (Function.forall_update_iff _ fun j (y : Activity) => y.Knows s.counter j).mpr
          ⟨trivial, fun j _ => h.knows j⟩
    · cases ht
  | record i =>
    simp only [State.create, hc, Option.some.injEq] at ht
    subst ht
    rw [hc] at hk habs hid hst
    obtain rfl : s.threadArrayLength = i := hk
    exact { h with
      started := hst, absent := habs, creator := ⟨rfl, rfl⟩, id := hid
      counted := ⟨h.counted.1, h.counted.2⟩ }
  | setId i id =>
    simp only [State.create, hc, Option.some.injEq] at ht
    subst ht
    rw [hc] at hk habs hid hst
    obtain ⟨hl, rfl⟩ := hk
    refine { h with
      started := hst, absent := habs, creator := hl, id := ?_, id_zero := ?_
      counted := ⟨h.counted.1, h.counted.2⟩ }
    · intro j hj
      change Function.update s.id id id j = j
      rw [Function.update_apply]
      split
      · exact Eq.symm ‹_›
      · exact hid j (lt_of_le_of_ne (Nat.le_of_lt_succ hj) ‹_›)
    · change Function.update s.id id id 0 = 0
      rw [Function.update_apply]
      split
      · exact Eq.symm ‹_›
      · exact h.id_zero

theorem Inv.count (h : Inv n s) (hr : s.activity i = .readId → i = 0 ∨ i < s.creator.next)
    (ht : s.count i = some t) : Inv n t := by
  have hk := h.knows i
  cases hi : s.activity i with
  | absent | idle | handle => simp [State.count, hi] at ht
  | addLoad =>
    simp only [State.count, hi, Option.some.injEq] at ht
    exact ht ▸ h.goto (by rw [hi]; nofun) rfl
  | addStore c =>
    simp only [State.count, hi, Option.some.injEq] at ht
    rw [hi] at hk
    obtain rfl : c = s.counter i := hk
    exact ht ▸ h.store (by rw [hi]; nofun) trivial (by push_cast; ring)
  | readId =>
    simp only [State.count, hi, Option.some.injEq] at ht
    have hid : s.id i = i := by
      rcases hr hi with rfl | hlt
      · exact h.id_zero
      · exact h.id i hlt
    exact ht ▸ h.goto (by rw [hi]; nofun) hid
  | subLoad id =>
    simp only [State.count, hi, Option.some.injEq] at ht
    rw [hi] at hk
    obtain rfl : id = i := hk
    exact ht ▸ h.goto (by rw [hi]; nofun) ⟨rfl, rfl⟩
  | subStore id c =>
    simp only [State.count, hi, Option.some.injEq] at ht
    rw [hi] at hk
    obtain ⟨rfl, rfl⟩ := hk
    exact ht ▸ h.store (by rw [hi]; nofun) trivial (by push_cast; ring)

theorem Inv.step {act : Action} (h : Inv n s)
    (ht : Transition.restrict idSet (State.step n) s act = some t) : Inv n t := by
  obtain ⟨hc, ht⟩ := Transition.restrict_eq_some.mp ht
  cases act with
  | creator => exact h.create ht
  | take i =>
    simp only [State.step] at ht
    split at ht
    · rename_i hi
      cases ht
      have h' : Inv n { s with queued := s.queued - 1 } :=
        { h with counted := ⟨h.counted.1, h.counted.2⟩ }
      exact h'.goto (by rw [hi.1]; nofun) trivial
    · cases ht
  | add i =>
    simp only [State.step] at ht
    split at ht
    · rename_i hi
      cases ht
      have h' : Inv n { s with queued := s.queued + 1 } :=
        { h with counted := ⟨h.counted.1, h.counted.2⟩ }
      exact h'.goto (by rw [hi]; nofun) trivial
    · cases ht
  | done i =>
    simp only [State.step] at ht
    split at ht
    · rename_i hi
      cases ht
      exact h.goto (by rw [hi]; nofun) trivial
    · cases ht
  | count i => exact h.count (of_decide_eq_true hc) ht

/-- While no thread reads its id too early, the counters are right. -/
theorem counted_of_run {tasks : ℕ → ℕ} {l : List Action}
    (h : Transition.run (Transition.restrict idSet (State.step n)) (start n tasks) l = some s) :
    Counted n s :=
  ((Transition.Reaches.of_run h).invariant (P := Inv n) (fun _ _ _ hs ht => hs.step ht)
    (.of_start tasks)).counted

/-- Two workers finish a task each, one before the other is started. -/
theorem counted_of_run_two :
    Counted 2 ((Transition.run (Transition.restrict idSet (State.step 2)) (start 2 fun _ => 1)
      [.creator, .take 0, .done 0, .count 0, .creator, .creator, .creator, .count 0, .count 0,
        .creator, .creator, .take 1, .done 1, .count 1, .count 1, .count 1]).get (by decide)) :=
  counted_of_run (Option.some_get _).symm

/--
Worker 1 is done with a task before its creator has set its id, and counts in slot 0
at the same time as worker 0.
-/
def early : List Action :=
  [.creator, .creator, .creator, .creator, .take 0, .take 1, .done 0, .done 1,
    .count 0, .count 1, .count 0, .count 1, .count 0, .count 1]

/-- Both tasks are finished, one is still counted. -/
theorem not_counted : ¬ ∀ l s, Transition.run (State.step 2) (start 2 fun _ => 1) l = some s →
    Counted 2 s := by
  intro h
  have hs : (Transition.run (State.step 2) (start 2 fun _ => 1) early).isSome := by decide
  have hc := h early _ (Option.some_get hs).symm
  have ht : ¬ (1 : ℤ) = 2 - 2 := by decide
  exact ht hc.total

end InetLisp.SchedulerStart
