import InetLisp.Core.WorkParallelly
import InetLisp.Lib.Forever
import Mathlib.Order.Bounds.Basic
import Mathlib.Data.Set.Finite.Lattice

/-! # Workers come to an end

A worker that has not returned can always go on, also a single one, which would
look for a victim forever. If the workers take turns and draw each other as
victims, an infinite run creates tasks without end. From some time on nothing is
added nor handled otherwise: then no worker has a task in hand, the queues and the
slots stay as they are, and either some worker with an exact sum steals a task that
is left, or every worker sums up to zero.
-/

namespace InetLisp.WorkParallelly

variable {n : ℕ} {τ : Type*}

/-- In `worker_steal_task`. -/
def Phase.Stealing : Phase n τ → Prop
  | .total .workerStealTask _ _ => True
  | .getVictimId => True
  | .offerTask _ => True
  | _ => False

/-- One step of worker `i`, with the action that it is. -/
inductive Moves (s : Scheduler n τ) (i : Fin n) : Action n τ → Scheduler n τ → Prop where
  | load {l k c} (hk : k < n) (hp : s.phase i = .total l k c) :
      Moves s i .load (s.goto i (.total l (k + 1) (c + s.counter ⟨k, hk⟩)))
  | leave {l} (hp : s.phase i = .total l n 0) : Moves s i .test (s.goto i .returned)
  | turn {c} (hp : s.phase i = .total .workerThreadFn n c) (hc : c ≠ 0) :
      Moves s i .test (s.goto i .nextTask)
  | steal {c} (hp : s.phase i = .total .workerStealTask n c) (hc : c ≠ 0) :
      Moves s i .test (s.goto i .getVictimId)
  | nextTask (hp : s.phase i = .nextTask) : Moves s i .nextTask (s.popFront i i)
  | draw {v} (hp : s.phase i = .getVictimId) (hv : v ≠ i) :
      Moves s i (.getVictimId v) (s.goto i (.offerTask v))
  | offerTask {v} (hp : s.phase i = .offerTask v) : Moves s i .offerTask (s.popFront i v)
  | addTask {t} (child : τ) (hp : s.phase i = .handleTask t) :
      Moves s i (.addTask child) (s.pushBack i t child)
  | count {t} (hp : s.phase i = .addTask t) : Moves s i .count (s.countAdd1 i t)
  | finish {t} (hp : s.phase i = .handleTask t) : Moves s i .finish (s.countSub1 i t)

theorem moves_of_workerStep {s t : Scheduler n τ} {i : Fin n} {a : Action n τ}
    (h : workerStep s i a = some t) : Moves s i a t := by
  unfold workerStep at h
  split at h
  case h_1 l k c hp =>
    split at h <;> cases h
    exact .load _ hp
  case h_2 l k c hp =>
    split at h
    · subst k
      split at h
      · subst c; cases h; exact .leave hp
      · cases l <;> cases h
        · exact .turn hp ‹_›
        · exact .steal hp ‹_›
    · cases h
  case h_3 hp => cases h; exact .nextTask hp
  case h_4 v hp =>
    split at h <;> cases h
    exact .draw hp ‹_›
  case h_5 v hp => cases h; exact .offerTask hp
  case h_6 child t hp =>
    split at h <;> cases h
    exact .addTask child hp
  case h_7 t hp => cases h; exact .count hp
  case h_8 t hp => cases h; exact .finish hp
  case h_9 => cases h

namespace Scheduler

variable {s t : Scheduler n τ} {i j : Fin n} {a : Action n τ}

@[simp] theorem phase_goto (p : Phase n τ) : (s.goto i p).phase i = p := by simp [goto]

theorem phase_goto_of_ne {p : Phase n τ} (h : j ≠ i) : (s.goto i p).phase j = s.phase j := by
  simp [goto, h]

theorem phase_popFront_of_ne (v : Fin n) (h : j ≠ i) : (s.popFront i v).phase j = s.phase j := by
  unfold popFront
  split
  · exact phase_goto_of_ne h
  · exact phase_goto_of_ne h

theorem phase_of_ne (h : Moves s i a t) (hj : j ≠ i) : t.phase j = s.phase j := by
  cases h with
  | nextTask => exact phase_popFront_of_ne _ hj
  | offerTask => exact phase_popFront_of_ne _ hj
  | _ => exact phase_goto_of_ne hj

/-- What holds of each worker for itself, whatever the others do. -/
structure Orderly (s : Scheduler n τ) : Prop where
  inv : s.Inv
  scan : ∀ {i l k c}, s.phase i = .total l k c → k ≤ n
  /-- A worker steals only while its own queue is empty. -/
  steals : ∀ {i}, (s.phase i).Stealing → s.taskQueue i = []
  /-- A worker that is alone never draws a victim. -/
  company : ∀ {i}, s.phase i = .getVictimId → ∃ v, v ≠ i

theorem sum_counter (hb : s.Inv) (hf : ∀ i, (s.phase i).Free) :
    ∑ i, s.counter i = ∑ i, ((s.taskQueue i).length : BitVec 64) := by
  have h := hb.balance
  simp only [fun i => (hf i).slack, Finset.sum_const_zero, add_zero] at h
  exact h

namespace Orderly

theorem company_step (h : s.Orderly) (hm : Moves s i a t) (hj : t.phase j = .getVictimId) :
    ∃ v, v ≠ j := by
  by_contra hv
  push Not at hv
  obtain rfl : i = j := hv i
  have hold : s.phase i ≠ .getVictimId := fun he => absurd (h.company he) (by simpa using hv)
  cases hm with
  | @steal c hp hc =>
    -- the only worker has an exact sum, and nothing is there to be counted
    obtain ⟨k, hk⟩ := h.inv.current (Nat.zero_lt_of_lt i.isLt)
    obtain rfl := hv k
    have huniv : (Finset.univ : Finset (Fin n)) = {k} := by
      ext x
      simp [hv x]
    have hb := h.inv.balance
    simp only [huniv, Finset.sum_singleton, h.steals (by rw [hp]; trivial), hp, List.length_nil,
      Phase.slack_total] at hb
    simp only [Current, hp, countedTo_all, huniv, Finset.sum_singleton, hb] at hk
    exact hc (by simpa using hk)
  | nextTask hp =>
    unfold popFront at hj
    split at hj <;> simp at hj
  | offerTask hp =>
    unfold popFront at hj
    split at hj <;> simp at hj
  | _ => simp [pushBack, countAdd1, countSub1] at hj

theorem scan_step (h : s.Orderly) (hm : Moves s i a t) {l : Loop} {k : ℕ} {c : BitVec 64}
    (hj : t.phase j = .total l k c) : k ≤ n := by
  by_cases hji : j = i
  · subst j
    cases hm with
    | load hk hp =>
      simp only [phase_goto, Phase.total.injEq] at hj
      omega
    | nextTask hp =>
      unfold popFront at hj
      split at hj <;> simp at hj
      omega
    | offerTask hp =>
      unfold popFront at hj
      split at hj <;> simp at hj
      omega
    | finish hp =>
      simp only [countSub1, phase_goto, Phase.total.injEq] at hj
      omega
    | _ => simp [pushBack, countAdd1] at hj
  · rw [phase_of_ne hm hji] at hj
    exact h.scan hj

theorem popFront_eq_nil (h : s.Orderly) {v : Fin n} (hi : ((s.popFront i v).phase j).Stealing)
    (hs : j = i → s.taskQueue j = []) : (s.popFront i v).taskQueue j = [] := by
  cases hv : s.taskQueue v with
  | nil =>
    rw [popFront_nil hv] at hi ⊢
    by_cases hji : j = i
    · exact hs hji
    · rw [phase_goto_of_ne hji] at hi
      exact h.steals hi
  | cons c q =>
    rw [popFront_cons hv] at hi ⊢
    by_cases hji : j = i
    · subst j
      rw [phase_goto] at hi
      exact hi.elim
    · rw [phase_goto_of_ne hji] at hi
      have hj := h.steals hi
      have hjv : j ≠ v := by
        rintro rfl
        rw [hj] at hv
        cases hv
      simpa [goto, hjv] using hj

theorem steals_step (h : s.Orderly) (hm : Moves s i a t) (hj : (t.phase j).Stealing) :
    t.taskQueue j = [] := by
  have other : ∀ {p : Phase n τ}, ((s.goto i p).phase j).Stealing →
      (p.Stealing → (s.phase i).Stealing) → s.taskQueue j = [] := by
    intro p hp himp
    by_cases hji : j = i
    · subst j
      rw [phase_goto] at hp
      exact h.steals (himp hp)
    · rw [phase_goto_of_ne hji] at hp
      exact h.steals hp
  cases hm with
  | @load l k c hk hp => exact other hj fun he => by rw [hp]; cases l <;> exact he
  | leave hp => exact other hj False.elim
  | turn hp hc => exact other hj False.elim
  | steal hp hc => exact other hj fun _ => by rw [hp]; trivial
  | draw hp hv => exact other hj fun _ => by rw [hp]; trivial
  | nextTask hp =>
    apply h.popFront_eq_nil hj
    rintro rfl
    by_contra hne
    obtain ⟨c, q, hq⟩ := List.exists_cons_of_ne_nil hne
    rw [popFront_cons hq, phase_goto] at hj
    exact hj
  | offerTask hp => exact h.popFront_eq_nil hj fun he => h.steals (by rw [he, hp]; trivial)
  | addTask child hp =>
    by_cases hji : j = i
    · subst j
      simp only [pushBack, phase_goto] at hj
      exact hj.elim
    · have hs : (s.phase j).Stealing := by
        simpa [pushBack, goto, hji] using hj
      simpa [pushBack, goto, hji] using h.steals hs
  | count hp => exact other hj False.elim
  | finish hp => exact other hj False.elim

theorem step (h : s.Orderly) {l : Fin n × Action n τ}
    (hl : WorkParallelly.step s l = some t) : t.Orderly where
  inv := inv_step h.inv hl
  scan := h.scan_step (moves_of_workerStep hl)
  steals := h.steals_step (moves_of_workerStep hl)
  company := h.company_step (moves_of_workerStep hl)

end Orderly

end Scheduler

namespace Distribution

variable (d : Distribution n τ) {s : Scheduler n τ}

theorem orderly_prepared : (prepared d.taskQueue).Orderly where
  inv := d.inv_prepared
  scan h := by
    simp only [prepared, Phase.total.injEq] at h
    omega
  steals h := h.elim
  company h := by simp [prepared] at h

theorem orderly (h : Transition.Reaches step (prepared d.taskQueue) s) : s.Orderly :=
  h.invariant (fun _ _ _ hs hl => hs.step hl) d.orderly_prepared

end Distribution

/-- A worker without a task goes on, and finds none. -/
inductive Searches (s : Scheduler n τ) : Phase n τ → Phase n τ → Prop where
  | load {l k c} (hk : k < n) :
      Searches s (.total l k c) (.total l (k + 1) (c + s.counter ⟨k, hk⟩))
  | leave {l} : Searches s (.total l n 0) .returned
  | turn {c} (hc : c ≠ 0) : Searches s (.total .workerThreadFn n c) .nextTask
  | steal {c} (hc : c ≠ 0) : Searches s (.total .workerStealTask n c) .getVictimId
  | draw {v} : Searches s .getVictimId (.offerTask v)
  | nextTask : Searches s .nextTask (.total .workerStealTask 0 0)
  | offerTask {v} : Searches s (.offerTask v) (.total .workerStealTask 0 0)

/-- What has been read of the slots is in them. -/
def Phase.Exact (s : Scheduler n τ) : Phase n τ → Prop
  | .total _ k c => c = s.countedTo k
  | .returned => ∑ j, s.counter j = 0
  | _ => True

/-- How many steps a worker takes until it draws a victim, if it does not return. -/
def Phase.drawRank : Phase n τ → ℕ
  | .total .workerThreadFn k _ => 2 * n + 4 - k
  | .total .workerStealTask k _ => n + 1 - k
  | .nextTask => n + 2
  | .offerTask _ => n + 2
  | _ => 0

/-- How many steps a worker takes until it returns, if there is nothing to be counted. -/
def Phase.returnRank (s : Scheduler n τ) : Phase n τ → ℕ
  | .total _ k c => if c = s.countedTo k then n + 1 - k else 2 * n + 5 - k
  | .nextTask => n + 2
  | .offerTask _ => n + 2
  | .getVictimId => n + 3
  | _ => 0

namespace Searches

variable {s : Scheduler n τ} {P Q : Phase n τ}

theorem exact (h : Searches s P Q) (hP : P.Exact s) : Q.Exact s := by
  cases h with
  | load hk =>
    change _ = _ at hP
    rw [Phase.Exact, s.countedTo_succ hk, hP]
  | leave =>
    change 0 = _ at hP
    rw [Phase.Exact, ← s.countedTo_all, hP]
  | turn hc => trivial
  | steal hc => trivial
  | draw => trivial
  | nextTask => exact s.countedTo_zero.symm
  | offerTask => exact s.countedTo_zero.symm

theorem drawRank_lt (h : Searches s P Q) (hP : P ≠ .getVictimId) (hQ : Q ≠ .returned) :
    Q.drawRank < P.drawRank := by
  cases h with
  | @load l k c hk => cases l <;> simp only [Phase.drawRank] <;> omega
  | leave => exact (hQ rfl).elim
  | draw => exact (hP rfl).elim
  | _ => simp only [Phase.drawRank]; omega

theorem returnRank_lt (h : Searches s P Q) (hs : ∑ j, s.counter j = 0) (hQ : Q ≠ .returned) :
    Q.returnRank s < P.returnRank s := by
  cases h with
  | @load l k c hk =>
    have hiff : c + s.counter ⟨k, hk⟩ = s.countedTo (k + 1) ↔ c = s.countedTo k := by
      rw [s.countedTo_succ hk, add_left_inj]
    simp only [Phase.returnRank, hiff]
    split <;> omega
  | leave => exact (hQ rfl).elim
  | turn hc =>
    rw [← s.countedTo_all] at hs
    simp only [Phase.returnRank, hs, if_neg hc]
    omega
  | steal hc =>
    rw [← s.countedTo_all] at hs
    simp only [Phase.returnRank, hs, if_neg hc]
    omega
  | draw => simp only [Phase.returnRank]; omega
  | _ => simp only [Phase.returnRank, s.countedTo_zero, if_true]; omega

end Searches

open Transition

/-- Workers that take turns, and that draw one another as victims. -/
structure Fair (p : Forever (step (n := n) (τ := τ))) : Prop where
  /-- A worker that has not returned takes another step. -/
  turn : ∀ i k, (p.state k).phase i ≠ .returned → ∃ m ≥ k, (p.label m).1 = i
  /-- A worker that draws victims again and again draws every other worker at some time. -/
  draw : ∀ i v, v ≠ i → (∀ k, ∃ m ≥ k, ∃ u, p.label m = (i, .getVictimId u)) →
    ∀ k, ∃ m ≥ k, p.label m = (i, .getVictimId v)

/-- From some time on, no task is added and none has been handled. -/
structure Quiet (p : Forever (step (n := n) (τ := τ))) (K : ℕ) : Prop where
  fair : Fair p
  orderly : ∀ k, (p.state k).Orderly
  added : ∀ k ≥ K, (p.state k).added.length = (p.state K).added.length
  handled : ∀ k ≥ K, (p.state k).handled.length = (p.state K).handled.length

namespace Quiet

variable {p : Forever (step (n := n) (τ := τ))} {K k : ℕ} {i j v : Fin n} {a : Action n τ}

theorem moves (p : Forever (step (n := n) (τ := τ))) (k : ℕ) :
    Moves (p.state k) (p.label k).1 (p.label k).2 (p.state (k + 1)) :=
  moves_of_workerStep (p.step k)

theorem phase_of_ne (h : (p.label k).1 ≠ i) :
    (p.state (k + 1)).phase i = (p.state k).phase i :=
  Scheduler.phase_of_ne (moves p k) (Ne.symm h)

/-- The next step of a worker finds it where it is. -/
theorem exists_turn (h : Quiet p K) (hk : (p.state k).phase i ≠ .returned) :
    ∃ m ≥ k, (p.label m).1 = i ∧ (p.state m).phase i = (p.state k).phase i :=
  p.exists_next (K := 0) (fun m => (p.label m).1 = i) (fun s => s.phase i)
    (fun _ _ hne => phase_of_ne hne) (Nat.zero_le k) (h.fair.turn i k hk)

theorem not_handleTask (h : Quiet p K) (hk : K ≤ k) {t : τ} :
    (p.state k).phase i ≠ .handleTask t := by
  intro hp
  obtain ⟨m, hm, rfl, he⟩ := h.exists_turn (by rw [hp]; nofun)
  rw [hp] at he
  have hadd := (h.added (m + 1) (by omega)).trans (h.added m (by omega)).symm
  have hhandled := (h.handled (m + 1) (by omega)).trans (h.handled m (by omega)).symm
  have hmoves := moves p m
  generalize p.state (m + 1) = u, (p.label m).2 = a at hmoves hadd hhandled
  cases hmoves with
  | addTask child hp' => simp [Scheduler.pushBack, Scheduler.goto] at hadd
  | finish hp' => simp [Scheduler.countSub1, Scheduler.goto] at hhandled
  | _ => simp_all

theorem not_addTask (h : Quiet p K) (hk : K ≤ k) {t : τ} : (p.state k).phase i ≠ .addTask t := by
  intro hp
  obtain ⟨m, hm, rfl, he⟩ := h.exists_turn (by rw [hp]; nofun)
  rw [hp] at he
  apply h.not_handleTask (k := m + 1) (i := (p.label m).1) (t := t) (by omega)
  have hmoves := moves p m
  generalize p.state (m + 1) = u, (p.label m).2 = a at hmoves
  cases hmoves with
  | count hp' =>
    obtain rfl := Phase.addTask.inj (hp'.symm.trans he)
    exact Scheduler.phase_goto _
  | _ => simp_all

theorem free (h : Quiet p K) (hk : K ≤ k) (i : Fin n) : ((p.state k).phase i).Free := by
  cases hp : (p.state k).phase i with
  | handleTask t => exact h.not_handleTask hk hp
  | addTask t => exact h.not_addTask hk hp
  | _ => trivial

theorem popFront_eq (h : Quiet p K) (hk : K ≤ k)
    (hs : p.state (k + 1) = (p.state k).popFront i v) : (p.state k).taskQueue v = [] := by
  cases hv : (p.state k).taskQueue v with
  | nil => rfl
  | cons c q =>
    rw [Scheduler.popFront_cons hv] at hs
    have hp : (p.state (k + 1)).phase i = .handleTask c := by
      rw [hs]
      exact Scheduler.phase_goto _
    exact absurd hp (h.not_handleTask (by omega))

theorem exists_goto (h : Quiet p K) (hk : K ≤ k) :
    ∃ q, p.state (k + 1) = (p.state k).goto (p.label k).1 q := by
  have hmoves := moves p k
  have hfree := h.free hk (p.label k).1
  generalize hu : p.state (k + 1) = u, (p.label k).2 = a at hmoves
  cases hmoves with
  | nextTask hp => exact ⟨_, Scheduler.popFront_nil (h.popFront_eq hk hu)⟩
  | offerTask hp => exact ⟨_, Scheduler.popFront_nil (h.popFront_eq hk hu)⟩
  | addTask child hp => rw [hp] at hfree; exact hfree.elim
  | count hp => rw [hp] at hfree; exact hfree.elim
  | finish hp => rw [hp] at hfree; exact hfree.elim
  | _ => exact ⟨_, rfl⟩

theorem taskQueue_succ (h : Quiet p K) (hk : K ≤ k) :
    (p.state (k + 1)).taskQueue = (p.state k).taskQueue := by
  obtain ⟨q, hq⟩ := h.exists_goto hk
  rw [hq]
  rfl

theorem taskQueue_eq (h : Quiet p K) (hk : K ≤ k) :
    (p.state k).taskQueue = (p.state K).taskQueue :=
  p.invariant (fun s => s.taskQueue = (p.state K).taskQueue)
    (fun _ hj he => (h.taskQueue_succ hj).trans he) rfl k hk

theorem sum_counter (h : Quiet p K) (hk : K ≤ k) :
    ∑ i, (p.state k).counter i = ∑ i, (((p.state K).taskQueue i).length : BitVec 64) := by
  rw [Scheduler.sum_counter (h.orderly k).inv (h.free hk), h.taskQueue_eq hk]

/-- What the next step of a worker does to its phase. -/
theorem searches (h : Quiet p K) (hk : K ≤ k) (hi : (p.label k).1 = i) :
    Searches (p.state k) ((p.state k).phase i) ((p.state (k + 1)).phase i) := by
  subst hi
  have hmoves := moves p k
  have hfree := h.free hk (p.label k).1
  generalize hu : p.state (k + 1) = u, (p.label k).2 = a at hmoves
  cases hmoves with
  | load hm hp => rw [hp, Scheduler.phase_goto]; exact .load hm
  | leave hp => rw [hp, Scheduler.phase_goto]; exact .leave
  | turn hp hc => rw [hp, Scheduler.phase_goto]; exact .turn hc
  | steal hp hc => rw [hp, Scheduler.phase_goto]; exact .steal hc
  | draw hp hv => rw [hp, Scheduler.phase_goto]; exact .draw
  | nextTask hp =>
    rw [Scheduler.popFront_nil (h.popFront_eq hk hu), hp, Scheduler.phase_goto]
    exact .nextTask
  | offerTask hp =>
    rw [Scheduler.popFront_nil (h.popFront_eq hk hu), hp, Scheduler.phase_goto]
    exact .offerTask
  | addTask child hp => rw [hp] at hfree; exact hfree.elim
  | count hp => rw [hp] at hfree; exact hfree.elim
  | finish hp => rw [hp] at hfree; exact hfree.elim

theorem exists_draw (hp : (p.state k).phase i = .getVictimId) (hi : (p.label k).1 = i) :
    ∃ v, p.label k = (i, .getVictimId v) := by
  subst hi
  have hmoves := moves p k
  generalize p.state (k + 1) = u, hl : (p.label k).2 = a at hmoves
  cases hmoves with
  | draw => exact ⟨_, Prod.ext rfl hl⟩
  | _ => simp_all

theorem exact_succ (h : Quiet p K) (hk : K ≤ k)
    (hj : ((p.state k).phase j).Exact (p.state k)) :
    ((p.state (k + 1)).phase j).Exact (p.state (k + 1)) := by
  obtain ⟨q, hq⟩ := h.exists_goto hk
  have he : ∀ P : Phase n τ, P.Exact (p.state (k + 1)) ↔ P.Exact (p.state k) := fun P => by
    rw [hq]
    rfl
  rw [he]
  by_cases hji : (p.label k).1 = j
  · exact (h.searches hk hji).exact hj
  · rwa [phase_of_ne hji]

theorem exact_of_le (h : Quiet p K) (hj : (p.state K).Current j) (hk : K ≤ k) :
    ((p.state k).phase j).Exact (p.state k) :=
  p.invariant (fun s => (s.phase j).Exact s) (fun _ hm => h.exact_succ hm) hj k hk

theorem not_returned (h : Quiet p K) (hj : (p.state K).Current j)
    (hsum : ∑ i, (p.state K).counter i ≠ 0) (hk : K ≤ k) : (p.state k).phase j ≠ .returned := by
  intro he
  have hexact := h.exact_of_le hj hk
  rw [he] at hexact
  change ∑ i, (p.state k).counter i = 0 at hexact
  rw [h.sum_counter hk, ← h.sum_counter le_rfl] at hexact
  exact hsum hexact

/-- A worker with an exact sum goes on to draw victims, while there is something to be counted. -/
theorem exists_label_draw (h : Quiet p K) (hj : (p.state K).Current j)
    (hsum : ∑ i, (p.state K).counter i ≠ 0) (hk : K ≤ k) :
    ∃ m ≥ k, ∃ u, p.label m = (j, .getVictimId u) := by
  apply p.eventually_of_rank (fun m => (p.label m).1 = j) (fun s => (s.phase j).drawRank) _ _ _ hk
  · intro m hm hown
    rw [phase_of_ne hown]
  · intro m hm hown
    by_cases hv : (p.state m).phase j = .getVictimId
    · exact .inl (exists_draw hv hown)
    · exact .inr ((h.searches hm hown).drawRank_lt hv (h.not_returned hj hsum (by omega)))
  · exact fun m hm => h.fair.turn j m (h.not_returned hj hsum hm)

theorem phase_of_draw {u : Fin n} (hl : p.label k = (j, .getVictimId u)) :
    (p.state k).phase j = .getVictimId ∧ (p.state (k + 1)).phase j = .offerTask u := by
  have hmoves := moves p k
  rw [hl] at hmoves
  generalize p.state (k + 1) = s at hmoves
  cases hmoves with
  | draw hp => exact ⟨hp, Scheduler.phase_goto _⟩

/-- No task is left, since otherwise one would be stolen. -/
theorem taskQueue_eq_nil (h : Quiet p K) (d : Distribution n τ) (v : Fin n) :
    (p.state K).taskQueue v = [] := by
  have horderly := h.orderly K
  obtain ⟨j, hj⟩ := horderly.inv.current (Nat.zero_lt_of_lt v.isLt)
  by_contra hv
  have hsum : ∑ i, (p.state K).counter i ≠ 0 := fun he => by
    rw [h.sum_counter le_rfl] at he
    exact hv (d.queue_eq_nil horderly.inv.bounded he v)
  have hdraw := fun k => h.exists_label_draw hj hsum (le_max_left K k)
  have hvj : v ≠ j := by
    rintro rfl
    obtain ⟨m, hm, u, hl⟩ := h.exists_label_draw hj hsum le_rfl
    apply hv
    rw [← h.taskQueue_eq hm]
    exact (h.orderly m).steals (by rw [(phase_of_draw hl).1]; trivial)
  obtain ⟨m, hm, hl⟩ := h.fair.draw j v hvj
    (fun k => (hdraw k).imp fun m hm => ⟨(le_max_right K k).trans hm.1, hm.2⟩) K
  have hoffer := (phase_of_draw hl).2
  obtain ⟨m', hm', rfl, he⟩ := h.exists_turn (k := m + 1) (by rw [hoffer]; nofun)
  rw [hoffer] at he
  apply hv
  rw [← h.taskQueue_eq (k := m') (by omega)]
  have hmoves := moves p m'
  generalize hu : p.state (m' + 1) = u, (p.label m').2 = a at hmoves
  cases hmoves with
  | offerTask hp =>
    obtain rfl := Phase.offerTask.inj (hp.symm.trans he)
    exact h.popFront_eq (by omega) hu
  | _ => simp_all

theorem returned_of_le (hp : (p.state k).phase i = .returned) {m : ℕ} (hm : k ≤ m) :
    (p.state m).phase i = .returned := by
  apply p.invariant (fun s => s.phase i = .returned) _ hp m hm
  intro m _ he
  by_cases hi : (p.label m).1 = i
  · subst hi
    have hmoves := moves p m
    generalize p.state (m + 1) = u, (p.label m).2 = a at hmoves
    cases hmoves <;> simp_all
  · rw [phase_of_ne hi, he]

theorem exists_returned (h : Quiet p K) (d : Distribution n τ) (i : Fin n) :
    ∃ k, (p.state k).phase i = .returned := by
  by_contra hnever
  push Not at hnever
  have hsum : ∀ {k}, K ≤ k → ∑ j, (p.state k).counter j = 0 := fun hk => by
    rw [h.sum_counter hk]
    exact Finset.sum_eq_zero fun j _ => by rw [h.taskQueue_eq_nil d j]; rfl
  have hgoto : ∀ {k}, K ≤ k → ∀ P : Phase n τ,
      P.returnRank (p.state (k + 1)) = P.returnRank (p.state k) := fun hk P => by
    obtain ⟨q, hq⟩ := h.exists_goto hk
    rw [hq]
    rfl
  obtain ⟨m, -, hm⟩ : ∃ m ≥ K, False :=
    p.eventually_of_rank (fun m => (p.label m).1 = i) (fun s => (s.phase i).returnRank s)
      (fun m hm hown => by rw [hgoto hm, phase_of_ne hown])
      (fun m hm hown => .inr <| by
        rw [hgoto hm]
        exact (h.searches hm hown).returnRank_lt (hsum hm) (hnever (m + 1)))
      (fun m hm => h.fair.turn i m (hnever m)) le_rfl
  exact hm

/-- There is no such run: at last every worker has returned, and none can take a step. -/
theorem elim (h : Quiet p K) (d : Distribution n τ) : False := by
  choose k hk using h.exists_returned d
  obtain ⟨b, hb⟩ := (Set.finite_range k).bddAbove
  have hret := returned_of_le (hk (p.label b).1) (hb ⟨_, rfl⟩)
  have hmoves := moves p b
  generalize p.state (b + 1) = u, (p.label b).2 = a at hmoves
  cases hmoves <;> simp_all

end Quiet

theorem length_le {s t : Scheduler n τ} {i : Fin n} {a : Action n τ} (h : Moves s i a t) :
    s.added.length ≤ t.added.length ∧ s.handled.length ≤ t.handled.length := by
  cases h with
  | nextTask =>
    unfold Scheduler.popFront
    split <;> exact ⟨le_rfl, le_rfl⟩
  | offerTask =>
    unfold Scheduler.popFront
    split <;> exact ⟨le_rfl, le_rfl⟩
  | addTask => simp [Scheduler.pushBack, Scheduler.goto]
  | finish => simp [Scheduler.countSub1, Scheduler.goto]
  | _ => exact ⟨le_rfl, le_rfl⟩

namespace Distribution

variable (d : Distribution n τ)

end Distribution

def pair {α : Type} (t : Fin 2) (x y : α) : Fin 2 → α := fun i => if i = t then x else y

section Pair

variable {α : Type} {t : Fin 2} {x y z : α}

theorem rev_ne : ∀ t : Fin 2, t.rev ≠ t := by decide

theorem pair_self : pair t x y t = x := if_pos rfl

theorem pair_rev : pair t x y t.rev = y := if_neg (rev_ne t)

theorem pair_eq_rev : pair t x y = pair t.rev y x := by
  have hall : ∀ t i : Fin 2, i = t.rev ↔ ¬ i = t := by decide
  ext i
  unfold pair
  by_cases hi : i = t
  · rw [if_pos hi, if_neg fun h => (hall t i).mp h hi]
  · rw [if_neg hi, if_pos ((hall t i).mpr hi)]

theorem update_pair : Function.update (pair t x y) t z = pair t z y := by
  ext i
  by_cases hi : i = t
  · rw [hi, Function.update_self, pair_self]
  · rw [Function.update_of_ne hi, pair, pair, if_neg hi, if_neg hi]

theorem update_pair_rev : Function.update (pair t x y) t.rev z = pair t x z := by
  rw [pair_eq_rev, update_pair, pair_eq_rev (t := t)]

end Pair

/-- Where the thief is after some steps of its round: it finds nothing in its own queue, steals task
`m` from the other one, and adds the next task while it handles this one. -/
def thiefPhase (m : ℕ) (t : Fin 2) : ℕ → Phase 2 ℕ
  | 0 => .total .workerThreadFn 0 0
  | 1 => .total .workerThreadFn 1 1
  | 2 => .total .workerThreadFn 2 1
  | 3 => .nextTask
  | 4 => .total .workerStealTask 0 0
  | 5 => .total .workerStealTask 1 1
  | 6 => .total .workerStealTask 2 1
  | 7 => .getVictimId
  | 8 => .offerTask t.rev
  | 10 => .addTask m
  | _ => .handleTask m

def slots : Fin 2 → BitVec 64 := fun i => if i = ⟨0, Nat.two_pos⟩ then 1 else 0

def thiefState (m : ℕ) (t : Fin 2) (r : ℕ) : Scheduler 2 ℕ where
  taskQueue := pair t (if r < 10 then [] else [m + 1]) (if r < 9 then [m] else [])
  counter := if r < 11 then slots else Function.update slots t (slots t + 1)
  phase := pair t (thiefPhase m t r) (.total .workerThreadFn 0 0)
  added := List.range (if r < 10 then m + 1 else m + 2)
  handled := List.range m

def thiefAction (m : ℕ) (t : Fin 2) : ℕ → Action 2 ℕ
  | 2 | 6 => .test
  | 3 => .nextTask
  | 7 => .getVictimId t.rev
  | 8 => .offerTask
  | 9 => .addTask (m + 1)
  | 10 => .count
  | 11 => .finish
  | _ => .load

theorem step_thiefState (m : ℕ) (t : Fin 2) {r : ℕ} (hr : r < 11) :
    step (thiefState m t r) (t, thiefAction m t r) = some (thiefState m t (r + 1)) := by
  match r, hr with
  | 0, _ | 1, _ | 2, _ | 3, _ | 4, _ | 5, _ | 6, _ | 7, _ | 8, _ | 9, _ | 10, _ =>
    simp [step, workerStep, thiefState, thiefAction, thiefPhase, slots, Scheduler.goto,
      Scheduler.popFront, Scheduler.pushBack, Scheduler.countAdd1, pair_self, pair_rev, update_pair,
      update_pair_rev, rev_ne, workerTaskQueueSize, List.range_succ]

/-- After a round, the two workers change places. -/
theorem step_thiefState_last (m : ℕ) (t : Fin 2) :
    step (thiefState m t 11) (t, thiefAction m t 11) = some (thiefState (m + 1) t.rev 0) := by
  have hqueue : pair t.rev ([] : List ℕ) [m + 1] = pair t [m + 1] [] := pair_eq_rev.symm
  have hphase (p : Phase 2 ℕ) : pair t.rev p p = pair t p p := pair_eq_rev.symm
  simp [step, workerStep, thiefState, thiefAction, thiefPhase, Scheduler.goto,
    Scheduler.countSub1, pair_self, update_pair, hqueue, hphase, List.range_succ]

/-- Worker 1 is the first thief. -/
def thief (m : ℕ) : Fin 2 := if m % 2 = 0 then ⟨1, Nat.one_lt_two⟩ else ⟨0, Nat.two_pos⟩

theorem thief_succ (m : ℕ) : thief (m + 1) = (thief m).rev := by
  unfold thief
  by_cases hm : m % 2 = 0
  · rw [if_pos hm, if_neg (by omega)]
    rfl
  · rw [if_neg hm, if_pos (by omega)]
    rfl

/-- Two workers steal from each other in turn, and the tasks never end. -/
def chain : Forever (step (n := 2) (τ := ℕ)) where
  state k := thiefState (k / 12) (thief (k / 12)) (k % 12)
  label k := (thief (k / 12), thiefAction (k / 12) (thief (k / 12)) (k % 12))
  step k := by
    by_cases hr : k % 12 < 11
    · rw [step_thiefState _ _ hr, show (k + 1) / 12 = k / 12 by omega,
        show (k + 1) % 12 = k % 12 + 1 by omega]
    · rw [show k % 12 = 11 by omega, step_thiefState_last,
        show (k + 1) / 12 = k / 12 + 1 by omega, show (k + 1) % 12 = 0 by omega, thief_succ]

end InetLisp.WorkParallelly
