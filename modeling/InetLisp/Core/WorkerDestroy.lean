import InetLisp.Net.NodeAllocator

/-! # Workers come and go

Every module has a loader worker. A parallel run creates the workers of a
scheduler and destroys them when it ends; their free stacks are dropped with the
nodes in them.
-/

namespace InetLisp.WorkerDestroy

open NodeAllocator

def nodeAllocatorCacheSize : ℕ := 64 * 1024

def nodeAllocatorBatchSize : ℕ := 1024

inductive Status where
  | unborn
  | loader
  /-- A worker of the scheduler that is running. -/
  | scheduled
  | destroyed
  deriving DecidableEq, Repr

def Status.Exists (x : Status) : Prop := x = .loader ∨ x = .scheduled

instance (x : Status) : Decidable x.Exists := inferInstanceAs (Decidable (_ ∨ _))

structure State (ι : Type) where
  nodes : NodeAllocator.State ι
  status : ι → Status

inductive Action (ι : Type) where
  /-- `load_mod` creates the loader worker of a module. -/
  | workerNew (i : ι)
  | schedulerNew (workers : List ι)
  | schedulerDestroy
  | node (action : NodeAllocator.Action ι)
  deriving DecidableEq, Repr

variable {ι : Type}

def actor : NodeAllocator.Action ι → ι
  | .allocate i | .recycle i _ | .worker i => i

/-- The workers of a scheduler are destroyed together, after their threads were joined. -/
def Status.destroy : Status → Status
  | scheduled => destroyed
  | x => x

variable [Fintype ι] [DecidableEq ι]

def step (s : State ι) : Action ι → Option (State ι)
  | .workerNew i =>
    if s.status i = .unborn then
      some { s with status := Function.update s.status i .loader }
    else none
  | .schedulerNew workers =>
    if ∀ i, s.status i ≠ .scheduled ∧ (i ∈ workers → s.status i = .unborn) then
      some { s with status := fun i => if i ∈ workers then .scheduled else s.status i }
    else none
  | .schedulerDestroy =>
    if ∀ i, s.status i = .scheduled → s.nodes.activity i = .idle then
      some { s with status := fun i => (s.status i).destroy }
    else none
  | .node action =>
    if (s.status (actor action)).Exists then
      (s.nodes.step action).map fun nodes => { s with nodes := nodes }
    else none

def start (ι : Type) (cacheSize batchSize : ℕ) : State ι where
  nodes := NodeAllocator.start ι cacheSize batchSize
  status := fun _ => .unborn

/-- Every node is part of the net or can be handed out again. -/
def Kept (s : State ι) : Prop :=
  ∀ n ∈ s.nodes.allocator.nodeArray, n ∈ handedOut s.nodes.log ∨
    n ∈ s.nodes.allocator.stack ∨ ∃ i, (s.status i).Exists ∧
      (n ∈ s.nodes.freeNodeStack i ∨ s.nodes.activity i = .giveBlock n)

/-- Nobody who is destroyed holds a free node. -/
def emptyHanded (s : State ι) : Action ι → Bool
  | .schedulerDestroy => ∀ i, s.status i = .scheduled → s.nodes.freeNodeStack i = []
  | _ => true

section Frame

omit [Fintype ι]

variable {s t : NodeAllocator.State ι}

theorem popOr_frame {i j : ι} (x : Activity) (hj : j ≠ i) :
    (s.popOr i x).freeNodeStack j = s.freeNodeStack j ∧
      (s.popOr i x).activity j = s.activity j := by
  unfold State.popOr
  split <;> simp [State.goto, State.setFree, hj]

theorem step_frame {action : NodeAllocator.Action ι} (h : s.step action = some t) {j : ι}
    (hj : j ≠ actor action) :
    t.freeNodeStack j = s.freeNodeStack j ∧ t.activity j = s.activity j := by
  cases action with
  | allocate i =>
    simp only [State.step] at h
    split at h <;> cases h
    exact ⟨rfl, Function.update_of_ne hj _ _⟩
  | recycle i n =>
    simp only [State.step, State.recycle] at h
    split at h
    · split at h <;> cases h
      · exact ⟨rfl, Function.update_of_ne hj _ _⟩
      · exact ⟨Function.update_of_ne hj _ _, rfl⟩
    · cases h
  | worker i =>
    cases hi : s.activity i with
    | idle => simp [State.step, hi] at h
    | giveBlock n =>
      simp only [State.step, hi, Option.map_eq_some_iff] at h
      obtain ⟨⟨shared, l⟩, -, rfl⟩ := h
      exact ⟨Function.update_of_ne hj _ _, Function.update_of_ne hj _ _⟩
    | takeBlock =>
      simp only [State.step, hi, Option.some.injEq] at h
      subst h
      exact ⟨Function.update_of_ne hj _ _, Function.update_of_ne hj _ _⟩
    | prepare =>
      simp only [State.step, hi, Option.some.injEq] at h
      subst h
      exact ⟨rfl, Function.update_of_ne hj _ _⟩
    | _ =>
      simp only [State.step, hi, Option.some.injEq] at h
      subst h
      exact popOr_frame _ hj

end Frame

variable {s t : State ι}

/-- Workers that do not exist are idle and hold no free node. -/
structure Inv (s : State ι) : Prop where
  nodes : NodeAllocator.Inv s.nodes
  gone : ∀ i, ¬ (s.status i).Exists → s.nodes.freeNodeStack i = [] ∧ s.nodes.activity i = .idle

omit [DecidableEq ι] in
theorem Inv.kept (h : Inv s) : Kept s := by
  intro n hn
  obtain ⟨p, hp⟩ := h.nodes.mem_nodeArray.mp hn
  cases p with
  | shared => exact .inr (.inl hp)
  | handedOut => exact .inl hp
  | free i =>
    by_cases hi : (s.status i).Exists
    · exact .inr (.inr ⟨i, hi, .inl hp⟩)
    · change n ∈ s.nodes.freeNodeStack i at hp
      rw [(h.gone i hi).1] at hp
      cases hp
  | passing i =>
    change n ∈ (s.nodes.activity i).passing at hp
    by_cases hi : (s.status i).Exists
    · refine .inr (.inr ⟨i, hi, .inr ?_⟩)
      cases hx : s.nodes.activity i with
      | giveBlock m =>
        rw [hx] at hp
        rw [List.mem_singleton.mp hp]
      | _ => rw [hx] at hp; cases hp
    · rw [(h.gone i hi).2] at hp
      cases hp

theorem Inv.step {act : Action ι} (h : Inv s)
    (ht : Transition.restrict emptyHanded step s act = some t) : Inv t := by
  obtain ⟨hc, ht⟩ := Transition.restrict_eq_some.mp ht
  cases act with
  | workerNew i =>
    simp only [WorkerDestroy.step] at ht
    split at ht <;> cases ht
    refine ⟨h.nodes, fun j hj => h.gone j fun hx => hj ?_⟩
    rcases eq_or_ne j i with rfl | hji
    · exact .inl (Function.update_self ..)
    · simpa only [Function.update_of_ne hji] using hx
  | schedulerNew workers =>
    simp only [WorkerDestroy.step] at ht
    split at ht <;> cases ht
    refine ⟨h.nodes, fun j hj => h.gone j fun hx => hj ?_⟩
    by_cases hw : j ∈ workers
    · exact .inr (if_pos hw)
    · simpa only [if_neg hw] using hx
  | schedulerDestroy =>
    simp only [WorkerDestroy.step] at ht
    split at ht
    · rename_i hidle
      cases ht
      have hempty : ∀ i, s.status i = .scheduled → s.nodes.freeNodeStack i = [] := by
        simpa [emptyHanded] using hc
      refine ⟨h.nodes, fun j hj => ?_⟩
      by_cases hs : s.status j = .scheduled
      · exact ⟨hempty j hs, hidle j hs⟩
      · refine h.gone j fun hx => hj ?_
        cases hst : s.status j with
        | scheduled => exact (hs hst).elim
        | _ => simpa only [hst, Status.destroy] using hx
    · cases ht
  | node action =>
    simp only [WorkerDestroy.step] at ht
    split at ht
    · rename_i ha
      obtain ⟨nodes, hn, rfl⟩ := Option.map_eq_some_iff.mp ht
      refine ⟨h.nodes.step hn, fun j hj => ?_⟩
      have hne : j ≠ actor action := by
        rintro rfl
        exact hj ha
      obtain ⟨hf, hx⟩ := step_frame hn hne
      rw [hf, hx]
      exact h.gone j hj
    · cases ht

/-- Runs that destroy no worker with free nodes keep every node. -/
theorem kept_of_run {cacheSize batchSize : ℕ} {l : List (Action ι)}
    (h : Transition.run (Transition.restrict emptyHanded step) (start ι cacheSize batchSize) l =
      some s) : Kept s :=
  ((Transition.Reaches.of_run h).invariant (fun _ _ _ (hs : Inv _) ht => hs.step ht)
    ⟨.of_start _ _, fun _ _ => ⟨rfl, rfl⟩⟩).kept

/-- The loader allocates a node; the scheduler has one worker, which does not. -/
theorem kept_of_run_loader :
    Kept ((Transition.run (Transition.restrict emptyHanded step) (start Bool 1 1)
      [.workerNew true, .node (.allocate true), .node (.worker true), .node (.worker true),
        .node (.worker true), .schedulerNew [false], .schedulerDestroy]).get rfl) :=
  kept_of_run (Option.some_get _).symm

section Lost

omit [Fintype ι] [DecidableEq ι]

theorem length_takeBlock (i : ℕ) (shared l : List ℕ) :
    (takeBlock i shared l).2.length = l.length + min i shared.length := by
  induction i generalizing shared l with
  | zero => simp [takeBlock]
  | succ i ih =>
    cases shared with
    | nil => simp [takeBlock]
    | cons n shared =>
      rw [takeBlock, ih, List.length_cons, List.length_cons]
      omega

theorem length_stack_new (cacheSize batchSize : ℕ) :
    (new cacheSize batchSize).stack.length = batchSize := by
  have h (a : NodeAllocator) (i : ℕ) :
      (prepareNode^[i] a).stack.length = a.stack.length + i := by
    induction i with
    | zero => rfl
    | succ i ih =>
      rw [Function.iterate_succ_apply', prepareNode, List.length_cons, ih]
      rfl
  rw [new, prepareOneBatchOfNodes, h, List.length_nil, Nat.zero_add]

theorem cacheSize_new (cacheSize batchSize : ℕ) :
    (new cacheSize batchSize).cacheSize = cacheSize :=
  (prepareNode_iterate (a := { cacheSize, batchSize }) rfl batchSize).2.2.1

end Lost

theorem nodes_of_run {cacheSize batchSize : ℕ} {l : List (Action ι)}
    (h : Transition.run step (start ι cacheSize batchSize) l = some s) :
    NodeAllocator.Inv s.nodes := by
  refine (Transition.Reaches.of_run h).invariant (P := fun s => NodeAllocator.Inv s.nodes)
    (fun s act t hs ht => ?_) (.of_start _ _)
  cases act with
  | node action =>
    simp only [step] at ht
    split at ht
    · obtain ⟨nodes, hn, rfl⟩ := Option.map_eq_some_iff.mp ht
      exact hs.step hn
    · cases ht
  | _ =>
    simp only [step] at ht
    split at ht <;> cases ht
    exact hs

theorem not_kept_of_gone {i : ι} (h : NodeAllocator.Inv s.nodes)
    (hi : ∀ j, ¬ (s.status j).Exists) (hf : s.nodes.freeNodeStack i ≠ []) : ¬ Kept s := by
  intro hk
  obtain ⟨n, hn⟩ := List.exists_mem_of_ne_nil _ hf
  have hp : n ∈ s.nodes.content (.free i) := hn
  rcases hk n (h.mem_nodeArray.mpr ⟨_, hp⟩) with ho | hs | ⟨j, hj, -⟩
  · exact h.disjoint (q := .handedOut) (by simp) hp ho
  · exact h.disjoint (q := .shared) (by simp) hp hs
  · exact hi j hj

/-- A scheduler with one worker, which allocates one node. -/
def oneNode : List (Action Unit) :=
  [.schedulerNew [()], .node (.allocate ()), .node (.worker ()), .node (.worker ()),
    .node (.worker ()), .schedulerDestroy]

theorem run_oneNode {cacheSize batchSize n : ℕ} {shared l : List ℕ}
    (h : takeBlock (new cacheSize batchSize).cacheSize (new cacheSize batchSize).stack [] =
      (shared, n :: l)) :
    ∃ s, Transition.run step (start Unit cacheSize batchSize) oneNode = some s ∧
      s.nodes.freeNodeStack () = l ∧ s.status () = .destroyed := by
  simp [oneNode, Transition.run, step, start, NodeAllocator.start, State.step, State.goto,
    State.popOr, State.setFree, Status.Exists, Status.destroy, actor, h]

/-- The worker takes a block for its one node; the rest of the block is lost. -/
theorem exists_not_kept {cacheSize batchSize : ℕ} (hc : 2 ≤ cacheSize) (hb : 2 ≤ batchSize) :
    ∃ s, Transition.run step (start Unit cacheSize batchSize) oneNode = some s ∧ ¬ Kept s := by
  have hl := length_takeBlock (new cacheSize batchSize).cacheSize (new cacheSize batchSize).stack []
  rw [length_stack_new, cacheSize_new, List.length_nil] at hl
  match hT : takeBlock cacheSize (new cacheSize batchSize).stack [] with
  | (shared, []) | (shared, [n]) =>
    simp only [hT, List.length_nil, List.length_cons] at hl
    omega
  | (shared, n :: m :: l) =>
    obtain ⟨s, hs, hf, hd⟩ := run_oneNode (by rw [cacheSize_new]; exact hT)
    refine ⟨s, hs, not_kept_of_gone (i := ()) (nodes_of_run hs) (fun j hj => ?_) ?_⟩
    · rw [show s.status j = .destroyed from hd] at hj
      exact absurd hj (by decide)
    · rw [hf]
      exact List.cons_ne_nil _ _

theorem not_kept : ¬ ∀ l s, Transition.run step
    (start Unit nodeAllocatorCacheSize nodeAllocatorBatchSize) l = some s → Kept s := by
  intro hk
  obtain ⟨s, hs, hn⟩ := exists_not_kept (show 2 ≤ nodeAllocatorCacheSize by decide)
    (show 2 ≤ nodeAllocatorBatchSize by decide)
  exact hn (hk _ s hs)

end InetLisp.WorkerDestroy
