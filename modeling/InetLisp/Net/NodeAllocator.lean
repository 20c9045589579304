import InetLisp.Lib.Sums
import InetLisp.Lib.Transition
import Mathlib.Data.Fintype.Sum
import Mathlib.Algebra.BigOperators.Group.Finset.Basic
import Mathlib.Algebra.Order.BigOperators.Group.Finset

/-! # The node allocator

Every worker pops nodes from a free stack of its own. Blocks of nodes move between
the free stacks and a shared stack under a mutex, and new nodes are created in
batches. A step is one critical section, or one write to a node, with the private
computation around it.
-/

namespace InetLisp

/-- Nodes are named by their ids. The head of a stack is its top. -/
structure NodeAllocator where
  stack : List ℕ := []
  cacheSize : ℕ
  nodeCount : ℕ := 0
  batchSize : ℕ
  nodeArray : List ℕ := []
  isAllocated : ℕ → Bool := fun _ => false

namespace NodeAllocator

/-- The body of the loop in `prepare_one_batch_of_nodes`. -/
def prepareNode (a : NodeAllocator) : NodeAllocator :=
  { a with
    nodeCount := a.nodeCount + 1
    stack := (a.nodeCount + 1) :: a.stack
    nodeArray := a.nodeArray ++ [a.nodeCount + 1] }

def prepareOneBatchOfNodes (a : NodeAllocator) : NodeAllocator := prepareNode^[a.batchSize] a

/-- `node_allocator_new`, for any sizes. -/
def new (cacheSize batchSize : ℕ) : NodeAllocator :=
  prepareOneBatchOfNodes { cacheSize := cacheSize, batchSize := batchSize }

def setAllocated (a : NodeAllocator) (n : ℕ) (b : Bool) : NodeAllocator :=
  { a with isAllocated := Function.update a.isAllocated n b }

/-- The loop in `allocator_maybe_allocate`: move nodes until the shared stack is empty. -/
def takeBlock : ℕ → List ℕ → List ℕ → List ℕ × List ℕ
  | 0, shared, stack => (shared, stack)
  | _ + 1, [], stack => ([], stack)
  | i + 1, n :: shared, stack => takeBlock i shared (n :: stack)

/-- The loop in `allocator_free`; popping from an empty stack is an assertion failure. -/
def giveBlock : ℕ → List ℕ → List ℕ → Option (List ℕ × List ℕ)
  | 0, shared, stack => some (shared, stack)
  | _ + 1, _, [] => none
  | i + 1, shared, n :: stack => giveBlock i (n :: shared) stack

/-- The loop in `allocated_node_iter_next`, after the first `array_get`. -/
def scan (a : NodeAllocator) (node : Option ℕ) (cursor : ℕ) : Option ℕ × ℕ :=
  if (node.map a.isAllocated).getD false then (node, cursor)
  else if a.nodeArray.length ≤ cursor then (none, cursor)
  else scan a a.nodeArray[cursor]? (cursor + 1)
termination_by a.nodeArray.length - cursor

/-- `allocated_node_iter_next`; `allocated_node_iter_first` is the same from cursor 0. -/
def iterNext (a : NodeAllocator) (cursor : ℕ) : Option ℕ × ℕ :=
  scan a a.nodeArray[cursor]? (cursor + 1)

variable {a : NodeAllocator}

theorem scan_eq_some {node : Option ℕ} {cursor c n : ℕ} (h : a.scan node cursor = (some n, c))
    (hc : ∀ m, node = some m → cursor ≤ a.nodeArray.length) :
    cursor ≤ c ∧ c ≤ a.nodeArray.length := by
  induction node, cursor using scan.induct a with
  | case1 node cursor hn =>
    rw [scan, if_pos hn] at h
    cases h
    exact ⟨le_rfl, hc _ rfl⟩
  | case2 node cursor hn hl =>
    rw [scan, if_neg hn, if_pos hl] at h
    cases h
  | case3 node cursor hn hl ih =>
    rw [scan, if_neg hn, if_neg hl] at h
    have := ih h fun _ _ => by omega
    omega

theorem iterNext_eq_some {cursor c n : ℕ} (h : a.iterNext cursor = (some n, c)) :
    cursor < c ∧ c ≤ a.nodeArray.length := by
  refine scan_eq_some h fun m hm => ?_
  exact (List.getElem?_eq_some_iff.mp hm).1

/-- The loop in `allocated_node_array`. -/
def collect (a : NodeAllocator) (cursor : ℕ) : List ℕ :=
  match _h : a.iterNext cursor with
  | (none, _) => []
  | (some n, c) => n :: collect a c
termination_by a.nodeArray.length - cursor
decreasing_by
  have := iterNext_eq_some ‹_›
  omega

def allocatedNodeArray (a : NodeAllocator) : List ℕ := a.collect 0

theorem filter_scan {node : Option ℕ} {cursor : ℕ} :
    (node.toList ++ a.nodeArray.drop cursor).filter a.isAllocated =
      match a.scan node cursor with
      | (none, _) => []
      | (some n, c) => n :: (a.nodeArray.drop c).filter a.isAllocated := by
  induction node, cursor using scan.induct a with
  | case1 node cursor hn =>
    rw [scan, if_pos hn]
    cases node with
    | none => simp at hn
    | some n => exact List.filter_cons_of_pos hn
  | case2 node cursor hn hl =>
    rw [scan, if_neg hn, if_pos hl, List.drop_eq_nil_of_le hl]
    cases node with
    | none => rfl
    | some n => exact List.filter_cons_of_neg hn
  | case3 node cursor hn hl ih =>
    have hc : cursor < a.nodeArray.length := Nat.lt_of_not_le hl
    have hd : a.nodeArray.drop cursor =
        a.nodeArray[cursor]?.toList ++ a.nodeArray.drop (cursor + 1) := by
      rw [List.getElem?_eq_getElem hc, List.drop_eq_getElem_cons hc]
      rfl
    rw [scan, if_neg hn, if_neg hl, ← ih, ← hd]
    cases node with
    | none => rfl
    | some n => exact List.filter_cons_of_neg hn

theorem filter_iterNext (cursor : ℕ) :
    (a.nodeArray.drop cursor).filter a.isAllocated =
      match a.iterNext cursor with
      | (none, _) => []
      | (some n, c) => n :: (a.nodeArray.drop c).filter a.isAllocated := by
  rw [iterNext, ← filter_scan]
  rcases Nat.lt_or_ge cursor a.nodeArray.length with hc | hc
  · rw [List.getElem?_eq_getElem hc, List.drop_eq_getElem_cons hc]
    rfl
  · rw [List.getElem?_eq_none hc, List.drop_eq_nil_of_le hc,
      List.drop_eq_nil_of_le (hc.trans (Nat.le_succ _))]
    rfl

theorem collect_eq (cursor : ℕ) :
    a.collect cursor = (a.nodeArray.drop cursor).filter a.isAllocated := by
  induction cursor using collect.induct a with
  | case1 cursor c h =>
    rw [collect, filter_iterNext, h]
  | case2 cursor n c h ih =>
    rw [collect, filter_iterNext, h]
    exact congrArg (n :: ·) ih

theorem allocatedNodeArray_eq : a.allocatedNodeArray = a.nodeArray.filter a.isAllocated :=
  collect_eq 0

/-- Where a worker is in `node_allocator_allocate` or `node_allocator_recycle`. -/
inductive Activity where
  | idle
  /-- About to look at its free stack. -/
  | allocate
  /-- About to enter the critical section of `allocator_maybe_allocate`. -/
  | takeBlock
  /-- About to look at its free stack after the critical section. -/
  | pop
  /-- About to call `prepare_one_batch_of_nodes`. -/
  | prepare
  /-- About to enter the critical section of `allocator_free`; the node is clean by then. -/
  | giveBlock (node : ℕ)
  deriving DecidableEq, Repr

inductive Event where
  | allocated (node : ℕ)
  | recycled (node : ℕ)
  deriving DecidableEq, Repr

/-- The nodes handed out and not yet recycled; the newest event comes first. -/
def handedOut : List Event → List ℕ
  | [] => []
  | .allocated n :: l => n :: handedOut l
  | .recycled n :: l => (handedOut l).erase n

/-- The log is a ghost. -/
structure State (ι : Type) where
  allocator : NodeAllocator
  freeNodeStack : ι → List ℕ
  activity : ι → Activity
  log : List Event

/-- Enter a call, or go on with it. -/
inductive Action (ι : Type) where
  | allocate (i : ι)
  | recycle (i : ι) (node : ℕ)
  | worker (i : ι)
  deriving DecidableEq, Repr

namespace State

variable {ι : Type} [DecidableEq ι]

def goto (s : State ι) (i : ι) (x : Activity) : State ι :=
  { s with activity := Function.update s.activity i x }

def setFree (s : State ι) (i : ι) (l : List ℕ) : State ι :=
  { s with freeNodeStack := Function.update s.freeNodeStack i l }

/-- Pop a node, mark it as allocated and return it; from an empty stack, go elsewhere. -/
def popOr (s : State ι) (i : ι) (x : Activity) : State ι :=
  match s.freeNodeStack i with
  | [] => s.goto i x
  | n :: l =>
    { s with
      allocator := s.allocator.setAllocated n true
      log := .allocated n :: s.log }.setFree i l |>.goto i .idle

/-- Up to the critical section, if there is one; only nodes handed out are recycled. -/
def recycle (s : State ι) (i : ι) (n : ℕ) : Option (State ι) :=
  if s.activity i = .idle ∧ n ∈ handedOut s.log then
    let s := { s with
      allocator := s.allocator.setAllocated n false
      log := .recycled n :: s.log }
    if 2 * s.allocator.cacheSize ≤ (s.freeNodeStack i).length then
      some (s.goto i (.giveBlock n))
    else
      some (s.setFree i (n :: s.freeNodeStack i))
  else none

def step (s : State ι) : Action ι → Option (State ι)
  | .allocate i => if s.activity i = .idle then some (s.goto i .allocate) else none
  | .recycle i n => s.recycle i n
  | .worker i =>
    match s.activity i with
    | .idle => none
    | .allocate => some (s.popOr i .takeBlock)
    | .takeBlock =>
      let (shared, l) :=
        takeBlock s.allocator.cacheSize s.allocator.stack (s.freeNodeStack i)
      some ({ s with allocator := { s.allocator with stack := shared } }.setFree i l |>.goto i .pop)
    | .pop => some (s.popOr i .prepare)
    | .prepare =>
      some ({ s with allocator := s.allocator.prepareOneBatchOfNodes }.goto i .allocate)
    | .giveBlock n =>
      (giveBlock s.allocator.cacheSize s.allocator.stack (s.freeNodeStack i)).map
        fun (shared, l) =>
          { s with allocator := { s.allocator with stack := shared } }.setFree i (n :: l)
            |>.goto i .idle

end State

def start (ι : Type) (cacheSize batchSize : ℕ) : State ι where
  allocator := new cacheSize batchSize
  freeNodeStack := fun _ => []
  activity := fun _ => .idle
  log := []

theorem count_takeBlock (n i : ℕ) (shared l : List ℕ) :
    (takeBlock i shared l).1.count n + (takeBlock i shared l).2.count n =
      shared.count n + l.count n := by
  induction i generalizing shared l with
  | zero => rfl
  | succ i ih =>
    cases shared with
    | nil => rfl
    | cons m shared =>
      rw [takeBlock, ih, List.count_cons, List.count_cons]
      omega

theorem count_giveBlock {n i : ℕ} {shared l shared' l' : List ℕ}
    (h : giveBlock i shared l = some (shared', l')) :
    shared'.count n + l'.count n = shared.count n + l.count n := by
  induction i generalizing shared l with
  | zero => cases h; rfl
  | succ i ih =>
    cases l with
    | nil => cases h
    | cons m l =>
      rw [ih h, List.count_cons, List.count_cons]
      omega

theorem giveBlock_isSome {i : ℕ} {shared l : List ℕ} (h : i ≤ l.length) :
    (giveBlock i shared l).isSome := by
  induction i generalizing shared l with
  | zero => rfl
  | succ i ih =>
    cases l with
    | nil => simp at h
    | cons m l => exact ih (by simpa using h)

/-- The ids of the nodes created so far. -/
def Numbered (a : NodeAllocator) : Prop := a.nodeArray = (List.range a.nodeCount).map (· + 1)

theorem Numbered.nodup (h : a.Numbered) : a.nodeArray.Nodup := by
  rw [h]
  exact List.nodup_range.map (add_left_injective 1)

theorem prepareNode_iterate (h : a.Numbered) (i : ℕ) :
    (prepareNode^[i] a).Numbered ∧ (prepareNode^[i] a).isAllocated = a.isAllocated ∧
      (prepareNode^[i] a).cacheSize = a.cacheSize ∧ ∀ n, (prepareNode^[i] a).stack.count n + a.nodeArray.count n =
        a.stack.count n + (prepareNode^[i] a).nodeArray.count n := by
  induction i with
  | zero => exact ⟨h, rfl, rfl, fun n => rfl⟩
  | succ i ih =>
    obtain ⟨hn, ha, hs, hc⟩ := ih
    rw [Function.iterate_succ_apply']
    refine ⟨?_, ha, hs, fun n => ?_⟩
    · rw [Numbered, prepareNode, List.range_succ, List.map_append, hn]
      rfl
    · have := hc n
      simp only [prepareNode, List.count_cons, List.count_append, List.count_nil]
      omega

/-- Where a node can be. -/
inductive Place (ι : Type) where
  | shared
  | handedOut
  | free (i : ι)
  /-- Cleaned by a worker that has not pushed it yet. -/
  | passing (i : ι)
  deriving DecidableEq, Repr

variable {ι : Type}

def Place.equiv : Place ι ≃ (Unit ⊕ Unit) ⊕ (ι ⊕ ι) where
  toFun
    | shared => .inl (.inl ())
    | handedOut => .inl (.inr ())
    | free i => .inr (.inl i)
    | passing i => .inr (.inr i)
  invFun
    | .inl (.inl ()) => shared
    | .inl (.inr ()) => handedOut
    | .inr (.inl i) => free i
    | .inr (.inr i) => passing i
  left_inv p := by cases p <;> rfl
  right_inv p := by rcases p with (⟨⟩ | ⟨⟩) | (i | i) <;> rfl

instance [Fintype ι] : Fintype (Place ι) := Fintype.ofEquiv _ Place.equiv.symm

def Activity.passing : Activity → List ℕ
  | giveBlock n => [n]
  | _ => []

def State.content (s : State ι) : Place ι → List ℕ
  | .shared => s.allocator.stack
  | .handedOut => NodeAllocator.handedOut s.log
  | .free i => s.freeNodeStack i
  | .passing i => (s.activity i).passing

section Copies

variable [Fintype ι] [DecidableEq ι] {s t : State ι} {n : ℕ}

/-- How often a node occurs in all places. -/
def State.copies (s : State ι) (n : ℕ) : ℕ :=
  s.allocator.stack.count n + (NodeAllocator.handedOut s.log).count n +
    (∑ i, (s.freeNodeStack i).count n + ∑ i, (s.activity i).passing.count n)

omit [DecidableEq ι] in
theorem State.copies_eq : s.copies n = ∑ p, (s.content p).count n := by
  rw [← Place.equiv.symm.sum_comp]
  simp only [Fintype.sum_sum_type, Finset.univ_unique, Finset.sum_singleton]
  rfl

theorem State.copies_goto (i : ι) (x : Activity) :
    (s.goto i x).copies n + (s.activity i).passing.count n = s.copies n + x.passing.count n := by
  have := Sums.sum_update (fun y : Activity => y.passing.count n) s.activity i x
  simp only [State.copies, State.goto]
  omega

theorem State.copies_setFree (i : ι) (l : List ℕ) :
    (s.setFree i l).copies n + (s.freeNodeStack i).count n = s.copies n + l.count n := by
  have := Sums.sum_update (fun y : List ℕ => y.count n) s.freeNodeStack i l
  simp only [State.copies, State.setFree]
  omega

/-- A node is handed out when it is not, and recycled when it is. -/
def Valid : List Event → Prop
  | [] => True
  | .allocated n :: l => n ∉ handedOut l ∧ Valid l
  | .recycled n :: l => n ∈ handedOut l ∧ Valid l

omit [Fintype ι] [DecidableEq ι] in
theorem mem_handedOut_append {l m : List Event} (h : n ∈ handedOut m) (hl : .recycled n ∉ l) :
    n ∈ handedOut (l ++ m) := by
  induction l with
  | nil => exact h
  | cons e l ih =>
    have ih := ih fun hm => hl (List.mem_cons_of_mem _ hm)
    cases e with
    | allocated k => exact List.mem_cons_of_mem _ ih
    | recycled k =>
      have hk : n ≠ k := by
        rintro rfl
        exact hl List.mem_cons_self
      exact (List.mem_erase_of_ne hk).mpr ih

theorem Valid.of_append {l m : List Event} (h : Valid (l ++ m)) : Valid m := by
  induction l with
  | nil => exact h
  | cons e l ih => cases e <;> exact ih h.2

/-- Between two events that hand out a node, there is one that recycles it. -/
theorem Valid.recycled {l₁ l₂ l₃ : List Event} {n : ℕ}
    (h : Valid (l₃ ++ .allocated n :: (l₂ ++ .allocated n :: l₁))) : .recycled n ∈ l₂ := by
  by_contra hl
  have hv := h.of_append
  exact hv.1 (mem_handedOut_append List.mem_cons_self hl)

/-- The nodes created so far are in one place each. -/
structure Inv (s : State ι) : Prop where
  numbered : s.allocator.Numbered
  copies : ∀ n, s.copies n = s.allocator.nodeArray.count n
  marked : ∀ n, s.allocator.isAllocated n = true ↔ n ∈ handedOut s.log
  valid : Valid s.log
  room : ∀ i n, s.activity i = .giveBlock n →
    s.allocator.cacheSize ≤ (s.freeNodeStack i).length

omit [DecidableEq ι] in
theorem Inv.copies_le (h : Inv s) : s.copies n ≤ 1 := by
  rw [h.copies]
  exact List.nodup_iff_count_le_one.mp h.numbered.nodup n

omit [DecidableEq ι] in
theorem Inv.nodup (h : Inv s) (p : Place ι) : (s.content p).Nodup := by
  refine List.nodup_iff_count_le_one.mpr fun n => ?_
  refine le_trans ?_ (h.copies_le (n := n))
  rw [State.copies_eq]
  exact Finset.single_le_sum (f := fun p => (s.content p).count n) (fun _ _ => Nat.zero_le _)
    (Finset.mem_univ p)

theorem Inv.disjoint (h : Inv s) {p q : Place ι} (hpq : p ≠ q) :
    (s.content p).Disjoint (s.content q) := by
  intro n hp hq
  have hle := h.copies_le (n := n)
  have h₁ := List.count_pos_iff.mpr hp
  have h₂ := List.count_pos_iff.mpr hq
  have hs := Finset.sum_le_sum_of_subset (f := fun p => (s.content p).count n)
    (Finset.subset_univ {p, q})
  rw [Finset.sum_pair hpq, ← State.copies_eq] at hs
  omega

omit [DecidableEq ι] in
theorem Inv.mem_nodeArray (h : Inv s) :
    n ∈ s.allocator.nodeArray ↔ ∃ p, n ∈ s.content p := by
  rw [← List.count_pos_iff, ← h.copies, State.copies_eq, Finset.sum_pos_iff]
  simp [List.count_pos_iff]

theorem Inv.goto (h : Inv s) {i : ι} {x : Activity}
    (hx : x.passing = (s.activity i).passing) : Inv (s.goto i x) := by
  refine { h with copies := fun n => ?_, room := fun j n hj => ?_ }
  · have := State.copies_goto (n := n) (s := s) i x
    rw [hx] at this
    exact (Nat.add_right_cancel this).trans (h.copies n)
  · change Function.update s.activity i x j = _ at hj
    rcases eq_or_ne j i with rfl | hji
    · rw [Function.update_self] at hj
      rw [hj] at hx
      cases hi : s.activity j with
      | giveBlock k => exact h.room j k hi
      | _ => rw [hi] at hx; cases hx
    · rw [Function.update_of_ne hji] at hj
      exact h.room j n hj

theorem Inv.room_update (h : Inv s) {i : ι} {x : Activity} {l : List ℕ} (hx : x.passing = [])
    (j : ι) (n : ℕ) (hj : Function.update s.activity i x j = .giveBlock n) :
    s.allocator.cacheSize ≤ (Function.update s.freeNodeStack i l j).length := by
  rcases eq_or_ne j i with rfl | hji
  · rw [Function.update_self] at hj
    rw [hj] at hx
    cases hx
  · rw [Function.update_of_ne hji] at hj ⊢
    exact h.room j n hj

/-- Only a worker that is not recycling a node pops one. -/
theorem Inv.popOr (h : Inv s) {i : ι} (hi : (s.activity i).passing = []) {x : Activity}
    (hx : x.passing = []) : Inv (s.popOr i x) := by
  unfold State.popOr
  split
  · exact h.goto (hx.trans hi.symm)
  · rename_i k l hl
    have hk : k ∈ s.content (.free i) := by
      change k ∈ s.freeNodeStack i
      rw [hl]
      exact List.mem_cons_self
    have hfresh : k ∉ handedOut s.log := h.disjoint (q := .handedOut) (by simp) hk
    refine ⟨h.numbered, fun n => ?_, fun n => ?_, ⟨hfresh, h.valid⟩, h.room_update rfl⟩
    · let s₁ : State ι := { s with
        allocator := s.allocator.setAllocated k true
        log := .allocated k :: s.log }
      have h₁ : s₁.copies n = s.copies n + [k].count n := by
        simp only [s₁, State.copies, setAllocated, NodeAllocator.handedOut, List.count_cons,
          List.count_nil]
        omega
      have h₂ := State.copies_setFree (s := s₁) (n := n) i l
      have h₃ := State.copies_goto (s := s₁.setFree i l) (n := n) i .idle
      have hf : (s₁.freeNodeStack i).count n = [k].count n + l.count n := by
        simp only [s₁, hl, List.count_cons, List.count_nil]
        omega
      have hp : ((s₁.setFree i l).activity i).passing = [] := hi
      rw [hp] at h₃
      refine Eq.trans ?_ (h.copies n)
      change ((s₁.setFree i l).goto i .idle).copies n = s.copies n
      simp only [Activity.passing, List.count_nil] at h₃
      omega
    · change Function.update s.allocator.isAllocated k true n = true ↔ n ∈ k :: handedOut s.log
      rw [Function.update_apply, List.mem_cons]
      split
      · simp [*]
      · simp [*, h.marked]

theorem Inv.recycle (h : Inv s) {i : ι} {k : ℕ} (ht : s.recycle i k = some t) : Inv t := by
  unfold State.recycle at ht
  split at ht
  · rename_i hik
    obtain ⟨hi, hk⟩ := hik
    let s₁ : State ι := { s with
      allocator := s.allocator.setAllocated k false
      log := .recycled k :: s.log }
    have hv : Valid (.recycled k :: s.log) := ⟨hk, h.valid⟩
    have h₁ : ∀ n, s₁.copies n + [k].count n = s.copies n := fun n => by
      have := List.perm_cons_erase hk
      have := this.count_eq n
      simp only [List.count_cons] at this
      simp only [s₁, State.copies, setAllocated, NodeAllocator.handedOut, List.count_cons,
        List.count_nil]
      omega
    have hm : ∀ n, s₁.allocator.isAllocated n = true ↔ n ∈ handedOut s₁.log := fun n => by
      change Function.update s.allocator.isAllocated k false n = true ↔
        n ∈ (handedOut s.log).erase k
      have hnd : (handedOut s.log).Nodup := h.nodup .handedOut
      rw [Function.update_apply, hnd.mem_erase_iff]
      split
      · simp [*]
      · simp [*, h.marked]
    simp only at ht
    split at ht
    · rename_i hl
      cases ht
      refine ⟨h.numbered, fun n => ?_, hm, hv, fun j n hj => ?_⟩
      · have h₂ := State.copies_goto (s := s₁) (n := n) i (.giveBlock k)
        have hp : (s₁.activity i).passing = [] := by
          change (s.activity i).passing = []
          rw [hi]
          rfl
        rw [hp] at h₂
        refine Eq.trans ?_ ((h₁ n).trans (h.copies n))
        exact h₂
      · change Function.update s.activity i _ j = _ at hj
        change s.allocator.cacheSize ≤ (s.freeNodeStack j).length
        rcases eq_or_ne j i with rfl | hji
        · change 2 * s.allocator.cacheSize ≤ (s.freeNodeStack j).length at hl
          omega
        · rw [Function.update_of_ne hji] at hj
          exact h.room j n hj
    · cases ht
      refine ⟨h.numbered, fun n => ?_, hm, hv, fun j n hj => ?_⟩
      · have h₂ := State.copies_setFree (s := s₁) (n := n) i (k :: s.freeNodeStack i)
        have hf : (k :: s.freeNodeStack i).count n =
            [k].count n + (s₁.freeNodeStack i).count n := by
          simp only [s₁, List.count_cons, List.count_nil]
          omega
        refine Eq.trans ?_ ((h₁ n).trans (h.copies n))
        change (s₁.setFree i (k :: s.freeNodeStack i)).copies n = _
        omega
      · have := h.room_update (i := i) (x := .idle) (l := k :: s.freeNodeStack i) rfl j n
        rw [← hi, Function.update_eq_self] at this
        exact this hj
  · cases ht

theorem Inv.move (h : Inv s) {i : ι} {x : Activity} {shared l : List ℕ} (hx : x.passing = [])
    (hc : ∀ n, shared.count n + l.count n + x.passing.count n = s.allocator.stack.count n +
      (s.freeNodeStack i).count n + (s.activity i).passing.count n) :
    Inv ({ s with allocator := { s.allocator with stack := shared } }.setFree i l |>.goto i x) := by
  refine { h with copies := fun n => ?_, room := h.room_update hx }
  let s₁ : State ι := { s with allocator := { s.allocator with stack := shared } }
  have h₁ : s₁.copies n + s.allocator.stack.count n = s.copies n + shared.count n := by
    simp only [s₁, State.copies]
    omega
  have h₂ : (s₁.setFree i l).copies n + (s.freeNodeStack i).count n = s₁.copies n + l.count n :=
    State.copies_setFree i l
  have h₃ : ((s₁.setFree i l).goto i x).copies n + (s.activity i).passing.count n =
      (s₁.setFree i l).copies n + x.passing.count n := State.copies_goto i x
  refine Eq.trans ?_ (h.copies n)
  change ((s₁.setFree i l).goto i x).copies n = s.copies n
  have := hc n
  omega

omit [DecidableEq ι] in
theorem Inv.prepare (h : Inv s) :
    Inv { s with allocator := s.allocator.prepareOneBatchOfNodes } := by
  obtain ⟨hn, ha, hs, hc⟩ := prepareNode_iterate h.numbered s.allocator.batchSize
  refine ⟨hn, fun n => ?_, fun n => ?_, h.valid, fun i n hi => hs.trans_le (h.room i n hi)⟩
  · have := hc n
    have := h.copies n
    simp only [State.copies, prepareOneBatchOfNodes] at *
    omega
  · exact (iff_of_eq (congrArg (· n = true) ha)).trans (h.marked n)

theorem Inv.step (h : Inv s) {act : Action ι} (ht : s.step act = some t) : Inv t := by
  cases act with
  | allocate i =>
    simp only [State.step] at ht
    split at ht
    · rename_i hi
      cases ht
      exact h.goto (by rw [hi]; rfl)
    · cases ht
  | recycle i k => exact h.recycle ht
  | worker i =>
    cases hi : s.activity i with
    | idle => simp [State.step, hi] at ht
    | allocate =>
      simp only [State.step, hi, Option.some.injEq] at ht
      subst ht
      exact h.popOr (by rw [hi]; rfl) rfl
    | takeBlock =>
      simp only [State.step, hi, Option.some.injEq] at ht
      subst ht
      refine h.move rfl fun n => ?_
      rw [hi, count_takeBlock]
      rfl
    | pop =>
      simp only [State.step, hi, Option.some.injEq] at ht
      subst ht
      exact h.popOr (by rw [hi]; rfl) rfl
    | prepare =>
      simp only [State.step, hi, Option.some.injEq] at ht
      subst ht
      refine h.prepare.goto ?_
      change _ = (s.activity i).passing
      rw [hi]
      rfl
    | giveBlock k =>
      simp only [State.step, hi, Option.map_eq_some_iff] at ht
      obtain ⟨⟨shared, l⟩, hg, rfl⟩ := ht
      refine h.move rfl fun n => ?_
      have := count_giveBlock (n := n) hg
      simp only [hi, Activity.passing, List.count_cons, List.count_nil]
      omega

/-- A worker in a call can always go on: its stack is not empty when a block is given away. -/
theorem Inv.worker_isSome (h : Inv s) {i : ι} (hi : s.activity i ≠ .idle) :
    (s.step (.worker i)).isSome := by
  cases hx : s.activity i with
  | idle => exact (hi hx).elim
  | giveBlock n =>
    simp only [State.step, hx, Option.isSome_map]
    exact giveBlock_isSome (h.room i n hx)
  | _ => simp [State.step, hx]

omit [DecidableEq ι] in
theorem Inv.of_start (cacheSize batchSize : ℕ) : Inv (start ι cacheSize batchSize) := by
  obtain ⟨hn, ha, _, hc⟩ := prepareNode_iterate (a := { cacheSize, batchSize }) rfl batchSize
  refine ⟨hn, fun n => ?_, fun n => ?_, trivial, by rintro i n ⟨⟩⟩
  · have := hc n
    simp only [List.count_nil] at this
    simp only [State.copies, start, new, prepareOneBatchOfNodes, NodeAllocator.handedOut,
      Activity.passing, List.count_nil, Finset.sum_const_zero]
    omega
  · have hm : (start ι cacheSize batchSize).allocator.isAllocated n = false := congrFun ha n
    rw [hm]
    exact ⟨nofun, nofun⟩

theorem Inv.of_run {cacheSize batchSize : ℕ} {l : List (Action ι)}
    (h : Transition.run State.step (start ι cacheSize batchSize) l = some s) : Inv s :=
  (Transition.Reaches.of_run h).invariant (fun _ _ _ hs ht => hs.step ht) (.of_start _ _)

/-- Every node is in one place, and only those handed out are marked as allocated. -/
structure Partition (s : State ι) : Prop where
  nodup : ∀ p, (s.content p).Nodup
  disjoint : ∀ p q, p ≠ q → (s.content p).Disjoint (s.content q)
  complete : ∀ n, n ∈ s.allocator.nodeArray ↔ ∃ p, n ∈ s.content p
  /-- Only inside a call of recycle is a node in none of the stacks and not handed out. -/
  passing : ∀ i, s.activity i = .idle → s.content (.passing i) = []
  /-- The log has the newest event first. -/
  recycled : ∀ l₁ l₂ l₃ n, s.log = l₃ ++ .allocated n :: (l₂ ++ .allocated n :: l₁) →
    .recycled n ∈ l₂
  isAllocated : ∀ n, s.allocator.isAllocated n = true ↔ n ∈ s.content .handedOut
  listed : s.allocator.allocatedNodeArray.Perm (s.content .handedOut)

/-- Workers that allocate and recycle never share a node, for caches and batches of any size. -/
theorem partition_of_run {cacheSize batchSize : ℕ} {l : List (Action ι)}
    (h : Transition.run State.step (start ι cacheSize batchSize) l = some s) : Partition s := by
  have hs := Inv.of_run h
  refine ⟨hs.nodup, fun p q hpq => hs.disjoint hpq, fun n => hs.mem_nodeArray, fun i hi => ?_,
    fun l₁ l₂ l₃ n he => (he ▸ hs.valid).recycled, hs.marked, ?_⟩
  · change (s.activity i).passing = []
    rw [hi]
    rfl
  · rw [allocatedNodeArray_eq]
    refine (List.perm_ext_iff_of_nodup (hs.numbered.nodup.filter _) (hs.nodup .handedOut)).mpr ?_
    intro n
    rw [List.mem_filter, hs.marked, hs.mem_nodeArray]
    exact ⟨fun hn => hn.2, fun hn => ⟨⟨.handedOut, hn⟩, hn⟩⟩

/-- One worker allocates a node, another one recycles it and allocates it again. -/
theorem partition_of_run_again :
    Partition ((Transition.run State.step (start Bool 1 1)
      [.allocate true, .worker true, .worker true, .worker true, .recycle false 1,
        .allocate false, .worker false]).get rfl) :=
  partition_of_run (Option.some_get _).symm

end Copies

end NodeAllocator

end InetLisp
