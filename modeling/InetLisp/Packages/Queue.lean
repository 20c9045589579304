import InetLisp.Lib.Ring
import InetLisp.Lib.Transition
import Mathlib.Logic.Function.Basic
import Mathlib.Data.List.Basic

/-! # The ring queue

One producer pushes while any number of consumers, serialised by the front lock,
pop. Each side reads the cursor of the other side only when its own cached copy
says that the queue is full or empty. A step is one access to shared memory with
the private computation after it.
-/

namespace InetLisp

open Lib Lib.Ring

/-- The values are pointers of any kind. -/
structure Queue (α : Type) where
  size : BitVec 64
  mask : BitVec 64
  values : List α
  frontCursor : BitVec 64
  backCursor : BitVec 64
  cachedFrontCursor : BitVec 64
  cachedBackCursor : BitVec 64
  deriving DecidableEq, Repr

namespace Queue

variable {α ι : Type}

/-- `queue_new`, with all the cursors at `c` and with the values the memory holds. -/
def new (size c : BitVec 64) (values : List α) : Queue α where
  size := size
  mask := size - 1#64
  values := values
  frontCursor := c
  backCursor := c
  cachedFrontCursor := c
  cachedBackCursor := c

def getValue (q : Queue α) (cursor : BitVec 64) : Option α := q.values[slot q.mask cursor]?

def setValue (q : Queue α) (cursor : BitVec 64) (v : α) : Queue α :=
  { q with values := q.values.set (slot q.mask cursor) v }

def isFull (q : Queue α) (front back : BitVec 64) : Bool := back - front == q.size

def isEmpty (front back : BitVec 64) : Bool := back == front

/-- Where the producer is in `queue_push_back`. -/
inductive Producer (α : Type) where
  /-- Not in a call; the last call returned this. -/
  | returned (result : Option Bool)
  /-- About to load the back cursor. -/
  | pushBack (value : α)
  /-- Full by the cached front cursor; about to load the front cursor. -/
  | loadFront (value : α) (back : BitVec 64)
  | setValue (value : α) (back : BitVec 64)
  /-- About to store the back cursor. -/
  | storeBack (value : α) (back : BitVec 64)
  deriving DecidableEq, Repr

/--
Where a consumer is in `worker_next_task` or `worker_offer_task`. `none` is the
`NULL` of an empty queue, told apart from a value that happens to be `NULL`.
-/
inductive Consumer (α : Type) where
  | returned (result : Option α)
  /-- About to take the lock. -/
  | lock
  /-- About to load the front cursor. -/
  | popFront
  /-- Empty by the cached back cursor; about to load the back cursor. -/
  | loadBack (front : BitVec 64)
  | getValue (front : BitVec 64)
  /-- About to store the front cursor. -/
  | storeFront (front : BitVec 64) (value : α)
  | unlock (result : Option α)
  deriving DecidableEq, Repr

/-- The two lists are ghosts: what stores to the cursors have pushed and popped so far. -/
structure State (α ι : Type) where
  queue : Queue α
  locked : Bool
  producer : Producer α
  consumer : ι → Consumer α
  pushed : List α
  popped : List α

/-- Enter a call, or go on with it. -/
inductive Action (α ι : Type) where
  | push (value : α)
  | producer
  | pop (i : ι)
  | consumer (i : ι)
  deriving DecidableEq, Repr

namespace State

def length (s : State α ι) : ℕ := s.pushed.length - s.popped.length

def setProducer (s : State α ι) (p : Producer α) : State α ι := { s with producer := p }

/-- One step of `queue_push_back`. -/
def pushBack (s : State α ι) : Option (State α ι) :=
  match s.producer with
  | .returned _ => none
  | .pushBack v =>
    let back := s.queue.backCursor
    if s.queue.isFull s.queue.cachedFrontCursor back then
      some (s.setProducer (.loadFront v back))
    else
      some (s.setProducer (.setValue v back))
  | .loadFront v back =>
    let queue := { s.queue with cachedFrontCursor := s.queue.frontCursor }
    if queue.isFull queue.cachedFrontCursor back then
      some { s with queue := queue, producer := .returned (some false) }
    else
      some { s with queue := queue, producer := .setValue v back }
  | .setValue v back =>
    some { s with queue := s.queue.setValue back v, producer := .storeBack v back }
  | .storeBack v back =>
    some { s with
      queue := { s.queue with backCursor := back + 1 }
      producer := .returned (some true)
      pushed := s.pushed ++ [v] }

variable [DecidableEq ι]

def setConsumer (s : State α ι) (i : ι) (c : Consumer α) : State α ι :=
  { s with consumer := Function.update s.consumer i c }

/-- One step of `queue_pop_front`, under the lock. -/
def popFront (s : State α ι) (i : ι) : Option (State α ι) :=
  match s.consumer i with
  | .returned _ => none
  | .lock => if s.locked then none else some ({ s with locked := true }.setConsumer i .popFront)
  | .popFront =>
    let front := s.queue.frontCursor
    if isEmpty front s.queue.cachedBackCursor then
      some (s.setConsumer i (.loadBack front))
    else
      some (s.setConsumer i (.getValue front))
  | .loadBack front =>
    let queue := { s.queue with cachedBackCursor := s.queue.backCursor }
    if isEmpty front queue.cachedBackCursor then
      some ({ s with queue := queue }.setConsumer i (.unlock none))
    else
      some ({ s with queue := queue }.setConsumer i (.getValue front))
  | .getValue front =>
    (s.queue.getValue front).map fun v => s.setConsumer i (.storeFront front v)
  | .storeFront front v =>
    some ({ s with
      queue := { s.queue with frontCursor := front + 1 }
      popped := s.popped ++ [v] }.setConsumer i (.unlock (some v)))
  | .unlock result => some ({ s with locked := false }.setConsumer i (.returned result))

def step (s : State α ι) : Action α ι → Option (State α ι)
  | .push v =>
    match s.producer with
    | .returned _ => some (s.setProducer (.pushBack v))
    | _ => none
  | .producer => s.pushBack
  | .pop i =>
    match s.consumer i with
    | .returned _ => some (s.setConsumer i .lock)
    | _ => none
  | .consumer i => s.popFront i

end State

/-- A new queue, nobody in a call. -/
def start (size c : BitVec 64) (values : List α) : State α ι where
  queue := new size c values
  locked := false
  producer := .returned none
  consumer := fun _ => .returned none
  pushed := []
  popped := []

/-- A slot promised to the producer by the test it has passed. -/
def Producer.room : Producer α → ℕ
  | .setValue _ _ | .storeBack _ _ => 1
  | _ => 0

/-- The back cursor the producer has loaded. -/
def Producer.cursor : Producer α → Option (BitVec 64)
  | .loadFront _ back | .setValue _ back | .storeBack _ back => some back
  | _ => none

def Consumer.Locked : Consumer α → Prop
  | .returned _ | .lock => False
  | _ => True

/-- What the consumer knows of the queue by what it has loaded and tested. -/
def Consumer.Knows (c : BitVec 64) (b : ℕ) (pushed popped : List α) : Consumer α → Prop
  | .loadBack front => front = pos c popped.length
  | .getValue front => front = pos c popped.length ∧ popped.length < b
  | .storeFront front v => front = pos c popped.length ∧ popped.length < b ∧
      pushed[popped.length]? = some v
  | .unlock (some v) => popped.getLast? = some v
  | _ => True

theorem Consumer.knows_of_not_locked {c : BitVec 64} {b : ℕ} {pushed popped : List α}
    {x : Consumer α} (h : ¬ x.Locked) : x.Knows c b pushed popped := by
  cases x <;> first | trivial | exact (h trivial).elim

theorem Consumer.Knows.push {c : BitVec 64} {b : ℕ} {pushed popped : List α} {v : α}
    {x : Consumer α} (h : x.Knows c b pushed popped) : x.Knows c b (pushed ++ [v]) popped := by
  cases x with
  | storeFront front w =>
    obtain ⟨hf, hb, hw⟩ := h
    refine ⟨hf, hb, ?_⟩
    rw [List.getElem?_append_left (List.getElem?_eq_some_iff.mp hw).1]
    exact hw
  | unlock r => cases r <;> exact h
  | _ => exact h

/--
Every cursor stands a number of places after the starting position: the real ones
by what was pushed and popped, the cached ones by `a` and `b`, which lag behind.
-/
structure Inv (k : ℕ) (c : BitVec 64) (a b : ℕ) (s : State α ι) : Prop where
  size : s.queue.size = BitVec.ofNat 64 (2 ^ k)
  mask : s.queue.mask = BitVec.ofNat 64 (2 ^ k) - 1#64
  length : s.queue.values.length = 2 ^ k
  front : s.queue.frontCursor = pos c s.popped.length
  back : s.queue.backCursor = pos c s.pushed.length
  cachedFront : s.queue.cachedFrontCursor = pos c a
  cachedBack : s.queue.cachedBackCursor = pos c b
  cachedFront_le : a ≤ s.popped.length
  cachedBack_le : b ≤ s.pushed.length
  popped_le : s.popped.length ≤ b
  full : s.pushed.length + s.producer.room ≤ a + 2 ^ k
  fifo : s.popped <+: s.pushed
  stored : ∀ j v, s.popped.length ≤ j → s.pushed[j]? = some v →
    s.queue.getValue (pos c j) = some v
  writing : ∀ back, s.producer.cursor = some back → back = pos c s.pushed.length
  written : ∀ v back, s.producer = .storeBack v back → s.queue.getValue back = some v
  knows : ∀ i, (s.consumer i).Knows c b s.pushed s.popped
  locked : ∀ i, (s.consumer i).Locked → s.locked
  serial : ∀ i, (s.consumer i).Locked → ∀ j, (s.consumer j).Locked → j = i

variable {k a b : ℕ} {c : BitVec 64} {s t : State α ι}

theorem Inv.of_start (values : List α) (h : values.length = 2 ^ k) :
    Inv k c 0 0 (start (BitVec.ofNat 64 (2 ^ k)) c values : State α ι) where
  size := rfl
  mask := rfl
  length := h
  front := pos_zero.symm
  back := pos_zero.symm
  cachedFront := pos_zero.symm
  cachedBack := pos_zero.symm
  cachedFront_le := le_rfl
  cachedBack_le := le_rfl
  popped_le := le_rfl
  full := Nat.zero_le _
  fifo := List.prefix_rfl
  stored := by rintro j v _ ⟨⟩
  writing := by rintro back ⟨⟩
  written := by rintro v back ⟨⟩
  knows := fun _ => trivial
  locked := by rintro i ⟨⟩
  serial := by rintro i ⟨⟩

/-- The test for a full queue says how the cached cursor lags. -/
theorem Inv.isFull_iff (hk : k < 64) (h : Inv k c a b s) {i j : ℕ} (hij : i ≤ j)
    (hj : j ≤ i + 2 ^ k) : s.queue.isFull (pos c i) (pos c j) = true ↔ j = i + 2 ^ k := by
  rw [isFull, h.size, beq_iff_eq]
  exact pos_sub_eq_size hk hij hj

theorem Inv.popped_le_pushed (h : Inv k c a b s) : s.popped.length ≤ s.pushed.length :=
  h.popped_le.trans h.cachedBack_le

theorem Inv.pushed_le (h : Inv k c a b s) : s.pushed.length ≤ a + 2 ^ k := by
  have := h.full
  omega

/-- The test for an empty queue says how the cached cursor leads. -/
theorem Inv.isEmpty_iff (hk : k < 64) (h : Inv k c a b s) {j : ℕ} (hj : s.popped.length ≤ j)
    (hl : j ≤ s.pushed.length) : isEmpty (pos c s.popped.length) (pos c j) = true ↔
      j = s.popped.length := by
  have := h.pushed_le
  have := h.cachedFront_le
  rw [isEmpty, beq_iff_eq]
  exact pos_eq_iff hk hj (by omega)

theorem Inv.setProducer (h : Inv k c a b s) {p : Producer α}
    (hp : s.pushed.length + p.room ≤ a + 2 ^ k)
    (hc : ∀ back, p.cursor = some back → back = pos c s.pushed.length)
    (hv : ∀ v back, p = .storeBack v back → s.queue.getValue back = some v) :
    Inv k c a b (s.setProducer p) :=
  { h with full := hp, writing := hc, written := hv }

/-- A full queue stays full until the producer loads the front cursor again. -/
theorem Inv.loadFront (h : Inv k c a b s) :
    Inv k c s.popped.length b
      { s with queue := { s.queue with cachedFrontCursor := s.queue.frontCursor } } :=
  { h with
    cachedFront := h.front
    cachedFront_le := le_rfl
    full := h.full.trans (Nat.add_le_add_right h.cachedFront_le _) }

/-- The slot at the back holds no value that is still to be popped. -/
theorem Inv.slot_ne (hk : k < 64) (h : Inv k c a b s) (hp : s.producer.room = 1) {j : ℕ}
    (hj : s.popped.length ≤ j) (hl : j < s.pushed.length) :
    slot s.queue.mask (pos c j) ≠ slot s.queue.mask (pos c s.pushed.length) := by
  have := h.full
  have := h.cachedFront_le
  rw [h.mask]
  exact Ring.slot_ne hk hl (by omega)

theorem Inv.setValue (hk : k < 64) (h : Inv k c a b s) {v : α} {back : BitVec 64}
    (hp : s.producer = .setValue v back) :
    Inv k c a b { s with queue := s.queue.setValue back v, producer := .storeBack v back } := by
  have hb : back = pos c s.pushed.length := h.writing back (by rw [hp]; rfl)
  have hr : s.producer.room = 1 := by rw [hp]; rfl
  refine { h with length := ?_, full := ?_, stored := ?_, writing := ?_, written := ?_ }
  · rw [Queue.setValue, List.length_set]
    exact h.length
  · have := h.full
    rw [hr] at this
    exact this
  · intro j w hj hw
    have hl : j < s.pushed.length := (List.getElem?_eq_some_iff.mp hw).1
    have hne := h.slot_ne hk hr hj hl
    rw [← h.stored j w hj hw, getValue, getValue, Queue.setValue, hb]
    exact List.getElem?_set_ne hne.symm
  · rintro _ ⟨⟩
    exact hb
  · rintro _ _ ⟨⟩
    rw [getValue, Queue.setValue, List.getElem?_set_self]
    rw [h.length, h.mask]
    exact slot_lt hk

theorem Inv.storeBack (h : Inv k c a b s) {v : α} {back : BitVec 64}
    (hp : s.producer = .storeBack v back) :
    Inv k c a b { s with
      queue := { s.queue with backCursor := back + 1 }
      producer := .returned (some true)
      pushed := s.pushed ++ [v] } := by
  have hb : back = pos c s.pushed.length := h.writing back (by rw [hp]; rfl)
  have hl : (s.pushed ++ [v]).length = s.pushed.length + 1 := List.length_append
  refine { h with
    back := ?_, cachedBack_le := ?_, full := ?_, fifo := ?_, stored := ?_, writing := ?_
    written := ?_, knows := fun i => (h.knows i).push }
  · rw [hl, hb]
    exact pos_succ
  · rw [hl]
    exact h.cachedBack_le.trans (Nat.le_succ _)
  · have := h.full
    rw [hp] at this
    rw [hl]
    exact this
  · exact h.fifo.trans (List.prefix_append _ _)
  · intro j w hj hw
    rcases Nat.lt_or_ge j s.pushed.length with hlt | hge
    · rw [List.getElem?_append_left hlt] at hw
      exact h.stored j w hj hw
    · rw [List.getElem?_append_right hge] at hw
      obtain ⟨hz, rfl⟩ : j - s.pushed.length = 0 ∧ v = w := by
        cases hd : j - s.pushed.length with
        | zero => exact ⟨rfl, by simpa [hd] using hw⟩
        | succ d => simp [hd] at hw
      obtain rfl : j = s.pushed.length := by omega
      exact hb ▸ h.written v back hp
  · rintro _ ⟨⟩
  · rintro _ _ ⟨⟩

theorem Inv.loadBack (h : Inv k c a b s) :
    Inv k c a s.pushed.length
      { s with queue := { s.queue with cachedBackCursor := s.queue.backCursor } } :=
  { h with
    cachedBack := h.back
    cachedBack_le := le_rfl
    popped_le := h.popped_le_pushed
    knows := fun i => by
      have := h.knows i
      cases hi : s.consumer i with
      | getValue front =>
        rw [hi] at this
        exact ⟨this.1, this.2.trans_le h.cachedBack_le⟩
      | storeFront front v =>
        rw [hi] at this
        exact ⟨this.1, this.2.1.trans_le h.cachedBack_le, this.2.2⟩
      | unlock r => rw [hi] at this; cases r <;> exact this
      | _ => rw [hi] at this; exact this }

theorem Inv.setLocked (h : Inv k c a b s) (hn : ∀ i, ¬ (s.consumer i).Locked) (l : Bool) :
    Inv k c a b { s with locked := l } :=
  { h with locked := fun i hi => (hn i hi).elim }

theorem Inv.pushBack (hk : k < 64) (h : Inv k c a b s) (ht : s.pushBack = some t) :
    ∃ a', Inv k c a' b t := by
  cases hp : s.producer with
  | returned r => simp [State.pushBack, hp] at ht
  | pushBack v =>
    simp only [State.pushBack, hp, h.back, h.cachedFront] at ht
    have hle := h.cachedFront_le.trans h.popped_le_pushed
    have hfull := h.isFull_iff hk hle h.pushed_le
    split at ht
    · cases ht
      refine ⟨a, h.setProducer h.pushed_le ?_ ?_⟩
      · rintro _ ⟨⟩; rfl
      · rintro _ _ ⟨⟩
    · rename_i hn
      cases ht
      rw [hfull] at hn
      have := h.pushed_le
      refine ⟨a, h.setProducer (by change _ + 1 ≤ _; omega) ?_ ?_⟩
      · rintro _ ⟨⟩; rfl
      · rintro _ _ ⟨⟩
  | loadFront v back =>
    have hb : back = pos c s.pushed.length := h.writing back (by rw [hp]; rfl)
    have hl := h.loadFront
    have hle := h.popped_le_pushed
    have hp' : s.pushed.length ≤ s.popped.length + 2 ^ k := hl.pushed_le
    have hfull := hl.isFull_iff hk hle hl.pushed_le
    simp only [State.pushBack, hp, hb, h.front] at ht hl
    split at ht
    · cases ht
      refine ⟨_, hl.setProducer hl.pushed_le ?_ ?_⟩
      · rintro _ ⟨⟩
      · rintro _ _ ⟨⟩
    · rename_i hn
      cases ht
      have hne := mt hfull.mpr hn
      refine ⟨_, hl.setProducer (by change s.pushed.length + 1 ≤ _; omega) ?_ ?_⟩
      · rintro _ ⟨⟩; rfl
      · rintro _ _ ⟨⟩
  | setValue v back =>
    simp only [State.pushBack, hp, Option.some.injEq] at ht
    exact ⟨a, ht ▸ h.setValue hk hp⟩
  | storeBack v back =>
    simp only [State.pushBack, hp, Option.some.injEq] at ht
    exact ⟨a, ht ▸ h.storeBack hp⟩

theorem Inv.length_of_full (hk : k < 64) (h : Inv k c a b s) (ht : s.pushBack = some t)
    (hf : t.producer = .returned (some false)) : s.length = 2 ^ k := by
  cases hp : s.producer with
  | returned r => simp [State.pushBack, hp] at ht
  | pushBack v =>
    simp only [State.pushBack, hp] at ht
    split at ht <;> cases ht <;> cases hf
  | loadFront v back =>
    have hb : back = pos c s.pushed.length := h.writing back (by rw [hp]; rfl)
    have hl := h.loadFront
    have hfull := hl.isFull_iff hk h.popped_le_pushed hl.pushed_le
    rw [← h.front, ← hb] at hfull
    simp only [State.pushBack, hp] at ht
    split at ht
    · rename_i hq
      have := hfull.mp hq
      exact Nat.sub_eq_of_eq_add' this
    · cases ht
      cases hf
  | setValue v back =>
    simp only [State.pushBack, hp, Option.some.injEq] at ht
    subst ht
    cases hf
  | storeBack v back =>
    simp only [State.pushBack, hp, Option.some.injEq] at ht
    subst ht
    cases hf

variable [DecidableEq ι]

theorem Inv.setConsumer (h : Inv k c a b s) {i : ι} {x : Consumer α}
    (hx : x.Knows c b s.pushed s.popped)
    (hl : x.Locked → s.locked ∧ ∀ j, j ≠ i → ¬ (s.consumer j).Locked) :
    Inv k c a b (s.setConsumer i x) := by
  refine { h with knows := ?_, locked := ?_, serial := ?_ }
  · exact (Function.forall_update_iff _ fun _ (y : Consumer α) => y.Knows c b s.pushed s.popped).mpr
      ⟨hx, fun j _ => h.knows j⟩
  · exact (Function.forall_update_iff _ fun _ (y : Consumer α) => y.Locked → s.locked).mpr
      ⟨fun hx => (hl hx).1, fun j _ => h.locked j⟩
  · intro m hm j hj
    simp only [State.setConsumer, Function.update_apply] at hm hj
    split at hm <;> split at hj
    · simp [*]
    · exact ((hl hm).2 j ‹_› hj).elim
    · exact ((hl hj).2 m ‹_› hm).elim
    · exact h.serial m hm j hj

theorem Inv.keepLock (h : Inv k c a b s) {i : ι} {x : Consumer α} (hi : (s.consumer i).Locked)
    (hx : x.Knows c b s.pushed s.popped) : Inv k c a b (s.setConsumer i x) := by
  refine h.setConsumer hx fun _ => ⟨h.locked i hi, ?_⟩
  intro j hj hj'
  exact hj (h.serial i hi j hj')

/-- The front moves on, past a value that was read. -/
theorem Inv.storeFront (h : Inv k c a b s) {i : ι} {front : BitVec 64} {v : α}
    (hi : s.consumer i = .storeFront front v) :
    Inv k c a b ({ s with
      queue := { s.queue with frontCursor := front + 1 }
      popped := s.popped ++ [v] }.setConsumer i (.unlock (some v))) := by
  have hl : (s.consumer i).Locked := by rw [hi]; trivial
  have hk := h.knows i
  rw [hi] at hk
  obtain ⟨hf, hb, hv⟩ := hk
  have he : (s.popped ++ [v]).length = s.popped.length + 1 := List.length_append
  have other : ∀ j, j ≠ i → ¬ (s.consumer j).Locked := fun j hj hj' => hj (h.serial i hl j hj')
  have hn := h.keepLock (x := .unlock none) hl trivial
  have hx : ∀ j, (Function.update s.consumer i (.unlock none) j).Locked ↔
      (Function.update s.consumer i (.unlock (some v)) j).Locked := fun j => by
    rcases eq_or_ne j i with rfl | hj
    · simp only [Function.update_self, Consumer.Locked]
    · simp only [Function.update_of_ne hj]
  refine { hn with
    front := ?_, cachedFront_le := ?_, popped_le := ?_, fifo := ?_, stored := ?_, knows := ?_
    locked := fun j hj => hn.locked j ((hx j).mpr hj)
    serial := fun j hj m hm => hn.serial j ((hx j).mpr hj) m ((hx m).mpr hm) }
  · change front + 1 = pos c (s.popped ++ [v]).length
    rw [he, hf]
    exact pos_succ
  · change a ≤ (s.popped ++ [v]).length
    rw [he]
    exact h.cachedFront_le.trans (Nat.le_succ _)
  · change (s.popped ++ [v]).length ≤ b
    rw [he]
    exact hb
  · change s.popped ++ [v] <+: s.pushed
    obtain ⟨r, hr⟩ := h.fifo
    cases r with
    | nil =>
      rw [List.append_nil] at hr
      rw [← hr, List.getElem?_eq_none le_rfl] at hv
      cases hv
    | cons w r =>
      obtain rfl : w = v := by simpa [← hr] using hv
      exact ⟨r, by rw [← hr, List.append_assoc]; rfl⟩
  · intro j w hj hw
    change (s.popped ++ [v]).length ≤ j at hj
    exact h.stored j w (by omega) hw
  · refine (Function.forall_update_iff _ fun _ (y : Consumer α) =>
      y.Knows c b s.pushed (s.popped ++ [v])).mpr ⟨?_, fun j hj => ?_⟩
    · exact List.getLast?_concat
    exact Consumer.knows_of_not_locked (other j hj)

theorem Inv.popFront (hk : k < 64) (h : Inv k c a b s) {i : ι} (ht : s.popFront i = some t) :
    ∃ b', Inv k c a b' t := by
  have hi := h.knows i
  cases hc : s.consumer i with
  | returned r => simp [State.popFront, hc] at ht
  | lock =>
    simp only [State.popFront, hc] at ht
    split at ht
    · cases ht
    · rename_i hs
      cases ht
      have hn : ∀ j, ¬ (s.consumer j).Locked := fun j hj => hs (h.locked j hj)
      exact ⟨b, (h.setLocked hn true).setConsumer trivial fun _ => ⟨rfl, fun j _ => hn j⟩⟩
  | popFront =>
    have hl : (s.consumer i).Locked := by rw [hc]; trivial
    have he := h.isEmpty_iff hk h.popped_le h.cachedBack_le
    simp only [State.popFront, hc, h.front, h.cachedBack] at ht
    split at ht
    · cases ht
      exact ⟨b, h.keepLock hl rfl⟩
    · rename_i hn
      cases ht
      have hne := mt he.mpr hn
      have := h.popped_le
      exact ⟨b, h.keepLock hl ⟨rfl, by omega⟩⟩
  | loadBack front =>
    have hl : (s.consumer i).Locked := by rw [hc]; trivial
    rw [hc] at hi
    obtain rfl : front = pos c s.popped.length := hi
    have he := h.isEmpty_iff hk h.popped_le_pushed le_rfl
    rw [← h.back] at he
    simp only [State.popFront, hc] at ht
    have hb := h.loadBack
    split at ht
    · cases ht
      exact ⟨_, hb.keepLock (x := .unlock none) hl trivial⟩
    · rename_i hn
      cases ht
      have hne := mt he.mpr hn
      have := h.popped_le_pushed
      exact ⟨_, hb.keepLock (x := .getValue (pos c s.popped.length)) hl
        ⟨rfl, by change s.popped.length < _; omega⟩⟩
  | getValue front =>
    have hl : (s.consumer i).Locked := by rw [hc]; trivial
    rw [hc] at hi
    obtain ⟨rfl, hlt⟩ := hi
    simp only [State.popFront, hc, Option.map_eq_some_iff] at ht
    obtain ⟨v, hv, rfl⟩ := ht
    have hp := List.getElem?_eq_getElem (hlt.trans_le h.cachedBack_le)
    obtain rfl := Option.some.inj ((h.stored _ _ le_rfl hp).symm.trans hv)
    exact ⟨b, h.keepLock hl ⟨rfl, hlt, hp⟩⟩
  | storeFront front v =>
    simp only [State.popFront, hc, Option.some.injEq] at ht
    exact ⟨b, ht ▸ h.storeFront hc⟩
  | unlock r =>
    have hl : (s.consumer i).Locked := by rw [hc]; trivial
    simp only [State.popFront, hc, Option.some.injEq] at ht
    have hn := h.keepLock (x := .returned r) hl trivial
    refine ⟨b, ht ▸ hn.setLocked (fun j hj => ?_) false⟩
    simp only [State.setConsumer, Function.update_apply] at hj
    split at hj
    · exact hj
    · exact ‹¬ j = i› (h.serial i hl j hj)

theorem Inv.step (hk : k < 64) {act : Action α ι} (h : ∃ a b, Inv k c a b s)
    (ht : s.step act = some t) : ∃ a b, Inv k c a b t := by
  obtain ⟨a, b, h⟩ := h
  cases act with
  | push v =>
    cases hp : s.producer with
    | returned r =>
      simp only [State.step, hp, Option.some.injEq] at ht
      refine ⟨a, b, ht ▸ h.setProducer h.pushed_le ?_ ?_⟩
      · rintro _ ⟨⟩
      · rintro _ _ ⟨⟩
    | _ => simp [State.step, hp] at ht
  | producer =>
    obtain ⟨a', h'⟩ := h.pushBack hk ht
    exact ⟨a', b, h'⟩
  | pop i =>
    cases hc : s.consumer i with
    | returned r =>
      simp only [State.step, hc, Option.some.injEq] at ht
      exact ⟨a, b, ht ▸ h.setConsumer trivial (by rintro ⟨⟩)⟩
    | _ => simp [State.step, hc] at ht
  | consumer i =>
    obtain ⟨b', h'⟩ := h.popFront hk ht
    exact ⟨a, b', h'⟩

theorem Inv.of_run (hk : k < 64) {values : List α} (hv : values.length = 2 ^ k)
    {l : List (Action α ι)}
    (h : Transition.run State.step (start (BitVec.ofNat 64 (2 ^ k)) c values) l = some s) :
    ∃ a b, Inv k c a b s :=
  (Transition.Reaches.of_run h).invariant (P := fun s => ∃ a b, Inv k c a b s)
    (fun _ _ _ hs ht => Inv.step hk hs ht) ⟨0, 0, Inv.of_start values hv⟩

/-- What callers of the queue rely on. -/
structure BoundedFifo (k : ℕ) (c : BitVec 64) (s : State α ι) : Prop where
  /-- The values popped are the first ones pushed, in order, each once. -/
  fifo : s.popped <+: s.pushed
  bounded : s.length ≤ 2 ^ k
  /-- A pop that returns a value returns the one popped last. -/
  popped : ∀ i v, s.consumer i = .unlock (some v) → s.popped.getLast? = some v
  /-- A push that returns false loads the front cursor of a full queue. -/
  full : ∀ t, s.step .producer = some t → t.producer = .returned (some false) → s.length = 2 ^ k
  /-- A pop that returns `NULL` loads the back cursor of an empty queue. -/
  empty : ∀ i t, s.step (.consumer i) = some t → t.consumer i = .unlock none → s.length = 0
  /-- The slot about to be written holds no value still to be popped. -/
  unread : ∀ v back, s.producer = .setValue v back → ∀ j, s.popped.length ≤ j →
    j < s.pushed.length → slot s.queue.mask (pos c j) ≠ slot s.queue.mask back
  stored : ∀ j v, s.popped.length ≤ j → s.pushed[j]? = some v →
    s.queue.getValue (pos c j) = some v
  cachedFront : ∃ a ≤ s.popped.length, s.pushed.length ≤ a + 2 ^ k ∧
    s.queue.cachedFrontCursor = pos c a ∧ s.queue.frontCursor = pos c s.popped.length
  cachedBack : ∃ b ≤ s.pushed.length, s.popped.length ≤ b ∧
    s.queue.cachedBackCursor = pos c b ∧ s.queue.backCursor = pos c s.pushed.length

theorem Inv.length_of_empty (hk : k < 64) (h : Inv k c a b s) {i : ι}
    (ht : s.popFront i = some t) (hf : t.consumer i = .unlock none) : s.length = 0 := by
  have hi := h.knows i
  cases hc : s.consumer i with
  | returned r => simp [State.popFront, hc] at ht
  | lock =>
    simp only [State.popFront, hc] at ht
    split at ht <;> cases ht
    simp [State.setConsumer] at hf
  | popFront =>
    simp only [State.popFront, hc] at ht
    split at ht <;> cases ht <;> simp [State.setConsumer] at hf
  | loadBack front =>
    rw [hc] at hi
    obtain rfl : front = pos c s.popped.length := hi
    have he := h.isEmpty_iff hk h.popped_le_pushed le_rfl
    rw [← h.back] at he
    simp only [State.popFront, hc] at ht
    split at ht
    · rename_i hq
      have := he.mp hq
      exact Nat.sub_eq_zero_of_le this.le
    · cases ht
      simp [State.setConsumer] at hf
  | getValue front =>
    simp only [State.popFront, hc, Option.map_eq_some_iff] at ht
    obtain ⟨v, _, rfl⟩ := ht
    simp [State.setConsumer] at hf
  | storeFront front v =>
    simp only [State.popFront, hc, Option.some.injEq] at ht
    subst ht
    simp [State.setConsumer] at hf
  | unlock r =>
    simp only [State.popFront, hc, Option.some.injEq] at ht
    subst ht
    simp [State.setConsumer] at hf

/-- The ring is a bounded queue in every run, wherever the cursors start. -/
theorem boundedFifo_of_run (hk : k < 64) {values : List α} (hv : values.length = 2 ^ k)
    {l : List (Action α ι)}
    (h : Transition.run State.step (start (BitVec.ofNat 64 (2 ^ k)) c values) l = some s) :
    BoundedFifo k c s := by
  obtain ⟨a, b, hs⟩ := Inv.of_run hk hv h
  refine {
    fifo := hs.fifo
    bounded := ?_
    popped := ?_
    full := fun t ht hf => hs.length_of_full hk ht hf
    empty := fun i t ht hf => hs.length_of_empty hk ht hf
    unread := ?_
    stored := hs.stored
    cachedFront := ⟨a, hs.cachedFront_le, hs.pushed_le, hs.cachedFront, hs.front⟩
    cachedBack := ⟨b, hs.cachedBack_le, hs.popped_le, hs.cachedBack, hs.back⟩ }
  · have := hs.pushed_le
    have := hs.cachedFront_le
    change _ - _ ≤ _
    omega
  · intro i v hi
    have := hs.knows i
    rw [hi] at this
    exact this
  · intro v back hp j hj hl
    have hb : back = pos c s.pushed.length := hs.writing back (by rw [hp]; rfl)
    rw [hb]
    exact hs.slot_ne hk (by rw [hp]; rfl) hj hl

/-- Two pushes, then a pop, across the end of the word. -/
theorem boundedFifo_of_run_wrap :
    BoundedFifo 1 (-1#64) ((Transition.run State.step
      (start (BitVec.ofNat 64 (2 ^ 1)) (-1#64) [0, 0] : State ℕ Bool)
      [.push 7, .producer, .producer, .pop true, .producer, .push 8, .producer,
        .consumer true, .consumer true, .producer, .consumer true, .consumer true,
        .producer, .consumer true, .consumer true]).get (by decide)) :=
  boundedFifo_of_run (by decide) rfl (Option.some_get _).symm

/-! ## Calls that do not overlap -/

/-- `queue_push_back` in one go. -/
def pushBack (q : Queue α) (v : α) : Queue α × Bool :=
  let back := q.backCursor
  if q.isFull q.cachedFrontCursor back then
    let q := { q with cachedFrontCursor := q.frontCursor }
    if q.isFull q.cachedFrontCursor back then (q, false)
    else ({ q.setValue back v with backCursor := back + 1 }, true)
  else ({ q.setValue back v with backCursor := back + 1 }, true)

/-- `queue_pop_front` in one go. -/
def popFront (q : Queue α) : Queue α × Option α :=
  let front := q.frontCursor
  if isEmpty front q.cachedBackCursor then
    let q := { q with cachedBackCursor := q.backCursor }
    if isEmpty front q.cachedBackCursor then (q, none)
    else ({ q with frontCursor := front + 1 }, q.getValue front)
  else ({ q with frontCursor := front + 1 }, q.getValue front)

def queueIsFull (q : Queue α) : Bool := q.isFull q.frontCursor q.backCursor

def queueLength (q : Queue α) : ℕ := (q.backCursor - q.frontCursor).toNat

/-- These values are still to be popped, and nobody is about to. -/
def Holds (k : ℕ) (q : Queue α) (l : List α) : Prop :=
  ∃ c a b, ∃ s : State α Unit, Inv k c a b s ∧ s.queue = q ∧ ¬ (s.consumer ()).Locked ∧
    s.pushed = s.popped ++ l

theorem Holds.new (c : BitVec 64) {values : List α} (hv : values.length = 2 ^ k) :
    Holds k (Queue.new (BitVec.ofNat 64 (2 ^ k)) c values) [] :=
  ⟨c, 0, 0, _, Inv.of_start values hv, rfl, id, rfl⟩

theorem Holds.queueIsFull_iff (hk : k < 64) {q : Queue α} {l : List α} (h : Holds k q l) :
    q.queueIsFull = true ↔ l.length = 2 ^ k := by
  obtain ⟨c, a, b, s, hs, rfl, -, hl⟩ := h
  have hfull := hs.loadFront.isFull_iff hk hs.popped_le_pushed hs.loadFront.pushed_le
  have hlen := congrArg List.length hl
  rw [List.length_append] at hlen
  rw [queueIsFull, hs.front, hs.back]
  refine hfull.trans ⟨fun he => ?_, fun he => ?_⟩ <;> omega

theorem Holds.length_le {q : Queue α} {l : List α} (h : Holds k q l) : l.length ≤ 2 ^ k := by
  obtain ⟨c, a, b, s, hs, -, -, hl⟩ := h
  have hlen := congrArg List.length hl
  rw [List.length_append] at hlen
  have := hs.pushed_le
  have := hs.cachedFront_le
  omega

theorem Holds.queueLength_eq (hk : k < 64) {q : Queue α} {l : List α} (h : Holds k q l) :
    q.queueLength = l.length := by
  have hle := h.length_le
  obtain ⟨c, a, b, s, hs, rfl, -, hl⟩ := h
  have hlen := congrArg List.length hl
  rw [List.length_append] at hlen
  have hw : 2 ^ k < 2 ^ 64 := two_pow_lt hk
  rw [queueLength, hs.front, hs.back, pos_sub hs.popped_le_pushed, BitVec.toNat_ofNat,
    Nat.mod_eq_of_lt (by omega)]
  omega

omit [DecidableEq ι] in
theorem Inv.push (hk : k < 64) {s : State α ι} (h : Inv k c a b s) (v : α)
    (hr : s.pushed.length + 1 ≤ a + 2 ^ k) :
    Inv k c a b { s with
      queue := { s.queue.setValue s.queue.backCursor v with backCursor := s.queue.backCursor + 1 }
      producer := .returned none
      pushed := s.pushed ++ [v] } := by
  have h₁ := h.setProducer (p := .setValue v s.queue.backCursor) hr
    (by rintro _ ⟨⟩; exact h.back) (by rintro _ _ ⟨⟩)
  have h₂ := (h₁.setValue hk rfl).storeBack rfl
  exact h₂.setProducer (p := .returned none) h₂.full (by rintro _ ⟨⟩) (by rintro _ _ ⟨⟩)

theorem Holds.pushBack (hk : k < 64) {q : Queue α} {l : List α} (h : Holds k q l) (v : α)
    (hr : l.length < 2 ^ k) : ∃ q', q.pushBack v = (q', true) ∧ Holds k q' (l ++ [v]) := by
  obtain ⟨c, a, b, s, hs, rfl, hc, hl⟩ := h
  have hlen := congrArg List.length hl
  rw [List.length_append] at hlen
  have hpl := hs.pushed_le
  have hcached := hs.isFull_iff hk (hs.cachedFront_le.trans hs.popped_le_pushed) hpl
  have hfull := hs.isFull_iff hk hs.popped_le_pushed hs.loadFront.pushed_le
  rw [← hs.cachedFront, ← hs.back] at hcached
  rw [← hs.front, ← hs.back] at hfull
  have happ : s.pushed ++ [v] = s.popped ++ (l ++ [v]) := by rw [hl, List.append_assoc]
  by_cases hq : s.queue.isFull s.queue.cachedFrontCursor s.queue.backCursor = true
  · have hn := mt hfull.mp (show s.pushed.length ≠ _ by omega)
    have hpush := hs.loadFront.push hk v (show s.pushed.length + 1 ≤ _ by omega)
    exact ⟨_, by rw [Queue.pushBack, if_pos hq]; exact if_neg hn,
      c, _, b, _, hpush, rfl, hc, happ⟩
  · have hne := mt hcached.mpr hq
    have hpush := hs.push hk v (by omega)
    exact ⟨_, by rw [Queue.pushBack, if_neg hq], c, a, b, _, hpush, rfl, hc, happ⟩

theorem Holds.pop {s : State α Unit} (h : Inv k c a b s) (hc : ¬ (s.consumer ()).Locked)
    {v : α} {l : List α} (hl : s.pushed = s.popped ++ v :: l) (hlt : s.popped.length < b) :
    s.queue.getValue s.queue.frontCursor = some v ∧
      Holds k { s.queue with frontCursor := s.queue.frontCursor + 1 } l := by
  have hv : s.pushed[s.popped.length]? = some v := by rw [hl]; simp
  have hn : ∀ i, ¬ (s.consumer i).Locked := fun _ => hc
  have h₁ := (h.setLocked hn true).setConsumer (i := ()) (x := .storeFront s.queue.frontCursor v)
    ⟨h.front, hlt, hv⟩ fun _ => ⟨rfl, fun j _ => hn j⟩
  have h₂ := @Inv.storeFront _ _ _ _ _ _ _ _ h₁ () s.queue.frontCursor v (by simp [State.setConsumer])
  have h₃ := h₂.keepLock (i := ()) (x := .returned none) (by simp [State.setConsumer, Consumer.Locked])
    trivial
  refine ⟨?_, c, a, b, _, h₃, rfl, ?_, ?_⟩
  · rw [h.front]
    exact h.stored _ _ le_rfl hv
  · simp [State.setConsumer, Consumer.Locked]
  · change s.pushed = s.popped ++ [v] ++ l
    rw [hl, List.append_assoc]
    rfl

theorem Holds.popFront (hk : k < 64) {q : Queue α} {v : α} {l : List α} (h : Holds k q (v :: l)) :
    ∃ q', q.popFront = (q', some v) ∧ Holds k q' l := by
  obtain ⟨c, a, b, s, hs, rfl, hc, hl⟩ := h
  have hlen := congrArg List.length hl
  rw [List.length_append, List.length_cons] at hlen
  have hcached := hs.isEmpty_iff hk hs.popped_le hs.cachedBack_le
  have hreal := hs.isEmpty_iff hk hs.popped_le_pushed le_rfl
  rw [← hs.cachedBack, ← hs.front] at hcached
  rw [← hs.front, ← hs.back] at hreal
  by_cases hq : isEmpty s.queue.frontCursor s.queue.cachedBackCursor = true
  · have hn := mt hreal.mp (show s.pushed.length ≠ _ by omega)
    obtain ⟨hg, hh⟩ := Holds.pop hs.loadBack hc hl (show s.popped.length < s.pushed.length by omega)
    refine ⟨_, ?_, hh⟩
    rw [Queue.popFront, if_pos hq]
    exact (if_neg hn).trans (Prod.ext rfl hg)
  · have hne := mt hcached.mpr hq
    have hle := hs.popped_le
    obtain ⟨hg, hh⟩ := Holds.pop hs hc hl (show s.popped.length < b by omega)
    refine ⟨_, ?_, hh⟩
    rw [Queue.popFront, if_neg hq]
    exact Prod.ext rfl hg

theorem Holds.popFront_nil (hk : k < 64) {q : Queue α} (h : Holds k q []) :
    ∃ q', q.popFront = (q', none) ∧ Holds k q' [] := by
  obtain ⟨c, a, b, s, hs, rfl, hc, hl⟩ := h
  rw [List.append_nil] at hl
  have hlen := congrArg List.length hl
  have hcached := hs.isEmpty_iff hk hs.popped_le hs.cachedBack_le
  have hreal := hs.isEmpty_iff hk hs.popped_le_pushed le_rfl
  rw [← hs.cachedBack, ← hs.front] at hcached
  rw [← hs.front, ← hs.back] at hreal
  have hb := hs.cachedBack_le
  have hp := hs.popped_le
  have hq := hcached.mpr (by omega)
  have hq' := hreal.mpr hlen
  refine ⟨_, ?_, c, a, _, _, hs.loadBack, rfl, hc, hl.trans (List.append_nil _).symm⟩
  rw [Queue.popFront, if_pos hq]
  exact if_pos hq'

end Queue

end InetLisp
