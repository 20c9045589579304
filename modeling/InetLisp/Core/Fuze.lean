import InetLisp.Net.Wire
import InetLisp.Lib.Transition

/-! # Concurrent connection

The calls of `connect` that the workers make on one net, in any interleaving of
their atomic steps. A compare-and-exchange records one end of a wire; the call
that brings the other end destroys the wire and connects the two values itself.
No step changes which values the connections join, so the outcome is read off
the assignment the calls started from.
-/

namespace InetLisp.Fuze

open Lib

/-- Where a call of `connect` stands, and what it handed on when it ended. -/
inductive Call where
  | connect (left right : Value)
  /-- In `fuze`, after the exchange failed: the wire is destroyed next. -/
  | wireDestroy (wire : ℕ) (expected value : Value)
  | returned
  /-- Ended in `connect_active_pair`. -/
  | activePair (left right : ℕ)
  /-- Ended in `collect_primitive_arg`. -/
  | primitiveArg (principalWire : ℕ) (arg : Value)
  /-- Ended in a failed assertion. -/
  | failed (left right : Value)
  deriving DecidableEq, Repr

structure State where
  wires : List Wire
  oppsite : ℕ → Option ℕ
  calls : List Call

namespace State

/-- The call leaves an atomic step. -/
def goto (s : State) (j : ℕ) (c : Call) : State := { s with calls := s.calls.set j c }

def setWire (s : State) (w : ℕ) (c : Wire) : State := { s with wires := s.wires.set w c }

end State

/-- The exchange in `fuze`; a destroyed wire has no successor state. -/
def fuze (s : State) (j w : ℕ) (value : Value) : Option State :=
  match s.wires[w]? with
  | some ⟨none, false⟩ => some ((s.setWire w ⟨some value, false⟩).goto j .returned)
  | some ⟨some expected, false⟩ => some (s.goto j (.wireDestroy w expected value))
  | _ => none

def wireDestroy (s : State) (w : ℕ) : Option State :=
  match s.wires[w]? with
  | some ⟨v, false⟩ => some (s.setWire w ⟨v, true⟩)
  | _ => none

/-- `connect_active_pair`, up to the choice of a rule. -/
def connectActivePair (s : State) (j left right : ℕ) : State :=
  { s with
    oppsite := Function.update (Function.update s.oppsite left (some right)) right (some left) }.goto
      j (.activePair left right)

/-- `collect_primitive_arg`, up to the store into the node. -/
def collectPrimitiveArg (isPrimitive : ℕ → Bool) (s : State) (j p : ℕ) (arg : Value) : State :=
  s.goto j (if isPrimitive p then .primitiveArg p arg else .failed (.principalWire p) arg)

/-- `connect`; `isPrimitive` tells whether a principal wire belongs to a primitive node. -/
def connect (isPrimitive : ℕ → Bool) (s : State) (j : ℕ) : Value → Value → Option State
  | .wire w, right => fuze s j w right
  | left, .wire w => fuze s j w left
  | .principalWire p, .principalWire q => some (connectActivePair s j p q)
  | .principalWire p, right => some (collectPrimitiveArg isPrimitive s j p right)
  | left, .principalWire p => some (collectPrimitiveArg isPrimitive s j p left)
  | left, right => some (s.goto j (.failed left right))

/-- One atomic step of call `j`. -/
def step (isPrimitive : ℕ → Bool) (s : State) (j : ℕ) : Option State :=
  match s.calls[j]? with
  | some (.connect left right) => connect isPrimitive s j left right
  | some (.wireDestroy w expected value) =>
    (wireDestroy s w).map fun s => s.goto j (.connect expected value)
  | _ => none

namespace Call

/-- The connection that a call still has to make, or has handed on. -/
def edges : Call → Multiset (Sym2 Value)
  | .connect x y => {s(x, y)}
  | .wireDestroy w _ y => {s(.wire w, y)}
  | .returned => 0
  | .activePair p q => {s(.principalWire p, .principalWire q)}
  | .primitiveArg p x => {s(.principalWire p, x)}
  | .failed x y => {s(x, y)}

@[simp] theorem edges_connect (x y : Value) : (connect x y).edges = {s(x, y)} := rfl
@[simp] theorem edges_wireDestroy (w : ℕ) (x y : Value) :
    (wireDestroy w x y).edges = {s(.wire w, y)} := rfl
@[simp] theorem edges_returned : returned.edges = 0 := rfl

def Finished : Call → Prop
  | .connect _ _ => False
  | .wireDestroy _ _ _ => False
  | _ => True

/-- The wire that the next step of a call reads or writes. -/
def target : Call → Option ℕ
  | .connect (.wire w) _ => some w
  | .connect _ (.wire w) => some w
  | .wireDestroy w _ _ => some w
  | _ => none

/-- The call handed two values on, in either order. -/
inductive Hands : Call → Value → Value → Prop where
  | left (p q : ℕ) : Hands (.activePair p q) (.principalWire p) (.principalWire q)
  | right (p q : ℕ) : Hands (.activePair p q) (.principalWire q) (.principalWire p)
  | arg (p : ℕ) (v : Value) : Hands (.primitiveArg p v) (.principalWire p) v
  | argSymm (p : ℕ) (v : Value) : Hands (.primitiveArg p v) v (.principalWire p)

/-- The atomic steps that a call takes by itself at most. -/
def weight : Call → ℕ
  | .connect _ _ => 2
  | .wireDestroy _ _ _ => 1
  | _ => 0

end Call

namespace State

/-- The connections that the wires record together with those of the calls. -/
def graph (s : State) : Multiset (Sym2 Value) :=
  Cells.sum Wire.edges s.wires + Cells.sum (fun _ c => c.edges) s.calls

def Finished (s : State) : Prop := ∀ (j : ℕ) (c : Call), s.calls[j]? = some c → c.Finished

/-- A bound on the atomic steps still to come. -/
def measure (s : State) : ℕ :=
  Cells.sum (fun _ c => if c.isDestroyed then 0 else 2) s.wires +
    Cells.sum (fun _ c => c.weight) s.calls

end State

variable {isPrimitive : ℕ → Bool} {wires : List Wire} {s t : State} {i j w : ℕ} {x y : Value} {c : Call}

/-- Everything that one step of call `j` can do. -/
inductive Steps (isPrimitive : ℕ → Bool) (s : State) (j : ℕ) : State → Prop where
  | fuze {x y v : Value} {w : ℕ} (hc : s.calls[j]? = some (.connect x y))
      (he : s(x, y) = s(.wire w, v)) (hw : s.wires[w]? = some ⟨none, false⟩) :
      Steps isPrimitive s j ((s.setWire w ⟨some v, false⟩).goto j .returned)
  | collide {x y u v : Value} {w : ℕ} (hc : s.calls[j]? = some (.connect x y))
      (he : s(x, y) = s(.wire w, v)) (hw : s.wires[w]? = some ⟨some u, false⟩) :
      Steps isPrimitive s j (s.goto j (.wireDestroy w u v))
  | destroy {w : ℕ} {u v : Value} {o : Option Value} (hc : s.calls[j]? = some (.wireDestroy w u v))
      (hw : s.wires[w]? = some ⟨o, false⟩) :
      Steps isPrimitive s j ((s.setWire w ⟨o, true⟩).goto j (.connect u v))
  | activePair {p q : ℕ} (hc : s.calls[j]? = some (.connect (.principalWire p) (.principalWire q))) :
      Steps isPrimitive s j (connectActivePair s j p q)
  | primitiveArg {x y v : Value} {p : ℕ} (hc : s.calls[j]? = some (.connect x y))
      (he : s(x, y) = s(.principalWire p, v)) (hv : v.IsNonWire) (hp : isPrimitive p) :
      Steps isPrimitive s j (s.goto j (.primitiveArg p v))
  | failed {x y u v : Value} (hc : s.calls[j]? = some (.connect x y)) (he : s(x, y) = s(u, v))
      (hv : v.IsNonWire) (hu : u.IsNonWire ∨ ∃ p, u = .principalWire p ∧ ¬ isPrimitive p) :
      Steps isPrimitive s j (s.goto j (.failed u v))

theorem steps_of_fuze {v : Value} (hc : s.calls[j]? = some (.connect x y))
    (he : s(x, y) = s(.wire w, v)) (h : fuze s j w v = some t) : Steps isPrimitive s j t := by
  unfold fuze at h
  split at h
  · cases h; exact .fuze hc he ‹_›
  · cases h; exact .collide hc he ‹_›
  · cases h

theorem steps_of_collectPrimitiveArg {p : ℕ} {v : Value} (hc : s.calls[j]? = some (.connect x y))
    (he : s(x, y) = s(.principalWire p, v)) (hv : v.IsNonWire) :
    Steps isPrimitive s j (collectPrimitiveArg isPrimitive s j p v) := by
  unfold collectPrimitiveArg
  split
  · exact .primitiveArg hc he hv ‹_›
  · exact .failed hc he hv (.inr ⟨p, rfl, ‹_›⟩)

theorem steps_of_step (h : step isPrimitive s j = some t) : Steps isPrimitive s j t := by
  unfold step at h
  split at h
  · rename_i x y hc
    unfold connect at h
    split at h
    · exact steps_of_fuze hc rfl h
    · exact steps_of_fuze hc Sym2.eq_swap h
    · cases h; exact .activePair hc
    · rename_i hw hp
      cases h
      exact steps_of_collectPrimitiveArg hc rfl (Value.isNonWire_of_ne hw hp)
    · rename_i hw hp
      cases h
      exact steps_of_collectPrimitiveArg hc Sym2.eq_swap (Value.isNonWire_of_ne hw hp)
    · rename_i hxw hxp hyw hyp _
      cases h
      exact .failed hc rfl (Value.isNonWire_of_ne hyw hyp) (.inl (Value.isNonWire_of_ne hxw hxp))
  · rename_i w u v hc
    obtain ⟨t', ht, rfl⟩ := Option.map_eq_some_iff.mp h
    unfold wireDestroy at ht
    split at ht <;> cases ht
    exact .destroy hc ‹_›
  · cases h

/-- The arguments of the calls as the ends of an edge each. -/
def connections (args : List (Value × Value)) : Multiset (Sym2 Value) :=
  args.map fun a => s(a.1, a.2)

/--
Ends of wires, principal wires and atoms, given to calls of `connect`. The last
two fields exclude what `connect` reports as an error.
-/
structure Assignment where
  wireCount : ℕ
  isPrimitive : ℕ → Bool
  args : List (Value × Value)
  allocated : ∀ w, wireCount ≤ w → degree (.wire w) (connections args) = 0
  wire_linear : ∀ w, degree (.wire w) (connections args) ≤ 2
  principalWire_linear : ∀ p, degree (.principalWire p) (connections args) ≤ 1
  not_atoms : ∀ x y : Value, x.IsNonWire → y.IsNonWire →
    ¬ Trail Value.IsWire (connections args) x y
  primitive : ∀ (p : ℕ) (y : Value), y.IsNonWire →
    Trail Value.IsWire (connections args) (.principalWire p) y → isPrimitive p

namespace Assignment

variable (a : Assignment)

def graph : Multiset (Sym2 Value) := connections a.args

def initial : State where
  wires := List.replicate a.wireCount {}
  oppsite _ := none
  calls := a.args.map fun x => .connect x.1 x.2

end Assignment

/-- A wire is destroyed once it is fuzed, and no assertion has failed. -/
def Call.Ok (wires : List Wire) : Call → Prop
  | .wireDestroy w u _ => wires[w]? = some ⟨some u, false⟩
  | .primitiveArg _ v => v.IsNonWire
  | .failed _ _ => False
  | _ => True

theorem Call.Ok.set {o : Wire} (h : c.Ok wires)
    (hw : ∀ u v, c ≠ .wireDestroy w u v) : c.Ok (wires.set w o) := by
  cases c with
  | wireDestroy w' u v =>
    have hne : w ≠ w' := by rintro rfl; exact hw u v rfl
    simpa only [Call.Ok, List.getElem?_set_ne hne] using h
  | _ => exact h

/-- What every step of every call keeps. -/
structure Inv (a : Assignment) (s : State) : Prop where
  wires : s.wires.length = a.wireCount
  /-- The same values have the same number of open ends. -/
  degree : ∀ x, Wire.Alive s.wires x → degree x s.graph = Lib.degree x a.graph
  destroyed : ∀ x, ¬ Wire.Alive s.wires x → Lib.degree x s.graph = 0
  /-- Only a wire with both ends given to calls is destroyed. -/
  used : ∀ w, w < a.wireCount → ¬ Wire.Alive s.wires (.wire w) →
    2 ≤ Lib.degree (.wire w) a.graph
  trail : ∀ x y, Wire.Alive s.wires x → Wire.Alive s.wires y →
    (Trail Value.IsWire s.graph x y ↔ Trail Value.IsWire a.graph x y)
  call : ∀ (j : ℕ) (c : Call), s.calls[j]? = some c → c.Ok s.wires
  oppsite : ∀ p q : ℕ, s.oppsite p = some q →
    ∃ j : ℕ, s.calls[j]? = some (.activePair p q) ∨ s.calls[j]? = some (.activePair q p)

section Graph

theorem State.graph_goto (hc : s.calls[j]? = some c) (c' : Call) :
    (s.goto j c').graph + c.edges = s.graph + c'.edges := by
  simp only [State.graph, State.goto, add_assoc]
  rw [Cells.sum_set (fun _ c => Call.edges c) hc]

theorem State.graph_setWire {o : Wire} (hw : s.wires[w]? = some o) (o' : Wire) :
    (s.setWire w o').graph + o.edges w = s.graph + o'.edges w := by
  simp only [State.graph, State.setWire]
  rw [add_right_comm, Cells.sum_set Wire.edges hw, add_right_comm]

theorem State.edges_le_graph (hc : s.calls[j]? = some c) : c.edges ≤ s.graph := by
  obtain ⟨r, hr⟩ := Cells.exists_sum_eq (fun _ c => Call.edges c) hc
  rw [State.graph, hr]
  exact le_add_left (Multiset.le_add_right _ _)

theorem alive_set_iff {o o' : Option Value}
    (hw : wires[w]? = some ⟨o, false⟩) :
    Wire.Alive (wires.set w ⟨o', false⟩) x ↔ Wire.Alive wires x := by
  cases x with
  | wire v =>
    simp only [Wire.Alive, List.getElem?_set]
    split
    · subst v
      obtain ⟨hlt, hw⟩ := List.getElem?_eq_some_iff.mp hw
      simp [hlt, hw]
    · rfl
  | _ => rfl

theorem alive_destroy_iff {o : Option Value} :
    Wire.Alive (wires.set w ⟨o, true⟩) x ↔ Wire.Alive wires x ∧ x ≠ .wire w := by
  cases x with
  | wire v =>
    simp only [Wire.Alive, List.getElem?_set, ne_eq, Value.wire.injEq]
    split
    · subst v
      simp
    · simp [eq_comm, *]
  | _ => simp [Wire.Alive]

theorem connections_cons (x : Value × Value) (l : List (Value × Value)) :
    connections (x :: l) = s(x.1, x.2) ::ₘ connections l := rfl

theorem connections_nil : connections [] = 0 := rfl

theorem connections_eq (args : List (Value × Value)) :
    Cells.sum (fun _ c => Call.edges c) (args.map fun x => .connect x.1 x.2) = connections args := by
  induction args with
  | nil => rfl
  | cons a l ih =>
    rw [List.map_cons, Cells.sum_cons, ih]
    rfl

theorem Assignment.graph_initial (a : Assignment) : a.initial.graph = a.graph := by
  have h : Cells.sum Wire.edges a.initial.wires = 0 := by
    rw [← Cells.sum_zero (l := a.initial.wires)]
    refine Cells.sum_congr _ fun w o ho => ?_
    obtain rfl : o = {} := List.eq_of_mem_replicate (List.mem_of_getElem? ho)
    rfl
  rw [State.graph, h, zero_add]
  exact connections_eq a.args

end Graph

theorem Inv.initial (a : Assignment) : Inv a a.initial where
  wires := List.length_replicate
  degree x _ := by rw [a.graph_initial]
  destroyed x hx := by
    rw [a.graph_initial]
    cases x with
    | wire w =>
      refine a.allocated w (not_lt.mp fun hw => hx ⟨none, ?_⟩)
      simp [Assignment.initial, hw]
    | _ => exact (hx trivial).elim
  used w hw hx := (hx ⟨none, by simp [Assignment.initial, hw]⟩).elim
  trail x y _ _ := by rw [a.graph_initial]
  call j c h := by
    obtain ⟨x, _, rfl⟩ := List.mem_map.mp (List.mem_of_getElem? h)
    trivial
  oppsite p q h := by cases h

theorem State.calls_goto {d : Call} (h : (s.goto j c).calls[i]? = some d) :
    i = j ∧ d = c ∨ i ≠ j ∧ s.calls[i]? = some d := by
  by_cases hij : i = j
  · subst i
    simp only [State.goto, List.getElem?_set_self'] at h
    obtain ⟨_, _, hd⟩ := Option.map_eq_some_iff.mp h
    exact .inl ⟨rfl, hd.symm⟩
  · rw [State.goto, List.getElem?_set_ne (Ne.symm hij)] at h
    exact .inr ⟨hij, h⟩

theorem State.calls_goto_of_ne {d : Call} (hj : s.calls[j]? = some c) (hd : s.calls[i]? = some d)
    (hne : c ≠ d) {c' : Call} : (s.goto j c').calls[i]? = some d := by
  rw [State.goto, List.getElem?_set_ne, hd]
  rintro rfl
  rw [hj] at hd
  exact hne (Option.some.inj hd)

namespace Inv

variable {a : Assignment}

theorem oppsite_goto (h : Inv a s) {c' : Call} (hc : s.calls[j]? = some c)
    (hn : ∀ p q, c ≠ .activePair p q) {p q : ℕ} (ho : s.oppsite p = some q) :
    ∃ i : ℕ, (s.goto j c').calls[i]? = some (.activePair p q) ∨
      (s.goto j c').calls[i]? = some (.activePair q p) := by
  obtain ⟨i, hi | hi⟩ := h.oppsite p q ho
  · exact ⟨i, .inl (State.calls_goto_of_ne hc hi (hn p q))⟩
  · exact ⟨i, .inr (State.calls_goto_of_ne hc hi (hn q p))⟩

theorem keep (h : Inv a s) (hl : t.wires.length = s.wires.length) (hg : t.graph = s.graph)
    (ha : ∀ x, Wire.Alive t.wires x ↔ Wire.Alive s.wires x)
    (hok : ∀ (j : ℕ) (c : Call), t.calls[j]? = some c → c.Ok t.wires)
    (ho : ∀ p q : ℕ, t.oppsite p = some q →
      ∃ j : ℕ, t.calls[j]? = some (.activePair p q) ∨ t.calls[j]? = some (.activePair q p)) :
    Inv a t where
  wires := hl.trans h.wires
  degree x hx := by rw [hg, h.degree x ((ha x).mp hx)]
  destroyed x hx := by rw [hg, h.destroyed x (mt (ha x).mpr hx)]
  used w hw hx := h.used w hw (mt (ha _).mpr hx)
  trail x y hx hy := by rw [hg, h.trail x y ((ha x).mp hx) ((ha y).mp hy)]
  call := hok
  oppsite := ho

theorem fuze (h : Inv a s) {v : Value} (hc : s.calls[j]? = some (.connect x y))
    (he : s(x, y) = s(.wire w, v)) (hw : s.wires[w]? = some ⟨none, false⟩) :
    Inv a ((s.setWire w ⟨some v, false⟩).goto j .returned) := by
  have hg₁ := State.graph_setWire hw ⟨some v, false⟩
  have hg₂ := State.graph_goto (s := s.setWire w ⟨some v, false⟩) hc .returned
  simp only [Wire.edges_new, Wire.edges_fuzed, Call.edges_connect, Call.edges_returned,
    add_zero] at hg₁ hg₂
  refine h.keep List.length_set ?_ (fun x => alive_set_iff hw) (fun i c hi => ?_)
    fun p q ho => h.oppsite_goto hc (by simp) ho
  · rw [hg₁, he] at hg₂
    exact add_right_cancel hg₂
  · rcases State.calls_goto hi with ⟨_, rfl⟩ | ⟨_, hi⟩
    · trivial
    · refine (h.call i c hi).set ?_
      rintro u v rfl
      have hw' := h.call i _ hi
      simp [Call.Ok, hw] at hw'

theorem goto (h : Inv a s) (c' : Call) (hc : s.calls[j]? = some (.connect x y))
    (he : c'.edges = {s(x, y)}) (hok : c'.Ok s.wires) : Inv a (s.goto j c') := by
  have hg := State.graph_goto hc c'
  refine h.keep rfl ?_ (fun _ => Iff.rfl) (fun i c hi => ?_)
    fun p q ho => h.oppsite_goto hc (by simp) ho
  · rw [he] at hg
    exact add_right_cancel hg
  · rcases State.calls_goto hi with ⟨_, rfl⟩ | ⟨_, hi⟩
    · exact hok
    · exact h.call i c hi

theorem connectActivePair (h : Inv a s) {p q : ℕ}
    (hc : s.calls[j]? = some (.connect (.principalWire p) (.principalWire q))) :
    Inv a (Fuze.connectActivePair s j p q) := by
  have hi := h.goto (.activePair p q) hc rfl trivial
  refine hi.keep rfl rfl (fun _ => Iff.rfl) hi.call fun p' q' ho => ?_
  have hj : (s.goto j (.activePair p q)).calls[j]? = some (.activePair p q) := by
    rw [State.goto, List.getElem?_set_self (List.getElem?_eq_some_iff.mp hc).1]
  simp only [Fuze.connectActivePair, State.goto, Function.update_apply] at ho
  split at ho
  · cases ho; subst p'; exact ⟨j, .inr hj⟩
  · split at ho
    · cases ho; subst p'; exact ⟨j, .inl hj⟩
    · exact hi.oppsite p' q' ho

/-- A wire that is about to be destroyed lies on its two connections and no other. -/
theorem destroying_graph (h : Inv a s) {u v : Value} {o : Option Value}
    (hc : s.calls[j]? = some (.wireDestroy w u v)) (hw : s.wires[w]? = some ⟨o, false⟩) :
    ∃ E, s.graph = s(.wire w, u) ::ₘ s(.wire w, v) ::ₘ E ∧
      ((s.setWire w ⟨o, true⟩).goto j (.connect u v)).graph = s(u, v) ::ₘ E ∧
      .wire w ≠ u ∧ .wire w ≠ v ∧ Lib.degree (.wire w) E = 0 := by
  obtain rfl : o = some u := by
    have := h.call j _ hc
    simpa [Call.Ok, hw] using this
  obtain ⟨E₁, h₁⟩ := Cells.exists_sum_eq Wire.edges hw
  obtain ⟨E₂, h₂⟩ := Cells.exists_sum_eq (fun _ c => Call.edges c) hc
  have hg : s.graph = {s(.wire w, u)} + {s(.wire w, v)} + (E₁ + E₂) := by
    rw [State.graph, h₁, h₂, Wire.edges_fuzed, Call.edges_wireDestroy]
    exact add_add_add_comm _ _ _ _
  have hg₁ := State.graph_setWire hw ⟨some u, true⟩
  have hg₂ := State.graph_goto (s := s.setWire w ⟨some u, true⟩) hc (.connect u v)
  simp only [Wire.edges_fuzed, Wire.edges_destroyed, Call.edges_connect, Call.edges_wireDestroy,
    add_zero] at hg₁ hg₂
  have hdeg := (h.degree (.wire w) ⟨_, hw⟩).trans_le (a.wire_linear w)
  simp only [hg, degree_add, degree_singleton, if_true] at hdeg
  refine ⟨E₁ + E₂, by rw [hg, add_assoc]; rfl, ?_, fun he => ?_, fun he => ?_, ?_⟩
  · have h₃ : (s.setWire w ⟨some u, true⟩).graph = {s(.wire w, v)} + (E₁ + E₂) := by
      rw [hg, add_assoc, add_comm] at hg₁
      exact add_left_cancel hg₁
    rw [h₃, add_assoc, add_comm] at hg₂
    rw [add_left_cancel hg₂, add_comm]
    rfl
  · rw [if_pos he] at hdeg
    omega
  · rw [if_pos he] at hdeg
    omega
  · rw [degree_add]
    omega

theorem destroy (h : Inv a s) {u v : Value} {o : Option Value}
    (hc : s.calls[j]? = some (.wireDestroy w u v)) (hw : s.wires[w]? = some ⟨o, false⟩) :
    Inv a ((s.setWire w ⟨o, true⟩).goto j (.connect u v)) := by
  obtain ⟨E, hg, hg', hu, hv, hE⟩ := h.destroying_graph hc hw
  set t := (s.setWire w ⟨o, true⟩).goto j (.connect u v) with ht
  have ha : ∀ x, Wire.Alive t.wires x ↔ Wire.Alive s.wires x ∧ x ≠ .wire w :=
    fun x => alive_destroy_iff
  have hd : ∀ x, x ≠ .wire w → Lib.degree x t.graph = Lib.degree x s.graph := fun x hx => by
    simp only [hg, hg', degree_cons, hx, if_false]
    omega
  have hw₀ : Lib.degree (.wire w) t.graph = 0 := by
    simp only [hg', degree_cons, hu, hv, hE, if_false]
  refine ⟨List.length_set.trans h.wires, fun x hx => ?_, fun x hx => ?_, fun w' hw' hx => ?_,
    fun x y hx hy => ?_, fun i c hi => ?_, fun p q ho => h.oppsite_goto hc (by simp) ho⟩
  · obtain ⟨hx, hne⟩ := (ha x).mp hx
    rw [hd x hne, h.degree x hx]
  · by_cases hne : x = .wire w
    · rw [hne, hw₀]
    · rw [hd x hne, h.destroyed x fun hs => hx ((ha x).mpr ⟨hs, hne⟩)]
  · by_cases hne : w' = w
    · rw [hne, ← h.degree (.wire w) ⟨_, hw⟩, hg, degree_cons, degree_cons, if_pos rfl]
      omega
    · exact h.used w' hw' fun hs => hx ((ha _).mpr ⟨hs, by simpa using hne⟩)
  · obtain ⟨hx, hxw⟩ := (ha x).mp hx
    obtain ⟨hy, hyw⟩ := (ha y).mp hy
    rw [← h.trail x y hx hy, hg, hg',
      Trail.contract_iff (Value.isWire_wire w) (degree_eq_zero hE) hxw hyw]
  · have hne : ∀ u v, c ≠ .wireDestroy w u v := by
      rintro u v rfl
      have hle := degree_le (v := .wire w) (State.edges_le_graph hi)
      simp [hw₀] at hle
    rcases State.calls_goto hi with ⟨_, rfl⟩ | ⟨_, hi⟩
    · trivial
    · exact (h.call i c hi).set hne

/-- Values that a call is about to connect are joined by a trail of the assignment. -/
theorem trail_of_connect (h : Inv a s) (hc : s.calls[j]? = some (.connect x y)) {u v : Value}
    (he : s(x, y) = s(u, v)) (hu : Wire.Alive s.wires u) (hv : Wire.Alive s.wires v) :
    Trail Value.IsWire a.graph u v := by
  refine (h.trail u v hu hv).mp (.of_mem ?_)
  have := Multiset.mem_of_le (State.edges_le_graph hc) (a := s(x, y)) (by simp)
  rwa [he] at this

theorem steps (h : Inv a s) (ht : Steps a.isPrimitive s j t) : Inv a t := by
  cases ht with
  | fuze hc he hw => exact h.fuze hc he hw
  | collide hc he hw => exact h.goto _ hc (by rw [he]; rfl) hw
  | destroy hc hw => exact h.destroy hc hw
  | activePair hc => exact h.connectActivePair hc
  | primitiveArg hc he hv => exact h.goto _ hc (by rw [he]; rfl) hv
  | @failed x y u v hc he hv hu =>
    have hva : Wire.Alive s.wires v := by cases v <;> first | exact hv.elim | trivial
    rcases hu with hu | ⟨p, rfl, hp⟩
    · have hua : Wire.Alive s.wires u := by cases u <;> first | exact hu.elim | trivial
      exact (a.not_atoms u v hu hv (h.trail_of_connect hc he hua hva)).elim
    · exact (hp (a.primitive p v hv (h.trail_of_connect hc he trivial hva))).elim

theorem of_reaches (h : Transition.Reaches (step a.isPrimitive) a.initial s) : Inv a s :=
  h.invariant (fun _ _ _ hs ht => hs.steps (steps_of_step ht)) (.initial a)

theorem alive_of_mem (h : Inv a s) (hc : s.calls[j]? = some c)
    (he : s(x, y) ∈ c.edges) : Wire.Alive s.wires x := by
  by_contra hx
  have hm := Multiset.mem_of_le (State.edges_le_graph hc) he
  exact (degree_pos hm (.inl rfl)).ne' (h.destroyed x hx)

theorem target_alive (h : Inv a s) (hc : s.calls[j]? = some c) (hw : c.target = some w) :
    ∃ v, s.wires[w]? = some ⟨v, false⟩ := by
  unfold Call.target at hw
  split at hw
  · cases hw
    exact h.alive_of_mem hc (Multiset.mem_singleton_self _)
  · cases hw
    exact h.alive_of_mem hc (Multiset.mem_singleton.mpr Sym2.eq_swap)
  · cases hw
    exact ⟨_, h.call j _ hc⟩
  · cases hw

theorem step_isSome (h : Inv a s) (hc : s.calls[j]? = some c) (hn : ¬ c.Finished) :
    (step a.isPrimitive s j).isSome := by
  have hfuze : ∀ {w v}, c.target = some w → (Fuze.fuze s j w v).isSome := by
    intro w v hw
    obtain ⟨o, ho⟩ := h.target_alive hc hw
    cases o <;> simp [Fuze.fuze, ho]
  cases c with
  | connect x y =>
    simp only [step, hc]
    unfold connect
    split
    · exact hfuze rfl
    · rename_i hx
      refine hfuze ?_
      cases x <;> first | rfl | exact (hx _ rfl).elim
    all_goals rfl
  | wireDestroy w u v => simp [step, hc, wireDestroy, show s.wires[w]? = _ from h.call j _ hc]
  | _ => exact (hn trivial).elim

end Inv

theorem State.measure_goto (hc : s.calls[j]? = some c) (c' : Call) :
    (s.goto j c').measure + c.weight = s.measure + c'.weight := by
  simp only [State.measure, State.goto, add_assoc]
  rw [Cells.sum_set (fun _ c => Call.weight c) hc]

theorem State.measure_setWire {o : Wire} (hw : s.wires[w]? = some o) (o' : Wire) :
    (s.setWire w o').measure + (if o.isDestroyed then 0 else 2) =
      s.measure + if o'.isDestroyed then 0 else 2 := by
  simp only [State.measure, State.setWire]
  rw [add_right_comm, Cells.sum_set (fun _ (c : Wire) => if c.isDestroyed then 0 else 2) hw,
    add_right_comm]

theorem Steps.measure_lt (h : Steps isPrimitive s j t) : t.measure < s.measure := by
  cases h with
  | @fuze x y v w hc _ hw =>
    have h₁ := State.measure_setWire hw ⟨some v, false⟩
    have h₂ := State.measure_goto (s := s.setWire w ⟨some v, false⟩) hc .returned
    simp only [Call.weight, Bool.false_eq_true, if_false] at h₁ h₂
    omega
  | @collide x y u v w hc _ _ =>
    have h₁ := State.measure_goto hc (.wireDestroy w u v)
    simp only [Call.weight] at h₁
    omega
  | @destroy w u v o hc hw =>
    have h₁ := State.measure_setWire hw ⟨o, true⟩
    have h₂ := State.measure_goto (s := s.setWire w ⟨o, true⟩) hc (.connect u v)
    simp only [Call.weight, Bool.false_eq_true, if_false, if_true] at h₁ h₂
    omega
  | @activePair p q hc =>
    have h₁ := State.measure_goto hc (.activePair p q)
    simp only [Call.weight] at h₁
    exact lt_of_lt_of_le (b := (s.goto j (.activePair p q)).measure + 1) (Nat.lt_succ_self _)
      (by omega)
  | @primitiveArg x y v p hc _ _ _ =>
    have h₁ := State.measure_goto hc (.primitiveArg p v)
    simp only [Call.weight] at h₁
    omega
  | @failed x y u v hc _ _ _ =>
    have h₁ := State.measure_goto hc (.failed u v)
    simp only [Call.weight] at h₁
    omega

theorem Assignment.measure_initial (a : Assignment) :
    a.initial.measure = 2 * (a.wireCount + a.args.length) := by
  have hw : ∀ n, Cells.sum (fun _ (c : Wire) => if c.isDestroyed then 0 else 2)
      (List.replicate n {}) = 2 * n := by
    intro n
    induction n with
    | zero => rfl
    | succ n ih =>
      rw [List.replicate_succ, Cells.sum_cons, ih]
      simp only [Bool.false_eq_true, if_false]
      omega
  have hc : ∀ l : List (Value × Value),
      Cells.sum (fun _ c => Call.weight c) (l.map fun x => .connect x.1 x.2) = 2 * l.length := by
    intro l
    induction l with
    | nil => rfl
    | cons x l ih =>
      rw [List.map_cons, Cells.sum_cons, ih, List.length_cons]
      simp only [Call.weight]
      omega
  rw [State.measure, Assignment.initial, hw, hc, mul_add]

def State.Handed (s : State) (x y : Value) (j : ℕ) : Prop :=
  ∃ c, s.calls[j]? = some c ∧ c.Hands x y

theorem Call.hands_of_mem (hf : c.Finished) (hok : c.Ok wires) (h : s(x, y) ∈ c.edges) : c.Hands x y := by
  cases c with
  | activePair p q =>
    rcases Sym2.eq_iff.mp (Multiset.mem_singleton.mp h) with ⟨rfl, rfl⟩ | ⟨rfl, rfl⟩
    · exact .left p q
    · exact .right p q
  | primitiveArg p v =>
    rcases Sym2.eq_iff.mp (Multiset.mem_singleton.mp h) with ⟨rfl, rfl⟩ | ⟨rfl, rfl⟩
    · exact .arg p _
    · exact .argSymm p _
  | returned => exact absurd h (Multiset.notMem_zero _)
  | failed => exact hok.elim
  | _ => exact hf.elim

theorem Call.Hands.edges (h : c.Hands x y) : c.edges = {s(x, y)} := by
  cases h with
  | left => rfl
  | right => exact congrArg (fun e => ({e} : Multiset _)) Sym2.eq_swap
  | arg => rfl
  | argSymm => exact congrArg (fun e => ({e} : Multiset _)) Sym2.eq_swap

theorem Call.Hands.not_isWire (h : c.Hands x y) (hok : c.Ok wires) : ¬ x.IsWire ∧ ¬ y.IsWire := by
  cases h with
  | left => exact ⟨id, id⟩
  | right => exact ⟨id, id⟩
  | arg => exact ⟨id, Value.IsNonWire.not_isWire hok⟩
  | argSymm => exact ⟨Value.IsNonWire.not_isWire hok, id⟩

theorem Call.Hands.exists_principalWire (h : c.Hands x y) :
    ∃ p, x = .principalWire p ∨ y = .principalWire p := by
  cases h with
  | left p => exact ⟨p, .inl rfl⟩
  | right p => exact ⟨p, .inr rfl⟩
  | arg p => exact ⟨p, .inl rfl⟩
  | argSymm p => exact ⟨p, .inr rfl⟩

/-- Two calls have their connections apart. -/
theorem State.edges_add_le_graph {d : Call} (hij : i ≠ j) (hi : s.calls[i]? = some c)
    (hj : s.calls[j]? = some d) : c.edges + d.edges ≤ s.graph := by
  have hg := State.graph_goto hi .returned
  have hd : (s.goto i .returned).calls[j]? = some d := by
    rwa [State.goto, List.getElem?_set_ne hij]
  rw [Call.edges_returned, add_zero] at hg
  rw [← hg, add_comm]
  exact add_le_add_left (State.edges_le_graph hd) _

namespace Assignment

variable (a : Assignment)

/-- Two ends of wires that no call was given: one more connection would be allowed. -/
def OpenEnds (v w : ℕ) : Prop :=
  v < a.wireCount ∧ w < a.wireCount ∧
    ∀ u, degree (.wire u) (s(.wire v, .wire w) ::ₘ a.graph) ≤ 2

variable {a} {v : ℕ}

theorem OpenEnds.symm (h : a.OpenEnds v w) : a.OpenEnds w v :=
  ⟨h.2.1, h.1, by simpa only [Sym2.eq_swap] using h.2.2⟩

theorem OpenEnds.degree_le (h : a.OpenEnds v w) : degree (.wire v) a.graph ≤ 1 := by
  have := h.2.2 v
  rw [degree_cons, if_pos rfl] at this
  omega

theorem OpenEnds.degree_self (h : a.OpenEnds v v) : degree (.wire v) a.graph = 0 := by
  have := h.2.2 v
  rw [degree_cons, if_pos rfl] at this
  omega

end Assignment

namespace Inv

variable {a : Assignment}

theorem alive_of_not_isWire (hx : ¬ x.IsWire) : Wire.Alive wires x := by
  cases x <;> first | trivial | exact (hx trivial).elim

theorem degree_le_one (h : Inv a s) (p : ℕ) : Lib.degree (.principalWire p) s.graph ≤ 1 :=
  (h.degree (.principalWire p) trivial).trans_le (a.principalWire_linear p)

theorem trail_of_handed (h : Inv a s) (hj : s.Handed x y j) : Trail Value.IsWire a.graph x y := by
  obtain ⟨c, hc, hh⟩ := hj
  obtain ⟨hx, hy⟩ := hh.not_isWire (h.call j c hc)
  refine (h.trail x y (alive_of_not_isWire hx) (alive_of_not_isWire hy)).mp (.of_mem ?_)
  exact Multiset.mem_of_le (State.edges_le_graph hc) (by simp [hh.edges])

theorem handed_unique (h : Inv a s) (hi : s.Handed x y i) (hj : s.Handed x y j) : i = j := by
  obtain ⟨c, hc, hh⟩ := hi
  obtain ⟨d, hd, hh'⟩ := hj
  by_contra hij
  obtain ⟨p, hp⟩ := hh.exists_principalWire
  have hle := (degree_le (v := .principalWire p) (State.edges_add_le_graph hij hc hd)).trans
    (h.degree_le_one p)
  rw [hh.edges, hh'.edges, degree_add, degree_singleton] at hle
  rcases hp with rfl | rfl <;> simp only [↓reduceIte] at hle <;> omega

section Finished

variable (h : Inv a s) (hf : s.Finished)

include h hf

theorem call_not_isWire : ∀ e ∈ Cells.sum (fun _ c => Call.edges c) s.calls,
    ∀ x ∈ e, ¬ x.IsWire := by
  intro e he x hx
  obtain ⟨j, c, hc, he⟩ := Cells.mem_sum he
  obtain ⟨y, rfl⟩ := hx
  exact ((Call.hands_of_mem (hf j c hc) (h.call j c hc) he).not_isWire (h.call j c hc)).1

omit h hf in
theorem graph_eq : s.graph = Pointer.edges (Wire.next s.wires) (Wire.cells s.wires) +
    Cells.sum (fun _ c => Call.edges c) s.calls := by
  rw [State.graph, Wire.sum_edges]

omit h hf in
theorem next_edges_le_graph :
    Pointer.edges (Wire.next s.wires) (Wire.cells s.wires) ≤ s.graph := by
  rw [graph_eq]
  exact Multiset.le_add_right _ _

/-- Every path between values that are no wires has been handed on. -/
theorem handed_of_trail (hx : ¬ x.IsWire) (hy : ¬ y.IsWire)
    (ht : Trail Value.IsWire a.graph x y) : ∃ j, s.Handed x y j := by
  have ht' := (h.trail x y (alive_of_not_isWire hx) (alive_of_not_isWire hy)).mpr ht
  rw [graph_eq] at ht'
  have hxc : x ∉ Wire.cells s.wires := by
    intro hm
    obtain ⟨w, _, rfl⟩ := Finset.mem_image.mp hm
    exact hx trivial
  rcases Pointer.trail_back (h.call_not_isWire hf) ht' hxc with hm | ⟨l, hl⟩
  · obtain ⟨j, c, hc, he⟩ := Cells.mem_sum hm
    exact ⟨j, c, hc, Call.hands_of_mem (hf j c hc) (h.call j c hc) he⟩
  · obtain rfl : x = y := by
      cases hl with
      | nil => rfl
      | cons hn _ => exact (hy (Wire.isWire_of_next (Option.ne_none_iff_exists'.mpr ⟨_, hn⟩))).elim
    rcases Value.exists_principalWire_or_isNonWire hx with ⟨p, rfl⟩ | hx
    · exact absurd ht.degree_self (not_le.mpr (Nat.lt_succ_of_le (a.principalWire_linear p)))
    · exact (a.not_atoms x x hx hx ht).elim

omit hf in
/-- The fuzed values lead to no destroyed wire. -/
theorem alive_of_next (hn : Wire.next s.wires x = some y) : Wire.Alive s.wires y := by
  by_contra hy
  have hx : Wire.next s.wires x ≠ none := by rw [hn]; exact Option.some_ne_none y
  have hm := Pointer.mem_edges (Wire.mem_cells hx) hn
  have hle := Multiset.mem_of_le next_edges_le_graph hm
  exact (degree_pos hle (.inr rfl)).ne' (h.destroyed y hy)

omit hf in
theorem degree_next_le (hx : Wire.Alive s.wires x) :
    Lib.degree x (Pointer.edges (Wire.next s.wires) (Wire.cells s.wires)) ≤
      Lib.degree x a.graph := by
  rw [← h.degree x hx]
  exact degree_le next_edges_le_graph

omit hf in
theorem linear : Pointer.Linear (Wire.next s.wires) := by
  refine Pointer.linear_of_degree (fun _ => Wire.mem_cells) fun z hz => ?_
  obtain ⟨w, rfl⟩ := (Wire.isWire_of_next hz).exists
  exact (h.degree_next_le (Wire.alive_of_next_ne_none hz)).trans (a.wire_linear w)

end Finished

section OpenEnds

variable (h : Inv a s) {v w : ℕ} (ho : a.OpenEnds v w)

include h ho

theorem openEnd_alive : Wire.Alive s.wires (.wire v) := by
  by_contra hv
  have := h.used v ho.1 hv
  have := ho.degree_le
  omega

theorem openEnd_initial : Pointer.Initial (Wire.next s.wires) (.wire v) :=
  Pointer.initial_of_degree (fun _ => Wire.mem_cells)
    ((h.degree_next_le (h.openEnd_alive ho)).trans ho.degree_le)

theorem walk_openEnd : ∃ r l, walk s.wires (.wire v) = some r ∧ Wire.next s.wires r = none ∧
    Pointer.Chain (Wire.next s.wires) (.wire v) l r := by
  obtain ⟨r, hr⟩ := Pointer.chase_isSome h.linear (fun _ => Wire.mem_cells) (h.openEnd_initial ho)
  obtain ⟨hn, l, hl⟩ := Pointer.chase_some hr
  rw [Wire.card_cells, ← Wire.walkFuel_eq_chase (fun _ _ => h.alive_of_next)
    (h.openEnd_alive ho)] at hr
  exact ⟨r, l, hr, hn, hl⟩

theorem walk_eq_of_trail (hf : s.Finished) (hne : v ≠ w)
    (ht : Trail Value.IsWire a.graph (.wire v) (.wire w)) :
    ∃ r l m, Value.IsWire r ∧ Wire.next s.wires r = none ∧
      Pointer.Chain (Wire.next s.wires) (.wire v) l r ∧
      Pointer.Chain (Wire.next s.wires) (.wire w) m r := by
  have ht' := (h.trail _ _ (h.openEnd_alive ho) (h.openEnd_alive ho.symm)).mpr ht
  rw [graph_eq] at ht'
  obtain ⟨r, l, m, hr, hl, hm⟩ := Pointer.trail_meet (h.call_not_isWire hf) ht' trivial trivial
  refine ⟨r, l, m, hr, by_contra fun hn => hne ?_, hl, hm⟩
  exact Value.wire.inj (hl.initial_unique h.linear (h.openEnd_initial ho)
    (h.openEnd_initial ho.symm) hm hn)

theorem eq_of_principalWire {p : ℕ} {l m : List Value}
    (hl : Pointer.Chain (Wire.next s.wires) (.wire v) l (.principalWire p))
    (hm : Pointer.Chain (Wire.next s.wires) (.wire w) m (.principalWire p)) : v = w := by
  rcases hl.last with ⟨_, hv⟩ | ⟨l, x, rfl, hl, hx⟩
  · cases hv
  rcases hm.last with ⟨_, hw⟩ | ⟨m, y, rfl, hm, hy⟩
  · cases hw
  have hd : Lib.degree (.principalWire p)
      (Pointer.edges (Wire.next s.wires) (Wire.cells s.wires)) ≤ 1 :=
    (degree_le next_edges_le_graph).trans (h.degree_le_one p)
  obtain rfl := Pointer.eq_of_degree (fun _ => Wire.mem_cells) hd hx hy
  exact Value.wire.inj (hl.initial_unique h.linear (h.openEnd_initial ho)
    (h.openEnd_initial ho.symm) hm (by rw [hx]; exact Option.some_ne_none _))

omit ho in
theorem oppsite_eq_none {p q : ℕ} {l : List Value}
    (hl : Pointer.Chain (Wire.next s.wires) (.wire v) l (.principalWire p)) :
    s.oppsite p ≠ some q := by
  intro hpq
  rcases hl.last with ⟨_, hv⟩ | ⟨l, x, rfl, hl, hx⟩
  · cases hv
  have hw : 0 < Lib.degree (.principalWire p)
      (Pointer.edges (Wire.next s.wires) (Wire.cells s.wires)) := by
    refine degree_pos (Pointer.mem_edges (Wire.mem_cells ?_) hx) (.inr rfl)
    rw [hx]
    exact Option.some_ne_none _
  have hc : 0 < Lib.degree (.principalWire p) (Cells.sum (fun _ c => Call.edges c) s.calls) := by
    obtain ⟨j, hj | hj⟩ := h.oppsite p q hpq <;>
      obtain ⟨r, hr⟩ := Cells.exists_sum_eq (fun _ c => Call.edges c) hj
    · exact degree_pos (by rw [hr]; exact Multiset.mem_cons_self _ _) (.inl rfl)
    · exact degree_pos (by rw [hr]; exact Multiset.mem_cons_self _ _) (.inr rfl)
  have hle := h.degree_le_one p
  rw [graph_eq, degree_add] at hle
  omega

omit ho in
theorem next_ne_some_of_openEnds (ho : a.OpenEnds v v) : Wire.next s.wires (.wire v) ≠ some x := by
  intro hn
  have hc : Wire.next s.wires (.wire v) ≠ none := by rw [hn]; exact Option.some_ne_none x
  have hle := h.degree_next_le (h.openEnd_alive ho)
  rw [ho.degree_self] at hle
  exact (degree_pos (Pointer.mem_edges (Wire.mem_cells hc) hn) (.inl rfl)).ne'
    (Nat.le_zero.mp hle)

/-- `is_connected` of two open ends tells whether a path of connections joins them. -/
theorem isConnected_iff (hf : s.Finished) :
    ∃ b, isConnected s.wires s.oppsite (.wire v) (.wire w) = some b ∧
      (b = true ↔ v = w ∨ Trail Value.IsWire a.graph (.wire v) (.wire w)) := by
  obtain ⟨x, l, hx, hxn, hl⟩ := h.walk_openEnd ho
  obtain ⟨y, m, hy, hyn, hm⟩ := h.walk_openEnd ho.symm
  refine ⟨isConnectedWalked s.oppsite x y, by simp [isConnected, hx, hy], fun hb => ?_, fun ht => ?_⟩
  · refine or_iff_not_imp_left.mpr fun hne => ?_
    cases x <;> cases y <;> first | cases hb | skip
    case principalWire.principalWire p q =>
      simp only [isConnectedWalked, Bool.or_eq_true, Bool.and_eq_true, decide_eq_true_eq] at hb
      rcases hb with rfl | ⟨hpq, _⟩
      · exact (hne (h.eq_of_principalWire ho hl hm)).elim
      · exact (h.oppsite_eq_none hl hpq).elim
    case wire.wire r r' =>
      obtain rfl : r = r' := by simpa [isConnectedWalked] using hb
      refine (h.trail _ _ (h.openEnd_alive ho) (h.openEnd_alive ho.symm)).mp ?_
      refine (Pointer.trail_of_meet h.linear (fun _ => Wire.mem_cells)
        (fun _ => Wire.isWire_of_next) (h.openEnd_initial ho) (h.openEnd_initial ho.symm)
        (fun he => hne (Value.wire.inj he)) (Value.isWire_wire r) hl hm).mono next_edges_le_graph
  · obtain ⟨r, hr, rfl, rfl⟩ : ∃ r, Value.IsWire r ∧ x = r ∧ y = r := by
      by_cases hvw : v = w
      · subst w
        obtain rfl := hl.end_unique hxn hm hyn
        refine ⟨x, ?_, rfl, rfl⟩
        cases hl with
        | nil => trivial
        | cons hn _ => exact (h.next_ne_some_of_openEnds ho hn).elim
      · obtain ⟨r, l', m', hr, hn, hl', hm'⟩ := h.walk_eq_of_trail ho hf hvw (ht.resolve_left hvw)
        exact ⟨r, hr, hl.end_unique hxn hl' hn, hm.end_unique hyn hm' hn⟩
    obtain ⟨r, rfl⟩ := hr.exists
    simp [isConnectedWalked]

end OpenEnds

end Inv

/--
However the steps of the calls interleave, the calls all end, within a bound on
the number of their steps, and never read or write a destroyed wire. What has
been handed on then is what the assignment joins by paths of wires, each pair to
one call, and the wires left over connect their open ends along those paths.
-/
theorem Assignment.connect_all (a : Assignment) :
    (∀ l t, Transition.run (step a.isPrimitive) a.initial l = some t →
      l.length ≤ 2 * (a.wireCount + a.args.length)) ∧
    ∀ s, Transition.Reaches (step a.isPrimitive) a.initial s →
      (∀ j c, s.calls[j]? = some c →
        (¬ c.Finished → (step a.isPrimitive s j).isSome) ∧ (∀ x y, c ≠ .failed x y) ∧
          ∀ w, c.target = some w → ∃ v, s.wires[w]? = some ⟨v, false⟩) ∧
      (∀ x y j, s.Handed x y j → ¬ x.IsWire ∧ ¬ y.IsWire ∧
        Trail Value.IsWire a.graph x y ∧ ∀ i, s.Handed x y i → i = j) ∧
      (s.Finished →
        (∀ x y, ¬ x.IsWire → ¬ y.IsWire → Trail Value.IsWire a.graph x y →
          ∃ j, s.Handed x y j) ∧
        ∀ v w, a.OpenEnds v w → ∃ b, isConnected s.wires s.oppsite (.wire v) (.wire w) = some b ∧
          (b = true ↔ v = w ∨ Trail Value.IsWire a.graph (.wire v) (.wire w))) := by
  refine ⟨fun l t hl => ?_, fun s hs => ?_⟩
  · have := Transition.run_length_le (P := fun _ => True) (μ := State.measure) (fun _ _ _ _ _ => trivial)
      (fun _ _ _ _ ht => (steps_of_step ht).measure_lt) trivial hl
    rw [a.measure_initial] at this
    omega
  have h := Inv.of_reaches hs
  refine ⟨fun j c hc => ⟨h.step_isSome hc, ?_, fun w => h.target_alive hc⟩, fun x y j hj => ?_,
    fun hf => ⟨fun x y => h.handed_of_trail hf, fun v w ho => h.isConnected_iff ho hf⟩⟩
  · rintro x y rfl
    exact h.call j _ hc
  · obtain ⟨c, hc, hh⟩ := hj
    obtain ⟨hx, hy⟩ := hh.not_isWire (h.call j c hc)
    exact ⟨hx, hy, h.trail_of_handed ⟨c, hc, hh⟩, fun i hi => h.handed_unique hi ⟨c, hc, hh⟩⟩

/-- Two principal wires over a chain of two wires, and a wire with an open end on each side. -/
def chainArgs : List (Value × Value) :=
  [(.principalWire 0, .wire 0), (.wire 0, .wire 1), (.wire 1, .principalWire 1), (.wire 2, .wire 3)]

theorem degree_wire_chainArgs (w : ℕ) : degree (.wire w) (connections chainArgs) =
    (if w = 0 then 2 else 0) + (if w = 1 then 2 else 0) + (if w = 2 then 1 else 0) +
      if w = 3 then 1 else 0 := by
  simp only [chainArgs, connections_cons, connections_nil, degree_cons, degree_zero,
    Value.wire.injEq, reduceCtorEq, if_false]
  split_ifs <;> omega

theorem degree_principalWire_chainArgs (p : ℕ) :
    degree (.principalWire p) (connections chainArgs) =
      (if p = 0 then 1 else 0) + if p = 1 then 1 else 0 := by
  simp only [chainArgs, connections_cons, connections_nil, degree_cons, degree_zero,
    Value.principalWire.injEq, reduceCtorEq, if_false]
  omega

theorem degree_isNonWire_chainArgs {x : Value} (hx : x.IsNonWire) :
    degree x (connections chainArgs) = 0 := by
  cases x <;> first | exact hx.elim | rfl

theorem not_trail_chainArgs {x y : Value} (hy : y.IsNonWire) :
    ¬ Trail Value.IsWire (connections chainArgs) x y := by
  intro ht
  have := ht.degree_right
  rw [degree_isNonWire_chainArgs hy] at this
  exact lt_irrefl 0 this

theorem chainArgs_allocated (w : ℕ) (hw : 4 ≤ w) :
    degree (.wire w) (connections chainArgs) = 0 := by
  rw [degree_wire_chainArgs]
  split_ifs <;> omega

theorem chainArgs_wire_linear (w : ℕ) : degree (.wire w) (connections chainArgs) ≤ 2 := by
  rw [degree_wire_chainArgs]
  split_ifs <;> omega

theorem chainArgs_principalWire_linear (p : ℕ) :
    degree (.principalWire p) (connections chainArgs) ≤ 1 := by
  rw [degree_principalWire_chainArgs]
  split_ifs <;> omega

def chain : Assignment where
  wireCount := 4
  isPrimitive _ := false
  args := chainArgs
  allocated := chainArgs_allocated
  wire_linear := chainArgs_wire_linear
  principalWire_linear := chainArgs_principalWire_linear
  not_atoms _ _ _ hy := not_trail_chainArgs hy
  primitive _ _ hy ht := (not_trail_chainArgs hy ht).elim

/-- The call in the middle comes last to both wires and finds the two principal wires. -/
def chainEnd : State where
  wires := [⟨some (.principalWire 0), true⟩, ⟨some (.principalWire 1), true⟩, ⟨some (.wire 3), false⟩,
    {}]
  oppsite := Function.update (Function.update (fun _ => none) 1 (some 0)) 0 (some 1)
  calls := [.returned, .activePair 1 0, .returned, .returned]

theorem connect_all_chain :
    (∃ j, chainEnd.Handed (.principalWire 0) (.principalWire 1) j) ∧
      ∃ b, isConnected chainEnd.wires chainEnd.oppsite (.wire 2) (.wire 3) = some b ∧
        (b = true ↔ 2 = 3 ∨ Trail Value.IsWire chain.graph (.wire 2) (.wire 3)) := by
  have hr : Transition.run (step chain.isPrimitive) chain.initial [0, 2, 1, 1, 1, 1, 1, 3] =
      some chainEnd := rfl
  have hf : chainEnd.Finished := by
    intro j c hc
    have hm := List.mem_of_getElem? hc
    simp only [chainEnd, List.mem_cons, List.not_mem_nil, or_false] at hm
    rcases hm with rfl | rfl | rfl | rfl <;> trivial
  have ht : Trail Value.IsWire chain.graph (.principalWire 0) (.principalWire 1) := by
    simp only [Assignment.graph, chain, chainArgs, connections_cons]
    exact .step trivial (.step trivial .edge)
  have h := ((chain.connect_all.2 chainEnd (.of_run hr)).2.2 hf)
  refine ⟨h.1 _ _ id id ht, h.2 2 3 ⟨by decide, by decide, fun u => ?_⟩⟩
  rw [degree_cons, Assignment.graph, chain, degree_wire_chainArgs]
  simp only [Value.wire.injEq]
  split_ifs <;> omega

end InetLisp.Fuze
