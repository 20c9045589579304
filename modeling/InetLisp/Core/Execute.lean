import InetLisp.Core.Build
import InetLisp.Core.Trace

/-! # Running code keeps the invariant

What a frame holds is outside of the net, as is what the value stack holds. An opcode
moves values between the two, or does with the values on the stack what an
application does.
-/

namespace InetLisp

open Lib

variable {P : Program} {missed : Set Redex} {net net' : Net} {s s' : Store} {w : Worker}
  {outside outside' : Multiset Value} {tasks : Multiset Task} {G : Open} {n k arity : ℕ}
  {v target : Value}

theorem Value.in_of_isNonWire (h : v.IsNonWire) : v.In net := by
  cases v <;> trivial

/-- Outside of the net, only references count, and they may be forgotten. -/
theorem Inv.of_count_le (h : Inv P missed net outside tasks G)
    (ho : ∀ v : Value, ¬ v.IsNonWire → outside'.count v ≤ outside.count v) :
    Inv P missed net outside' tasks G where
  linear := by
    constructor
    · intro v hv
      have hc := h.linear.count_le v hv
      have := ho v hv
      rw [Multiset.count_add] at hc ⊢
      omega
    · intro v hm
      by_cases hv : v.IsNonWire
      · exact Value.in_of_isNonWire hv
      · rcases Multiset.mem_add.mp hm with hm | hm
        · have hpos := (Multiset.count_pos.mpr hm).trans_le (ho v hv)
          exact h.linear.allocated v (Multiset.mem_add.mpr (.inl (Multiset.count_pos.mp hpos)))
        · exact h.linear.allocated v (Multiset.mem_add.mpr (.inr hm))
  shape := h.shape
  pending := h.pending

theorem Inv.addNonWire (h : Inv P missed net outside tasks G) (hv : v.IsNonWire) :
    Inv P missed net (v ::ₘ outside) tasks G := by
  apply h.of_count_le
  intro u hu
  rw [Multiset.count_cons_of_ne]
  rintro rfl
  exact hu hv

theorem Inv.defuzeFuel (hk : net.liveWires < k) (h : Inv P missed net (v ::ₘ outside) tasks G) :
    Outcome Error.Expected (fun (net', v') => Inv P missed net' (v' ::ₘ outside) tasks G)
      (Store.defuzeFuel k net v) := by
  induction k generalizing net v with
  | zero => exact (Nat.not_lt_zero _ hk).elim
  | succ k ih =>
    cases v with
    | wire w =>
      obtain ⟨o, hw⟩ := h.wire_of_mem (Multiset.mem_cons_self _ _)
      unfold Store.defuzeFuel
      rw [hw]
      cases o with
      | none => exact h
      | some v =>
        apply ih _ (h.fuzeSecond hw)
        have := liveWires_setWire (some v) hw
        omega
    | _ => exact h

theorem Inv.defuze (h : Inv P missed net (v ::ₘ outside) tasks G) :
    Outcome Error.Expected (fun (net', v') => Inv P missed net' (v' ::ₘ outside) tasks G)
      (Store.defuze net v) :=
  h.defuzeFuel (Nat.lt_succ_of_le List.countP_le_length)

/-- The value is not a wire that has been fuzed to a wire with nothing at its other end. -/
def Direct (net : Net) (v : Value) : Prop :=
  ∀ net' w, Store.defuze net v = .ok (net', .wire w) → v = .wire w

instance (net : Net) (v : Value) : Decidable (Direct net v) :=
  decidable_of_iff (∀ x ∈ (Store.defuze net v).toOption, x.2.IsWire → v = x.2) <| by
    constructor
    · intro h net' w hd
      exact h (net', .wire w) (Outcome.toOption_eq_some.mpr hd) trivial
    · rintro h ⟨net', u⟩ hx hu
      obtain ⟨w, rfl⟩ := Value.IsWire.exists hu
      exact h net' w (Outcome.toOption_eq_some.mp hx)

namespace Store.Ok

theorem of_count_le (h : s.Ok P missed outside tasks G) (hn : s'.toNet = s.toNet)
    (ho : ∀ v : Value, ¬ v.IsNonWire → (s'.valueStack + outside' : Multiset Value).count v ≤
      (s.valueStack + outside : Multiset Value).count v)
    (ht : (s'.taskQueue + s'.refused : Multiset Task) = s.taskQueue + s.refused) :
    s'.Ok P missed outside' tasks G := by
  unfold Ok at h ⊢
  rw [hn, ht]
  exact h.of_count_le ho

theorem mono (h : s.Ok P missed outside tasks G) (ho : outside' ≤ outside) :
    s.Ok P missed outside' tasks G := by
  apply h.of_count_le rfl _ rfl
  intro v _
  exact Multiset.count_le_of_le v (add_le_add le_rfl ho)

theorem addNonWire (h : s.Ok P missed outside tasks G) (hv : v.IsNonWire) :
    s.Ok P missed (v ::ₘ outside) tasks G := by
  apply h.of_count_le rfl _ rfl
  intro u hu
  rw [Multiset.add_cons, Multiset.count_cons_of_ne]
  rintro rfl
  exact hu hv

theorem applyPrimitive {p : Primitive} (h : s.Ok P missed outside tasks G) :
    Keeps P missed outside tasks G (s.applyPrimitive P p) := by
  unfold Store.applyPrimitive
  cases p.fn with
  | connect =>
    apply h.pop.bind
    rintro ⟨x, s₁⟩ ⟨h₁, -⟩
    apply h₁.pop.bind
    rintro ⟨y, s₂⟩ ⟨h₂, -⟩
    exact h₂.connect
  | link =>
    have h₁ := h.toInv.newWire
    rw [← Multiset.cons_add, ← Multiset.cons_add] at h₁
    exact (setNet h₁).push.push
  | fn f =>
    dsimp only
    split
    · exact ⟨trivial, nofun⟩
    · cases hf : f.run (s.valueStack.take p.inputArity).reverse with
      | error e =>
        have he := f.error_eq hf
        subst he
        exact ⟨trivial, nofun⟩
      | ok results =>
        have h' : Ok P missed { s with valueStack :=
            results.reverse ++ s.valueStack.drop p.inputArity } outside tasks G := by
          apply h.of_count_le
          · rfl
          · intro v hv
            have hr : results.count v = 0 :=
              List.count_eq_zero.mpr fun hm => hv (f.isNonWire hf v hm)
            have hd := (List.drop_sublist p.inputArity s.valueStack).count_le v
            simp only [Multiset.count_add, Multiset.coe_count, List.count_append,
              List.count_reverse, hr]
            omega
          · rfl
        exact h'

theorem applyNonWire (hP : P.Ok) (hG : G.unset = ∅) (h : s.Ok P missed outside tasks G) :
    Outcome Error.Expected (fun (s', f) => s'.Ok P missed outside tasks G ∧
      ∀ g ∈ f, ∃ function, P.functions[g]? = some function) (s.applyNonWire P target arity) := by
  have hexp : ∀ {e : Error}, e.Expected → Outcome Error.Expected
      (fun ((s', f) : Store × Option ℕ) => s'.Ok P missed outside tasks G ∧
        ∀ g ∈ f, ∃ function, P.functions[g]? = some function) (.error e) := fun he => he
  unfold Store.applyNonWire
  split
  · split
    · rename_i ctor hc
      apply (h.applyNodeCtor hP hG hc).bind
      intro s' h'
      exact ⟨h', nofun⟩
    · exact hexp ⟨trivial, nofun⟩
  · split
    · rename_i function hf
      split
      · refine ⟨h, ?_⟩
        rintro g ⟨⟩
        exact ⟨function, hf⟩
      · exact hexp ⟨trivial, nofun⟩
    · exact hexp ⟨trivial, nofun⟩
  · split
    · rename_i p hp
      split
      · rename_i c hc
        obtain ⟨ctor, hctor⟩ := hP.nodeCtor _ p c hp hc
        apply (h.applyNodeCtor hP hG hctor).bind
        intro s' h'
        exact ⟨h', nofun⟩
      · dsimp only
        split
        · exact hexp ⟨trivial, nofun⟩
        · apply h.applyPrimitive.bind
          intro s' h'
          exact ⟨h', nofun⟩
    · exact hexp ⟨trivial, nofun⟩
  · exact hexp ⟨trivial, nofun⟩

theorem tuck (h : s.Ok P missed (v ::ₘ outside) tasks G) :
    Keeps P missed outside tasks G (s.tuck v n) := by
  unfold Store.tuck
  split
  · exact ⟨trivial, nofun⟩
  · refine h.congr rfl ?_ rfl
    have hs : (↑(s.valueStack.take n ++ v :: s.valueStack.drop n) : Multiset Value) =
        v ::ₘ ↑s.valueStack := by
      rw [Multiset.cons_coe, Multiset.coe_eq_coe]
      exact List.perm_middle.trans (by rw [List.take_append_drop])
    dsimp only
    rw [hs, Multiset.cons_add, Multiset.add_cons]

theorem applyWire {w : ℕ} (hP : P.Ok) (hG : G.unset = ∅)
    (h : s.Ok P missed (.wire w ::ₘ outside) tasks G) (hd : Direct s.toNet (.wire w)) :
    Outcome Error.Expected (fun (s', f) => s'.Ok P missed outside tasks G ∧
      ∀ g ∈ f, ∃ function, P.functions[g]? = some function) (s.applyWire P w arity) := by
  have hi := h.toInv
  rw [Multiset.cons_add] at hi
  have hdef := hi.defuze
  unfold Store.applyWire
  cases hx : Store.defuze s.toNet (.wire w) with
  | error e =>
    rw [hx] at hdef
    exact hdef
  | ok x =>
    obtain ⟨net, v⟩ := x
    rw [hx] at hdef
    have h₁ : (s.setNet net).Ok P missed (v ::ₘ outside) tasks G := by
      apply setNet
      rw [Multiset.cons_add]
      exact hdef
    rw [Outcome.ok_bind]
    dsimp only
    split
    · rename_i w'
      split
      · exact ⟨trivial, nofun⟩
      · rename_i ha
        cases hd net w' hx
        have hc : ∃ ctor, P.nodeCtor (InetLisp.applyNodeCtor arity) = some ctor := by
          obtain ⟨h₁, h₂⟩ := not_not.mp ha
          have hlt : InetLisp.applyNodeCtor arity < applyNodeCtors.length := by
            simp only [InetLisp.applyNodeCtor, applyNodeCtors, List.length_map, List.length_range]
            omega
          refine ⟨applyNodeCtors[InetLisp.applyNodeCtor arity], ?_⟩
          rw [Program.nodeCtor, List.getElem?_append_left hlt, List.getElem?_eq_getElem hlt]
        obtain ⟨ctor, hc⟩ := hc
        apply h₁.tuck.bind
        intro s₂ h₂
        apply (h₂.applyNodeCtor hP hG hc).bind
        intro s₃ h₃
        exact ⟨h₃, nofun⟩
    · exact (h₁.mono (Multiset.le_cons_self _ _)).applyNonWire hP hG

theorem applyTarget (hP : P.Ok) (hG : G.unset = ∅)
    (h : s.Ok P missed (target ::ₘ outside) tasks G) (hd : Direct s.toNet target) :
    Outcome Error.Expected (fun (s', f) => s'.Ok P missed outside tasks G ∧
      ∀ g ∈ f, ∃ function, P.functions[g]? = some function) (s.applyTarget P target arity) := by
  unfold Store.applyTarget
  split
  · exact h.applyWire hP hG hd
  · exact (h.mono (Multiset.le_cons_self _ _)).applyNonWire hP hG

end Store.Ok

/-- What the code of a frame still holds. -/
def Frame.content (frame : Frame) : Multiset Value := Slots.content frame.variableArray

/-- What the frames of a return stack hold. -/
def held (frames : List Frame) : Multiset Value := (frames.map Frame.content).sum

@[simp] theorem held_nil : held [] = 0 := rfl

@[simp] theorem held_cons {frame : Frame} {frames : List Frame} :
    held (frame :: frames) = frame.content + held frames := by
  simp [held]

/-- The opcode does not copy a reference, nor does it use a wire that `defuze` has destroyed. -/
def Opcode.Safe (s : Store) : Opcode → Prop
  | .apply _ => ∀ v ∈ s.valueStack.head?, Direct s.toNet v
  | .literal v => v.IsNonWire
  | _ => True

instance (s : Store) : DecidablePred (Opcode.Safe s)
  | .apply _ => inferInstanceAs (Decidable (∀ v ∈ s.valueStack.head?, Direct s.toNet v))
  | .literal v => inferInstanceAs (Decidable v.IsNonWire)
  | .getVariable _ => .isTrue trivial
  | .setVariable _ => .isTrue trivial

section Opcodes

variable {opcode : Opcode}

theorem Store.Ok.executeOpcode (frame : Frame) (hP : P.Ok) (hG : G.unset = ∅)
    (h : s.Ok P missed (frame.content + outside) tasks G) (hs : opcode.Safe s) :
    Outcome Error.Expected (fun (s', frame', f) =>
      s'.Ok P missed (frame'.content + outside) tasks G ∧
        ∀ g ∈ f, ∃ function, P.functions[g]? = some function)
      (s.executeOpcode P frame opcode) := by
  cases opcode with
  | apply arity =>
    apply (h.pop).bind
    rintro ⟨target, s₁⟩ ⟨h₁, hnet, hv⟩
    have hd : Direct s₁.toNet target := by
      rw [hnet]
      exact hs target (by rw [hv]; rfl)
    apply (h₁.applyTarget hP hG hd).bind
    rintro ⟨s₂, f⟩ ⟨h₂, hf⟩
    exact ⟨h₂, hf⟩
  | literal v =>
    have h₁ : (s.push v).Ok P missed (frame.content + outside) tasks G := (h.addNonWire hs).push
    exact ⟨h₁, nofun⟩
  | getVariable i =>
    cases hi : frame.variableArray.get i with
    | none =>
      have hg : frame.getVariable i = .error .undefinedVariable := by simp [Frame.getVariable, hi]
      simp only [Store.executeOpcode, hg]
      exact ⟨trivial, nofun⟩
    | some v =>
      have hg : frame.getVariable i =
          .ok (v, { frame with variableArray := frame.variableArray.set i none }) := by
        simp [Frame.getVariable, hi]
      have hc := Slots.content_set (l := frame.variableArray) (i := i) (v := none)
      rw [hi, Slots.single_none, Slots.single_some, add_zero] at hc
      have he : v ::ₘ (Slots.content (frame.variableArray.set i none) + outside) =
          frame.content + outside := by
        rw [Frame.content, ← hc, ← Multiset.singleton_add]
        abel
      rw [← he] at h
      simp only [Store.executeOpcode, hg]
      exact ⟨h.push, nofun⟩
  | setVariable i =>
    apply (h.pop).bind
    rintro ⟨v, s₁⟩ ⟨h₁, -⟩
    cases hi : frame.variableArray.get i with
    | none =>
      have hg : frame.setVariable i v =
          .ok { frame with variableArray := frame.variableArray.set i (some v) } := by
        simp [Frame.setVariable, hi]
      have hc := Slots.content_set (l := frame.variableArray) (i := i) (v := some v)
      rw [hi, Slots.single_none, Slots.single_some, add_zero] at hc
      have he : v ::ₘ (frame.content + outside) =
          Slots.content (frame.variableArray.set i (some v)) + outside := by
        rw [Frame.content, hc, ← Multiset.singleton_add]
        abel
      rw [he] at h₁
      simp only [hg]
      exact ⟨h₁, nofun⟩
    | some u =>
      have hg : frame.setVariable i v = .error .usedVariable := by simp [Frame.setVariable, hi]
      simp only [hg]
      exact ⟨trivial, nofun⟩

end Opcodes

/-- The invariant, with the value stack and the frames of the worker outside of the net. -/
structure Worker.Ok (P : Program) (missed : Set Redex) (w : Worker) (outside : Multiset Value)
    (tasks : Multiset Task) (G : Open) : Prop where
  store : w.toStore.Ok P missed (held w.returnStack + outside) tasks G
  function : ∀ frame ∈ w.returnStack, ∃ function, P.functions[frame.function]? = some function

def Worker.Safe (P : Program) (w : Worker) : Prop :=
  ∀ frame rest function opcode, w.returnStack = frame :: rest →
    P.functions[frame.function]? = some function →
      function.opcodeArray[frame.cursor]? = some opcode → opcode.Safe w.toStore

instance (P : Program) (w : Worker) : Decidable (w.Safe P) :=
  decidable_of_iff (∀ frame ∈ w.returnStack.head?, ∀ function ∈ P.functions[frame.function]?,
      ∀ opcode ∈ function.opcodeArray[frame.cursor]?, opcode.Safe w.toStore) <| by
    constructor
    · intro h frame rest function opcode hr hf ho
      exact h frame (by rw [hr]; rfl) function hf opcode ho
    · intro h frame hr function hf opcode ho
      obtain ⟨rest, hr⟩ := List.head?_eq_some_iff.mp hr
      exact h frame rest function opcode hr hf ho

namespace Worker.Ok

variable {w : Worker} {frame : Frame} {rest : List Frame}

theorem setStore (h : w.Ok P missed outside tasks G)
    (hs : s.Ok P missed (held w.returnStack + outside) tasks G) :
    (w.setStore s).Ok P missed outside tasks G := ⟨hs, h.function⟩

theorem enter {f : Option ℕ} (h : w.Ok P missed outside tasks G)
    (hf : ∀ g ∈ f, ∃ function, P.functions[g]? = some function) :
    (w.enter f).Ok P missed outside tasks G := by
  cases f with
  | none => exact h
  | some f =>
    constructor
    · have hs := h.store
      simpa [Worker.enter, Frame.content] using hs
    · intro frame hm
      rcases List.mem_cons.mp hm with rfl | hm
      · exact hf f rfl
      · exact h.function frame hm

/-- A frame that is destroyed drops what it holds. -/
theorem pushUnfinished {function : Function} (h : s.Ok P missed (frame.content + (held rest + outside)) tasks G)
    (hf : ∀ x ∈ frame :: rest, ∃ function, P.functions[x.function]? = some function) :
    (Worker.pushUnfinished { toStore := s, returnStack := rest } function frame).Ok P missed outside
      tasks G := by
  unfold Worker.pushUnfinished
  split
  · constructor
    · exact h.mono (Multiset.le_add_left _ _)
    · exact fun x hx => hf x (List.mem_cons_of_mem _ hx)
  · constructor
    · dsimp only
      rw [held_cons, add_assoc]
      exact h
    · exact hf

theorem runOneStep (hP : P.Ok) (hG : G.unset = ∅) (h : w.Ok P missed outside tasks G)
    (hs : w.Safe P) :
    Outcome Error.Expected (fun w' => w'.Ok P missed outside tasks G) (w.runOneStep P) := by
  obtain ⟨s, stack⟩ := w
  cases stack with
  | nil => exact h
  | cons frame rest =>
    obtain ⟨function, hf⟩ := h.function frame (List.mem_cons_self ..)
    have hstore := h.store
    dsimp only at hstore
    rw [held_cons, add_assoc] at hstore
    unfold Worker.runOneStep
    dsimp only
    rw [hf]
    dsimp only
    cases hc : frame.fetchOpcode function with
    | none =>
      constructor
      · exact hstore.mono (Multiset.le_add_left _ _)
      · exact fun x hx => h.function x (List.mem_cons_of_mem _ hx)
    | some x =>
      obtain ⟨opcode, frame₁⟩ := x
      obtain ⟨o, ho, he⟩ := Option.map_eq_some_iff.mp hc
      cases he
      have hsafe := hs frame rest function opcode rfl hf ho
      have hx := hstore.executeOpcode { frame with cursor := frame.cursor + 1 } hP hG hsafe
      dsimp only
      cases hy : s.executeOpcode P { frame with cursor := frame.cursor + 1 } opcode with
      | error e =>
        rw [hy] at hx
        exact hx
      | ok y =>
        obtain ⟨s', frame', f⟩ := y
        rw [hy] at hx
        obtain ⟨h', hf'⟩ := hx
        refine Ok.enter (pushUnfinished h' ?_) hf'
        intro x hm
        rcases List.mem_cons.mp hm with rfl | hm
        · rw [(executeOpcode_frame hy).2]
          exact ⟨function, hf⟩
        · exact h.function x (List.mem_cons_of_mem _ hm)

end Worker.Ok

end InetLisp
