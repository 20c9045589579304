import InetLisp.Core.Trace
import InetLisp.Lib.Stutter
import Mathlib.Logic.Relation

/-! # Proper tail calls

A build with `PROPER_TAIL_CALL_DISABLED` puts every frame back on the return stack,
finished or not. Its return stack is that of the default build with finished frames
in between, which it takes off again one at a time.
-/

namespace InetLisp

open Lib Relation

namespace Worker

/-- `worker_run_one_step` with `PROPER_TAIL_CALL_DISABLED` -/
def runOneStepDisabled (P : Program) (w : Worker) : Except Error Worker :=
  match w.returnStack with
  | [] => .ok w
  | frame :: rest => match P.functions[frame.function]? with
    | none => .error .useAfterFree
    | some function => match frame.fetchOpcode function with
      | none => .ok { w with returnStack := rest }
      | some (opcode, frame) => do
        let (s, frame, f) ← w.executeOpcode P frame opcode
        return ({ toStore := s, returnStack := frame :: rest } : Worker).enter f

/-- The condition of the loop in `worker_run_until`. -/
def isAbove (returnStackBase : ℕ) (w : Worker) : Bool := returnStackBase < w.returnStack.length

variable {P : Program} {base n : ℕ} {w : Worker} {s : Store} {B D K : List Frame} {frame : Frame}

theorem runUntil_eq_loop : w.runUntil P base n =
    (loop (isAbove base) (runOneStep P) n w).getD (.error .outOfFuel) := by
  induction n generalizing w with
  | zero => rfl
  | succ n ih =>
    unfold runUntil loop
    by_cases h : base < w.returnStack.length
    · simp only [isAbove, h, if_true, decide_true]
      cases hw : w.runOneStep P with
      | error e => rfl
      | ok w' => exact ih
    · simp [isAbove, h]

theorem runUntil_mono {w' : Worker} {m : ℕ} (h : w.runUntil P base n = .ok w') (hm : n ≤ m) :
    w.runUntil P base m = .ok w' := by
  rw [runUntil_eq_loop] at h ⊢
  cases hl : loop (isAbove base) (runOneStep P) n w with
  | none =>
    rw [hl] at h
    cases h
  | some r =>
    rw [loop_mono hl hm, ← h, hl]

end Worker

def Frame.Finished (P : Program) (frame : Frame) : Prop :=
  ∃ function, P.functions[frame.function]? = some function ∧ frame.fetchOpcode function = none

/-- The second stack is the first with finished frames in between. -/
inductive Padded (P : Program) : List Frame → List Frame → Prop
  | nil : Padded P [] []
  | cons (frame : Frame) {D K : List Frame} (h : Padded P D K) :
      Padded P (frame :: D) (frame :: K)
  | skip {frame : Frame} {D K : List Frame} (hf : frame.Finished P) (h : Padded P D K) :
      Padded P D (frame :: K)

theorem Padded.refl {P : Program} (l : List Frame) : Padded P l l := by
  induction l with
  | nil => exact .nil
  | cons frame l ih => exact .cons frame ih

theorem fetchOpcode_frame {frame frame' : Frame} {function : Function} {opcode : Opcode}
    (h : frame.fetchOpcode function = some (opcode, frame')) :
    frame.cursor < function.opcodeArray.length ∧ frame'.cursor = frame.cursor + 1 ∧
      frame'.function = frame.function := by
  obtain ⟨o, ho, he⟩ := Option.map_eq_some_iff.mp h
  cases he
  exact ⟨(List.getElem?_eq_some_iff.mp ho).1, rfl, rfl⟩

namespace Worker

variable {P : Program} {base n : ℕ} {w v : Worker} {s : Store} {B D K : List Frame} {frame : Frame}

/-- Workers that differ in finished frames above the base. -/
def Related (P : Program) (B : List Frame) (w v : Worker) : Prop :=
  ∃ s D K, Padded P D K ∧ w = { toStore := s, returnStack := D ++ B } ∧
    v = { toStore := s, returnStack := K ++ B }

theorem related_enter (h : Padded P D K) (f : Option ℕ) :
    Related P B (enter { toStore := s, returnStack := D ++ B } f)
      (enter { toStore := s, returnStack := K ++ B } f) := by
  cases f with
  | none => exact ⟨s, D, K, h, rfl, rfl⟩
  | some f => exact ⟨s, _ :: D, _ :: K, .cons { function := f } h, rfl, rfl⟩

theorem related_pushUnfinished {function : Function} (h : Padded P D K)
    (hf : P.functions[frame.function]? = some function) (f : Option ℕ) :
    Related P B ((pushUnfinished { toStore := s, returnStack := D ++ B } function frame).enter f)
      (enter { toStore := s, returnStack := frame :: K ++ B } f) := by
  unfold pushUnfinished
  split
  · rename_i hfin
    refine related_enter (.skip ⟨function, hf, ?_⟩ h) f
    simpa [Frame.fetchOpcode, Frame.isFinished] using (of_decide_eq_true hfin).ge
  · exact related_enter (.cons frame h) f

theorem isAbove_cons {l : List Frame} :
    isAbove B.length { toStore := s, returnStack := frame :: l ++ B } = true := by
  simp only [isAbove, List.cons_append, List.length_cons, List.length_append, decide_eq_true_eq]
  omega

/-- The disabled build takes a finished frame off, or both builds do the same. -/
theorem answers (hw : Related P B w v) :
    Answers (isAbove B.length) (runOneStep P) (isAbove B.length) (runOneStepDisabled P)
      (Related P B) (fun v => v.returnStack.length) w v := by
  obtain ⟨s, D, K, h, rfl, rfl⟩ := hw
  cases h with
  | nil => exact .done (by simp [isAbove]) (by simp [isAbove])
  | @skip frame D K hf h =>
    obtain ⟨function, hfun, hfetch⟩ := hf
    refine .stutter { toStore := s, returnStack := K ++ B } ⟨isAbove_cons, ?_⟩
      ⟨s, D, K, h, rfl, rfl⟩ (by simp)
    simp [runOneStepDisabled, hfun, hfetch]
  | cons frame h =>
    rename_i D K
    have ha {l : List Frame} : isAbove B.length { toStore := s, returnStack := frame :: l ++ B } =
        true := isAbove_cons
    cases hfun : P.functions[frame.function]? with
    | none =>
      refine .error .useAfterFree ha ?_ ha ?_
      · simp [runOneStep, hfun]
      · simp [runOneStepDisabled, hfun]
    | some function =>
      cases hfetch : frame.fetchOpcode function with
      | none =>
        refine .both { toStore := s, returnStack := D ++ B } { toStore := s, returnStack := K ++ B }
          ⟨ha, ?_⟩ ⟨ha, ?_⟩ ⟨s, D, K, h, rfl, rfl⟩
        · simp [runOneStep, hfun, hfetch]
        · simp [runOneStepDisabled, hfun, hfetch]
      | some x =>
        obtain ⟨opcode, frame₁⟩ := x
        cases he : s.executeOpcode P frame₁ opcode with
        | error e =>
          refine .error e ha ?_ ha ?_
          · simp [runOneStep, hfun, hfetch, he, bind, Except.bind]
          · simp [runOneStepDisabled, hfun, hfetch, he, bind, Except.bind]
        | ok x =>
          obtain ⟨s', frame₂, f⟩ := x
          have hfun₂ : P.functions[frame₂.function]? = some function := by
            rw [(executeOpcode_frame he).2, (fetchOpcode_frame hfetch).2.2]
            exact hfun
          refine .both _ _ ⟨ha, ?_⟩ ⟨ha, ?_⟩ (related_pushUnfinished (s := s') h hfun₂ f)
          · simp [runOneStep, hfun, hfetch, he, bind, Except.bind, pure, Except.pure]
          · simp [runOneStepDisabled, hfun, hfetch, he, bind, Except.bind, pure, Except.pure]

theorem exists_related (h : base ≤ w.returnStack.length) :
    ∃ B : List Frame, B.length = base ∧ Related P B w w := by
  obtain ⟨s, l⟩ := w
  refine ⟨l.drop (l.length - base), ?_, s, _, _, .refl (l.take (l.length - base)), ?_, ?_⟩
  · rw [List.length_drop]
    exact Nat.sub_sub_self h
  · rw [List.take_append_drop]
  · rw [List.take_append_drop]

theorem ends_iff (r : Except Error Worker) :
    Ends (isAbove base) (runOneStep P) w r ↔ Ends (isAbove base) (runOneStepDisabled P) w r := by
  by_cases hb : base < w.returnStack.length
  · obtain ⟨B, rfl, hw⟩ := exists_related (P := P) hb.le
    have heq : ∀ {r r' : Except Error Worker},
        Agree (isAbove B.length) (isAbove B.length) (Related P B) r r' → r = r' := by
      rintro (e | w₁) (e' | w₂) ha
      · exact congrArg _ ha
      · exact ha.elim
      · exact ha.elim
      · obtain ⟨⟨s, D, K, -, rfl, rfl⟩, hD, hK⟩ := ha
        simp only [isAbove, decide_eq_false_iff_not, List.length_append, not_lt] at hD hK
        rw [List.length_eq_zero_iff.mp (by omega : D.length = 0),
          List.length_eq_zero_iff.mp (by omega : K.length = 0)]
    constructor
    · intro hr
      obtain ⟨r', hr', ha⟩ := ends_of_answers (fun _ _ => answers) hw hr
      rwa [heq ha]
    · intro hr
      obtain ⟨r', hr', ha⟩ := ends_of_answers_right (fun _ _ => answers) hw hr
      rwa [← heq ha]
  · have hf : isAbove base w = false := by simpa [isAbove] using hb
    constructor
    · intro hr
      rw [hr.unique (.of_not_more hf)]
      exact .of_not_more hf
    · intro hr
      rw [hr.unique (.of_not_more hf)]
      exact .of_not_more hf

/-- Every finished frame was there at the start, or it is a new frame of an empty function. -/
def Tidy (P : Program) (start : List Frame) (w : Worker) : Prop :=
  ∀ above frame below, w.returnStack = above ++ frame :: below → frame.Finished P →
    (frame :: below) <:+ start ∨ (above = [] ∧ ∃ f a, frame = { function := f } ∧
      P.functions[f]? = some ⟨a, []⟩)

theorem Tidy.start (w : Worker) : Tidy P w.returnStack w := by
  intro above frame below h _
  exact .inl ⟨above, h.symm⟩

/-- What lies below the top frame was there at the start, as far as it is finished. -/
theorem Tidy.below {start rest : List Frame}
    (h : Tidy P start { toStore := s, returnStack := frame :: rest }) {above below : List Frame}
    {x : Frame} (hr : rest = above ++ x :: below) (hx : x.Finished P) : (x :: below) <:+ start := by
  rcases h (frame :: above) x below (by rw [hr, List.cons_append]) hx with hs | ⟨ha, -⟩
  · exact hs
  · cases ha

theorem Tidy.enter {start rest : List Frame}
    (h : ∀ above x below, rest = above ++ x :: below → x.Finished P → (x :: below) <:+ start)
    (f : Option ℕ) : Tidy P start (Worker.enter { toStore := s, returnStack := rest } f) := by
  intro above x below he hx
  cases f with
  | none => exact .inl (h above x below he hx)
  | some f =>
    cases above with
    | nil =>
      obtain ⟨rfl, rfl⟩ := List.cons_eq_cons.mp he
      obtain ⟨⟨a, opcodes⟩, hf, hn⟩ := hx
      refine .inr ⟨rfl, f, a, rfl, ?_⟩
      cases opcodes with
      | nil => exact hf
      | cons opcode opcodes => simp [Frame.fetchOpcode] at hn
    | cons y above =>
      obtain ⟨-, rfl⟩ := List.cons_eq_cons.mp he
      exact .inl (h above x below rfl hx)

theorem Tidy.runOneStep {start : List Frame} {w w' : Worker} (h : Tidy P start w)
    (hw : w.runOneStep P = .ok w') : Tidy P start w' := by
  obtain ⟨s, stack⟩ := w
  cases stack with
  | nil =>
    cases hw
    exact h
  | cons frame rest =>
    simp only [Worker.runOneStep] at hw
    cases hfun : P.functions[frame.function]? with
    | none => rw [hfun] at hw; cases hw
    | some function =>
      rw [hfun] at hw
      dsimp only at hw
      cases hfetch : frame.fetchOpcode function with
      | none =>
        rw [hfetch] at hw
        cases hw
        exact fun above x below hr hx => .inl (h.below hr hx)
      | some x =>
        rw [hfetch] at hw
        obtain ⟨opcode, frame₁⟩ := x
        obtain ⟨⟨s', frame₂, f⟩, he, hw⟩ := Outcome.of_bind_eq_ok hw
        cases hw
        obtain ⟨hlt, hcur, hfun₁⟩ := fetchOpcode_frame hfetch
        obtain ⟨hcur₂, hfun₂⟩ := executeOpcode_frame he
        unfold pushUnfinished
        split
        · exact .enter (fun above x below hr hx => h.below hr hx) f
        · rename_i hfin
          refine .enter (fun above x below hr hx => ?_) f
          cases above with
          | nil =>
            obtain ⟨rfl, rfl⟩ := List.cons_eq_cons.mp hr
            -- The frame has been put back because it is not finished.
            obtain ⟨function', hf', hn⟩ := hx
            rw [hfun₂, hfun₁, hfun] at hf'
            cases hf'
            simp only [Frame.fetchOpcode, Option.map_eq_none_iff, List.getElem?_eq_none_iff] at hn
            simp only [Frame.isFinished, decide_eq_true_eq] at hfin
            omega
          | cons y above =>
            obtain ⟨-, rfl⟩ := List.cons_eq_cons.mp hr
            exact h.below rfl hx

/--
A build without proper tail calls ends where the default build does, with the same worker
or the same error. In the default build no frame that a run leaves on the return stack is
finished, other than a new frame of an empty function.
-/
theorem properTailCall (P : Program) (base : ℕ) (w : Worker) :
    (∀ r, Ends (isAbove base) (runOneStep P) w r ↔
      Ends (isAbove base) (runOneStepDisabled P) w r) ∧
    ∀ w', ReflTransGen (Next (isAbove base) (runOneStep P)) w w' → Tidy P w.returnStack w' := by
  refine ⟨ends_iff, fun w' h => ?_⟩
  induction h with
  | refl => exact .start w
  | tail _ hn ih => exact ih.runOneStep hn.2

end Worker

end InetLisp
