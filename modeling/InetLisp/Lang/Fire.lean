import InetLisp.Core.Rewrite
import InetLisp.Core.Schedule
import InetLisp.Core.TailCall
import InetLisp.Lang.Depict
import InetLisp.Lang.Template

/-! # Firing a rule

To fire a rule is to rewrite the net: the two nodes of the pair go, the nodes that the body of the
rule draws come, and between the ports that are there then, all is wired as before with the ties of
the body added. What the body draws is known beforehand, from the program alone.
-/

namespace InetLisp

open Lib Wiring

/-- What the body of a rule draws; the nodes of the pair are 0 and 1, and new ones follow. -/
def Program.template (P : Program) (bodies : List Body) (depth : ℕ) (rule : Rule) :
    Option Drawing := do
  let left ← P.nodeCtor rule.leftNodeCtor
  let right ← P.nodeCtor rule.rightNodeCtor
  drawCall P bodies depth rule.function (.ofPair 0 1 left right 2 0)

/-- The names for a pair: its two nodes, and new ones from a number on. -/
def Naming.ofPair (n m next links : ℕ) : Naming where
  node
    | 0 => n
    | 1 => m
    | k + 2 => next + k
  link k := links + k

def Drawing.rename (ρ : Naming) (d : Drawing) : Drawing where
  next := ρ.node d.next
  links := ρ.link d.links
  nodes := d.nodes.map (Prod.map ρ.node id)
  ties := d.ties.map (Prod.map (End.rename ρ) (End.rename ρ))
  stack := d.stack.map (End.rename ρ)

/-- The pair is gone, and what is drawn is there. -/
structure Worker.Fired (P : Program) (missed : Set Redex) (outside : Multiset Value)
    (tasks : Multiset Task) (base : Wiring End) (n m : ℕ) (d : Drawing) (w w' : Worker) : Prop where
  ok : w'.Ok P missed outside tasks {}
  valueStack : w'.valueStack = w.valueStack
  returnStack : w'.returnStack = w.returnStack
  ctor : ∀ r c, CtorOf w'.nodes r c ↔ CtorOf w.nodes r c ∧ r ≠ n ∧ r ≠ m ∨ (r, c) ∈ d.nodes
  next : w'.nodes.length = d.next
  pictures : w'.toNet.Pictures (base ⊔ Drawing.wiring d.ties)
    (↑w'.valueStack + (held w'.returnStack + outside)) d.links

variable {P : Program} {missed : Set Redex} {outside : Multiset Value} {tasks : Multiset Task}
  {base : Wiring End} {bodies : List Body} {rule : Rule} {w : Worker} {d d' : Drawing}
  {p q n i m j links depth : ℕ} {left right : NodeCtor} {net : Net} {rest : Multiset Value}
  {origin : ℕ → ℕ → Prop} {ρ : Naming} {ctor : NodeCtor}

theorem Drawing.Renamed.eq_rename (h : Drawing.Renamed ρ d d') : d' = d.rename ρ := by
  obtain ⟨hnext, hlinks, hnodes, hties, hstack⟩ := h
  have hn := hnext 0
  have hl := hlinks 0
  simp only [add_zero] at hn hl
  cases d'
  simp_all [Drawing.rename]

theorem rename_freeEnds : (freeEnds n ctor).map (End.rename ρ) = freeEnds (ρ.node n) ctor := by
  simp [freeEnds, End.rename]

/-- A pair in a net is the one of the template in other names. -/
theorem renamed_ofPair (n m next links : ℕ) (left right : NodeCtor) :
    Drawing.Renamed (.ofPair n m next links) (.ofPair 0 1 left right 2 0)
      (.ofPair n m left right next links) where
  next j := by
    change (Naming.ofPair n m next links).node (2 + j) = next + j
    rw [add_comm]
    rfl
  links j := congrArg (links + ·) (Nat.zero_add j)
  nodes := rfl
  ties := rfl
  stack := by
    simp only [Drawing.ofPair, List.map_append, rename_freeEnds]
    rfl

/-- When nothing is at hand any more, what has been drawn is a part of the past. -/
theorem Net.Shows.pictures (h : net.Shows base origin rest d 0) :
    net.Pictures (base ⊔ Drawing.wiring d.ties) rest d.links := by
  have hbelow : ∀ {x : End}, x.Below d →
      x.Below { next := net.nodes.length, links := d.links } := by
    intro x hx
    cases x with
    | port n i => exact h.next ▸ hx
    | _ => exact hx
  constructor
  · rw [Drawing.wiring_nil, sup_bot_eq]
    exact h.agree
  · simp
  · simp
  · rfl
  · simp [Drawing.ctorOf]
  · intro x y hxy
    rw [Drawing.wiring_nil, sup_bot_eq] at hxy
    obtain ⟨hx, hy⟩ := h.below x y hxy
    exact ⟨hbelow hx, hbelow hy⟩
  · simp

namespace Worker

/-- To run the code of a function is to evaluate its body, given enough fuel. -/
theorem exists_runUntil_of_evalCall (hB : Compiles P bodies) {f : ℕ} (hf : f < bodies.length)
    {Q : Error → Prop} {R : Store × Trace → Prop} {s : Store} (frames : List Frame)
    (h : Outcome (fun stop => ∃ a e log, stop = .error (.rejected a e) log ∧ Q e) R
      (evalCall P bodies depth f (s, {}))) :
    ∃ fuel₀, ∀ fuel ≥ fuel₀, Outcome Q (fun w => w.returnStack = frames ∧ ∃ t, R (w.toStore, t))
      (({ toStore := s, returnStack := { function := f } :: frames } : Worker).runUntil P
        frames.length fuel) := by
  obtain ⟨hok, herr⟩ := tracedUntil_iff_evalCall hB hf s frames
  cases hx : evalCall P bodies depth f (s, {}) with
  | ok σ =>
    rw [hx] at h
    obtain ⟨fuel₀, hn⟩ := (hok ⟨σ.1, frames⟩ σ.2).mpr ⟨rfl, depth, hx⟩
    use fuel₀
    intro fuel hfuel
    rw [runUntil_eq (t := {}), tracedUntil, loop_mono hn hfuel]
    exact ⟨rfl, σ.2, h⟩
  | error stop =>
    rw [hx] at h
    obtain ⟨a, e, log, rfl, he⟩ := h
    obtain ⟨fuel₀, hn⟩ := (herr e log).mpr ⟨depth, _, hx, rfl⟩
    use fuel₀
    intro fuel hfuel
    rw [runUntil_eq (t := {}), tracedUntil, loop_mono hn hfuel]
    exact he

/-- The rule of the task in hand is entered; if its body can be drawn, with nothing left over, then
to evaluate it is to rewrite the net, or it comes to a tie that cannot be made. -/
theorem exists_enterRule (hP : P.Ok) (hB : Compiles P bodies)
    (h : w.Ok P missed outside (.activePair p q rule ::ₘ tasks) {})
    (hpair : w.PairAt P p q n i m j rule.leftNodeCtor rule.rightNodeCtor left right)
    (hb : w.toNet.Pictures base (↑w.valueStack + (held w.returnStack + outside)) links)
    (hd : P.template bodies depth rule = some d) (hstack : d.stack = []) :
    rule.function < bodies.length ∧
      ∃ s, w.enterRule P p q rule = .ok ⟨s, { function := rule.function } :: w.returnStack⟩ ∧
        Outcome
          (fun stop => ∃ a e log, stop = .error (.rejected a e) log ∧ e.Expected ∧
            ¬ (d.rename (.ofPair n m w.nodes.length links)).Proper P
              (fun r c => CtorOf w.nodes r c ∧ r ≠ n ∧ r ≠ m) base)
          (fun σ => w.Fired P missed outside tasks base n m
            (d.rename (.ofPair n m w.nodes.length links)) ⟨σ.1, w.returnStack⟩)
          (evalCall P bodies depth rule.function (s, {})) := by
  obtain ⟨left', hleft, hd⟩ := Option.bind_eq_some_iff.mp hd
  obtain ⟨right', hright, hd⟩ := Option.bind_eq_some_iff.mp hd
  cases hpair.leftCtor.symm.trans hleft
  cases hpair.rightCtor.symm.trans hright
  obtain ⟨d', hd', hren⟩ := Relabeled.uniform_drawCall P bodies _ depth _ _ _ _
    (renamed_ofPair n m w.nodes.length links left right) hd
  have heq := hren.eq_rename
  rw [← heq]
  have hf : rule.function < bodies.length := by
    cases depth with
    | zero => cases hd
    | succ depth =>
      obtain ⟨body, hbody, -⟩ := Option.bind_eq_some_iff.mp hd
      exact (List.getElem?_eq_some_iff.mp hbody).1
  have hfun : ∃ function, P.functions[rule.function]? = some function := by
    have hlen := congrArg List.length hB
    rw [List.length_map, List.length_map] at hlen
    exact ⟨_, List.getElem?_eq_getElem (hlen ▸ hf)⟩
  obtain ⟨s, stack, hw, hs⟩ := h.enterRule_depicts hP hfun hpair hb
  refine ⟨hf, s, hw, Outcome.mono (evalCall_shown hP bodies depth 0 _ s {} stack _ d' hs hd') ?_⟩
  rintro ⟨s', t⟩ ⟨stack', hs'⟩
  have hnil : stack' = [] := by
    have hends := hs'.ends
    rw [heq, Drawing.rename, hstack] at hends
    exact List.map_eq_nil_iff.mp hends.symm
  subst hnil
  have hinv := hs'.inv
  have hshows := hs'.shows
  have hvalues : s'.valueStack = w.valueStack := hs'.values
  simp only [Multiset.coe_nil, add_zero, Multiset.map_zero, zero_add] at hinv hshows
  constructor
  · refine ⟨?_, h.function⟩
    unfold Store.Ok
    dsimp only
    rwa [hvalues]
  · exact hvalues
  · rfl
  · exact hshows.ctor
  · exact hshows.next.symm
  · dsimp only
    rw [hvalues]
    exact hshows.pictures

/-- The task in hand is an active pair: if the body of its rule can be drawn, with nothing left
over, then the net is rewritten as drawn, or a tie of the drawing cannot be made. -/
theorem exists_handleTaskActivePair (hP : P.Ok) (hB : Compiles P bodies)
    (h : w.Ok P missed outside (.activePair p q rule ::ₘ tasks) {})
    (hpair : w.PairAt P p q n i m j rule.leftNodeCtor rule.rightNodeCtor left right)
    (hb : w.toNet.Pictures base (↑w.valueStack + (held w.returnStack + outside)) links)
    (hd : P.template bodies depth rule = some d) (hstack : d.stack = []) :
    ∃ fuel₀, ∀ fuel ≥ fuel₀,
      Outcome
        (fun e => e.Expected ∧ ¬ (d.rename (.ofPair n m w.nodes.length links)).Proper P
          (fun r c => CtorOf w.nodes r c ∧ r ≠ n ∧ r ≠ m) base)
        (w.Fired P missed outside tasks base n m (d.rename (.ofPair n m w.nodes.length links)))
        (w.handleTaskActivePair P fuel p q rule) := by
  obtain ⟨hf, s, hw, hout⟩ := exists_enterRule hP hB h hpair hb hd hstack
  obtain ⟨fuel₀, hfuel⟩ := exists_runUntil_of_evalCall hB hf w.returnStack hout
  use fuel₀
  intro fuel hge
  unfold handleTaskActivePair
  rw [hw, Outcome.ok_bind]
  refine Outcome.mono (hfuel fuel hge) ?_
  rintro ⟨s', frames⟩ ⟨rfl, _, hfired⟩
  exact hfired

theorem handleTaskActivePair_mono {w' : Worker} {fuel fuel' : ℕ}
    (h : w.handleTaskActivePair P fuel p q rule = .ok w') (hle : fuel ≤ fuel') :
    w.handleTaskActivePair P fuel' p q rule = .ok w' := by
  obtain ⟨v, hv, h⟩ := Outcome.of_bind_eq_ok h
  unfold handleTaskActivePair
  rw [hv, Outcome.ok_bind]
  exact runUntil_mono h hle

theorem fired_of_handleTaskActivePair {w' : Worker} {fuel : ℕ} (hP : P.Ok) (hB : Compiles P bodies)
    (h : w.Ok P missed outside (.activePair p q rule ::ₘ tasks) {})
    (hpair : w.PairAt P p q n i m j rule.leftNodeCtor rule.rightNodeCtor left right)
    (hb : w.toNet.Pictures base (↑w.valueStack + (held w.returnStack + outside)) links)
    (hd : P.template bodies depth rule = some d) (hstack : d.stack = [])
    (hw' : w.handleTaskActivePair P fuel p q rule = .ok w') :
    w.Fired P missed outside tasks base n m (d.rename (.ofPair n m w.nodes.length links)) w' := by
  obtain ⟨hf, s, hw, hout⟩ := exists_enterRule hP hB h hpair hb hd hstack
  obtain ⟨fuel₀, hfuel⟩ := exists_runUntil_of_evalCall hB hf w.returnStack hout
  have hmono := handleTaskActivePair_mono hw' (le_max_right fuel₀ fuel)
  unfold handleTaskActivePair at hmono
  rw [hw, Outcome.ok_bind] at hmono
  obtain ⟨s', frames⟩ := w'
  obtain ⟨rfl, _, hfired⟩ := (hfuel _ (le_max_left fuel₀ fuel)).of_ok hmono
  exact hfired

theorem Ok.take {l₁ l₂ : List Task} {t : Task} (h : w.Ok P missed outside tasks {})
    (hq : w.taskQueue = l₁ ++ t :: l₂) :
    ({ w with taskQueue := l₁ ++ l₂ } : Worker).Ok P missed outside (t ::ₘ tasks) {} where
  store := by
    have hs := h.store
    unfold Store.Ok at hs ⊢
    dsimp only at hs ⊢
    rw [hq] at hs
    have ht : (↑(l₁ ++ t :: l₂) : Multiset Task) + ↑w.refused + tasks =
        ↑(l₁ ++ l₂) + ↑w.refused + t ::ₘ tasks := by
      rw [← Multiset.coe_add, ← Multiset.coe_add, ← Multiset.cons_coe, ← Multiset.singleton_add,
        ← Multiset.singleton_add]
      abel
    rwa [ht] at hs
  function := h.function

end Worker

/-! ### A small program -/

def mergeBodies : List Body :=
  [⟨fun name => if name = "both" then some (.nodeCtor 6) else none, ["x", "y"],
    [.ap (.var "both") [.var "x", .var "y"]]⟩]

def mergeDrawing : Drawing where
  next := 3
  nodes := [(2, 6)]
  ties := [(.port 2 1, .port 1 1), (.port 2 0, .port 0 0)]

/-- Two times `(right (left))`, with the wires on the stack. -/
def mergeStore : Except Error Store := do
  let s ← ({} : Store).applyNodeCtor mergeProgram 4 0
  let s ← s.applyNodeCtor mergeProgram 5 1
  let s ← s.applyNodeCtor mergeProgram 4 0
  s.applyNodeCtor mergeProgram 5 1

def mergeStart : Worker where
  toStore := mergeStore.toOption.getD {}

theorem ok_mergeStart : mergeStart.Ok mergeProgram ∅ 0 0 {} := by
  have hP := closed_mergeProgram.toOk
  have hstart : ({} : Store).Ok mergeProgram ∅ 0 0 {} := by
    have hinv := (System.Ok.start : System.Ok mergeProgram ∅ 0 ({} : System Unit)).inv
    have hi : ({} : System Unit).inputs mergeProgram = ∅ := by
      ext x
      simp [System.inputs, Hand.inputs]
    have ho : ({} : System Unit).outside = 0 := Finset.sum_eq_zero fun _ _ => rfl
    have ht : ({} : System Unit).tasks = 0 := Finset.sum_eq_zero fun _ _ => rfl
    rwa [hi, ho, ht] at hinv
  have hkeep : Outcome Error.Expected (fun s : Store => s.Ok mergeProgram ∅ 0 0 {}) mergeStore := by
    apply (hstart.applyNodeCtor hP rfl rfl).bind
    intro s₁ h₁
    apply (h₁.applyNodeCtor hP rfl rfl).bind
    intro s₂ h₂
    apply (h₂.applyNodeCtor hP rfl rfl).bind
    intro s₃ h₃
    exact h₃.applyNodeCtor hP rfl rfl
  constructor
  · exact hkeep.of_ok (a := mergeStart.toStore) rfl
  · simp [mergeStart]

/-- The first of two pairs is handled: its wires end at a new node. -/
theorem exists_handleTaskActivePair_merge : ∃ w', ({ mergeStart with
      taskQueue := [.activePair 2 3 mergeRule] } : Worker).handleTaskActivePair mergeProgram 10 0 1
        mergeRule = .ok w' ∧
    Worker.Fired mergeProgram ∅ 0 0 mergeStart.Tied 0 1 (mergeDrawing.rename (.ofPair 0 1 4 0))
      { mergeStart with taskQueue := [.activePair 2 3 mergeRule] } w' := by
  have hq : mergeStart.taskQueue = [] ++ .activePair 0 1 mergeRule :: [.activePair 2 3 mergeRule] :=
    rfl
  have hok := ok_mergeStart.take hq
  have hpair : mergeStart.PairAt mergeProgram 0 1 0 1 1 0 4 5 _ _ :=
    ⟨rfl, rfl, by decide, ⟨_, _, rfl⟩, ⟨_, _, rfl⟩, rfl, rfl, rfl, rfl⟩
  have hB : Compiles mergeProgram mergeBodies := rfl
  have hd : mergeProgram.template mergeBodies 1 mergeRule = some mergeDrawing := rfl
  obtain ⟨fuel₀, h⟩ := Worker.exists_handleTaskActivePair closed_mergeProgram.toOk hB hok hpair
    (mergeStart.pictures _) hd rfl
  have hrun : ∃ w', ({ mergeStart with taskQueue := [.activePair 2 3 mergeRule] } :
      Worker).handleTaskActivePair mergeProgram 10 0 1 mergeRule = .ok w' := ⟨_, rfl⟩
  obtain ⟨w', hw'⟩ := hrun
  refine ⟨w', hw', ?_⟩
  have hout := h (max fuel₀ 10) (le_max_left _ _)
  exact hout.of_ok (Worker.handleTaskActivePair_mono hw' (le_max_right _ _))

end InetLisp
