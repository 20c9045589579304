import InetLisp.Lang.Recording

/-! # The order of the tasks is not seen

Active pairs may be handled in any order. If some order comes to an end, all do, after as many
firings, and then the nets are alike: their nodes correspond, and between ports of nodes, wires that
lie outside and atoms, the same ways lead.
-/

namespace InetLisp

open Lib Wiring

/-- No task is left, and none has been lost. -/
def Worker.Idle (w : Worker) : Prop := w.taskQueue = [] ∧ w.refused = []

/-- The nodes of the one net are those of the other in other numbers, and seen from them and from
outside, both are wired alike. -/
structure Net.Alike (net net' : Net) (rest : Multiset Value) (φ : ℕ → ℕ) : Prop where
  ctor : ∀ n c, CtorOf net.nodes n c → CtorOf net'.nodes (φ n) c
  injective : ∀ n m c d, CtorOf net.nodes n c → CtorOf net.nodes m d → φ n = φ m → n = m
  surjective : ∀ n' c, CtorOf net'.nodes n' c → ∃ n, CtorOf net.nodes n c ∧ φ n = n'
  leads : ∀ x ∈ net.visible rest 0, ∀ y, y ∈ net.visible rest 0 ∨ y.IsAtom →
    (Leads End.IsAtom net.Tied x y ↔
      Leads End.IsAtom net'.Tied (x.rename ⟨φ, id⟩) (y.rename ⟨φ, id⟩))

variable {P : Program} {T : Rule → Drawing} {bodies : List Body} {start w w' : Worker}
  {outside : Multiset Value} {F G : List Firing} {ν ν' : Numbering} {links links' k : ℕ}
  {x : Name} {e : End} {φ : ℕ → ℕ} {z : Place}

namespace Records

/-- When no task is left, no two nodes can meet. -/
theorem complete (hT : P.Drawn bodies T) (hD : P.Deterministic)
    (h : Records P T start outside F ν links w) (hw : w.Idle) :
    (firings P T start outside).Complete F := by
  have hM : (firings P T start outside).Lawful := lawful_firings hD
  rintro ⟨x, y, rule⟩ hp hx hgx hy hgy - ⟨i, c, left, rfl, hxc, hc, hpl, hi⟩ -
    ⟨j, d, right, rfl, hyd, hd, hpr, hj⟩ hl
  obtain ⟨hr, hxc', hyd'⟩ := id hp
  cases hxc.unique hxc'
  cases hyd.unique hyd'
  have hne : ν.node x ≠ ν.node y := fun he => hM.ne _ hp (h.node hx hy he)
  have hn : CtorOf w.nodes (ν.node x) _ := (h.ctorOf _ _).mpr ⟨x, hx, hgx, hxc, rfl⟩
  have hm : CtorOf w.nodes (ν.node y) _ := (h.ctorOf _ _).mpr ⟨y, hy, hgy, hyd, rfl⟩
  have hway := (h.leads_iff hT hD (.inr ⟨x, hx, hgx, i, rfl⟩)
    (.inl (.inr ⟨y, hy, hgy, j, rfl⟩))).mp hl
  obtain ⟨p, q, hpq⟩ := h.ok.store.exists_oppsites h.principals hn hm hc hd hpl hpr hi hj hne hway
  have hv : (Task.activePair p q rule).Valid P w.principalWires w.nodes := ⟨hpq, hr⟩
  have hmem := h.ok.store.pending.complete _ ⟨_, hv, rfl⟩ (Set.notMem_empty _)
  rw [hw.1, hw.2] at hmem
  simp at hmem

theorem exists_place (h : Records P T start outside F ν links w)
    (he : e ∈ w.visible (start.rest outside) 0) :
    ∃ z ∈ (firings P T start outside).visible F, ν.toEnd z = e := by
  obtain ⟨ha, ⟨n, i, c, rfl, hn⟩ | ⟨v, hv, rfl⟩ | ⟨g, hg, -⟩⟩ := he
  · obtain ⟨x, hx, hgx, -, rfl⟩ := (h.ctorOf n c).mp hn
    exact ⟨.port x i, .inr ⟨x, hx, hgx, i, rfl⟩, rfl⟩
  · exact ⟨.value v, .inl ⟨v, hv, ha, rfl⟩, rfl⟩
  · exact (Multiset.notMem_zero g hg).elim

theorem rename_toEnd (hφ : ∀ x ∈ (firings P T start outside).born F, φ (ν.node x) = ν'.node x)
    (hz : z ∈ (firings P T start outside).visible F ∨ z.IsAtom) :
    (ν.toEnd z).rename ⟨φ, id⟩ = ν'.toEnd z := by
  rcases hz with (⟨v, -, -, rfl⟩ | ⟨x, hx, -, i, rfl⟩) | ha
  · rfl
  · exact congrArg (End.port · i) (hφ x hx)
  · cases z with
    | value v => rfl
    | _ => exact ha.elim

/-- Two nets with the same firings are alike. -/
theorem exists_alike (hT : P.Drawn bodies T) (hD : P.Deterministic)
    (h : Records P T start outside F ν links w) (h' : Records P T start outside G ν' links' w')
    (hFG : F ⊆ G) (hGF : G ⊆ F) : ∃ φ, w.Alike w'.toNet (start.rest outside) φ := by
  have hborn : (firings P T start outside).born F = (firings P T start outside).born G :=
    Set.Subset.antisymm (Meetings.born_mono hFG) (Meetings.born_mono hGF)
  have hgone : (firings P T start outside).gone F = (firings P T start outside).gone G :=
    Set.Subset.antisymm (Meetings.gone_mono hFG) (Meetings.gone_mono hGF)
  have hwiring : (firings P T start outside).wiring F = (firings P T start outside).wiring G :=
    le_antisymm (Meetings.wiring_mono hFG) (Meetings.wiring_mono hGF)
  have hvisible : (firings P T start outside).visible F =
      (firings P T start outside).visible G := by
    simp only [Meetings.visible, hborn, hgone]
  have : Nonempty Name := ⟨.init 0⟩
  let φ : ℕ → ℕ := ν'.node ∘ Function.invFunOn ν.node ((firings P T start outside).born F)
  have hφ : ∀ x ∈ (firings P T start outside).born F, φ (ν.node x) = ν'.node x :=
    fun x hx => congrArg ν'.node (h.node.leftInvOn_invFunOn hx)
  refine ⟨φ, ?_, ?_, ?_, ?_⟩
  · intro n c hn
    obtain ⟨x, hx, hg, hc, rfl⟩ := (h.ctorOf n c).mp hn
    rw [hφ x hx]
    exact (h'.ctorOf _ c).mpr ⟨x, hborn ▸ hx, hgone ▸ hg, hc, rfl⟩
  · intro n m c d hn hm he
    obtain ⟨x, hx, -, -, rfl⟩ := (h.ctorOf n c).mp hn
    obtain ⟨y, hy, -, -, rfl⟩ := (h.ctorOf m d).mp hm
    rw [hφ x hx, hφ y hy] at he
    rw [h'.node (hborn ▸ hx) (hborn ▸ hy) he]
  · intro n c hn
    obtain ⟨x, hx, hg, hc, rfl⟩ := (h'.ctorOf n c).mp hn
    rw [← hborn] at hx
    exact ⟨ν.node x, (h.ctorOf _ c).mpr ⟨x, hx, hgone ▸ hg, hc, rfl⟩, hφ x hx⟩
  · intro a ha b hb
    have hb' : ∃ z, (z ∈ (firings P T start outside).visible F ∨ z.IsAtom) ∧ ν.toEnd z = b := by
      rcases hb with hb | hb
      · obtain ⟨z, hz, rfl⟩ := h.exists_place hb
        exact ⟨z, .inl hz, rfl⟩
      · cases b with
        | value v => exact ⟨.value v, .inr hb, rfl⟩
        | _ => exact hb.elim
    obtain ⟨z, hz, rfl⟩ := h.exists_place ha
    obtain ⟨z', hz', rfl⟩ := hb'
    rw [rename_toEnd hφ (.inl hz), rename_toEnd hφ hz', ← h.leads_iff hT hD hz hz',
      ← h'.leads_iff hT hD (hvisible ▸ hz) (hvisible ▸ hz'), hwiring]

end Records

namespace Worker

/-- If active pairs are handled in some order until no task is left, then no other order takes
longer, and each one that leaves no task takes as long and ends with a net that is alike. -/
theorem FiresIn.alike (hP : P.Ok) (hB : Compiles P bodies) (hT : P.Drawn bodies T)
    (hD : P.Deterministic) (h : start.Ok P ∅ outside 0 {}) (hX : start.Principals P ∅)
    (hw : start.FiresIn P k w) (hidle : w.Idle) :
    (∀ l w', start.FiresIn P l w' → l ≤ k) ∧
      ∀ l w', start.FiresIn P l w' → w'.Idle →
        l = k ∧ w'.valueStack = w.valueStack ∧ w'.returnStack = w.returnStack ∧
          ∃ φ, w.Alike w'.toNet (start.rest outside) φ := by
  have hM : (firings P T start outside).Lawful := lawful_firings hD
  obtain ⟨F, ν, links, hF, rfl⟩ := hw.exists_records hP hB hT hD h hX
  have hc := hF.complete hT hD hidle
  constructor
  · intro l w' hw'
    obtain ⟨G, ν', links', hG, rfl⟩ := hw'.exists_records hP hB hT hD h hX
    exact hF.run.length_le hM hc hG.run
  · intro l w' hw' hidle'
    obtain ⟨G, ν', links', hG, rfl⟩ := hw'.exists_records hP hB hT hD h hX
    have hc' := hG.complete hT hD hidle'
    refine ⟨?_, ?_, ?_, ?_⟩
    · exact le_antisymm (hF.run.length_le hM hc hG.run) (hG.run.length_le hM hc' hF.run)
    · exact hG.valueStack.trans hF.valueStack.symm
    · exact hG.returnStack.trans hF.returnStack.symm
    · exact hF.exists_alike hT hD hG (hG.run.subset hM hc' hF.run) (hF.run.subset hM hc hG.run)

end Worker

/-! ### The small program -/

theorem eq_mergeRule {rule : Rule} (h : mergeProgram.HasRule rule) : rule = mergeRule := by
  obtain ⟨c, ctor, -, hc, hm⟩ := h
  have hctor := List.mem_of_getElem? hc
  fin_cases hctor <;> fin_cases hm <;> rfl

theorem deterministic_mergeProgram : mergeProgram.Deterministic where
  ne rule h := by
    rw [eq_mergeRule h]
    decide
  unique rule rule' h h' _ := (eq_mergeRule h).trans (eq_mergeRule h').symm

theorem drawn_mergeProgram : mergeProgram.Drawn mergeBodies fun _ => mergeDrawing := by
  intro rule h
  rw [eq_mergeRule h]
  exact ⟨⟨1, rfl⟩, rfl⟩

theorem principals_mergeStart : mergeStart.Principals mergeProgram ∅ := by
  have hstart : ({} : Store).Principals mergeProgram ∅ := by
    intro n c l k ctor i hn
    cases hn
  have hstore : mergeStore = .ok mergeStart.toStore := rfl
  obtain ⟨s₁, h₁, h⟩ := Outcome.of_bind_eq_ok hstore
  obtain ⟨s₂, h₂, h⟩ := Outcome.of_bind_eq_ok h
  obtain ⟨s₃, h₃, h⟩ := Outcome.of_bind_eq_ok h
  exact Store.principals_applyNodeCtor (Store.principals_applyNodeCtor
    (Store.principals_applyNodeCtor (Store.principals_applyNodeCtor hstart h₁) h₂) h₃) h

/-- The two pairs are handled in both orders: the new nodes change places. -/
theorem alike_merge : ∃ w w', mergeStart.FiresIn mergeProgram 2 w ∧ w.Idle ∧
    mergeStart.FiresIn mergeProgram 2 w' ∧ w'.Idle ∧ w.getValue 4 0 ≠ w'.getValue 4 0 ∧
      ∃ φ, w.Alike w'.toNet (mergeStart.rest 0) φ := by
  have hfirst : ∃ w, mergeStart.FiresIn mergeProgram 2 w ∧ w.Idle ∧
      w.getValue 4 0 = .ok (.wire 0) :=
    ⟨_, .step (.step .refl ⟨[], 0, 1, mergeRule, _, 10, rfl, rfl⟩)
      ⟨[], 2, 3, mergeRule, [], 10, rfl, rfl⟩, ⟨rfl, rfl⟩, rfl⟩
  have hsecond : ∃ w, mergeStart.FiresIn mergeProgram 2 w ∧ w.Idle ∧
      w.getValue 4 0 = .ok (.wire 2) :=
    ⟨_, .step (.step .refl ⟨[.activePair 0 1 mergeRule], 2, 3, mergeRule, [], 10, rfl, rfl⟩)
      ⟨[], 0, 1, mergeRule, [], 10, rfl, rfl⟩, ⟨rfl, rfl⟩, rfl⟩
  obtain ⟨w, hw, hidle, hv⟩ := hfirst
  obtain ⟨w', hw', hidle', hv'⟩ := hsecond
  have hB : Compiles mergeProgram mergeBodies := rfl
  have halike := Worker.FiresIn.alike closed_mergeProgram.toOk hB drawn_mergeProgram
    deterministic_mergeProgram ok_mergeStart principals_mergeStart hw hidle
  refine ⟨w, w', hw, hidle, hw', hidle', ?_, (halike.2 2 w' hw' hidle').2.2.2⟩
  rw [hv, hv']
  decide

end InetLisp
