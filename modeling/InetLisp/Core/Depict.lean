import InetLisp.Core.Shows

/-! # Building what is drawn

The top of the value stack of a worker stands for the ends on the stack of a drawing. What the
worker builds from these values is what is drawn from the ends, unless a tie of the drawing joins
what cannot be connected: then the worker stops, and says so.
-/

namespace InetLisp

open Lib Wiring Store.Ok

/-- The net and the top of the value stack show the drawing. The ends in `held` are at hand
elsewhere, and what lies on the stack below is not touched. -/
structure Store.Depicts (P : Program) (missed : Set Redex) (base : Wiring End)
    (origin : ℕ → ℕ → Prop) (bottom : List Value) (others : Multiset Value)
    (tasks : Multiset Task) (U : Set (ℕ × ℕ)) (held : Glue) (s : Store)
    (stack : List (End × Value)) (d : Drawing) : Prop where
  inv : Inv P missed s.toNet ((↑stack + held).map Prod.snd + (↑bottom + others))
    (↑s.taskQueue + ↑s.refused + tasks) { unset := U }
  shows : s.toNet.Shows base origin (↑bottom + others) d (↑stack + held)
  values : s.valueStack = stack.map Prod.snd ++ bottom
  ends : d.stack = stack.map Prod.fst

/-- The worker has done what is drawn, or it has stopped at a tie that cannot be made. -/
def Draws (P : Program) (origin : ℕ → ℕ → Prop) (base : Wiring End) (d : Drawing) {α : Type}
    (Q : α → Prop) (x : Except Error α) : Prop :=
  Outcome (fun e => e.Expected ∧ ¬ d.Proper P origin base) Q x

variable {P : Program} {missed : Set Redex} {base : Wiring End} {origin : ℕ → ℕ → Prop}
  {bottom : List Value} {others : Multiset Value} {tasks : Multiset Task} {U : Set (ℕ × ℕ)}
  {held : Glue} {s s' : Store} {stack : List (End × Value)} {d d' d'' : Drawing} {n c i k : ℕ}
  {v : Value} {e : End} {ctor : NodeCtor} {found : Option Task} {net net' : Net}
  {arity : ℕ}

theorem Draws.bind {α β : Type} {Q : α → Prop} {R : β → Prop} {x : Except Error α}
    {f : α → Except Error β} (h : Draws P origin base d Q x) (hd : Drawing.Extends d d')
    (hf : ∀ a, Q a → Draws P origin base d' R (f a)) : Draws P origin base d' R (x >>= f) :=
  Outcome.bind (Outcome.imp h (fun _ he => ⟨he.1, fun hp => he.2 (hp.of_extends hd)⟩)
    fun _ => id) hf

theorem ctorOf_congr (h : net'.shape.1 = net.shape.1) (n c : ℕ) :
    CtorOf net'.nodes n c ↔ CtorOf net.nodes n c := by
  rw [ctorOf_iff, h, ← ctorOf_iff]

theorem length_congr (h : net'.shape.1 = net.shape.1) : net'.nodes.length = net.nodes.length := by
  simpa [Net.shape] using congrArg List.length h

theorem Store.pop_eq {l : List Value} (h : s.valueStack = v :: l) :
    s.pop = .ok (v, { s with valueStack := l }) := by
  unfold Store.pop
  rw [h]

theorem ctors_reconnectInput {t : Option Task}
    (h : Store.reconnectInput P net n i v = .ok (net', t)) : net'.shape.1 = net.shape.1 := by
  obtain ⟨ctor, -, h⟩ := Outcome.of_bind_eq_ok h
  dsimp only at h
  split at h
  · cases h
  split at h
  · obtain ⟨net₁, h₁, h⟩ := Outcome.of_bind_eq_ok h
    rw [(connect_shape h).1, Net.shape_setValue h₁, Net.shape_newPrincipalWire]
  · split at h
    · obtain ⟨net₁, h₁, h⟩ := Outcome.of_bind_eq_ok h
      rw [(connect_shape h).1, Net.shape_setValue h₁, Net.shape_newWire]
    · obtain ⟨net₁, h₁, h⟩ := Outcome.of_bind_eq_ok h
      cases h
      rw [Net.shape_setValue h₁]

theorem ctors_reconnectOutput (h : Store.reconnectOutput P net n i = .ok (net', v)) :
    net'.shape.1 = net.shape.1 := by
  obtain ⟨ctor, -, h⟩ := Outcome.of_bind_eq_ok h
  dsimp only at h
  split at h
  · cases h
  split at h
  · obtain ⟨net₁, h₁, h⟩ := Outcome.of_bind_eq_ok h
    cases h
    rw [Net.shape_setValue h₁, Net.shape_newPrincipalWire]
  · obtain ⟨net₁, h₁, h⟩ := Outcome.of_bind_eq_ok h
    cases h
    rw [Net.shape_setValue h₁, Net.shape_newWire]

namespace Store.Depicts

section Step

variable {g : End × Value} {hand : Glue} {fn : PrimitiveFn}

theorem values_cons : ((↑(g :: stack) : Glue) + held).map Prod.snd + (↑bottom + others) =
    g.2 ::ₘ (((↑stack : Glue) + held).map Prod.snd + (↑bottom + others)) := by
  rw [← Multiset.cons_coe, Multiset.cons_add, Multiset.map_cons, Multiset.cons_add]

/-- The top of both stacks is taken off, to be used at once. -/
theorem pop (h : s.Depicts P missed base origin bottom others tasks U held stack d) {l : List End}
    (hl : d.stack = e :: l) : ∃ v stack₁, stack = (e, v) :: stack₁ ∧ l = stack₁.map Prod.fst ∧
      s.pop = .ok (v, { s with valueStack := stack₁.map Prod.snd ++ bottom }) := by
  rcases stack with _ | ⟨⟨e', v⟩, stack₁⟩
  · cases hl.symm.trans h.ends
  · have he := hl.symm.trans h.ends
    rw [List.map_cons] at he
    obtain ⟨rfl, rfl⟩ := List.cons.inj he
    exact ⟨v, stack₁, rfl, rfl, pop_eq h.values⟩

/-- Ends move between the stack and elsewhere, or are dropped. -/
theorem of_le (h : s.Depicts P missed base origin bottom others tasks ∅ held stack d)
    (stack' : List (End × Value)) (held' : Glue) (hle : (↑stack' : Glue) + held' ≤ ↑stack + held) :
    Depicts P missed base origin bottom others tasks ∅ held'
      ({ s with valueStack := stack'.map Prod.snd ++ bottom } : Store) stack'
        { d with stack := stack'.map Prod.fst } where
  inv := h.inv.of_count_le fun _ _ =>
    Multiset.count_le_of_le _ (add_le_add (Multiset.map_le_map hle) le_rfl)
  shows := (h.shows.of_le hle).setStack _
  values := rfl
  ends := rfl

theorem pushAtom (h : s.Depicts P missed base origin bottom others tasks ∅ held stack d)
    (hv : v.IsNonWire) : (s.push v).Depicts P missed base origin bottom others tasks ∅ held
      ((.value v, v) :: stack) (d.push (.value v)) where
  inv := by
    rw [values_cons]
    exact h.inv.addNonWire hv
  shows := by
    rw [← Multiset.cons_coe, Multiset.cons_add]
    exact (h.shows.atom hv).setStack _
  values := by
    change v :: s.valueStack = _
    rw [h.values]
    rfl
  ends := by
    change _ :: d.stack = _
    rw [h.ends]
    rfl

theorem atom_of_mem {u : Value} (h : s.Depicts P missed base origin bottom others tasks U held
    ((.value u, v) :: stack) d) : v = u ∧ u.IsNonWire := by
  have hl : Loose s.toNet (.value u) v := h.shows.loose (.value u, v) (by simp)
  cases hl with
  | atom hv => exact ⟨rfl, hv⟩

theorem reconnectInput {l : List End}
    (h : s.Depicts P missed base origin bottom others (Slots.single found + tasks) U held
      ((e, v) :: stack) d)
    (hn : CtorOf s.nodes n c) (hc : P.nodeCtor c = some ctor) (hi : i < ctor.arity)
    (hu : (n, i) ∈ U) (hne : ∀ g ∈ (↑((e, v) :: stack) : Glue) + held, g.1 ≠ .port n i)
    (hd : Drawing.Extends { d with ties := d.ties ++ [(.port n i, e)], stack := l } d') :
    Draws P origin base d' (fun (net, t) => net.shape.1 = s.shape.1 ∧
      s.shape.2 <+: net.shape.2 ∧ (∀ t' ∈ t, t'.On net.shape.2 n) ∧
      Inv P missed net (((↑stack : Glue) + held).map Prod.snd + (↑bottom + others))
        (Slots.single t + (↑s.taskQueue + ↑s.refused + (Slots.single found + tasks)))
          { unset := U \ {(n, i)} } ∧
      net.Shows base origin (↑bottom + others)
        { d with ties := d.ties ++ [(.port n i, e)], stack := l } (↑stack + held))
      (Store.reconnectInput P s.toNet n i v) := by
  have hinv := h.inv
  rw [values_cons] at hinv
  have hshows := h.shows
  rw [← Multiset.cons_coe, Multiset.cons_add] at hshows
  have hstep := hinv.reconnectInput hn hu (Set.notMem_empty _)
  cases hx : Store.reconnectInput P s.toNet n i v with
  | error er =>
    refine ⟨hstep.of_error hx, fun hp => ?_⟩
    refine hp.not_clash (d := d) (.port n i) e ?_ ?_
    · exact ⟨hd.ties, hd.nodes⟩
    · apply (clash_reconnectInput hinv hn hc hi hu hx).imp (fun m c hm => (h.shows.ctor m c).mp hm)
      · exact fun z hz hlead => h.shows.leads_of_port hn hz hlead
      · exact fun z hz hlead => hshows.leads_of_mem (Multiset.mem_cons_self _ _) hz hlead
  | ok x =>
    obtain ⟨net, t⟩ := x
    obtain ⟨hinv', -, hports, hon⟩ := hstep.of_ok hx
    have hctors := ctors_reconnectInput hx
    refine ⟨hctors, hports, hon, hinv', ?_⟩
    have hinv₁ := h.inv
    rw [← Multiset.cons_coe, Multiset.cons_add] at hinv₁
    apply hshows.attach hinv₁ hinv' (Net.joins_reconnectInput hinv hn hu hx) hn
    · rw [← Multiset.cons_add, Multiset.cons_coe]
      exact hne
    · exact ctorOf_congr hctors
    · exact length_congr hctors

theorem reconnectInputs (hP : P.Ok)
    (h : s.Depicts P missed base origin bottom others (Slots.single found + tasks) U held stack d)
    (hn : CtorOf s.nodes n c) (hc : P.nodeCtor c = some ctor) (hi : i ≤ ctor.arity)
    (hu : below n i ⊆ U) (hf : ∀ t ∈ found, t.On s.shape.2 n)
    (hne : ∀ g ∈ (↑stack : Glue) + held, ∀ j, g.1 ≠ .port n j) (hd : d.inputs n i = some d') :
    Draws P origin base d' (fun (s', found') => s'.shape.1 = s.shape.1 ∧ ∃ stack', stack' <:+ stack ∧
      s'.Depicts P missed base origin bottom others (Slots.single found' + tasks) (U \ below n i)
        held stack' d') (Store.reconnectInputs P n i s found) := by
  induction i generalizing s found U stack d with
  | zero =>
    cases hd
    refine ⟨rfl, stack, List.suffix_rfl, ?_⟩
    have he : U \ below n 0 = U := by
      ext ⟨m, j⟩
      simp [below]
    rwa [he]
  | succ i ih =>
    unfold Drawing.inputs at hd
    split at hd
    · cases hd
    rename_i e l hl
    obtain ⟨v, stack₁, rfl, hl₁, hpop⟩ := h.pop hl
    unfold Store.reconnectInputs
    rw [hpop, Outcome.ok_bind]
    apply (h.reconnectInput hn hc hi (hu ⟨rfl, Nat.lt_succ_self i⟩) (fun g hg => hne g hg i)
      (Drawing.Extends.inputs hd)).bind (Drawing.Extends.refl _)
    rintro ⟨net, t⟩ ⟨hctors, hports, hon, hinv, hshows⟩
    dsimp only at hctors hports hon hinv hshows ⊢
    have htasks : Slots.single t + (↑s.taskQueue + ↑s.refused + (Slots.single found + tasks)) =
        Slots.single t + Slots.single found + (↑s.taskQueue + ↑s.refused + tasks) := by
      abel
    rw [htasks] at hinv
    obtain ⟨hone, hor, hon'⟩ := hinv.single_or hP hon fun t' ht' => (hf t' ht').mono hports
    rw [if_neg hone]
    have h₁ : Depicts P missed base origin bottom others (Slots.single (t.or found) + tasks)
        (U \ {(n, i)}) held
        ({ s with valueStack := stack₁.map Prod.snd ++ bottom, toNet := net } : Store) stack₁
        { d with ties := d.ties ++ [(.port n i, e)], stack := l } := by
      refine ⟨?_, hshows, rfl, hl₁⟩
      convert hinv using 1
      rw [hor]
      dsimp only
      abel
    have hu' : below n i ⊆ U \ {(n, i)} := by
      rintro ⟨m, j⟩ ⟨rfl, hj⟩
      refine ⟨hu ⟨rfl, Nat.lt_succ_of_lt hj⟩, ?_⟩
      rintro he
      cases he
      exact lt_irrefl _ hj
    have h₂ := ih h₁ ((ctorOf_congr hctors n c).mpr hn) (Nat.le_of_lt hi) hu' hon'
      (fun g hg => hne g (by
        rw [← Multiset.cons_coe, Multiset.cons_add]
        exact Multiset.mem_cons_of_mem hg)) hd
    rw [diff_below] at h₂
    refine h₂.mono ?_
    rintro ⟨s', found'⟩ ⟨hs', stack', hsuf, h'⟩
    exact ⟨hs'.trans hctors, stack', hsuf.trans (List.suffix_cons _ _), h'⟩

theorem reconnectOutputs
    (h : s.Depicts P missed base origin bottom others tasks U held stack d)
    (hn : CtorOf s.nodes n c) (hc : P.nodeCtor c = some ctor) (hk : i + k ≤ ctor.arity)
    (hu : above n i k ⊆ U) (hne : ∀ g ∈ (↑stack : Glue) + held, ∀ j, i ≤ j → g.1 ≠ .port n j) :
    ∃ s' stack', Store.reconnectOutputs P n k i s = .ok s' ∧ s'.shape.1 = s.shape.1 ∧
      s'.Depicts P missed base origin bottom others tasks (U \ above n i k) held stack'
        (d.outputs n k i) := by
  induction k generalizing s U stack d i with
  | zero =>
    refine ⟨s, stack, rfl, rfl, ?_⟩
    rwa [above_zero, Set.sdiff_empty]
  | succ k ih =>
    have hport : (n, i) ∈ U := hu ⟨rfl, le_rfl, by dsimp only; omega⟩
    obtain ⟨⟨net, u⟩, hx⟩ := exists_reconnectOutput h.inv hn hc (by omega : i < ctor.arity)
    have hctors := ctors_reconnectOutput hx
    have hatt := Net.attached_reconnectOutput h.inv hn hport hx
    have hinv := (h.inv.reconnectOutput hn hport (Set.notMem_empty _)).of_ok hx
    have hshows := h.shows.output hatt h.inv hn (fun hu => hatt.new (Value.in_of_isNonWire hu))
      (fun g hg => hne g hg i le_rfl) (ctorOf_congr hctors) (length_congr hctors)
    have h₁ : Depicts P missed base origin bottom others tasks (U \ {(n, i)}) held
        ((s.setNet net).push u) ((.port n i, u) :: stack) (d.push (.port n i)) := by
      refine ⟨?_, ?_, ?_, ?_⟩
      · rw [values_cons]
        exact hinv.1
      · rw [← Multiset.cons_coe, Multiset.cons_add]
        exact hshows
      · change u :: s.valueStack = _
        rw [h.values]
        rfl
      · change _ :: d.stack = _
        rw [h.ends]
        rfl
    have hu' : above n (i + 1) k ⊆ U \ {(n, i)} := by
      rintro ⟨m, j⟩ ⟨rfl, hi, hj⟩
      dsimp only at hi hj
      refine ⟨hu ⟨rfl, by dsimp only; omega, by dsimp only; omega⟩, ?_⟩
      rintro he
      cases he
      omega
    have hne' : ∀ g ∈ (↑((End.port n i, u) :: stack) : Glue) + held, ∀ j, i + 1 ≤ j →
        g.1 ≠ .port n j := by
      intro g hg j hj
      rw [← Multiset.cons_coe, Multiset.cons_add] at hg
      rcases Multiset.mem_cons.mp hg with rfl | hg
      · rintro ⟨⟩
        omega
      · exact hne g hg j (by omega)
    obtain ⟨s', stack', hs', hctors', h'⟩ :=
      ih h₁ ((ctorOf_congr hctors n c).mpr hn) (by omega) hu' hne'
    rw [diff_above] at h'
    refine ⟨s', stack', ?_, hctors'.trans hctors, h'⟩
    unfold Store.reconnectOutputs
    rw [hx, Outcome.ok_bind]
    exact hs'

theorem addFound (h : s.Depicts P missed base origin bottom others (Slots.single found + tasks) U
    held stack d) : (s.addFound found).Depicts P missed base origin bottom others tasks U held
      stack d where
  inv := by
    have htasks : (↑(s.addFound found).taskQueue + ↑(s.addFound found).refused + tasks :
        Multiset Task) = ↑s.taskQueue + ↑s.refused + (Slots.single found + tasks) := by
      cases found with
      | none => simp [Store.addFound]
      | some t =>
        simp only [Store.addFound, Option.elim, Store.addTask, Slots.single_some]
        split <;>
        · simp only [← Multiset.coe_add, Multiset.coe_singleton]
          abel
    rw [htasks, Ok.toNet_addFound]
    exact h.inv
  shows := by
    rw [Ok.toNet_addFound]
    exact h.shows
  values := by
    rw [← h.values]
    cases found with
    | none => rfl
    | some t =>
      simp only [Store.addFound, Option.elim, Store.addTask]
      split <;> rfl
  ends := h.ends

theorem applyNodeCtor (hP : P.Ok)
    (h : s.Depicts P missed base origin bottom others tasks ∅ held stack d)
    (hc : P.nodeCtor c = some ctor) (hd : d.node ctor c arity = some d') :
    Draws P origin base d' (fun s' => ∃ stack',
      s'.Depicts P missed base origin bottom others tasks ∅ held stack' d')
      (s.applyNodeCtor P c arity) := by
  unfold Drawing.node at hd
  split at hd
  swap
  · cases hd
  rename_i harity
  obtain ⟨d₁, hd₁, rfl⟩ := Option.map_eq_some_iff.mp hd
  have hnext : (s.newNode c).1 = d.next := h.shows.next.symm
  have h₁ : Depicts P missed base origin bottom others (Slots.single none + tasks)
      {x | x.1 = d.next} held (s.setNet (s.newNode c).2) stack
      { d with next := d.next + 1, nodes := d.nodes ++ [(d.next, c)] } := by
    refine ⟨?_, h.shows.newNode, h.values, h.ends⟩
    have hnew := h.inv.newNode hP hc
    rw [hnext, Set.empty_union] at hnew
    rw [Slots.single_none, zero_add]
    exact hnew
  have hn : CtorOf (s.setNet (s.newNode c).2).nodes d.next c :=
    ⟨[], 0, by simp [Store.setNet, Net.newNode, h.shows.next]⟩
  have hne : ∀ g ∈ (↑stack : Glue) + held, ∀ j, g.1 ≠ .port d.next j := by
    intro g hg j he
    have hb : End.Below d (.port d.next j) := he ▸ h.shows.belowHand g hg
    exact lt_irrefl d.next hb
  have hpair : s.newNode c = (d.next, (s.newNode c).2) := Prod.ext hnext rfl
  unfold Store.applyNodeCtor Store.reconnectNode
  rw [hpair]
  dsimp only
  apply (h₁.reconnectInputs hP hn hc harity (fun x hx => hx.1) (by rintro _ ⟨⟩) hne hd₁).bind
    Drawing.Extends.outputs
  rintro ⟨s₁, found⟩ ⟨hctors₁, stack₁, hsuf, h₂⟩
  dsimp only at hctors₁ h₂ ⊢
  have hn₁ : CtorOf s₁.nodes d.next c := (ctorOf_congr hctors₁ _ _).mpr hn
  obtain ⟨ctor', hc', hget⟩ := h₂.inv.getNodeCtor hn₁
  cases hc.symm.trans hc'
  rw [hget, Outcome.ok_bind]
  have hu : above d.next arity (ctor.arity - arity) ⊆
      ({x | x.1 = d.next} : Set (ℕ × ℕ)) \ below d.next arity := by
    rintro ⟨m, j⟩ ⟨rfl, hi, -⟩
    exact ⟨rfl, fun hlt => absurd hlt.2 (not_lt.mpr hi)⟩
  have hne₁ : ∀ g ∈ (↑stack₁ : Glue) + held, ∀ j, arity ≤ j → g.1 ≠ .port d.next j := by
    intro g hg j _
    refine hne g (Multiset.mem_of_le ?_ hg) j
    exact add_le_add (Multiset.coe_le.mpr hsuf.sublist.subperm) le_rfl
  obtain ⟨s₂, stack₂, hs₂, hctors₂, h₃⟩ := h₂.reconnectOutputs hn₁ hc (by omega) hu hne₁
  rw [hs₂, Outcome.ok_bind]
  refine ⟨stack₂, addFound ?_⟩
  refine ⟨h₃.inv.close (U := ∅) (Set.empty_subset _) ?_, h₃.shows, h₃.values, h₃.ends⟩
  rintro m c' l k ctor' j hm hc' ⟨⟨hmn, hj⟩, hj'⟩ -
  have hmn : m = d.next := hmn
  subst hmn
  cases CtorOf.unique ⟨l, k, hm⟩ ((ctorOf_congr hctors₂ _ _).mpr hn₁)
  cases hc.symm.trans hc'
  by_contra hlt
  rw [not_le] at hlt
  have hge : arity ≤ j := by
    by_contra hge
    exact hj ⟨rfl, not_le.mp hge⟩
  exact hj' ⟨rfl, hge, by dsimp only; omega⟩

theorem connect {e₁ e₂ : End} {v₁ v₂ : Value} {l : List End}
    (h : s.Depicts P missed base origin bottom others tasks ∅ held
      ((e₂, v₂) :: (e₁, v₁) :: stack) d) (hl : l = stack.map Prod.fst)
    (hd : d' = { d with stack := l, ties := d.ties ++ [(e₁, e₂)] }) :
    Draws P origin base d' (fun s' => s'.Depicts P missed base origin bottom others tasks ∅ held
      stack d')
      (({ s with valueStack := stack.map Prod.snd ++ bottom } : Store).connect P v₁ v₂) := by
  subst hd
  have hglue : ((↑((e₂, v₂) :: (e₁, v₁) :: stack) : Glue) + held) =
      (e₁, v₁) ::ₘ (e₂, v₂) ::ₘ (↑stack + held) := by
    rw [← Multiset.cons_coe, ← Multiset.cons_coe, Multiset.cons_add, Multiset.cons_add,
      Multiset.cons_swap]
  have hinv := h.inv
  have hshows := h.shows
  rw [hglue] at hinv hshows
  have hinv₁ := hinv
  rw [Multiset.map_cons, Multiset.map_cons, Multiset.cons_add, Multiset.cons_add] at hinv₁
  unfold Store.connect
  dsimp only
  cases hx : InetLisp.connect P s.toNet v₁ v₂ with
  | error er =>
    refine ⟨hinv₁.connect.of_error hx, fun hp => ?_⟩
    apply hp.not_clash (d := d) e₁ e₂ ⟨List.prefix_rfl, fun _ h => h⟩
    apply (clash_connect hinv₁ hx).imp (fun m c hm => (h.shows.ctor m c).mp hm)
    · exact fun z hz hlead => hshows.leads_of_mem (Multiset.mem_cons_self _ _) hz hlead
    · exact fun z hz hlead => hshows.leads_of_mem
        (Multiset.mem_cons_of_mem (Multiset.mem_cons_self _ _)) hz hlead
  | ok x =>
    obtain ⟨net, t⟩ := x
    have hinv₂ : Inv P missed net _ (Slots.single t + (↑s.taskQueue + ↑s.refused + tasks)) _ :=
      hinv₁.connect.of_ok hx
    have hctors := congrArg Prod.fst (connect_shape hx).1
    apply addFound
    refine ⟨?_, ?_, rfl, hl⟩
    · rw [add_left_comm (Slots.single t)] at hinv₂
      exact hinv₂
    · exact hshows.connect hinv hinv₂ (Net.joins_connect hinv₁ hx) (ctorOf_congr hctors)
        (length_congr hctors)

theorem applyPrimitive {p : Primitive}
    (h : s.Depicts P missed base origin bottom others tasks ∅ held stack d)
    (hd : d.primitive p.fn = some d') :
    Draws P origin base d' (fun s' => ∃ stack',
      s'.Depicts P missed base origin bottom others tasks ∅ held stack' d')
      (s.applyPrimitive P p) := by
  unfold Drawing.primitive at hd
  unfold Store.applyPrimitive
  cases hfn : p.fn with
  | connect =>
    rw [hfn] at hd
    dsimp only at hd ⊢
    split at hd
    swap
    · cases hd
    rename_i second first l hl
    cases hd
    obtain ⟨v₂, stack₁, rfl, hl₁, hpop⟩ := h.pop hl
    rcases stack₁ with _ | ⟨⟨e₁, v₁⟩, stack₂⟩
    · cases hl₁
    obtain ⟨rfl, hl₂⟩ := List.cons.inj hl₁
    rw [hpop, Outcome.ok_bind]
    dsimp only
    rw [pop_eq (v := v₁) (l := stack₂.map Prod.snd ++ bottom) rfl, Outcome.ok_bind]
    apply Outcome.mono (h.connect hl₂ rfl)
    exact fun s' hs' => ⟨stack₂, hs'⟩
  | link =>
    rw [hfn] at hd
    cases hd
    have hshows := h.shows.link h.inv
    have hinv := h.inv.newWire
    refine ⟨(.link d.links true, .wire s.newWire.1) :: (.link d.links false, .wire s.newWire.1) ::
      stack, ?_, ?_, ?_, ?_⟩
    · rw [values_cons, values_cons]
      exact hinv
    · rw [← Multiset.cons_coe, Multiset.cons_add, ← Multiset.cons_coe, Multiset.cons_add]
      exact hshows
    · change Value.wire _ :: Value.wire _ :: s.valueStack = _
      rw [h.values]
      rfl
    · change End.link _ _ :: End.link _ _ :: d.stack = _
      rw [h.ends]
      rfl
  | fn f =>
    rw [hfn] at hd
    cases hd

theorem applyNonWire {target : Value} {f : Option ℕ} (hP : P.Ok)
    (h : s.Depicts P missed base origin bottom others tasks ∅ held stack d)
    (hd : d.apply P target arity = some (d', f)) :
    Draws P origin base d' (fun (s', f') => f' = f ∧ ∃ stack',
      s'.Depicts P missed base origin bottom others tasks ∅ held stack' d')
      (s.applyNonWire P target arity) := by
  unfold Drawing.apply at hd
  unfold Store.applyNonWire
  split at hd
  · obtain ⟨ctor, hc, hd⟩ := Option.bind_eq_some_iff.mp hd
    obtain ⟨d₁, hd₁, hd⟩ := Option.bind_eq_some_iff.mp hd
    cases hd
    dsimp only
    rw [hc]
    apply (h.applyNodeCtor hP hc hd₁).bind (Drawing.Extends.refl _)
    exact fun s' hs' => ⟨rfl, hs'⟩
  · obtain ⟨function, hf, hd⟩ := Option.bind_eq_some_iff.mp hd
    dsimp only
    rw [hf]
    dsimp only
    split at hd
    · cases hd
      rw [if_pos ‹_›]
      exact ⟨rfl, stack, h⟩
    · cases hd
  · obtain ⟨p, hp, hd⟩ := Option.bind_eq_some_iff.mp hd
    dsimp only
    rw [hp]
    dsimp only
    cases hc : p.nodeCtor with
    | some c =>
      rw [hc] at hd
      obtain ⟨ctor, hctor, hd⟩ := Option.bind_eq_some_iff.mp hd
      obtain ⟨d₁, hd₁, hd⟩ := Option.bind_eq_some_iff.mp hd
      cases hd
      apply (h.applyNodeCtor hP hctor hd₁).bind (Drawing.Extends.refl _)
      exact fun s' hs' => ⟨rfl, hs'⟩
    | none =>
      rw [hc] at hd
      dsimp only at hd ⊢
      split at hd
      · rename_i harity
        obtain ⟨d₁, hd₁, hd⟩ := Option.bind_eq_some_iff.mp hd
        cases hd
        rw [if_neg (not_not.mpr harity)]
        apply (h.applyPrimitive hd₁).bind (Drawing.Extends.refl _)
        exact fun s' hs' => ⟨rfl, hs'⟩
      · cases hd
  · cases hd

end Step

end Store.Depicts

end InetLisp
