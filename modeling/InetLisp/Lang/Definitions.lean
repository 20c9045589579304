import InetLisp.Core.Extend
import InetLisp.Lang.Rules

/-! # What definitions do to the program

A statement that is accepted adds to the program, and its definitions fit together if the
new node ctor has one principal port at most, or the new rule is for node ctors that are
not those of primitives.
-/

namespace InetLisp

open Lib Define

namespace Program

variable {P : Program} {ctor : NodeCtor} {rule : Rule} {c : ℕ}

namespace Grows

theorem addFunction (P : Program) (function : Function) :
    P.Grows { P with functions := P.functions ++ [function] } where
  nodeCtor := fun _ ctor hc => ⟨ctor, hc, rfl, rfl, List.Subset.refl _⟩
  function := by
    intro f function' hf
    dsimp only
    rw [List.getElem?_append_left (Cells.lt_length hf), hf]
  primitive := fun _ _ h => h

theorem addCtor (P : Program) (ctor : NodeCtor) :
    P.Grows { P with nodeCtors := P.nodeCtors ++ [ctor] } where
  nodeCtor := by
    intro c ctor' hc
    refine ⟨ctor', ?_, rfl, rfl, List.Subset.refl _⟩
    rw [Program.nodeCtor] at hc ⊢
    rw [← List.append_assoc, List.getElem?_append_left (Cells.lt_length hc), hc]
  function := fun _ _ h => h
  primitive := fun _ _ h => h

theorem addPrimitive (P : Program) (primitive : Primitive) :
    P.Grows { P with primitives := P.primitives ++ [primitive] } where
  nodeCtor := fun _ ctor hc => ⟨ctor, hc, rfl, rfl, List.Subset.refl _⟩
  function := fun _ _ h => h
  primitive := by
    intro k p hp
    dsimp only
    rw [List.getElem?_append_left (Cells.lt_length hp), hp]

theorem pushRule (P : Program) (c : ℕ) (rule : Rule) : P.Grows (pushRule P c rule) where
  nodeCtor := by
    intro d ctor hd
    unfold Define.pushRule
    split
    · exact ⟨ctor, hd, rfl, rfl, List.Subset.refl _⟩
    · rename_i i hi
      rcases Nat.lt_or_ge d applyNodeCtors.length with hlt | hge
      · refine ⟨ctor, ?_, rfl, rfl, List.Subset.refl _⟩
        rw [Program.nodeCtor, List.getElem?_append_left hlt] at hd ⊢
        exact hd
      · obtain ⟨j, rfl⟩ := Nat.exists_eq_add_of_le hge
        rw [nodeCtor_add] at hd
        rw [nodeCtor_add]
        dsimp only
        rw [List.getElem?_modify, hd, Option.map_eq_map, Option.map_some]
        by_cases hij : i = j
        · rw [if_pos hij]
          exact ⟨_, rfl, rfl, rfl, List.subset_append_left _ _⟩
        · rw [if_neg hij]
          exact ⟨ctor, rfl, rfl, rfl, List.Subset.refl _⟩
  function := by
    intro f function hf
    rwa [pushRule_functions]
  primitive := by
    intro k p hp
    unfold Define.pushRule
    split <;> exact hp

end Grows

namespace Fits

theorem addFunction (h : P.Fits) (function : Function) :
    Program.Fits { P with functions := P.functions ++ [function] } where
  ctor := fun ctor hm => (h.ctor ctor hm).grows (.addFunction P function)
  nodeCtor := h.nodeCtor

theorem addCtor (h : P.Fits)
    (hc : ctor.Fits { P with nodeCtors := P.nodeCtors ++ [ctor] }) :
    Program.Fits { P with nodeCtors := P.nodeCtors ++ [ctor] } where
  ctor := by
    intro ctor' hm
    rcases List.mem_append.mp hm with hm | hm
    · exact (h.ctor ctor' hm).grows (.addCtor P ctor)
    · rw [List.mem_singleton.mp hm]
      exact hc
  nodeCtor := by
    intro k p c hp hk
    obtain ⟨ctor', hc'⟩ := h.nodeCtor k p c hp hk
    obtain ⟨ctor'', hc'', -⟩ := (Grows.addCtor P ctor).nodeCtor c ctor' hc'
    exact ⟨ctor'', hc''⟩

/-- The two ctors of the rule are not those of primitives. -/
def IsUserRule (P : Program) (rule : Rule) : Prop :=
  ∀ c, c = rule.leftNodeCtor ∨ c = rule.rightNodeCtor →
    ∃ user, P.nodeCtor c = some user ∧ user.primitive = none

theorem IsUserRule.grows {P' : Program} (hg : P.Grows P') (h : IsUserRule P rule) :
    IsUserRule P' rule := by
  intro c hc
  obtain ⟨user, hu, hprimitive⟩ := h c hc
  obtain ⟨user', hu', -, hprimitive', -⟩ := hg.nodeCtor c user hu
  exact ⟨user', hu', hprimitive'.trans hprimitive⟩

theorem pushRule (h : P.Fits) (hf : ∃ function, P.functions[rule.function]? = some function)
    (hr : IsUserRule P rule) : (pushRule P c rule).Fits where
  ctor := by
    intro ctor hm
    have hg := Grows.pushRule P c rule
    unfold Define.pushRule at hm hg ⊢
    split
    · rename_i hc
      rw [hc] at hm
      exact h.ctor ctor hm
    · rename_i i hi
      rw [hi] at hm hg
      obtain ⟨j, hj⟩ := List.mem_iff_getElem?.mp hm
      rw [List.getElem?_modify, Option.map_eq_map, Option.map_eq_some_iff] at hj
      obtain ⟨ctor', hctor', rfl⟩ := hj
      have hfits := h.ctor ctor' (List.mem_of_getElem? hctor')
      by_cases hij : i = j
      · rw [if_pos hij]
        exact (hfits.addRule ⟨hf, hr⟩).grows hg
      · rw [if_neg hij]
        exact hfits.grows hg
  nodeCtor := by
    intro k p d hp hk
    have hp' : P.primitives[k]? = some p := by
      unfold Define.pushRule at hp
      split at hp <;> exact hp
    obtain ⟨ctor, hc⟩ := h.nodeCtor k p d hp' hk
    obtain ⟨ctor', hc', -⟩ := (Grows.pushRule P c rule).nodeCtor d ctor hc
    exact ⟨ctor', hc'⟩

end Fits

end Program

namespace Define

variable {P P' : Program} {valueHash valueHash' : ValueHash} {stmt : Stmt} {c d c' d' k : ℕ}
  {function : Function} {name : String} {value : Value}

def Stmt.portInfos : Stmt → List PortInfo
  | .defineNode _ portNameList => portNameList.map PortInfo.fromName
  | _ => []

/-- The condition on a statement: a new node ctor has one principal port at most, and a rule is
for two node ctors that are not those of primitives. -/
structure Stmt.IsRegular (P : Program) (valueHash : ValueHash) (stmt : Stmt) : Prop where
  principalPort : stmt.portInfos.countP (·.isPrincipal) ≤ 1
  rule : ∀ x ∈ stmt.pair valueHash, ∀ c ∈ [x.1, x.2], ∀ ctor ∈ P.nodeCtor c, ctor.primitive = none

instance (P : Program) (valueHash : ValueHash) : DecidablePred (Stmt.IsRegular P valueHash) :=
  fun stmt => decidable_of_iff (stmt.portInfos.countP (·.isPrincipal) ≤ 1 ∧
    ∀ x ∈ stmt.pair valueHash, ∀ c ∈ [x.1, x.2], ∀ ctor ∈ P.nodeCtor c, ctor.primitive = none)
    ⟨fun h => ⟨h.1, h.2⟩, fun h => ⟨h.principalPort, h.rule⟩⟩

/-- What was defined stays, and what is added is no wire. -/
def AddsNonWires (valueHash valueHash' : ValueHash) : Prop :=
  ∃ added, valueHash' = added ++ valueHash ∧ ∀ x ∈ added, x.2.IsNonWire

theorem AddsNonWires.refl (valueHash : ValueHash) : AddsNonWires valueHash valueHash :=
  ⟨[], rfl, nofun⟩

theorem define_eq_ok (h : define valueHash name value = .ok valueHash') :
    valueHash' = (name.toList, value) :: valueHash := by
  unfold define at h
  split at h
  · cases h
  · cases h
    rfl

theorem addsNonWires_define (h : define valueHash name value = .ok valueHash')
    (hv : value.IsNonWire) : AddsNonWires valueHash valueHash' := by
  refine ⟨[(name.toList, value)], define_eq_ok h, fun x hx => ?_⟩
  rw [List.mem_singleton.mp hx]
  exact hv

theorem isPrincipal_unique {ctor : NodeCtor} (h : ctor.principalPortCount ≤ 1) {i j : ℕ}
    (hi : ctor.IsPrincipal i) (hj : ctor.IsPrincipal j) : i = j := by
  classical
  rw [← NodeCtor.card_principalPorts] at h
  have hmem : ∀ {k}, ctor.IsPrincipal k →
      k ∈ (Finset.range ctor.arity).filter ctor.IsPrincipal := fun hk =>
    Finset.mem_filter.mpr ⟨Finset.mem_range.mpr (NodeCtor.lt_arity hk), hk⟩
  exact Finset.card_le_one.mp h i (hmem hi) j (hmem hj)

theorem fits_defineNode (P : Program) {portInfos : List PortInfo}
    (h : portInfos.countP (·.isPrincipal) ≤ 1) :
    NodeCtor.Fits P { name := name, portInfos := portInfos } where
  principalPort := by
    intro _ i j hi hj
    have hcount : NodeCtor.principalPortCount { name := name, portInfos := portInfos } ≤ 1 := h
    exact isPrincipal_unique hcount hi hj
  rule := nofun
  primitive := fun h => (h rfl).elim
  primitiveArity := nofun
  not_apply := nofun

theorem exists_nodeCtor (h : (getCtor P c).isSome) : ∃ ctor, P.nodeCtor c = some ctor := by
  obtain ⟨ctor, hc⟩ := Option.isSome_iff_exists.mp h
  obtain ⟨i, rfl, hi⟩ := getCtor_eq_some.mp hc
  exact ⟨ctor, (nodeCtor_add i).trans hi⟩

theorem Installs.grows (h : Installs P P' valueHash stmt c d c' d' function) : P.Grows P' := by
  rw [h.eq]
  exact (Program.Grows.addFunction P function).trans
    ((Program.Grows.pushRule _ _ _).trans (.pushRule _ _ _))

theorem Installs.fits (h : Installs P P' valueHash stmt c d c' d' function) (hP : P.Fits)
    (hs : stmt.IsRegular P valueHash) : P'.Fits := by
  let rule : Rule := ⟨c, d, P.functions.length⟩
  have huser : Program.Fits.IsUserRule P rule := by
    intro e he
    have hctor : ∃ ctor, P.nodeCtor e = some ctor := by
      rcases he with rfl | rfl
      · exact exists_nodeCtor h.leftCtor
      · exact exists_nodeCtor h.rightCtor
    obtain ⟨ctor, hctor⟩ := hctor
    exact ⟨ctor, hctor, hs.rule (c, d) h.pair e (by simpa using he) ctor hctor⟩
  have hg := Program.Grows.addFunction P function
  have hg' := Program.Grows.pushRule { P with functions := P.functions ++ [function] } c' rule
  have hf : (P.functions ++ [function])[rule.function]? = some function :=
    List.getElem?_concat_length
  rw [h.eq]
  exact ((hP.addFunction function).pushRule ⟨_, hf⟩ (huser.grows hg)).pushRule
    ⟨_, hg'.function _ _ hf⟩ (huser.grows (hg.trans hg'))

/-- What a statement that is accepted does. -/
structure Grown (P P' : Program) (valueHash valueHash' : ValueHash) : Prop where
  grows : P.Grows P'
  fits : P'.Fits
  adds : AddsNonWires valueHash valueHash'

/-- Nothing is run while statements define something. -/
def noRun : Runtime Unit where
  runExp _ _ _ _ := .error .assertion
  popValue _ := .error .assertion

/-- A statement that is accepted adds definitions that fit. -/
theorem grown_execute {w : World Unit} (hP : P.Fits) (hs : stmt.IsRegular P valueHash)
    (h : execute noRun ⟨P, ()⟩ valueHash stmt = (w, valueHash', none)) :
    Grown P w.program valueHash valueHash' := by
  have hinstalls : ∀ {c d c' d' function}, valueHash = valueHash' →
      Installs P w.program valueHash stmt c d c' d' function →
        Grown P w.program valueHash valueHash' := by
    rintro c d c' d' function rfl hi
    exact ⟨hi.grows, hi.fits hP hs, .refl _⟩
  cases stmt with
  | defineRule patternExp expList =>
    obtain ⟨hw, h⟩ := Prod.mk.inj h
    obtain ⟨hv, he⟩ := Prod.mk.inj h
    have hpatterns : (Stmt.defineRule patternExp expList).patternExpList =
        (translatePatternTree patternExp).toOption := rfl
    obtain ⟨c, d, c', d', function, hi⟩ :=
      executeRule_eq_none hpatterns (Prod.ext (congrArg World.program hw) he)
    exact hinstalls hv hi
  | defineRuleStar patternExpList expList =>
    obtain ⟨hw, h⟩ := Prod.mk.inj h
    obtain ⟨hv, he⟩ := Prod.mk.inj h
    have hpatterns : (Stmt.defineRuleStar patternExpList expList).patternExpList =
        (.ok patternExpList : Except Error _).toOption := rfl
    obtain ⟨c, d, c', d', function, hi⟩ :=
      executeRule_eq_none hpatterns (Prod.ext (congrArg World.program hw) he)
    exact hinstalls hv hi
  | define name exp => cases h
  | runExp exp => cases h
  | defineFunction name argNameList expList =>
    have h := of_executeOther h
    unfold executeOther at h
    dsimp only at h
    split at h
    · cases h
    · rename_i function _
      obtain ⟨hash, hd, h⟩ := Outcome.of_bind_eq_ok h
      cases h
      exact ⟨.addFunction P function, hP.addFunction function, addsNonWires_define hd trivial⟩
  | defineNode name portNameList =>
    obtain ⟨⟨P', hash⟩, hd, h⟩ := Outcome.of_bind_eq_ok (of_executeOther h)
    cases h
    obtain ⟨hash, hd, hn⟩ := Outcome.of_bind_eq_ok hd
    cases hn
    have hfits : NodeCtor.Fits P { name, portInfos := portNameList.map PortInfo.fromName } :=
      fits_defineNode P hs.principalPort
    exact ⟨.addCtor P _, hP.addCtor (hfits.grows (.addCtor P _)), addsNonWires_define hd trivial⟩

namespace Grown

theorem refl (hP : P.Fits) (valueHash : ValueHash) : Grown P P valueHash valueHash :=
  ⟨.refl P, hP, .refl valueHash⟩

theorem trans {P'' : Program} {valueHash'' : ValueHash} (h : Grown P P' valueHash valueHash')
    (h' : Grown P' P'' valueHash' valueHash'') : Grown P P'' valueHash valueHash'' := by
  refine ⟨h.grows.trans h'.grows, h'.fits, ?_⟩
  obtain ⟨added, rfl, ha⟩ := h.adds
  obtain ⟨added', rfl, ha'⟩ := h'.adds
  refine ⟨added' ++ added, (List.append_assoc ..).symm, fun x hx => ?_⟩
  exact (List.mem_append.mp hx).elim (ha' x) (ha x)

end Grown

/-- The ports of the node of a primitive are its inputs and outputs, and one is principal. -/
def PrimitiveDef.IsRegular (d : PrimitiveDef) : Prop :=
  ∀ portNames, d.portNames = some portNames → portNames.length = d.inputArity + d.outputArity ∧
    ∃ name ∈ portNames, (PortInfo.fromName name).isPrincipal

theorem fits_definePrimitive {d : PrimitiveDef} (hd : d.IsRegular) {portNames : List String}
    (hn : d.portNames = some portNames) {primitive : Primitive}
    (hk : P.primitives[k]? = some primitive) (hin : primitive.inputArity = d.inputArity)
    (hout : primitive.outputArity = d.outputArity) :
    NodeCtor.Fits P { name := name, portInfos := portNames.map PortInfo.fromName
                      primitive := some (.primitive k) } where
  principalPort := nofun
  rule := nofun
  primitive := by
    intro _
    obtain ⟨portName, hm, hp⟩ := (hd portNames hn).2
    obtain ⟨i, hi⟩ := List.mem_iff_getElem?.mp hm
    exact ⟨i, PortInfo.fromName portName, by rw [List.getElem?_map, hi]; rfl, hp⟩
  primitiveArity := by
    rintro k' ⟨⟩
    refine ⟨primitive, hk, ?_⟩
    rw [hin, hout, NodeCtor.arity, List.length_map]
    exact (hd portNames hn).1.symm
  not_apply := nofun

theorem grown_definePrimitive {d : PrimitiveDef} (hP : P.Fits) (hd : d.IsRegular) :
    Grown P (definePrimitive (P, valueHash) d).1 valueHash
      (definePrimitive (P, valueHash) d).2 := by
  have hadds : AddsNonWires valueHash
      ((d.name.toList, .primitive P.primitives.length) :: valueHash) := by
    refine ⟨[(d.name.toList, .primitive P.primitives.length)], rfl, fun x hx => ?_⟩
    rw [List.mem_singleton.mp hx]
    trivial
  unfold definePrimitive
  dsimp only
  split
  · have hg := Program.Grows.addPrimitive P ⟨d.inputArity, d.outputArity, d.fn, none⟩
    refine ⟨hg, ⟨fun ctor hm => (hP.ctor ctor hm).grows hg, fun k p c hp hk => ?_⟩, hadds⟩
    dsimp only at hp
    rw [Cells.getElem?_snoc] at hp
    split at hp
    · cases hp
      cases hk
    · exact hP.nodeCtor k p c hp hk
  · rename_i portNames hn
    have hg := (Program.Grows.addPrimitive P ⟨d.inputArity, d.outputArity, d.fn,
      some (applyNodeCtors.length + P.nodeCtors.length)⟩).trans (.addCtor _ {
        name := d.name
        portInfos := portNames.map PortInfo.fromName
        primitive := some (.primitive P.primitives.length) })
    refine ⟨hg, ⟨fun ctor hm => ?_, fun k p c hp hk => ?_⟩, hadds⟩
    · rcases List.mem_append.mp hm with hm | hm
      · exact (hP.ctor ctor hm).grows hg
      · rw [List.mem_singleton.mp hm]
        exact fits_definePrimitive hd hn List.getElem?_concat_length rfl rfl
    · dsimp only at hp
      rw [Cells.getElem?_snoc] at hp
      split at hp
      · cases hp
        cases hk
        exact ⟨_, (nodeCtor_add P.nodeCtors.length).trans List.getElem?_concat_length⟩
      · obtain ⟨ctor, hc⟩ := hP.nodeCtor k p c hp hk
        obtain ⟨ctor', hc', -⟩ := hg.nodeCtor c ctor hc
        exact ⟨ctor', hc'⟩

theorem grown_foldl_definePrimitive {prelude : List PrimitiveDef} (valueHash : ValueHash)
    (hP : P.Fits) (hd : ∀ d ∈ prelude, d.IsRegular) :
    Grown P (prelude.foldl definePrimitive (P, valueHash)).1 valueHash
      (prelude.foldl definePrimitive (P, valueHash)).2 := by
  induction prelude generalizing P valueHash with
  | nil => exact .refl hP valueHash
  | cons d prelude ih =>
    have h : Grown P _ valueHash _ := grown_definePrimitive hP (hd d List.mem_cons_self)
    exact h.trans (ih _ h.fits fun d hm => hd d (List.mem_cons_of_mem _ hm))

end Define

end InetLisp
