import InetLisp.Lang.Define

/-! # The tables of rules

Tables only grow, and an accepted rule is put into two of them. What `connect_active_pair`
finds for two ctors is the first of their rules in the table of the left one.
-/

namespace InetLisp.Define

open Lib

def rules (P : Program) (c : ℕ) : List Rule := ((P.nodeCtor c).map NodeCtor.ruleArray).getD []

def ctorName (P : Program) (c : ℕ) : String := ((getCtor P c).map NodeCtor.name).getD ""

/-- The rule is for these two ctors, in either order. -/
def IsFor (rule : Rule) (c d : ℕ) : Prop :=
  rule.leftNodeCtor = c ∧ rule.rightNodeCtor = d ∨ rule.leftNodeCtor = d ∧ rule.rightNodeCtor = c

instance (rule : Rule) (c d : ℕ) : Decidable (IsFor rule c d) :=
  inferInstanceAs (Decidable (_ ∨ _))

def HasRule (P : Program) (c d : ℕ) : Prop := ∃ e, ∃ rule ∈ rules P e, IsFor rule c d

variable {P P' P'' : Program} {c d i : ℕ} {rule : Rule} {ctor : NodeCtor} {valueHash : ValueHash}
  {name : String}

theorem place_eq_some : place c = some i ↔ c = applyNodeCtors.length + i := by
  unfold place
  split
  · simp only [reduceCtorEq, false_iff]
    omega
  · rw [Option.some.injEq]
    omega

theorem getCtor_eq_some : getCtor P c = some ctor ↔
    ∃ i, c = applyNodeCtors.length + i ∧ P.nodeCtors[i]? = some ctor := by
  simp [getCtor, Option.bind_eq_some_iff, place_eq_some]

theorem nodeCtor_add (i : ℕ) : P.nodeCtor (applyNodeCtors.length + i) = P.nodeCtors[i]? := by
  rw [Program.nodeCtor, List.getElem?_append_right (Nat.le_add_right _ _), Nat.add_sub_cancel_left]

theorem rules_of_lt (h : c < applyNodeCtors.length) : rules P c = [] := by
  have hall : ∀ ctor ∈ applyNodeCtors, ctor.ruleArray = [] := by decide
  rw [rules, Program.nodeCtor, List.getElem?_append_left h, List.getElem?_eq_getElem h]
  exact hall _ (List.getElem_mem h)

theorem rules_congr (h : P'.nodeCtors = P.nodeCtors) (c : ℕ) : rules P' c = rules P c := by
  rw [rules, rules, Program.nodeCtor, Program.nodeCtor, h]

theorem rules_addCtor (h : ctor.ruleArray = []) (hP : P'.nodeCtors = P.nodeCtors ++ [ctor])
    (c : ℕ) : rules P' c = rules P c := by
  rcases Nat.lt_or_ge c applyNodeCtors.length with hc | hc
  · rw [rules_of_lt hc, rules_of_lt hc]
  · obtain ⟨i, rfl⟩ := Nat.exists_eq_add_of_le hc
    rw [rules, rules, nodeCtor_add, nodeCtor_add, hP, Cells.getElem?_snoc]
    split
    · rename_i hi
      rw [List.getElem?_eq_none hi.le]
      simp [h]
    · rfl

theorem rules_pushRule (h : (getCtor P c).isSome) (d : ℕ) :
    rules (pushRule P c rule) d = rules P d ++ if d = c then [rule] else [] := by
  obtain ⟨ctor, hc⟩ := Option.isSome_iff_exists.mp h
  obtain ⟨i, rfl, hi⟩ := getCtor_eq_some.mp hc
  rcases Nat.lt_or_ge d applyNodeCtors.length with hd | hd
  · rw [rules_of_lt hd, rules_of_lt hd, if_neg (by omega)]
    rfl
  · obtain ⟨j, rfl⟩ := Nat.exists_eq_add_of_le hd
    rw [pushRule, place_eq_some.mpr rfl, rules, rules, nodeCtor_add, nodeCtor_add]
    dsimp only
    rw [List.getElem?_modify]
    by_cases hij : i = j
    · subst hij
      simp [hi]
    · rw [if_neg (by omega)]
      simp [hij]

@[simp] theorem pushRule_functions : (pushRule P c rule).functions = P.functions := by
  unfold pushRule
  split <;> rfl

theorem isSome_getCtor_pushRule :
    (getCtor (pushRule P c rule) d).isSome = (getCtor P d).isSome := by
  unfold getCtor
  cases hd : place d with
  | none => rfl
  | some j =>
    unfold pushRule
    split
    · rfl
    · rename_i i hi
      rw [Option.bind_some, Option.bind_some]
      dsimp only
      rw [List.getElem?_modify, Option.map_eq_map, Option.isSome_map]

/-- Tables and functions are added to. -/
structure Extends (P P' : Program) : Prop where
  rules : ∀ c, rules P c <+: rules P' c
  functions : P.functions.length ≤ P'.functions.length

namespace Extends

theorem refl (P : Program) : Extends P P := ⟨fun _ => List.prefix_refl _, le_rfl⟩

theorem trans (h : Extends P P') (h' : Extends P' P'') : Extends P P'' :=
  ⟨fun c => (h.rules c).trans (h'.rules c), h.functions.trans h'.functions⟩

theorem pushRule (h : (getCtor P c).isSome) : Extends P (pushRule P c rule) := by
  constructor
  · intro d
    rw [rules_pushRule h]
    exact List.prefix_append _ _
  · rw [pushRule_functions]

end Extends

/-- The tables stay as they are, and no function is lost. -/
structure Keeps (P P' : Program) : Prop where
  rules : ∀ c, rules P' c = rules P c
  functions : P.functions.length ≤ P'.functions.length

namespace Keeps

theorem refl (P : Program) : Keeps P P := ⟨fun _ => rfl, le_rfl⟩

theorem extended (h : Keeps P P') : Extends P P' :=
  ⟨fun c => h.rules c ▸ List.prefix_refl _, h.functions⟩

end Keeps

def Stmt.patternExpList : Stmt → Option (List Exp)
  | .defineRule patternExp _ => (translatePatternTree patternExp).toOption
  | .defineRuleStar patternExpList _ => some patternExpList
  | _ => none

def patternCtor (valueHash : ValueHash) : Exp → Option ℕ
  | .ap (.var name) _ => match modFind valueHash name with
    | some (.nodeCtor c) => some c
    | _ => none
  | _ => none

def Stmt.pair (valueHash : ValueHash) (stmt : Stmt) : Option (ℕ × ℕ) :=
  match stmt.patternExpList with
  | some [left, right] => do
    let c ← patternCtor valueHash left
    let d ← patternCtor valueHash right
    return (c, d)
  | _ => none

/-- What an accepted rule does: it is put into the tables of two ctors. -/
structure Installs (P P' : Program) (valueHash : ValueHash) (stmt : Stmt) (c d c' d' : ℕ)
    (function : Function) : Prop where
  pair : stmt.pair valueHash = some (c, d)
  leftCtor : (getCtor P c).isSome
  rightCtor : (getCtor P d).isSome
  left : modFind valueHash (ctorName P c) = some (.nodeCtor c')
  right : modFind valueHash (ctorName P d) = some (.nodeCtor d')
  left_isSome : (getCtor P c').isSome
  right_isSome : (getCtor P d').isSome
  eq : P' = pushRule (pushRule { P with functions := P.functions ++ [function] } c'
    ⟨c, d, P.functions.length⟩) d' ⟨c, d, P.functions.length⟩

theorem asNodeCtor_eq_ok {value : Option Value} (h : asNodeCtor P value = .ok (c, ctor)) :
    value = some (.nodeCtor c) ∧ getCtor P c = some ctor := by
  unfold asNodeCtor at h
  split at h
  · split at h
    · cases h
      exact ⟨rfl, ‹_›⟩
    · cases h
  · cases h

theorem buildNodePattern_eq_ok {patternExp : Exp} {pattern : NodePattern}
    (h : buildNodePattern P valueHash patternExp = .ok pattern) :
    patternCtor valueHash patternExp = some pattern.ctor ∧ (getCtor P pattern.ctor).isSome ∧
      pattern.name = ctorName P pattern.ctor := by
  unfold buildNodePattern at h
  split at h
  · split at h
    · cases h
    · rename_i value hv
      obtain ⟨⟨c, ctor⟩, hc, h⟩ := Outcome.of_bind_eq_ok h
      obtain ⟨entries, -, h⟩ := Outcome.of_bind_eq_ok h
      cases h
      obtain ⟨he, hctor⟩ := asNodeCtor_eq_ok hc
      obtain rfl := Option.some.inj he
      simp [patternCtor, hv, ctorName, hctor]
  · cases h

theorem defineRule_eq_ok (h : defineRule P valueHash name rule = .ok P') :
    ∃ c, modFind valueHash name = some (.nodeCtor c) ∧ (getCtor P c).isSome ∧
      P' = pushRule P c rule := by
  obtain ⟨⟨c, ctor⟩, hc, h⟩ := Outcome.of_bind_eq_ok h
  cases h
  obtain ⟨hv, hctor⟩ := asNodeCtor_eq_ok hc
  exact ⟨c, hv, by rw [hctor]; rfl, rfl⟩

theorem buildNodePatternList_eq_pair {patternExpList : List Exp} {left right : NodePattern}
    (h : buildNodePatternList P valueHash patternExpList = .ok [left, right]) :
    ∃ leftExp rightExp, patternExpList = [leftExp, rightExp] ∧
      buildNodePattern P valueHash leftExp = .ok left ∧
      buildNodePattern P valueHash rightExp = .ok right := by
  match patternExpList with
  | [] => cases h
  | [leftExp] =>
    obtain ⟨pattern, -, h⟩ := Outcome.of_bind_eq_ok h
    cases h
  | leftExp :: rightExp :: patternExpList =>
    obtain ⟨pattern, hl, h⟩ := Outcome.of_bind_eq_ok h
    obtain ⟨patternList, hr, h⟩ := Outcome.of_bind_eq_ok h
    cases h
    obtain ⟨pattern, hr', h⟩ := Outcome.of_bind_eq_ok hr
    obtain ⟨patternList, hl', h⟩ := Outcome.of_bind_eq_ok h
    cases h
    cases patternExpList with
    | nil => exact ⟨leftExp, rightExp, rfl, hl, hr'⟩
    | cons patternExp patternExpList =>
      obtain ⟨pattern, -, h⟩ := Outcome.of_bind_eq_ok hl'
      obtain ⟨patternList, -, h⟩ := Outcome.of_bind_eq_ok h
      cases h

theorem executeRule_eq_none {stmt : Stmt} {patternExpList : Except Error (List Exp)}
    {expList : List Exp} (hs : stmt.patternExpList = patternExpList.toOption)
    (h : executeRule P valueHash patternExpList expList = (P', none)) :
    ∃ c d c' d' function, Installs P P' valueHash stmt c d c' d' function := by
  unfold executeRule at h
  split at h
  · cases h
  · rename_i patternList hb
    obtain ⟨l, hl, hb⟩ := Outcome.of_bind_eq_ok hb
    unfold defineRuleStar at h
    split at h
    · rename_i left right _
      obtain ⟨leftExp, rightExp, rfl, hleft, hright⟩ := buildNodePatternList_eq_pair hb
      split at h
      · cases h
      · rename_i function _
        unfold defineRules at h
        dsimp only at h
        split at h
        · cases h
        · rename_i P₁ h₁
          split at h
          · cases h
          · rename_i P₂ h₂
            cases h
            obtain ⟨hc, hcs, hn⟩ := buildNodePattern_eq_ok hleft
            obtain ⟨hd, hds, hm⟩ := buildNodePattern_eq_ok hright
            obtain ⟨c', hv, hs', rfl⟩ := defineRule_eq_ok h₁
            obtain ⟨d', hv', hs'', rfl⟩ := defineRule_eq_ok h₂
            refine ⟨left.ctor, right.ctor, c', d', function, ?_, hcs, hds, ?_, ?_, ?_, ?_, rfl⟩
            · rw [Stmt.pair, hs, hl]
              simp [Except.toOption, hc, hd]
            · rw [← hn, hv]
            · rw [← hm, hv']
            · exact hs'
            · rwa [isSome_getCtor_pushRule] at hs''
    · cases h

section

variable {N : Type} {R : Runtime N} {w w' : World N} {valueHash' : ValueHash} {stmt : Stmt}

theorem executeOther_keeps (h : executeOther R w valueHash stmt = .ok (w', valueHash')) :
    Keeps w.program w'.program := by
  unfold executeOther at h
  split at h
  · obtain ⟨net, -, h⟩ := Outcome.of_bind_eq_ok h
    obtain ⟨⟨net', value⟩, -, h⟩ := Outcome.of_bind_eq_ok h
    obtain ⟨hash, -, h⟩ := Outcome.of_bind_eq_ok h
    cases h
    exact .refl _
  · split at h
    · cases h
    · obtain ⟨hash, -, h⟩ := Outcome.of_bind_eq_ok h
      cases h
      exact ⟨rules_congr rfl, by simp⟩
  · obtain ⟨⟨P, hash⟩, hd, h⟩ := Outcome.of_bind_eq_ok h
    cases h
    obtain ⟨hash, -, hd⟩ := Outcome.of_bind_eq_ok hd
    cases hd
    exact ⟨rules_addCtor rfl rfl, le_rfl⟩
  · obtain ⟨net, -, h⟩ := Outcome.of_bind_eq_ok h
    cases h
    exact .refl _
  · cases h
    exact .refl _

theorem of_executeOther (h : (match executeOther R w valueHash stmt with
    | .error e => (w, valueHash, some e)
    | .ok (w, valueHash) => (w, valueHash, none)) = (w', valueHash', none)) :
    executeOther R w valueHash stmt = .ok (w', valueHash') := by
  split at h
  · cases h
  · rename_i ho
    cases h
    exact ho

theorem execute_cases (h : execute R w valueHash stmt = (w', valueHash', none)) :
    (stmt.pair valueHash = none ∧ Keeps w.program w'.program) ∨
    ∃ c d c' d' function, Installs w.program w'.program valueHash stmt c d c' d' function := by
  cases stmt with
  | defineRule patternExp expList =>
    obtain ⟨hw, h⟩ := Prod.mk.inj h
    obtain ⟨-, he⟩ := Prod.mk.inj h
    have hs : (Stmt.defineRule patternExp expList).patternExpList =
        (translatePatternTree patternExp).toOption := rfl
    exact .inr (executeRule_eq_none hs (Prod.ext (congrArg World.program hw) he))
  | defineRuleStar patternExpList expList =>
    obtain ⟨hw, h⟩ := Prod.mk.inj h
    obtain ⟨-, he⟩ := Prod.mk.inj h
    have hs : (Stmt.defineRuleStar patternExpList expList).patternExpList =
        (.ok patternExpList : Except Error _).toOption := rfl
    exact .inr (executeRule_eq_none hs (Prod.ext (congrArg World.program hw) he))
  | define name exp => exact .inl ⟨rfl, executeOther_keeps (of_executeOther h)⟩
  | defineFunction name argNameList expList =>
    exact .inl ⟨rfl, executeOther_keeps (of_executeOther h)⟩
  | defineNode name portNameList => exact .inl ⟨rfl, executeOther_keeps (of_executeOther h)⟩
  | runExp exp => exact .inl ⟨rfl, executeOther_keeps (of_executeOther h)⟩

end

end InetLisp.Define
