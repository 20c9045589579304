import InetLisp.Lang.RuleReach
import InetLisp.Lang.Scope

/-! # The shape of patterns

A pattern fits its ctor if it has one name for each port, with `!` exactly where the port is
principal. Nothing checks this: names beyond the arity are written out of bounds, and a port
that has got no name is read as `NULL`.
-/

namespace InetLisp.Define

open Lib

/-- The names before the first argument that is no name. -/
def leading : List Exp → List String
  | .var name :: argList => name :: leading argList
  | _ => []

def IsNames (argList : List Exp) : Prop := (leading argList).length = argList.length

instance (argList : List Exp) : Decidable (IsNames argList) :=
  inferInstanceAs (Decidable (_ = _))

def isMarked (name : String) : Bool := (PortInfo.fromName name).isPrincipal

/-- The arguments are names, one for each port and with its mark. -/
def Fits (ctor : NodeCtor) (argList : List Exp) : Prop :=
  IsNames argList ∧ (leading argList).map isMarked = ctor.portInfos.map PortInfo.isPrincipal

/-- Every port of the pattern has a name with its mark. -/
def NodePattern.Complete (pattern : NodePattern) (ctor : NodeCtor) : Prop :=
  pattern.portInfos.map (Option.map PortInfo.isPrincipal) =
    ctor.portInfos.map (some ∘ PortInfo.isPrincipal)

def entry (portInfo : PortInfo) (name : String) : Option PortInfo :=
  if isMarked name = portInfo.isPrincipal then some (.fromName name) else none

def entries : List PortInfo → List String → List (Option PortInfo)
  | [], _ => []
  | portInfos, [] => portInfos.map fun _ => none
  | portInfo :: portInfos, name :: names => entry portInfo name :: entries portInfos names

def patternArgs : Exp → List Exp
  | .ap _ argList => argList
  | _ => []

def Stmt.expList : Stmt → List Exp
  | .defineRule _ expList => expList
  | .defineRuleStar _ expList => expList
  | _ => []

/-- The body of a rule, which begins with the names of the ports that are not principal. -/
def ruleBody (valueHash : ValueHash) (left right : List Exp) (expList : List Exp) : Body where
  find := modFind valueHash
  nameList := (leading left).filter (fun name => !isMarked name) ++
    (leading right).filter fun name => !isMarked name
  expList := expList

/-- In the module, the name is that of a ctor. -/
def Named (P : Program) (valueHash : ValueHash) (name : String) : Prop :=
  ∃ c, modFind valueHash name = some (.nodeCtor c) ∧ (getCtor P c).isSome

/-- What has to hold of two patterns and a body for the rule to be defined. -/
structure Acceptable (P : Program) (valueHash : ValueHash) (left right : NodeCtor)
    (leftArgs rightArgs expList : List Exp) : Prop where
  leftFits : Fits left leftArgs
  rightFits : Fits right rightArgs
  body : (ruleBody valueHash leftArgs rightArgs expList).Scoped
  leftName : Named P valueHash left.name
  rightName : Named P valueHash right.name

/-- Nothing goes wrong unseen: as far as the arguments are names, there are not more than
ports; names alone have the marks of the ports; and if the body is in scope, then the name of the
right ctor is that of a ctor if the name of the left one is. -/
def Safe (P : Program) (valueHash : ValueHash) (left right : NodeCtor)
    (leftArgs rightArgs expList : List Exp) : Prop :=
  (leading leftArgs).length ≤ left.arity ∧ (IsNames leftArgs →
    (leading rightArgs).length ≤ right.arity ∧ (IsNames rightArgs →
      Fits left leftArgs ∧ Fits right rightArgs ∧
        ((ruleBody valueHash leftArgs rightArgs expList).Scoped →
          Named P valueHash left.name → Named P valueHash right.name)))

/-- The statement has installed a rule with names for all ports, or it was rejected before. -/
def InstallsOrRejects (P : Program) (valueHash : ValueHash) (stmt : Stmt) (c d : ℕ)
    (left right : NodeCtor) (P' : Program) : Option Error → Prop
  | none => (∃ e l, rules P' e = rules P e ++ newRule P c d :: l) ∧
    ∃ patternExpList leftPattern rightPattern, stmt.patternExpList = some patternExpList ∧
      buildNodePatternList P valueHash patternExpList = .ok [leftPattern, rightPattern] ∧
      leftPattern.Complete left ∧ rightPattern.Complete right
  | some e => e.Reported ∧ ∀ c, rules P' c = rules P c

variable {P : Program} {valueHash : ValueHash} {argList rest : List Exp} {names : List String}
  {portInfos before after : List PortInfo} {done : List (Option PortInfo)} {i : ℕ} {ctor : NodeCtor}
  {patternExp : Exp}

theorem leading_append (argList : List Exp) : ∃ rest,
    argList = (leading argList).map Exp.var ++ rest ∧ ∀ name rest', rest ≠ .var name :: rest' := by
  induction argList with
  | nil => exact ⟨[], rfl, by simp⟩
  | cons arg argList ih =>
    cases arg with
    | var name =>
      obtain ⟨rest, he, hr⟩ := ih
      exact ⟨rest, congrArg (Exp.var name :: ·) he, hr⟩
    | _ => exact ⟨_, rfl, by simp⟩

/-! ### Setting the entries -/

/-- The names before the first argument that is no name set entries, as long as there are ports. -/
theorem setPortInfos_names (hd : done.length = before.length) :
    setPortInfos (before ++ after) before.length (names.map Exp.var ++ rest)
        (done ++ after.map fun _ => none) =
      if names.length ≤ after.length then
        setPortInfos (before ++ after) (before.length + names.length) rest
          (done ++ entries after names)
      else .error .outOfBounds := by
  induction names generalizing before after done with
  | nil =>
    cases after <;> simp [entries]
  | cons name names ih =>
    cases after with
    | nil => simp [setPortInfos]
    | cons portInfo after =>
      have hb : before ++ portInfo :: after = (before ++ [portInfo]) ++ after := by simp
      have hl : (before ++ portInfo :: after)[before.length]? = some portInfo := by simp
      have hd' : (done ++ [entry portInfo name]).length = (before ++ [portInfo]).length := by
        simp [hd]
      have hi : setPortInfos (before ++ [portInfo] ++ after) (before ++ [portInfo]).length
            (names.map Exp.var ++ rest)
            (done ++ [entry portInfo name] ++ after.map fun _ => none) = _ := ih hd'
      rw [List.length_append, List.length_singleton, ← hb, List.append_assoc] at hi
      have he : (if (PortInfo.fromName name).isPrincipal ≠ portInfo.isPrincipal then
            done ++ (portInfo :: after).map fun _ => none
          else (done ++ (portInfo :: after).map fun _ => none).set before.length
            (some (.fromName name))) =
          done ++ ([entry portInfo name] ++ after.map fun _ => none) := by
        by_cases hm : (PortInfo.fromName name).isPrincipal = portInfo.isPrincipal
        · rw [if_neg (not_not.mpr hm), entry, isMarked, if_pos hm, ← hd]
          simp
        · rw [if_pos hm, entry, isMarked, if_neg hm]
          rfl
      rw [List.map_cons, List.cons_append, setPortInfos, hl]
      dsimp only
      rw [← apply_ite (setPortInfos (before ++ portInfo :: after) (before.length + 1)
        (names.map Exp.var ++ rest)), he, hi]
      simp [entries, Nat.add_comm, Nat.add_left_comm]

theorem setPortInfos_eq (ctor : NodeCtor) (argList : List Exp) :
    setPortInfos ctor.portInfos 0 argList (List.replicate ctor.arity none) =
      if (leading argList).length ≤ ctor.arity then
        if IsNames argList then .ok (entries ctor.portInfos (leading argList))
        else .error .assertion
      else .error .outOfBounds := by
  obtain ⟨rest, he, hr⟩ := leading_append argList
  have hs : setPortInfos ([] ++ ctor.portInfos) 0 ((leading argList).map Exp.var ++ rest)
        ([] ++ ctor.portInfos.map fun _ => none) =
      if (leading argList).length ≤ ctor.portInfos.length then
        setPortInfos ([] ++ ctor.portInfos) (0 + (leading argList).length) rest
          ([] ++ entries ctor.portInfos (leading argList))
      else .error .outOfBounds := setPortInfos_names rfl
  rw [List.nil_append, List.nil_append, List.nil_append, List.map_const', ← he] at hs
  refine hs.trans (if_congr Iff.rfl ?_ rfl)
  have hl := congrArg List.length he
  rw [List.length_append, List.length_map] at hl
  cases rest with
  | nil =>
    rw [if_pos (by simpa [IsNames] using hl.symm)]
    rfl
  | cons arg rest =>
    rw [List.length_cons] at hl
    rw [if_neg (by unfold IsNames; omega)]
    cases arg with
    | var name => exact absurd rfl (hr name rest)
    | _ => rfl

theorem patternCtor_eq_some {c : ℕ} (h : patternCtor valueHash patternExp = some c) :
    ∃ name argList, patternExp = .ap (.var name) argList ∧
      modFind valueHash name = some (.nodeCtor c) := by
  unfold patternCtor at h
  split at h
  · split at h
    · cases h
      exact ⟨_, _, rfl, ‹_›⟩
    · cases h
  · cases h

theorem buildNodePattern_eq {c : ℕ} {name : String}
    (hf : modFind valueHash name = some (.nodeCtor c)) (hc : getCtor P c = some ctor) :
    buildNodePattern P valueHash (.ap (.var name) argList) =
      if (leading argList).length ≤ ctor.arity then
        if IsNames argList then .ok ⟨c, ctor.name, entries ctor.portInfos (leading argList)⟩
        else .error .assertion
      else .error .outOfBounds := by
  rw [buildNodePattern, hf]
  simp only [asNodeCtor, hc, Outcome.ok_bind, setPortInfos_eq]
  by_cases hl : (leading argList).length ≤ ctor.arity
  · by_cases hn : IsNames argList
    · simp only [if_pos hl, if_pos hn]
      rfl
    · simp only [if_pos hl, if_neg hn]
      rfl
  · simp only [if_neg hl]
    rfl

/-! ### Reading the entries -/

theorem fromName_of_not_isMarked {name : String} (h : isMarked name = false) :
    PortInfo.fromName name = ⟨name, false⟩ := by
  unfold isMarked PortInfo.fromName at *
  split
  · rw [if_pos ‹_›] at h
    cases h
  · rfl

theorem localNameList_entries
    (h : names.map isMarked = portInfos.map PortInfo.isPrincipal) :
    localNameList (entries portInfos names) = .ok (names.filter fun name => !isMarked name) := by
  induction portInfos generalizing names with
  | nil =>
    obtain rfl := List.map_eq_nil_iff.mp h
    rfl
  | cons portInfo portInfos ih =>
    cases names with
    | nil => cases h
    | cons name names =>
      obtain ⟨hm, h⟩ := List.cons.inj h
      rw [entries, entry, if_pos hm, localNameList, ih h, Outcome.ok_bind]
      cases hn : isMarked name with
      | true =>
        have : (PortInfo.fromName name).isPrincipal = true := hn
        simp [this, hn, pure, Except.pure]
      | false => simp [fromName_of_not_isMarked hn, hn, pure, Except.pure]

/-- A port without a name is read as `NULL`. -/
theorem localNameList_entries_of_ne (hl : names.length ≤ portInfos.length)
    (h : names.map isMarked ≠ portInfos.map PortInfo.isPrincipal) :
    localNameList (entries portInfos names) = .error .nullPointer := by
  induction portInfos generalizing names with
  | nil =>
    obtain rfl := List.length_eq_zero_iff.mp (Nat.le_zero.mp hl)
    exact absurd rfl h
  | cons portInfo portInfos ih =>
    cases names with
    | nil => rfl
    | cons name names =>
      rw [entries, entry]
      split
      · rename_i hm
        have hne : names.map isMarked ≠ portInfos.map PortInfo.isPrincipal := by
          intro he
          exact h (by rw [List.map_cons, List.map_cons, hm, he])
        rw [localNameList, ih (Nat.le_of_succ_le_succ hl) hne]
        rfl
      · rfl

theorem complete_entries {c : ℕ} {name : String}
    (h : names.map isMarked = ctor.portInfos.map PortInfo.isPrincipal) :
    (⟨c, name, entries ctor.portInfos names⟩ : NodePattern).Complete ctor := by
  unfold NodePattern.Complete
  generalize ctor.portInfos = portInfos at *
  induction portInfos generalizing names with
  | nil => rfl
  | cons portInfo portInfos ih =>
    cases names with
    | nil => cases h
    | cons n names =>
      obtain ⟨hm, h⟩ := List.cons.inj h
      have hm' : (PortInfo.fromName n).isPrincipal = portInfo.isPrincipal := hm
      rw [entries, entry, if_pos hm, List.map_cons, List.map_cons, ih h]
      simp [hm']

/-! ### Defining the rule -/

section

variable {left right : NodeCtor} {leftArgs rightArgs expList : List Exp} {leftExp rightExp : Exp}
  {c d : ℕ} {leftName rightName name : String} {rule : Rule} {function : Function}

theorem executeRule_pair : executeRule P valueHash (.ok [leftExp, rightExp]) expList =
    match buildNodePattern P valueHash leftExp with
    | .error e => (P, some e)
    | .ok leftPattern => match buildNodePattern P valueHash rightExp with
      | .error e => (P, some e)
      | .ok rightPattern => defineRuleStar P valueHash [leftPattern, rightPattern] expList := by
  rw [executeRule, Outcome.ok_bind, buildNodePatternList, buildNodePatternList,
    buildNodePatternList]
  cases buildNodePattern P valueHash leftExp with
  | error e => rfl
  | ok leftPattern => cases buildNodePattern P valueHash rightExp <;> rfl

theorem ruleFunction_of_fits (hl : Fits left leftArgs) (hr : Fits right rightArgs) :
    ruleFunction valueHash ⟨c, leftName, entries left.portInfos (leading leftArgs)⟩
        ⟨d, rightName, entries right.portInfos (leading rightArgs)⟩ expList =
      match (ruleBody valueHash leftArgs rightArgs expList).compile with
      | .error e => .error (.undefinedName e.name)
      | .ok function => .ok function := by
  rw [ruleFunction, localNameList_entries hl.2, localNameList_entries hr.2]
  rfl

theorem ruleFunction_of_not_fits (hl : (leading leftArgs).length ≤ left.arity)
    (hr : (leading rightArgs).length ≤ right.arity) (hl' : IsNames leftArgs)
    (hr' : IsNames rightArgs) (h : ¬ (Fits left leftArgs ∧ Fits right rightArgs)) :
    ruleFunction valueHash ⟨c, leftName, entries left.portInfos (leading leftArgs)⟩
        ⟨d, rightName, entries right.portInfos (leading rightArgs)⟩ expList =
      .error .nullPointer := by
  by_cases hf : Fits left leftArgs
  · have hm := fun he => h ⟨hf, hr', he⟩
    rw [ruleFunction, localNameList_entries hf.2, localNameList_entries_of_ne hr hm]
    rfl
  · have hm := fun he => hf ⟨hl', he⟩
    rw [ruleFunction, localNameList_entries_of_ne hl hm]
    rfl

theorem defineRule_of_named (hf : modFind valueHash name = some (.nodeCtor c))
    (hc : (getCtor P c).isSome) : defineRule P valueHash name rule = .ok (pushRule P c rule) := by
  obtain ⟨ctor, hc⟩ := Option.isSome_iff_exists.mp hc
  simp only [defineRule, asNodeCtor, hf, hc, Outcome.ok_bind]
  rfl

theorem defineRule_of_not_named (h : ¬ Named P valueHash name) :
    defineRule P valueHash name rule = .error .assertion := by
  unfold defineRule asNodeCtor
  rcases hf : modFind valueHash name with _ | value
  · rfl
  · cases value with
    | nodeCtor c =>
      have hc : getCtor P c = none := by
        by_contra hc
        exact h ⟨c, hf, Option.isSome_iff_ne_none.mpr hc⟩
      dsimp only
      rw [hc]
      rfl
    | _ => rfl

theorem named_of_getCtor {P' : Program}
    (h : ∀ c, (getCtor P' c).isSome = (getCtor P c).isSome) :
    Named P' valueHash name ↔ Named P valueHash name := by
  simp only [Named, h]

/-- What the two calls of `define_rule` end with. -/
theorem defineRules_cases (P : Program) (valueHash : ValueHash) (leftName rightName : String)
    (rule : Rule) :
    (¬ Named P valueHash leftName ∧
      defineRules P valueHash leftName rightName rule = (P, some .assertion)) ∨
    (Named P valueHash leftName ∧ ¬ Named P valueHash rightName ∧ ∃ c, (getCtor P c).isSome ∧
      defineRules P valueHash leftName rightName rule = (pushRule P c rule, some .assertion)) ∨
    (Named P valueHash leftName ∧ Named P valueHash rightName ∧ ∃ c d, (getCtor P c).isSome ∧
      (getCtor P d).isSome ∧ defineRules P valueHash leftName rightName rule =
        (pushRule (pushRule P c rule) d rule, none)) := by
  unfold defineRules
  by_cases hl : Named P valueHash leftName
  · obtain ⟨c, hf, hc⟩ := hl
    have hn : Named (pushRule P c rule) valueHash rightName ↔ Named P valueHash rightName :=
      named_of_getCtor fun _ => isSome_getCtor_pushRule
    rw [defineRule_of_named hf hc]
    dsimp only
    by_cases hr : Named P valueHash rightName
    · obtain ⟨d, hg, hd⟩ := hr
      have hd' : (getCtor (pushRule P c rule) d).isSome := by rwa [isSome_getCtor_pushRule]
      rw [defineRule_of_named hg hd']
      exact .inr (.inr ⟨⟨c, hf, hc⟩, ⟨d, hg, hd⟩, c, d, hc, hd, rfl⟩)
    · rw [defineRule_of_not_named (hn.not.mpr hr)]
      exact .inr (.inl ⟨⟨c, hf, hc⟩, hr, c, hc, rfl⟩)
  · rw [defineRule_of_not_named hl]
    exact .inl ⟨hl, rfl⟩

end

section

variable {N : Type} {R : Runtime N} {w w' : World N} {valueHash' : ValueHash} {stmt : Stmt}
  {left right : NodeCtor} {leftExp rightExp : Exp} {e : Option Error} {c d : ℕ}
  {patternExpList : List Exp}

theorem execute_of_patternExpList (h : stmt.patternExpList = some patternExpList) :
    execute R w valueHash stmt =
      (⟨(executeRule w.program valueHash (.ok patternExpList) stmt.expList).1, w.net⟩, valueHash,
        (executeRule w.program valueHash (.ok patternExpList) stmt.expList).2) := by
  cases stmt with
  | defineRule patternExp expList =>
    rw [Stmt.patternExpList, Outcome.toOption_eq_some] at h
    rw [execute, h]
    rfl
  | defineRuleStar l expList =>
    cases h
    rfl
  | _ => cases h

theorem Fits.length_eq {ctor : NodeCtor} {argList : List Exp} (h : Fits ctor argList) :
    (leading argList).length = ctor.arity := by
  have hl := congrArg List.length h.2
  rwa [List.length_map, List.length_map] at hl

/-- A rule is installed or rejected exactly when it is safe, and it is installed exactly when it
is acceptable. -/
def Decides (P : Program) (valueHash : ValueHash) (stmt : Stmt) (c d : ℕ) (left right : NodeCtor)
    (leftArgs rightArgs expList : List Exp) (r : Program × Option Error) : Prop :=
  (InstallsOrRejects P valueHash stmt c d left right r.1 r.2 ↔
    Safe P valueHash left right leftArgs rightArgs expList) ∧
  (r.2 = none ↔ Acceptable P valueHash left right leftArgs rightArgs expList)

/-- Two patterns with names only, not more than there are ports. -/
structure Built (P : Program) (valueHash : ValueHash) (stmt : Stmt) (c d : ℕ)
    (left right : NodeCtor) (leftArgs rightArgs : List Exp) : Prop where
  leftLength : (leading leftArgs).length ≤ left.arity
  leftNames : IsNames leftArgs
  rightLength : (leading rightArgs).length ≤ right.arity
  rightNames : IsNames rightArgs
  patterns : ∃ patternExpList, stmt.patternExpList = some patternExpList ∧
    buildNodePatternList P valueHash patternExpList = .ok [
      ⟨c, left.name, entries left.portInfos (leading leftArgs)⟩,
      ⟨d, right.name, entries right.portInfos (leading rightArgs)⟩]

section

variable {P : Program} {leftArgs rightArgs expList : List Exp} {r : Program × Option Error}

theorem Built.safe_iff (h : Built P valueHash stmt c d left right leftArgs rightArgs)
    (hf : Fits left leftArgs ∧ Fits right rightArgs) :
    Safe P valueHash left right leftArgs rightArgs expList ↔
      ((ruleBody valueHash leftArgs rightArgs expList).Scoped →
        Named P valueHash left.name → Named P valueHash right.name) := by
  constructor
  · exact fun hs => ((hs.2 h.leftNames).2 h.rightNames).2.2
  · exact fun hs => ⟨h.leftLength, fun _ => ⟨h.rightLength, fun _ => ⟨hf.1, hf.2, hs⟩⟩⟩

theorem Built.decides_defineRules (h : Built P valueHash stmt c d left right leftArgs rightArgs)
    (hf : Fits left leftArgs ∧ Fits right rightArgs)
    (hb : (ruleBody valueHash leftArgs rightArgs expList).Scoped) (function : Function) :
    Decides P valueHash stmt c d left right leftArgs rightArgs expList
      (defineRules { P with functions := P.functions ++ [function] } valueHash left.name right.name
        ⟨c, d, P.functions.length⟩) := by
  have hrules (e : ℕ) : rules { P with functions := P.functions ++ [function] } e = rules P e :=
    rules_congr rfl e
  have hnamed (name : String) : Named { P with functions := P.functions ++ [function] } valueHash
      name ↔ Named P valueHash name := named_of_getCtor fun _ => rfl
  unfold Decides
  rw [h.safe_iff hf]
  rcases defineRules_cases { P with functions := P.functions ++ [function] } valueHash left.name
      right.name ⟨c, d, P.functions.length⟩ with
    ⟨hl, he⟩ | ⟨hl, hr, c', hc, he⟩ | ⟨hl, hr, c', d', hc, hd, he⟩
  · rw [he]
    rw [hnamed] at hl
    constructor
    · exact iff_of_true ⟨trivial, hrules⟩ fun _ hn => absurd hn hl
    · exact iff_of_false (by simp) fun ha => hl ha.leftName
  · rw [he]
    rw [hnamed] at hl hr
    constructor
    · refine iff_of_false ?_ fun hs => hr (hs hb hl)
      -- The rule stays in the first of the two tables.
      rintro ⟨-, hk⟩
      have := hk c'
      rw [rules_pushRule hc, hrules, if_pos rfl] at this
      simp at this
    · exact iff_of_false (by simp) fun ha => hr ha.rightName
  · rw [he]
    rw [hnamed] at hl hr
    constructor
    · refine iff_of_true ⟨⟨c', if c' = d' then [⟨c, d, P.functions.length⟩] else [], ?_⟩, ?_⟩ ?_
      · rw [rules_pushRule (by rwa [isSome_getCtor_pushRule]), rules_pushRule hc, hrules,
          if_pos rfl, List.append_assoc]
        rfl
      · obtain ⟨patternExpList, hs, hp⟩ := h.patterns
        exact ⟨_, _, _, hs, hp, complete_entries hf.1.2, complete_entries hf.2.2⟩
      · exact fun _ _ => hr
    · exact iff_of_true rfl ⟨hf.1, hf.2, hb, hl, hr⟩

theorem Built.decides_defineRuleStar
    (h : Built P valueHash stmt c d left right leftArgs rightArgs) :
    Decides P valueHash stmt c d left right leftArgs rightArgs expList
      (defineRuleStar P valueHash [⟨c, left.name, entries left.portInfos (leading leftArgs)⟩,
        ⟨d, right.name, entries right.portInfos (leading rightArgs)⟩] expList) := by
  rw [defineRuleStar]
  by_cases hf : Fits left leftArgs ∧ Fits right rightArgs
  · rw [ruleFunction_of_fits hf.1 hf.2]
    have hok := Body.compile_isOk (ruleBody valueHash leftArgs rightArgs expList)
    rcases hc : (ruleBody valueHash leftArgs rightArgs expList).compile with e | function
    · have hb : ¬ (ruleBody valueHash leftArgs rightArgs expList).Scoped := by
        rw [← hok, hc]
        rintro ⟨function, hf⟩
        cases hf
      constructor
      · rw [h.safe_iff hf]
        exact iff_of_true ⟨trivial, fun _ => rfl⟩ fun hs => absurd hs hb
      · exact iff_of_false (by simp) fun ha => hb ha.body
    · exact h.decides_defineRules hf (hok.mp ⟨function, hc⟩) function
  · rw [ruleFunction_of_not_fits h.leftLength h.rightLength h.leftNames h.rightNames hf]
    constructor
    · refine iff_of_false (fun hi => hi.1) fun hs => hf ?_
      have := (hs.2 h.leftNames).2 h.rightNames
      exact ⟨this.1, this.2.1⟩
    · exact iff_of_false (by simp) fun ha => hf ⟨ha.leftFits, ha.rightFits⟩

theorem decides_executeRule {leftName rightName : String}
    (hs : stmt.patternExpList = some [.ap (.var leftName) leftArgs, .ap (.var rightName) rightArgs])
    (hl : modFind valueHash leftName = some (.nodeCtor c))
    (hr : modFind valueHash rightName = some (.nodeCtor d))
    (hlc : getCtor P c = some left) (hrc : getCtor P d = some right) :
    Decides P valueHash stmt c d left right leftArgs rightArgs expList (executeRule P valueHash
      (.ok [.ap (.var leftName) leftArgs, .ap (.var rightName) rightArgs]) expList) := by
  have hbl : buildNodePattern P valueHash (.ap (.var leftName) leftArgs) = _ :=
    buildNodePattern_eq hl hlc
  have hbr : buildNodePattern P valueHash (.ap (.var rightName) rightArgs) = _ :=
    buildNodePattern_eq hr hrc
  rw [executeRule_pair, hbl]
  by_cases h₁ : (leading leftArgs).length ≤ left.arity
  · rw [if_pos h₁] at hbl ⊢
    by_cases h₂ : IsNames leftArgs
    · rw [if_pos h₂] at hbl ⊢
      dsimp only
      rw [hbr]
      by_cases h₃ : (leading rightArgs).length ≤ right.arity
      · rw [if_pos h₃] at hbr ⊢
        by_cases h₄ : IsNames rightArgs
        · rw [if_pos h₄] at hbr ⊢
          have hp : buildNodePatternList P valueHash
              [.ap (.var leftName) leftArgs, .ap (.var rightName) rightArgs] = .ok [
                ⟨c, left.name, entries left.portInfos (leading leftArgs)⟩,
                ⟨d, right.name, entries right.portInfos (leading rightArgs)⟩] := by
            rw [buildNodePatternList, buildNodePatternList, buildNodePatternList, hbl, hbr]
            rfl
          have hb : Built P valueHash stmt c d left right leftArgs rightArgs :=
            ⟨h₁, h₂, h₃, h₄, _, hs, hp⟩
          exact hb.decides_defineRuleStar
        · rw [if_neg h₄]
          constructor
          · exact iff_of_true ⟨trivial, fun _ => rfl⟩
              ⟨h₁, fun _ => ⟨h₃, fun hn => absurd hn h₄⟩⟩
          · exact iff_of_false (by simp) fun ha => h₄ ha.rightFits.1
      · rw [if_neg h₃]
        constructor
        · exact iff_of_false (fun hi => hi.1) fun hs => h₃ (hs.2 h₂).1
        · exact iff_of_false (by simp) fun ha => h₃ ha.rightFits.length_eq.le
    · rw [if_neg h₂]
      constructor
      · exact iff_of_true ⟨trivial, fun _ => rfl⟩ ⟨h₁, fun hn => absurd hn h₂⟩
      · exact iff_of_false (by simp) fun ha => h₂ ha.leftFits.1
  · rw [if_neg h₁]
    constructor
    · exact iff_of_false (fun hi => hi.1) fun hs => h₁ hs.1
    · exact iff_of_false (by simp) fun ha => h₁ ha.leftFits.length_eq.le

end

/-- A rule between defined ctors decides as it does in a program. -/
theorem decides_execute (he : execute R w valueHash stmt = (w', valueHash', e))
    (hs : stmt.patternExpList = some [leftExp, rightExp])
    (hl : patternCtor valueHash leftExp = some c) (hr : patternCtor valueHash rightExp = some d)
    (hlc : getCtor w.program c = some left) (hrc : getCtor w.program d = some right) :
    Decides w.program valueHash stmt c d left right (patternArgs leftExp) (patternArgs rightExp)
      stmt.expList (w'.program, e) := by
  obtain ⟨leftName, leftArgs, rfl, hf⟩ := patternCtor_eq_some hl
  obtain ⟨rightName, rightArgs, rfl, hg⟩ := patternCtor_eq_some hr
  rw [execute_of_patternExpList hs] at he
  cases he
  exact decides_executeRule hs hf hg hlc hrc

/-- A rule over defined ctors is installed with names for all ports, or rejected before anything
is installed, exactly when it is safe. -/
theorem installsOrRejects_iff (he : execute R w valueHash stmt = (w', valueHash', e))
    (hs : stmt.patternExpList = some [leftExp, rightExp])
    (hl : patternCtor valueHash leftExp = some c) (hr : patternCtor valueHash rightExp = some d)
    (hlc : getCtor w.program c = some left) (hrc : getCtor w.program d = some right) :
    InstallsOrRejects w.program valueHash stmt c d left right w'.program e ↔
      Safe w.program valueHash left right (patternArgs leftExp) (patternArgs rightExp)
        stmt.expList :=
  (decides_execute he hs hl hr hlc hrc).1

end

/-- A node with one port, which is principal. -/
def portProgram : Program := { nodeCtors := [{ name := "y", portInfos := [⟨"value", true⟩] }] }

def portHash : ValueHash := [("y".toList, .nodeCtor 4)]

theorem installsOrRejects_portProgram : ∃ w' : World (List Value),
    InstallsOrRejects portProgram portHash
      (.defineRuleStar [.ap (.var "y") [.var "!"], .ap (.var "y") [.var "!"]] []) 4 4
      { name := "y", portInfos := [⟨"value", true⟩] }
      { name := "y", portInfos := [⟨"value", true⟩] } w'.program none := by
  have he : execute lookupRuntime ⟨portProgram, []⟩ portHash
      (.defineRuleStar [.ap (.var "y") [.var "!"], .ap (.var "y") [.var "!"]] []) =
    (_, _, none) := rfl
  refine ⟨_, (installsOrRejects_iff he rfl rfl rfl rfl rfl).mpr ?_⟩
  exact ⟨Nat.le_refl 1, fun _ => ⟨Nat.le_refl 1, fun _ => ⟨⟨rfl, rfl⟩, ⟨rfl, rfl⟩, fun _ => id⟩⟩⟩

/-- A pattern without arguments is read as if it had one. -/
theorem not_installsOrRejects : ¬ ∀ (N : Type) (R : Runtime N) (w w' : World N)
    (valueHash valueHash' : ValueHash) (stmt : Stmt) (e : Option Error) (leftExp rightExp : Exp)
    (c d : ℕ) (left right : NodeCtor), execute R w valueHash stmt = (w', valueHash', e) →
    stmt.patternExpList = some [leftExp, rightExp] → patternCtor valueHash leftExp = some c →
    patternCtor valueHash rightExp = some d → getCtor w.program c = some left →
    getCtor w.program d = some right →
    InstallsOrRejects w.program valueHash stmt c d left right w'.program e := by
  intro h
  have he : execute lookupRuntime ⟨portProgram, []⟩ portHash
      (.defineRuleStar [.ap (.var "y") [], .ap (.var "y") [.var "!"]] []) =
    (_, _, some .nullPointer) := rfl
  exact (h _ _ _ _ _ _ _ _ _ _ _ _ _ _ he rfl rfl rfl rfl rfl).1

end InetLisp.Define
