import InetLisp.Lang.ActivePair
import InetLisp.Lang.RuleRun

/-! # A rule at its ctors

The names in the patterns lead to the two ctors that a rule is for, and the names with
which these were defined lead to the two tables that it is put into. Aliases and imports can
tell them apart.
-/

namespace InetLisp.Define

open Lib

/-- The rule of the next statement; its function is new. -/
def newRule (P : Program) (c d : ℕ) : Rule := ⟨c, d, P.functions.length⟩

/-- `connect_active_pair` creates a task with the rule for these ctors. -/
def Finds (P : Program) (rule : Rule) (c d : ℕ) : Prop :=
  ∀ (net : Net) (left right : ℕ) (l r : PrincipalWire), ActivePair net left right l r c d →
    ∃ net' task, connectActivePair P net left right = .ok (net', some task) ∧
      (task = .activePair left right rule ∨ task = .activePair right left rule)

/-- In the module, the names of the two ctors stand for them. -/
def OwnNames (valueHash : ValueHash) (P : Program) (c d : ℕ) : Prop :=
  (modFind valueHash (ctorName P c) = some (.nodeCtor c) ∧
    modFind valueHash (ctorName P d) = some (.nodeCtor d)) ∨
  (modFind valueHash (ctorName P c) = some (.nodeCtor d) ∧
    modFind valueHash (ctorName P d) = some (.nodeCtor c))

/-- The step from the first state to the second puts the new rule into the tables of its two
ctors and into no other, and from then on it is found for them if no rule was found before. -/
structure ReachesCtors {N F : Type} (E : Load.Env F Stmt (World N) Value Error)
    (t u : Loading N F) (c d : ℕ) : Prop where
  tables : ∀ e, newRule t.world.program c d ∈ rules u.world.program e ↔ e = c ∨ e = d
  found : (∀ left right, findRule t.world.program left right c d = none) →
    ∀ v, Load.Reaches E u v → Finds v.world.program (newRule t.world.program c d) c d ∧
      Finds v.world.program (newRule t.world.program c d) d c

section

variable {P P' : Program} {c d c' d' e : ℕ} {rule : Rule} {valueHash : ValueHash} {stmt : Stmt}
  {function : Function} {l₁ l₂ : List Rule}

theorem finds_of_append (hr : rules P c = l₁ ++ rule :: l₂) (hl : ∀ rule ∈ l₁, ¬ IsFor rule c d)
    (h : IsFor rule c d) : Finds P rule c d := by
  intro net left right l r ha
  have hf : findRule P left right c d = ruleMatch left right c d rule := findRule_of_append hr hl h
  have hm : ruleMatch left right c d rule = some (.activePair left right rule) ∨
      ruleMatch left right c d rule = some (.activePair right left rule) := ruleMatch_of_isFor h
  rcases hm with hm | hm
  · exact ⟨_, _, by rw [ha.connect, hf, hm], .inl rfl⟩
  · exact ⟨_, _, by rw [ha.connect, hf, hm], .inr rfl⟩

namespace Installs

variable (h : Installs P P' valueHash stmt c d c' d' function)

include h

theorem newRule_mem (hP : Compiled P) : newRule P c d ∈ Define.rules P' e ↔ e = c' ∨ e = d' := by
  rw [h.mem_rules]
  constructor
  · rintro (hr | ⟨-, he⟩)
    · exact absurd (hP e _ hr) (lt_irrefl _)
    · exact he
  · exact fun he => .inr ⟨rfl, he⟩

theorem exists_rules_eq (he : e = c' ∨ e = d') :
    ∃ l, Define.rules P' e = Define.rules P e ++ newRule P c d :: l := by
  rw [h.rules]
  by_cases hc : e = c'
  · rw [if_pos hc, List.append_assoc]
    exact ⟨_, rfl⟩
  · rw [if_neg hc, if_pos (he.resolve_left hc), List.append_nil]
    exact ⟨[], rfl⟩

/-- With names of their own, the ctors that the rule is put into are the two that it is for. -/
theorem eq_of_ownNames (hn : OwnNames valueHash P c d) : c' = c ∧ d' = d ∨ c' = d ∧ d' = c := by
  simp only [OwnNames, h.left, h.right, Option.some.injEq, Value.nodeCtor.injEq] at hn
  exact hn

theorem ownNames_iff (hP : Compiled P) :
    OwnNames valueHash P c d ↔ ∀ e, newRule P c d ∈ Define.rules P' e ↔ e = c ∨ e = d := by
  simp only [h.newRule_mem hP, OwnNames, h.left, h.right, Option.some.injEq, Value.nodeCtor.injEq]
  constructor
  · rintro (⟨rfl, rfl⟩ | ⟨rfl, rfl⟩) e
    · exact Iff.rfl
    · exact or_comm
  · intro he
    have hc := (he c').mp (.inl rfl)
    have hd := (he d').mp (.inr rfl)
    have hc' := (he c).mpr (.inl rfl)
    have hd' := (he d).mpr (.inr rfl)
    omega

end Installs

end

section

variable {N F : Type} {R : Runtime N} {prelude : List PrimitiveDef} {fileOpen : Text → Option F}
  {parse : F → Option (List (Load.Stmt Stmt))} {t u v : Loading N F} {c d : ℕ}
  {valueHash : ValueHash} {stmt : Stmt} {net : N} {arguments : List Path}

theorem exists_installs (hn : Next Load.State.more (Load.step (env R prelude fileOpen parse)) t u)
    (hs : t.stmt = some (valueHash, stmt)) (hp : stmt.pair valueHash = some (c, d)) :
    ∃ c' d' function,
      Installs t.world.program u.world.program valueHash stmt c d c' d' function := by
  rcases next_cases hn with ⟨hnone, -⟩ | ⟨valueHash', stmt', c₀, d₀, c', d', function, hs', hi⟩
  · rw [nextPair, hs] at hnone
    exact absurd (hp.symm.trans hnone) (by simp)
  · obtain ⟨rfl, rfl⟩ := Prod.mk.inj (Option.some.inj (hs.symm.trans hs'))
    obtain ⟨rfl, rfl⟩ := Prod.mk.inj (Option.some.inj (hp.symm.trans hi.pair))
    exact ⟨c', d', function, hi⟩

/-- A rule that comes first for its ctors is found from then on. -/
theorem finds_of_reaches {l : List Rule} {rule : Rule}
    (h : Load.Reaches (env R prelude fileOpen parse) u v)
    (hr : rules u.world.program c = rules t.world.program c ++ rule :: l)
    (hnone : ∀ rule ∈ rules t.world.program c, ¬ IsFor rule c d) (hf : IsFor rule c d) :
    Finds v.world.program rule c d := by
  obtain ⟨l', hl'⟩ := (reaches_extends h).rules c
  rw [hr, List.append_assoc, List.cons_append] at hl'
  exact finds_of_append hl'.symm hnone hf

/-- An accepted rule gets to the ctors of its patterns exactly when their own names stand for
them in the module. -/
theorem reachesCtors_iff
    (ht : Load.Reaches (env R prelude fileOpen parse) (.start ⟨{}, net⟩ arguments) t)
    (hn : Next Load.State.more (Load.step (env R prelude fileOpen parse)) t u)
    (hs : t.stmt = some (valueHash, stmt)) (hp : stmt.pair valueHash = some (c, d)) :
    ReachesCtors (env R prelude fileOpen parse) t u c d ↔
      OwnNames valueHash t.world.program c d := by
  obtain ⟨c', d', function, hi⟩ := exists_installs hn hs hp
  have hP := reaches_compiled ht
  rw [hi.ownNames_iff hP]
  constructor
  · exact fun h => h.tables
  · intro he
    refine ⟨he, fun hnone v hv => ?_⟩
    obtain ⟨hc, hd⟩ := findRule_eq_none.mp (hnone 0 0)
    obtain ⟨l, hl⟩ := hi.exists_rules_eq ((hi.newRule_mem hP).mp ((he c).mpr (.inl rfl)))
    obtain ⟨l', hl'⟩ := hi.exists_rules_eq ((hi.newRule_mem hP).mp ((he d).mpr (.inr rfl)))
    constructor
    · exact finds_of_reaches hv hl hc (.inl ⟨rfl, rfl⟩)
    · exact finds_of_reaches hv hl' (fun rule hr => isFor_comm.not.mp (hd rule hr))
        (.inr ⟨rfl, rfl⟩)

end

/-- A rule for an imported ctor, under another name, and one of the module. The name that the
imported ctor was defined with is imported too. -/
def ruleFiles : Files := [
  ("/a".toList, [.stmtOther (.defineNode "y" ["value!", "rest"])]),
  ("/m".toList, [.stmtImport ["y".toList] (Path.new "a".toList),
    .stmtOther (.define "x" (.var "y")), .stmtOther (.defineNode "z" ["value!"]),
    .stmtOther (.defineRuleStar [.ap (.var "x") [.var "!", .var "rest"], .ap (.var "z") [.var "!"]]
      [.var "rest"])])]

theorem reachesCtors_ruleFiles :
    ReachesCtors ruleFiles.env (ruleFiles.after "/m" 7) (ruleFiles.after "/m" 8) 4 5 := by
  have hr : Load.Reaches ruleFiles.env (Files.start "/m") (ruleFiles.after "/m" 7) :=
    Files.reaches (by decide)
  have hn : Next Load.State.more (Load.step ruleFiles.env) (ruleFiles.after "/m" 7)
      (ruleFiles.after "/m" 8) := ⟨rfl, rfl⟩
  exact (reachesCtors_iff hr hn rfl rfl).mpr (.inl ⟨rfl, rfl⟩)

/-- A ctor is imported under another name, and the module has one of its own with the name
that the imported ctor was defined with. -/
def aliasFiles : Files := [
  ("/a".toList, [.stmtOther (.defineNode "y" ["value!"]), .stmtOther (.define "x" (.var "y"))]),
  ("/m".toList, [.stmtImport ["x".toList] (Path.new "a".toList),
    .stmtOther (.defineNode "y" ["value!"]),
    .stmtOther (.defineRuleStar [.ap (.var "x") [.var "!"], .ap (.var "x") [.var "!"]] [])])]

/-- The rule for the imported ctor gets to the other one. -/
theorem not_reachesCtors : ¬ ∀ (N F : Type) (R : Runtime N) (prelude : List PrimitiveDef)
    (fileOpen : Text → Option F) (parse : F → Option (List (Load.Stmt Stmt))) (net : N)
    (arguments : List Path) (t u : Loading N F) (valueHash : ValueHash) (stmt : Stmt) (c d : ℕ),
    Load.Reaches (env R prelude fileOpen parse) (.start ⟨{}, net⟩ arguments) t →
    Next Load.State.more (Load.step (env R prelude fileOpen parse)) t u →
    t.stmt = some (valueHash, stmt) → stmt.pair valueHash = some (c, d) →
    ReachesCtors (env R prelude fileOpen parse) t u c d := by
  intro h
  have hr : Load.Reaches aliasFiles.env (Files.start "/m") (aliasFiles.after "/m" 7) :=
    Files.reaches (by decide)
  have hn : Next Load.State.more (Load.step aliasFiles.env) (aliasFiles.after "/m" 7)
      (aliasFiles.after "/m" 8) := ⟨rfl, rfl⟩
  have ht := (h _ _ _ _ _ _ _ _ _ _ _ _ 4 4 hr hn rfl rfl).tables 4
  exact absurd (ht.mpr (.inl rfl)) (by decide)

end InetLisp.Define
