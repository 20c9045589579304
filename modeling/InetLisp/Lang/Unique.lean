import InetLisp.Lang.Pattern

/-! # One rule for two ctors

Nothing looks for a rule that is there already, so two rules that can be defined for the
same two ctors are both defined, whatever modules they stand in.
-/

namespace InetLisp.Define

open Lib

/-- For two ctors there is at most one rule in all tables. -/
def AtMostOne (P : Program) : Prop :=
  ∀ c d e e', ∀ rule ∈ rules P e, ∀ rule' ∈ rules P e', IsFor rule c d → IsFor rule' c d →
    rule = rule'

/-- The next statement is a rule that can be defined, and its ctors have one already. -/
structure Repeats {N F : Type} (t : Loading N F) (valueHash : ValueHash) (stmt : Stmt)
    (leftExp rightExp : Exp) (c d : ℕ) (left right : NodeCtor) : Prop where
  next : t.stmt = some (valueHash, stmt)
  patterns : stmt.patternExpList = some [leftExp, rightExp]
  leftCtor : patternCtor valueHash leftExp = some c
  rightCtor : patternCtor valueHash rightExp = some d
  leftDefined : getCtor t.world.program c = some left
  rightDefined : getCtor t.world.program d = some right
  acceptable : Acceptable t.world.program valueHash left right (patternArgs leftExp)
    (patternArgs rightExp) stmt.expList
  hasRule : HasRule t.world.program c d

variable {P P' : Program} {c d c' d' : ℕ} {valueHash : ValueHash} {stmt : Stmt}
  {function : Function} {leftExp rightExp : Exp} {left right : NodeCtor}

theorem Keeps.atMostOne (h : Keeps P P') (hP : AtMostOne P) : AtMostOne P' := by
  intro c d e e' rule hr rule' hr'
  rw [h.rules] at hr hr'
  exact hP c d e e' rule hr rule' hr'

theorem IsFor.congr {rule rule' : Rule} {a b : ℕ} (h : IsFor rule a b) (h' : IsFor rule c d)
    (hr : IsFor rule' a b) : IsFor rule' c d := by
  unfold IsFor at *
  omega

theorem Installs.atMostOne (h : Installs P P' valueHash stmt c d c' d' function)
    (hP : AtMostOne P) (hn : ¬ HasRule P c d) : AtMostOne P' := by
  intro a b e e' rule hr rule' hr' hf hf'
  rcases h.mem_rules.mp hr with hr | ⟨rfl, -⟩
  · rcases h.mem_rules.mp hr' with hr' | ⟨rfl, -⟩
    · exact hP a b e e' rule hr rule' hr' hf hf'
    · exact absurd ⟨e, rule, hr, hf'.congr (.inl ⟨rfl, rfl⟩) hf⟩ hn
  · rcases h.mem_rules.mp hr' with hr' | ⟨rfl, -⟩
    · exact absurd ⟨e', rule', hr', hf.congr (.inl ⟨rfl, rfl⟩) hf'⟩ hn
    · rfl

/-- A rule for two ctors that have one is another one. -/
theorem Installs.not_atMostOne (h : Installs P P' valueHash stmt c d c' d' function)
    (hP : Compiled P) (hr : HasRule P c d) : ¬ AtMostOne P' := by
  obtain ⟨e, rule, hm, hf⟩ := hr
  intro hone
  have hnew : newRule P c d ∈ Define.rules P' c' := (h.newRule_mem hP).mpr (.inl rfl)
  obtain rfl := hone c d e c' rule (h.mem_rules.mpr (.inl hm)) _ hnew hf (.inl ⟨rfl, rfl⟩)
  exact lt_irrefl _ (hP e _ hm)

section

variable {N F : Type} {R : Runtime N} {prelude : List PrimitiveDef} {fileOpen : Text → Option F}
  {parse : F → Option (List (Load.Stmt Stmt))} {t u : Loading N F}

theorem next_execute (h : Next Load.State.more (Load.step (env R prelude fileOpen parse)) t u)
    (hs : t.stmt = some (valueHash, stmt)) :
    ∃ valueHash', execute R t.world valueHash stmt = (u.world, valueHash', none) := by
  rcases Load.step_world h.2 with ⟨hs', -⟩ | ⟨valueHash₀, stmt₀, valueHash', hs', he⟩
  · rw [hs] at hs'
    cases hs'
  · obtain ⟨rfl, rfl⟩ := Prod.mk.inj (Option.some.inj (hs.symm.trans hs'))
    unfold env at he
    dsimp only at he
    split at he
    · cases he
      exact ⟨_, ‹_›⟩
    · cases he

theorem exists_next_of_execute {w : World N} {valueHash' : ValueHash}
    (hs : t.stmt = some (valueHash, stmt))
    (he : execute R t.world valueHash stmt = (w, valueHash', none)) :
    ∃ u, Next Load.State.more (Load.step (env R prelude fileOpen parse)) t u := by
  have he' : (env R prelude fileOpen parse).execute t.world valueHash stmt =
      .ok (w, valueHash') := by
    unfold env
    dsimp only
    rw [he]
  obtain ⟨u, hu, -⟩ := Load.exists_next hs he'
  exact ⟨u, hu⟩

theorem pair_eq (hs : stmt.patternExpList = some [leftExp, rightExp])
    (hl : patternCtor valueHash leftExp = some c) (hr : patternCtor valueHash rightExp = some d) :
    stmt.pair valueHash = some (c, d) := by
  rw [Stmt.pair, hs]
  simp [hl, hr]

theorem exists_patterns (h : stmt.pair valueHash = some (c, d)) : ∃ leftExp rightExp,
    stmt.patternExpList = some [leftExp, rightExp] ∧ patternCtor valueHash leftExp = some c ∧
      patternCtor valueHash rightExp = some d := by
  unfold Stmt.pair at h
  split at h
  · rename_i leftExp rightExp hs
    obtain ⟨c₀, hl, h⟩ := Option.bind_eq_some_iff.mp h
    obtain ⟨d₀, hr, h⟩ := Option.bind_eq_some_iff.mp h
    cases h
    exact ⟨leftExp, rightExp, hs, hl, hr⟩
  · cases h

/-- A rule that has been installed was acceptable. -/
theorem repeats_of_installs
    (hn : Next Load.State.more (Load.step (env R prelude fileOpen parse)) t u)
    (hs : t.stmt = some (valueHash, stmt))
    (hi : Installs t.world.program u.world.program valueHash stmt c d c' d' function)
    (hr : HasRule t.world.program c d) :
    ∃ leftExp rightExp left right, Repeats t valueHash stmt leftExp rightExp c d left right := by
  obtain ⟨leftExp, rightExp, hp, hl, hr'⟩ := exists_patterns hi.pair
  obtain ⟨left, hlc⟩ := Option.isSome_iff_exists.mp hi.leftCtor
  obtain ⟨right, hrc⟩ := Option.isSome_iff_exists.mp hi.rightCtor
  obtain ⟨valueHash', he⟩ := next_execute hn hs
  have ha := (decides_execute he hp hl hr' hlc hrc).2.mp rfl
  exact ⟨leftExp, rightExp, left, right, hs, hp, hl, hr', hlc, hrc, ha, hr⟩

theorem Repeats.exists_installs
    (h : Repeats t valueHash stmt leftExp rightExp c d left right) :
    ∃ u, Next Load.State.more (Load.step (env R prelude fileOpen parse)) t u ∧
      ∃ c' d' function,
        Installs t.world.program u.world.program valueHash stmt c d c' d' function := by
  rcases he : execute R t.world valueHash stmt with ⟨w, valueHash', e⟩
  obtain rfl := (decides_execute he h.patterns h.leftCtor h.rightCtor h.leftDefined
    h.rightDefined).2.mpr h.acceptable
  have hn : ∃ u, Next Load.State.more (Load.step (env R prelude fileOpen parse)) t u :=
    exists_next_of_execute h.next he
  obtain ⟨u, hu⟩ := hn
  exact ⟨u, hu, Define.exists_installs hu h.next (pair_eq h.patterns h.leftCtor h.rightCtor)⟩

end

/-- At most one rule is ever installed for two ctors exactly when no rule that can be defined
comes after another for the same two. -/
theorem atMostOne_iff {N F : Type} (R : Runtime N) (prelude : List PrimitiveDef)
    (fileOpen : Text → Option F) (parse : F → Option (List (Load.Stmt Stmt))) (net : N)
    (arguments : List Path) :
    (∀ t, Load.Reaches (env R prelude fileOpen parse) (.start ⟨{}, net⟩ arguments) t →
      AtMostOne t.world.program) ↔
    ∀ t, Load.Reaches (env R prelude fileOpen parse) (.start ⟨{}, net⟩ arguments) t →
      ∀ valueHash stmt leftExp rightExp c d left right,
        ¬ Repeats t valueHash stmt leftExp rightExp c d left right := by
  constructor
  · intro h t ht valueHash stmt leftExp rightExp c d left right hr
    have hn : ∃ u, Next Load.State.more (Load.step (env R prelude fileOpen parse)) t u ∧
        ∃ c' d' function,
          Installs t.world.program u.world.program valueHash stmt c d c' d' function :=
      hr.exists_installs
    obtain ⟨u, hu, c', d', function, hi⟩ := hn
    exact hi.not_atMostOne (reaches_compiled ht) hr.hasRule (h u (ht.tail hu))
  · intro h t ht
    induction ht with
    | refl =>
      intro c d e e' rule hr
      have : rules ({} : Program) e = [] := rules_empty e
      rw [Load.State.start, this] at hr
      cases hr
    | tail hr hn ih =>
      rcases next_cases hn with ⟨-, hk⟩ | ⟨valueHash, stmt, c, d, c', d', function, hs, hi⟩
      · exact hk.atMostOne ih
      · refine hi.atMostOne ih fun hrule => ?_
        obtain ⟨leftExp, rightExp, left, right, hrep⟩ := repeats_of_installs hn hs hi hrule
        exact h _ hr _ _ _ _ _ _ _ _ hrep

/-- Two rules for one ctor. -/
def twiceFiles : Files := [("/m".toList, [
  .stmtOther (.defineNode "y" ["value!"]),
  .stmtOther (.defineRuleStar [.ap (.var "y") [.var "!"], .ap (.var "y") [.var "!"]] []),
  .stmtOther (.defineRuleStar [.ap (.var "y") [.var "!"], .ap (.var "y") [.var "!"]] [])])]

theorem not_atMostOne : ¬ ∀ (N F : Type) (R : Runtime N) (prelude : List PrimitiveDef)
    (fileOpen : Text → Option F) (parse : F → Option (List (Load.Stmt Stmt))) (net : N)
    (arguments : List Path) (t : Loading N F),
    Load.Reaches (env R prelude fileOpen parse) (.start ⟨{}, net⟩ arguments) t →
    AtMostOne t.world.program := by
  intro h
  have hr : Load.Reaches twiceFiles.env (Files.start "/m") (twiceFiles.after "/m" 4) :=
    Files.reaches (by decide)
  have hone := h _ _ _ _ _ _ _ _ _ hr 4 4 4 4 ⟨4, 4, 0⟩ (by decide) ⟨4, 4, 1⟩ (by decide)
    (.inl ⟨rfl, rfl⟩) (.inl ⟨rfl, rfl⟩)
  exact absurd hone (by decide)

end InetLisp.Define
