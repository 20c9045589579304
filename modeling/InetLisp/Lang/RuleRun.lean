import InetLisp.Lang.Rules

/-! # The rules of a run

Loading starts without rules. A step of it installs at most one, and what has been
installed stays in its tables.
-/

namespace InetLisp.Define

open Lib Relation

abbrev Loading (N F : Type) := Load.State F Stmt (World N) Value

def nextPair {N F : Type} (t : Loading N F) : Option (ℕ × ℕ) :=
  t.stmt.bind fun x => x.2.pair x.1

/-- The functions of rules have been compiled. -/
def Compiled (P : Program) : Prop := ∀ c, ∀ rule ∈ rules P c, rule.function < P.functions.length

variable {P P' : Program} {c d c' d' e left right lc rc : ℕ} {rule : Rule} {valueHash : ValueHash}
  {stmt : Stmt} {function : Function}

theorem definePrimitive_rules (x : Program × ValueHash) (p : PrimitiveDef) (c : ℕ) :
    rules (definePrimitive x p).1 c = rules x.1 c ∧
      (definePrimitive x p).1.functions = x.1.functions := by
  unfold definePrimitive
  dsimp only
  split
  · exact ⟨rules_congr rfl c, rfl⟩
  · exact ⟨rules_addCtor rfl rfl c, rfl⟩

theorem foldl_definePrimitive_rules (prelude : List PrimitiveDef) (x : Program × ValueHash)
    (c : ℕ) : rules (prelude.foldl definePrimitive x).1 c = rules x.1 c ∧
      (prelude.foldl definePrimitive x).1.functions = x.1.functions := by
  induction prelude generalizing x with
  | nil => exact ⟨rfl, rfl⟩
  | cons p prelude ih =>
    obtain ⟨hr, hf⟩ := ih (definePrimitive x p)
    obtain ⟨hr', hf'⟩ := definePrimitive_rules x p c
    exact ⟨hr.trans hr', hf.trans hf'⟩

namespace Installs

variable (h : Installs P P' valueHash stmt c d c' d' function)

include h

theorem rules (e : ℕ) : Define.rules P' e = (Define.rules P e ++
    if e = c' then [⟨c, d, P.functions.length⟩] else []) ++
      if e = d' then [⟨c, d, P.functions.length⟩] else [] := by
  have hl : (getCtor { P with functions := P.functions ++ [function] } c').isSome := h.left_isSome
  have hr : (getCtor { P with functions := P.functions ++ [function] } d').isSome :=
    h.right_isSome
  rw [h.eq, rules_pushRule (by rwa [isSome_getCtor_pushRule]), rules_pushRule hl]
  rfl

theorem functions : P'.functions = P.functions ++ [function] := by
  rw [h.eq]
  simp [pushRule_functions]

theorem mem_rules : rule ∈ Define.rules P' e ↔ rule ∈ Define.rules P e ∨
    rule = ⟨c, d, P.functions.length⟩ ∧ (e = c' ∨ e = d') := by
  rw [h.rules]
  simp only [List.mem_append, List.mem_ite_nil_right, List.mem_singleton]
  tauto

theorem extended : Extends P P' := by
  constructor
  · intro e
    rw [h.rules, List.append_assoc]
    exact List.prefix_append _ _
  · rw [h.functions]
    simp

theorem compiled (hP : Compiled P) : Compiled P' := by
  intro e rule hr
  rw [h.functions, List.length_append]
  rcases h.mem_rules.mp hr with hr | ⟨rfl, -⟩
  · have := hP e rule hr
    omega
  · simp

end Installs

namespace Keeps

variable (h : Keeps P P')

include h

theorem compiled (hP : Compiled P) : Compiled P' := by
  intro e rule hr
  rw [h.rules] at hr
  exact (hP e rule hr).trans_le h.functions

end Keeps

section

variable {N F : Type} {R : Runtime N} {prelude : List PrimitiveDef} {fileOpen : Text → Option F}
  {parse : F → Option (List (Load.Stmt Stmt))} {t u v : Loading N F}

/-- A step of loading leaves the tables as they are, or installs a rule. -/
theorem next_cases (h : Next Load.State.more (Load.step (env R prelude fileOpen parse)) t u) :
    (nextPair t = none ∧ Keeps t.world.program u.world.program) ∨
    ∃ valueHash stmt c d c' d' function, t.stmt = some (valueHash, stmt) ∧
      Installs t.world.program u.world.program valueHash stmt c d c' d' function := by
  rcases Load.step_world h.2 with ⟨hs, hw | hw⟩ | ⟨valueHash, stmt, valueHash', hs, he⟩
  · refine .inl ⟨by rw [nextPair, hs]; rfl, ?_⟩
    rw [hw]
    exact ⟨fun _ => rfl, le_rfl⟩
  · refine .inl ⟨by rw [nextPair, hs]; rfl, ?_⟩
    rw [hw]
    have hf := foldl_definePrimitive_rules prelude (t.world.program, [])
    exact ⟨fun c => (hf c).1, (congrArg List.length (hf 0).2).ge⟩
  · unfold env at he
    dsimp only at he
    split at he
    · rename_i w' hash' hx
      cases he
      rcases execute_cases hx with ⟨hp, hk⟩ | ⟨c, d, c', d', function, hi⟩
      · exact .inl ⟨by rw [nextPair, hs]; exact hp, hk⟩
      · exact .inr ⟨valueHash, stmt, c, d, c', d', function, hs, hi⟩
    · cases he

theorem next_extends (h : Next Load.State.more (Load.step (env R prelude fileOpen parse)) t u) :
    Extends t.world.program u.world.program := by
  rcases next_cases h with ⟨-, hk⟩ | ⟨valueHash, stmt, c, d, c', d', function, -, hi⟩
  · exact hk.extended
  · exact hi.extended

theorem reaches_extends (h : Load.Reaches (env R prelude fileOpen parse) t u) :
    Extends t.world.program u.world.program := by
  induction h with
  | refl => exact .refl _
  | tail _ hn ih => exact ih.trans (next_extends hn)

theorem next_compiled (hP : Compiled t.world.program)
    (h : Next Load.State.more (Load.step (env R prelude fileOpen parse)) t u) :
    Compiled u.world.program := by
  rcases next_cases h with ⟨-, hk⟩ | ⟨valueHash, stmt, c, d, c', d', function, -, hi⟩
  · exact hk.compiled hP
  · exact hi.compiled hP

theorem rules_empty (c : ℕ) : rules {} c = [] := by
  rcases Nat.lt_or_ge c applyNodeCtors.length with hc | hc
  · exact rules_of_lt hc
  · obtain ⟨i, rfl⟩ := Nat.exists_eq_add_of_le hc
    rw [rules, nodeCtor_add]
    rfl

theorem reaches_compiled {net : N} {arguments : List Path}
    (h : Load.Reaches (env R prelude fileOpen parse) (.start ⟨{}, net⟩ arguments) t) :
    Compiled t.world.program := by
  induction h with
  | refl =>
    intro c rule hr
    have : rules ({} : Program) c = [] := rules_empty c
    rw [Load.State.start, this] at hr
    cases hr
  | tail _ hn ih => exact next_compiled ih hn

end

/-! ### Small programs -/

/-- Looking up names, the only expressions that these programs run. -/
def lookupRuntime : Runtime (List Value) where
  runExp net _ valueHash exp := match exp with
    | .var name => match modFind valueHash name with
      | some value => .ok (value :: net)
      | none => .error (.undefinedName name)
    | _ => .error (.run .outOfFuel)
  popValue net := match net with
    | value :: net => .ok (net, value)
    | [] => .error (.run .emptyStack)

abbrev Files := List (Text × List (Load.Stmt Stmt))

/-- Loading one of the files, without a prelude. -/
def Files.env (files : Files) : Load.Env ℕ Stmt (World (List Value)) Value Error :=
  Define.env lookupRuntime [] (fun path => files.findIdx? (·.1 = path))
    fun i => (files[i]?).map Prod.snd

def Files.start (path : String) : Loading (List Value) ℕ := .start ⟨{}, []⟩ [Path.new path.toList]

def Files.after (files : Files) (path : String) (k : ℕ) : Loading (List Value) ℕ :=
  (Load.steps files.env k (start path)).getD (start path)

theorem Files.reaches {files : Files} {path : String} {k : ℕ}
    (h : (Load.steps files.env k (start path)).isSome) :
    Load.Reaches files.env (start path) (files.after path k) := by
  obtain ⟨t, ht⟩ := Option.isSome_iff_exists.mp h
  rw [Files.after, ht]
  exact Load.reaches_of_steps ht

end InetLisp.Define
