import InetLisp.Lang.Reread

/-! # Printing and parsing statements

A statement is printed as text and parsed into the same statement, unless it contains an
assignment with an expression or imports a path that cannot stand between quotes.
-/

namespace InetLisp.Parse

open Lexer

def keywords : List Text :=
  [defineNodeWord, defineRuleWord, defineRuleStarWord, defineWord, importWord]

namespace Stmt

/-- The S-expression that a statement is printed as. -/
def tree : Stmt → Tree
  | .define name exp => .list [nameTree defineWord, nameTree name, exp.tree]
  | .defineFunction name argNameList expList => .list (nameTree defineWord ::
      .list (nameTree name :: argNameList.map nameTree) :: expTrees expList)
  | .defineNode name portNameList =>
    .list (nameTree defineNodeWord :: nameTree name :: portNameList.map nameTree)
  | .defineRule patternExp expList =>
    .list (nameTree defineRuleWord :: patternExp.tree :: expTrees expList)
  | .defineRuleStar patternExpList expList =>
    .list (nameTree defineRuleStarWord :: .list (expTrees patternExpList) :: expTrees expList)
  | .runExp exp => exp.tree
  | .stmtImport nameList path => .list (nameTree importWord ::
      (nameList.map nameTree ++ (path.map fun path => .atom .string path.string).toList))

/-- Names are ordinary identifiers, integers have 61 bits, and there is no float. -/
def Ordinary : Stmt → Prop
  | .define name exp => Lexed .generic name ∧ exp.Ordinary
  | .defineFunction name argNameList expList => Lexed .generic name ∧
      (∀ name ∈ argNameList, Lexed .generic name) ∧ OrdinaryList expList
  | .defineNode name portNameList => Lexed .generic name ∧
      ∀ name ∈ portNameList, Lexed .generic name
  | .defineRule patternExp expList => patternExp.Ordinary ∧ OrdinaryList expList
  | .defineRuleStar patternExpList expList => OrdinaryList patternExpList ∧ OrdinaryList expList
  | .runExp exp => exp.Ordinary
  | .stmtImport nameList _ => ∀ name ∈ nameList, Lexed .generic name

/-- What the parser makes: an expression does not start with a word for a statement, and a
path has the characters of a token. -/
def Parsed : Stmt → Prop
  | .define _ exp => exp.Parsed
  | .defineFunction _ _ expList => ParsedList expList
  | .defineNode _ _ => True
  | .defineRule patternExp expList => patternExp.Parsed ∧ ParsedList expList
  | .defineRuleStar patternExpList expList => ParsedList patternExpList ∧ ParsedList expList
  | .runExp exp => exp.Parsed ∧
      ∀ name argList, exp = .ap (.var name) argList → name ∉ keywords
  | .stmtImport nameList path => match path with
    | none => nameList = []
    | some path => '\x00' ∉ path.string ∧ path.string.length ≤ maxTokenLength

/-- What a printed statement is parsed into. -/
def reread : Stmt → Stmt
  | .define name exp => .define name exp.reread
  | .defineFunction name argNameList expList =>
    .defineFunction name argNameList (rereadList expList)
  | .defineNode name portNameList => .defineNode name portNameList
  | .defineRule patternExp expList => .defineRule patternExp.reread (rereadList expList)
  | .defineRuleStar patternExpList expList =>
    .defineRuleStar (rereadList patternExpList) (rereadList expList)
  | .runExp exp => .runExp exp.reread
  | .stmtImport nameList path => .stmtImport nameList path

/-- A path is there and can stand between quotes as it is. -/
def PlainPath : Stmt → Prop
  | .stmtImport _ path => ∃ p, path = some p ∧ '"' ∉ p.string ∧ '\\' ∉ p.string ∧
      p.string ≠ ['('] ∧ p.string ≠ [')']
  | _ => True

/-- There is no assignment with an expression. -/
def NoAssign : Stmt → Prop
  | .define _ exp => exp.NoAssign
  | .defineFunction _ _ expList => NoAssignList expList
  | .defineNode _ _ => True
  | .defineRule patternExp expList => patternExp.NoAssign ∧ NoAssignList expList
  | .defineRuleStar patternExpList expList => NoAssignList patternExpList ∧ NoAssignList expList
  | .runExp exp => exp.NoAssign
  | .stmtImport _ _ => True

theorem reread_eq_iff {stmt : Stmt} (h : stmt.Parsed) : stmt.reread = stmt ↔ stmt.NoAssign := by
  cases stmt with
  | define name exp => simp [reread, NoAssign, Exp.reread_eq_iff h]
  | defineFunction name argNameList expList => simp [reread, NoAssign, rereadList_eq_iff h]
  | defineNode name portNameList => simp [reread, NoAssign]
  | defineRule patternExp expList =>
    simp [reread, NoAssign, Exp.reread_eq_iff h.1, rereadList_eq_iff h.2]
  | defineRuleStar patternExpList expList =>
    simp [reread, NoAssign, rereadList_eq_iff h.1, rereadList_eq_iff h.2]
  | runExp exp => simp [reread, NoAssign, Exp.reread_eq_iff h.1]
  | stmtImport nameList path => simp [reread, NoAssign]

end Stmt

section

variable {exp : Exp} {name string word : Text} {nameList : List Text} {sexpList : List Tree}

theorem mapM_sexpString : (nameList.map nameTree).mapM sexpString = some nameList := by
  induction nameList with
  | nil => rfl
  | cons name nameList ih =>
    rw [List.map_cons, List.mapM_cons, ih]
    rfl

theorem parseImport_names (front : List Text) :
    parseImport front (nameList.map nameTree ++ [.atom .string string]) =
      some (.stmtImport (front ++ nameList) (some (.new string))) := by
  induction nameList generalizing front with
  | nil => simp [parseImport, sexpString]
  | cons name nameList ih =>
    have ih := ih (front ++ [name])
    cases nameList with
    | nil => simp [nameTree, parseImport, sexpString]
    | cons name' nameList =>
      rw [List.map_cons, List.cons_append] at ih
      rw [List.map_cons, List.map_cons, List.cons_append, List.cons_append, parseImport]
      simp only [nameTree, sexpString, Option.bind_eq_bind, Option.bind_some]
      simp only [nameTree] at ih
      rw [ih]
      simp

/-- A run expression is not taken for another statement. -/
theorem not_startsWith_keyword (h : exp.Ordinary)
    (hk : ∀ name argList, exp = .ap (.var name) argList → name ∉ keywords) (hw : word ∈ keywords) :
    sexpStartsWith exp.tree word = false := by
  cases exp with
  | var name => rfl
  | int target => rfl
  | float target => exact h.elim
  | ap target argList =>
    have hkind : kindOf word = .generic := by
      have hall : ∀ word ∈ keywords, kindOf word = .generic := by decide
      exact hall word hw
    apply startsWith_target h.1 hkind
    rintro name rfl rfl
    exact hk name argList rfl hw
  | assign nameList exp =>
    have hall : ∀ word ∈ keywords, equals ≠ word := by decide
    simpa [Exp.tree, assignTree, nameTree, sexpStartsWith] using hall word hw
  | assignNull nameList =>
    have hall : ∀ word ∈ keywords, equals ≠ word := by decide
    simpa [Exp.tree, assignTree, nameTree, sexpStartsWith] using hall word hw

theorem parseStmt_tree {stmt : Stmt} (h : stmt.Ordinary) (hp : stmt.Parsed) :
    parseStmt stmt.tree = some stmt.reread := by
  cases stmt with
  | define name exp =>
    have hd : parseStmt (Stmt.define name exp).tree =
        parseDefineValue [nameTree name, exp.tree] := rfl
    rw [hd, parseDefineValue, nameTree, sexpString, parseExp_tree h.2 hp]
    rfl
  | defineFunction name argNameList expList =>
    have hd : parseStmt (Stmt.defineFunction name argNameList expList).tree = parseDefineFunction
        (.list (nameTree name :: argNameList.map nameTree) :: expTrees expList) := rfl
    rw [hd, parseDefineFunction, mapM_sexpString, parseExpList_trees h.2.2 hp]
    rfl
  | defineNode name portNameList =>
    have hd : parseStmt (Stmt.defineNode name portNameList).tree =
        parseDefineNode (nameTree name :: portNameList.map nameTree) := rfl
    rw [hd, parseDefineNode, mapM_sexpString]
    rfl
  | defineRule patternExp expList =>
    have hd : parseStmt (Stmt.defineRule patternExp expList).tree =
        parseDefineRule (patternExp.tree :: expTrees expList) := rfl
    rw [hd, parseDefineRule, parseExp_tree h.1 hp.1, parseExpList_trees h.2 hp.2]
    rfl
  | defineRuleStar patternExpList expList =>
    have hd : parseStmt (Stmt.defineRuleStar patternExpList expList).tree =
        parseDefineRuleStar (.list (expTrees patternExpList) :: expTrees expList) := rfl
    rw [hd, parseDefineRuleStar, sexpSexpList, parseExpList_trees h.2 hp.2]
    simp [parseExpList_trees h.1 hp.1, Stmt.reread]
  | runExp exp =>
    have hk (word : Text) (hw : word ∈ keywords) : sexpStartsWith exp.tree word = false :=
      not_startsWith_keyword h hp.2 hw
    rw [Stmt.tree, parseStmt]
    simp only [hk defineNodeWord (by decide), hk defineRuleWord (by decide),
      hk defineRuleStarWord (by decide), hk defineWord (by decide), hk importWord (by decide)]
    simp [parseExp_tree h hp.1, Stmt.reread]
  | stmtImport nameList path =>
    cases path with
    | none =>
      obtain rfl : nameList = [] := hp
      rfl
    | some path =>
      have hd : parseStmt (Stmt.stmtImport nameList (some path)).tree =
          parseImport [] (nameList.map nameTree ++ [.atom .string path.string]) := rfl
      rw [hd, parseImport_names, Path.new_string]
      rfl

theorem parseImport_eq_some {stmt : Stmt} {front : List Text}
    (h : parseImport front sexpList = some stmt) : (sexpList = [] ∧ stmt = .stmtImport front none) ∨
    ∃ (words : List (TokenKind × Text)) (kind : TokenKind) (string : Text),
      sexpList = words.map (fun w => .atom w.1 w.2) ++ [.atom kind string] ∧
      stmt = .stmtImport (front ++ words.map Prod.snd) (some (.new string)) := by
  induction sexpList generalizing front with
  | nil => exact .inl ⟨rfl, (Option.some.inj h).symm⟩
  | cons sexp sexpList ih =>
    right
    cases sexpList with
    | nil =>
      obtain ⟨string, hs, rfl⟩ := Option.map_eq_some_iff.mp h
      cases sexp with
      | list l => cases hs
      | atom kind string =>
        obtain rfl := Option.some.inj hs
        exact ⟨[], kind, string, rfl, by simp⟩
    | cons sexp' sexpList =>
      obtain ⟨name, hs, h⟩ := Option.bind_eq_some_iff.mp h
      cases sexp with
      | list l => cases hs
      | atom kind string =>
        obtain rfl := Option.some.inj hs
        rcases ih h with ⟨he, -⟩ | ⟨words, kind', string', he, rfl⟩
        · cases he
        · exact ⟨(kind, string) :: words, kind', string', by rw [he]; rfl, by simp⟩

theorem parseDefineNode_eq_some {stmt : Stmt} (h : parseDefineNode sexpList = some stmt) :
    ∃ name portNameList, stmt = .defineNode name portNameList := by
  cases sexpList with
  | nil => cases h
  | cons sexp sexpList =>
    obtain ⟨name, -, h⟩ := Option.bind_eq_some_iff.mp h
    obtain ⟨portNameList, -, h⟩ := Option.bind_eq_some_iff.mp h
    exact ⟨name, portNameList, (Option.some.inj h).symm⟩

theorem parseDefine_eq_some {stmt : Stmt} (h : parseDefine sexpList = some stmt) :
    (∃ name exp, stmt = .define name exp ∧ exp.Parsed) ∨
      ∃ name argNameList expList, stmt = .defineFunction name argNameList expList ∧
        ParsedList expList := by
  match sexpList with
  | [] => cases h
  | .atom _ _ :: sexpList =>
    match sexpList with
    | [] => cases h
    | [expSexp] =>
      obtain ⟨exp, he, h⟩ := Option.bind_eq_some_iff.mp h
      exact .inl ⟨_, exp, (Option.some.inj h).symm, .of_parseExp he⟩
    | _ :: _ :: _ => cases h
  | .list nameSexpList :: sexpList =>
    match nameSexpList with
    | [] => cases h
    | firstNameSexp :: nameSexpList =>
      obtain ⟨name, -, h⟩ := Option.bind_eq_some_iff.mp h
      obtain ⟨argNameList, -, h⟩ := Option.bind_eq_some_iff.mp h
      obtain ⟨expList, hl, h⟩ := Option.bind_eq_some_iff.mp h
      exact .inr ⟨name, argNameList, expList, (Option.some.inj h).symm, .of_parseExpList hl⟩

theorem parseDefineRule_eq_some {stmt : Stmt} (h : parseDefineRule sexpList = some stmt) :
    ∃ patternExp expList, stmt = .defineRule patternExp expList ∧ patternExp.Parsed ∧
      ParsedList expList := by
  cases sexpList with
  | nil => cases h
  | cons sexp sexpList =>
    obtain ⟨patternExp, hp, h⟩ := Option.bind_eq_some_iff.mp h
    obtain ⟨expList, hl, h⟩ := Option.bind_eq_some_iff.mp h
    exact ⟨_, _, (Option.some.inj h).symm, .of_parseExp hp, .of_parseExpList hl⟩

theorem parseDefineRuleStar_eq_some {stmt : Stmt}
    (h : parseDefineRuleStar sexpList = some stmt) :
    ∃ patternExpList expList, stmt = .defineRuleStar patternExpList expList ∧
      ParsedList patternExpList ∧ ParsedList expList := by
  cases sexpList with
  | nil => cases h
  | cons sexp sexpList =>
    obtain ⟨l, -, h⟩ := Option.bind_eq_some_iff.mp h
    obtain ⟨patternExpList, hp, h⟩ := Option.bind_eq_some_iff.mp h
    obtain ⟨expList, hl, h⟩ := Option.bind_eq_some_iff.mp h
    exact ⟨_, _, (Option.some.inj h).symm, .of_parseExpList hp, .of_parseExpList hl⟩

theorem exists_of_startsWith {sexp : Tree} (h : sexpStartsWith sexp word = true) :
    ∃ kind l, sexp = .list (.atom kind word :: l) := by
  match sexp with
  | .list (.atom kind first :: l) => exact ⟨kind, l, by simpa [sexpStartsWith] using h⟩

theorem parsed_of_parseImport {stmt : Stmt} (h : parseImport [] sexpList = some stmt)
    (hs : AllTrees Lexed sexpList) : stmt.Parsed := by
  rcases parseImport_eq_some h with ⟨-, rfl⟩ | ⟨words, kind, string, rfl, rfl⟩
  · rfl
  · have hl : Lexed kind string := hs.append.1
    constructor
    · intro hm
      rcases Path.mem_string_new hm with he | hm
      · cases he
      · exact hl.zero_not_mem hm
    · exact (Path.length_string_new_le string).trans hl.length_le

theorem Stmt.Parsed.of_parseStmt {sexp : Tree} {stmt : Stmt} (h : parseStmt sexp = some stmt)
    (hs : sexp.All Lexed) : stmt.Parsed := by
  unfold parseStmt at h
  dsimp only at h
  split_ifs at h with h₁ h₂ h₃ h₄ h₅
  · obtain ⟨_, _, rfl⟩ := parseDefineNode_eq_some h
    trivial
  · obtain ⟨_, _, rfl, hp, hl⟩ := parseDefineRule_eq_some h
    exact ⟨hp, hl⟩
  · obtain ⟨_, _, rfl, hp, hl⟩ := parseDefineRuleStar_eq_some h
    exact ⟨hp, hl⟩
  · rcases parseDefine_eq_some h with ⟨_, _, rfl, hp⟩ | ⟨_, _, _, rfl, hl⟩
    · exact hp
    · exact hl
  · obtain ⟨kind, l, rfl⟩ := exists_of_startsWith h₅
    exact parsed_of_parseImport h hs.2
  · obtain ⟨exp, he, rfl⟩ := Option.map_eq_some_iff.mp h
    refine ⟨.of_parseExp he, ?_⟩
    rintro name argList rfl hk
    obtain ⟨targetSexp, argSexpList, rfl, ht⟩ := eq_list_of_parseExp he
    obtain ⟨kind, rfl⟩ := eq_atom_of_parseExp ht
    simp only [sexpStartsWith, decide_eq_true_eq] at h₁ h₂ h₃ h₄ h₅
    simp [keywords, h₁, h₂, h₃, h₄, h₅] at hk

theorem parseStmt_eq_import {sexp : Tree} {path : Option Path}
    (h : parseStmt sexp = some (.stmtImport nameList path)) :
    ∃ kind l, sexp = .list (.atom kind importWord :: l) ∧
      parseImport [] l = some (.stmtImport nameList path) := by
  unfold parseStmt at h
  dsimp only at h
  split_ifs at h with h₁ h₂ h₃ h₄ h₅
  · obtain ⟨_, _, he⟩ := parseDefineNode_eq_some h
    cases he
  · obtain ⟨_, _, he, -⟩ := parseDefineRule_eq_some h
    cases he
  · obtain ⟨_, _, he, -⟩ := parseDefineRuleStar_eq_some h
    cases he
  · rcases parseDefine_eq_some h with ⟨_, _, he, -⟩ | ⟨_, _, _, he, -⟩
    · cases he
    · cases he
  · obtain ⟨kind, l, rfl⟩ := exists_of_startsWith h₅
    exact ⟨kind, l, rfl, h⟩
  · obtain ⟨_, -, he⟩ := Option.map_eq_some_iff.mp h
    cases he

end

end InetLisp.Parse
