import InetLisp.Lang.RoundTrip

/-! # Printed statements

A printed statement is cut into the words of its S-expression. A node without ports and
an import without names are printed with one space too many, and the path of an import is
printed as it is, so that a quote in it ends the literal.
-/

namespace InetLisp.Parse

open Lexer

/-- The text in front of the rest is cut into the words. -/
def Spells (text : Text) (words : List (TokenKind × Text)) (rest : Text) : Prop :=
  ∃ ps, Tiles text ps rest ∧ (∀ piece ∈ ps, piece.content.length ≤ maxTokenLength) ∧
    ps.filterMap Piece.word = words

section

variable {text mid rest name s : Text} {words words' : List (TokenKind × Text)} {tree : Tree}
  {treeList : List Tree} {nameList : List Text}

namespace Spells

theorem append (h : Spells text words mid) (h' : Spells mid words' rest) :
    Spells text (words ++ words') rest := by
  obtain ⟨ps, ht, hl, rfl⟩ := h
  obtain ⟨qs, ht', hl', rfl⟩ := h'
  use ps ++ qs, ht.append ht'
  refine ⟨?_, List.filterMap_append⟩
  intro piece hp
  exact (List.mem_append.mp hp).elim (hl piece) (hl' piece)

theorem of_cuts {piece : Piece} (h : Cuts piece rest)
    (hl : piece.content.length ≤ maxTokenLength) :
    Spells (piece.text ++ rest) piece.word.toList rest := by
  use [piece], .single h
  refine ⟨by simpa using hl, ?_⟩
  cases hw : piece.word <;> simp [hw]

theorem openParen : Spells ('(' :: rest) [(.delimiter, ['('])] rest :=
  of_cuts (.delimiter (c := '(') (by decide)) (by decide : 1 ≤ 1024)

theorem closeParen : Spells (')' :: rest) [(.delimiter, [')'])] rest :=
  of_cuts (.delimiter (c := ')') (by decide)) (by decide : 1 ≤ 1024)

theorem space (hn : s ≠ []) (hs : ∀ c ∈ s, isspace c) (hr : ∀ c ∈ rest.head?, !isspace c) :
    Spells (s ++ rest) [] rest :=
  of_cuts (.space hn hs hr) (Nat.zero_le _)

theorem blank (hr : ∀ c ∈ rest.head?, !isspace c) : Spells ([' '] ++ rest) [] rest :=
  space (by decide) (List.all_eq_true.mp rfl) hr

theorem of_tree (h : tree.Printable) (hr : ∀ c ∈ rest.head?, isEnd c) :
    Spells (tree.print ++ rest) tree.words rest :=
  ⟨tree.pieces, h.tiles hr, h.length_le, h.words_eq⟩

theorem of_trees (h : PrintableTrees treeList) (hr : ∀ c ∈ rest.head?, isEnd c) :
    Spells (printTrees treeList ++ rest) (wordsOf treeList) rest :=
  ⟨piecesOf treeList, h.tiles hr, h.length_le, h.words_eq⟩

theorem of_name (h : Lexed .generic name) (hr : ∀ c ∈ rest.head?, isEnd c) :
    Spells (name ++ rest) [(.generic, name)] rest := of_tree (printable_name h) hr

end Spells

theorem head_name (h : Lexed .generic name) (rest : Text) :
    ∀ c ∈ (name ++ rest).head?, !isspace c :=
  have hp : PrintableTrees [nameTree name] := ⟨printable_name h, trivial⟩
  hp.head_print rest

theorem wordsOf_names : wordsOf (nameList.map nameTree) = nameList.map ((.generic, ·)) := by
  induction nameList with
  | nil => rfl
  | cons name nameList ih => simp [wordsOf, nameTree, Tree.words, ih]

theorem lexed_import : Lexed .generic importWord := lexed_word rfl (by decide)

theorem lexed_define : Lexed .generic defineWord := lexed_word rfl (by decide)

theorem lexed_defineNode : Lexed .generic defineNodeWord := lexed_word rfl (by decide)

theorem lexed_defineRule : Lexed .generic defineRuleWord := lexed_word rfl (by decide)

theorem lexed_defineRuleStar : Lexed .generic defineRuleStarWord := lexed_word rfl (by decide)

theorem spells_import (h : ∀ name ∈ nameList, Lexed .generic name) :
    Spells ('(' :: (importWord ++ ' ' :: (nameListPrint nameList ++ ' ' :: '"' :: rest)))
      ((.delimiter, ['(']) :: (.generic, importWord) :: nameList.map ((.generic, ·)))
      ('"' :: rest) := by
  have hq : ∀ c ∈ ('"' :: rest).head?, !isspace c := by
    rintro _ ⟨⟩
    decide
  have hword (rest : Text) : Spells ('(' :: (importWord ++ ' ' :: rest))
      ([(.delimiter, ['('])] ++ [(.generic, importWord)]) (' ' :: rest) :=
    Spells.openParen.append (.of_name lexed_import (isEnd_space rest))
  rw [nameListPrint_eq]
  cases nameList with
  | nil =>
    have hs : Spells ([' ', ' '] ++ '"' :: rest) [] ('"' :: rest) :=
      .space (by decide) (List.all_eq_true.mp rfl) hq
    exact (hword (' ' :: '"' :: rest)).append hs
  | cons name nameList =>
    have hp : PrintableTrees ((name :: nameList).map nameTree) := printable_names h
    have hs : Spells ([' '] ++ '"' :: rest) [] ('"' :: rest) := .blank hq
    have hs' := PrintableTrees.head_print hp (' ' :: '"' :: rest)
    have hn := (hword _).append ((Spells.blank hs').append
      ((Spells.of_trees hp (isEnd_space ('"' :: rest))).append hs))
    rw [wordsOf_names] at hn
    simpa using hn

theorem spells_defineNode (hn : Lexed .generic name) (h : ∀ name ∈ nameList, Lexed .generic name) :
    Spells ('(' :: (defineNodeWord ++ ' ' :: (name ++ ' ' :: (nameListPrint nameList ++ [')']))))
      (Stmt.defineNode name nameList).tree.words [] := by
  have hword (rest : Text) : Spells ('(' :: (defineNodeWord ++ ' ' :: (name ++ ' ' :: rest)))
      ([(.delimiter, ['('])] ++ ([(.generic, defineNodeWord)] ++ ([] ++ [(.generic, name)])))
      (' ' :: rest) :=
    Spells.openParen.append ((Spells.of_name lexed_defineNode (isEnd_space _)).append
      ((Spells.blank (head_name hn _)).append
        (.of_name hn (isEnd_space rest))))
  rw [nameListPrint_eq]
  cases nameList with
  | nil =>
    have hs : Spells ([' '] ++ [')']) [] [')'] := by
      apply Spells.blank
      rintro _ ⟨⟩
      decide
    exact (hword [')']).append (hs.append Spells.closeParen)
  | cons port portNameList =>
    have hp : PrintableTrees ((port :: portNameList).map nameTree) := printable_names h
    have hs := PrintableTrees.head_print hp [')']
    have hc := (hword _).append ((Spells.blank hs).append
      ((Spells.of_trees hp (isEnd_close [])).append Spells.closeParen))
    simpa [Stmt.tree, Tree.words, wordsOf, nameTree] using hc

theorem Stmt.printable {stmt : Stmt} (h : stmt.Ordinary) (hp : stmt.Parsed)
    (hpath : stmt.PlainPath) : stmt.tree.Printable := by
  cases stmt with
  | define name exp =>
    exact ⟨printable_name lexed_define, printable_name h.1, h.2.printable, trivial⟩
  | defineFunction name argNameList expList =>
    exact ⟨printable_name lexed_define, ⟨printable_name h.1, printable_names h.2.1⟩,
      h.2.2.printable⟩
  | defineNode name portNameList =>
    exact ⟨printable_name lexed_defineNode, printable_name h.1, printable_names h.2⟩
  | defineRule patternExp expList =>
    exact ⟨printable_name lexed_defineRule, h.1.printable, h.2.printable⟩
  | defineRuleStar patternExpList expList =>
    exact ⟨printable_name lexed_defineRuleStar, h.1.printable, h.2.printable⟩
  | runExp exp => exact Exp.Ordinary.printable h
  | stmtImport nameList path =>
    obtain ⟨p, rfl, hq, hb, ho, hc⟩ := hpath
    have hl : Lexed .string p.string := .string hp.1 hp.2
    have hatom : Printable .string p.string := ⟨hl, nofun, ho, hc, fun _ => ⟨hq, hb⟩⟩
    exact ⟨printable_name lexed_import, (printable_names h).concat hatom⟩

theorem print_asTail {expList : List Exp} (h : OrdinaryList expList) (word : Text) (tree : Tree) :
    (Tree.list (nameTree word :: tree :: expTrees expList)).print =
      '(' :: (word ++ ' ' :: (tree.print ++ expListPrintAsTail expList)) := by
  rw [expListPrintAsTail, expListPrint_eq h]
  cases expList with
  | nil => simp [Tree.print, printTrees, nameTree, expTrees]
  | cons exp expList => simp [Tree.print, printTrees, nameTree, expTrees]

theorem print_args (argNameList : List Text) :
    (Tree.list (nameTree name :: argNameList.map nameTree)).print = '(' :: (name ++
      if argNameList.isEmpty then [')'] else ' ' :: (nameListPrint argNameList ++ [')'])) := by
  rw [nameListPrint_eq]
  cases argNameList with
  | nil => simp [Tree.print, printTrees, nameTree]
  | cons arg argNameList => simp [Tree.print, printTrees, nameTree]

theorem exists_spells_stmtPrint {stmt : Stmt} (h : stmt.Ordinary) (hp : stmt.Parsed)
    (hpath : stmt.PlainPath) :
    ∃ text, stmtPrint stmt = some text ∧ Spells text stmt.tree.words [] := by
  have hexact (he : stmtPrint stmt = some stmt.tree.print) :
      ∃ text, stmtPrint stmt = some text ∧ Spells text stmt.tree.words [] := by
    have hs : Spells (stmt.tree.print ++ []) stmt.tree.words [] :=
      .of_tree (stmt.printable h hp hpath) nofun
    rw [List.append_nil] at hs
    exact ⟨_, he, hs⟩
  cases stmt with
  | define name exp =>
    apply hexact
    simp [stmtPrint, Stmt.tree, nameTree, Tree.print, printTrees, expPrint_eq h.2]
  | defineFunction name argNameList expList =>
    apply hexact
    rw [stmtPrint, Stmt.tree, print_asTail h.2.2, print_args]
    simp
  | defineNode name portNameList => exact ⟨_, rfl, spells_defineNode h.1 h.2⟩
  | defineRule patternExp expList =>
    apply hexact
    rw [stmtPrint, Stmt.tree, print_asTail h.2, expPrint_eq h.1]
  | defineRuleStar patternExpList expList =>
    apply hexact
    rw [stmtPrint, Stmt.tree, print_asTail h.2, expListPrintAsList, expListPrint_eq h.1]
    rfl
  | runExp exp =>
    apply hexact
    rw [stmtPrint, expPrint_eq h]
    rfl
  | stmtImport nameList path =>
    obtain ⟨p, rfl, hq, hb, -, -⟩ := hpath
    have hstring : Spells ('"' :: (p.string ++ ['"']) ++ [')']) [(.string, p.string)] [')'] := by
      have hcut : Cuts (.string p.string p.string) [')'] := .string (Printable.unescapes hq hb)
      have hs := Spells.of_cuts hcut hp.2
      rwa [Piece.word, stringCopy_of_not_mem hp.1] at hs
    have hs := (spells_import h).append (hstring.append Spells.closeParen)
    refine ⟨_, rfl, ?_⟩
    simpa [Stmt.tree, Tree.words, wordsOf, nameTree, wordsOf_append, wordsOf_names] using hs

/-- A body without an escape is what it stands for, and only such a body is as long. -/
theorem plain_of_unescapes (h : Unescapes s text) (hl : s.length ≤ text.length) :
    '"' ∉ s ∧ '\\' ∉ s ∧ text = s := by
  induction h with
  | nil => exact ⟨nofun, nofun, rfl⟩
  | char hb hq _ ih =>
    obtain ⟨hq', hb', rfl⟩ := ih (Nat.le_of_succ_le_succ hl)
    exact ⟨by simp [Ne.symm hq, hq'], by simp [Ne.symm hb, hb'], rfl⟩
  | escape _ h _ =>
    have hle := h.length_le
    simp only [List.length_cons] at hl
    omega

/-- A literal that is at least as long as the path in front of it is the path. -/
theorem body_eq {body r : Text} (h : body ++ '"' :: r = s ++ ['"', ')'])
    (hl : s.length ≤ body.length) : body = s := by
  have hlen := congrArg List.length h
  simp only [List.length_append, List.length_cons, List.length_nil] at hlen
  rcases Nat.eq_or_lt_of_le hl with hl | hl
  · exact (List.append_inj h hl.symm).1
  · have hr : r = [] := List.length_eq_zero_iff.mp (by omega)
    subst hr
    have hlast := congrArg List.getLast? h
    simp at hlast

theorem map_snd_word (tokenList : List Token) :
    (tokenList.map Token.word).map Prod.snd = tokenList.map Token.string := by
  rw [List.map_map]
  rfl

theorem map_word_of_atoms {sexpList : List Sexp} {atoms : List (TokenKind × Text)}
    (h : treesOf sexpList = atoms.map fun w => .atom w.1 w.2) :
    (tokensOfList sexpList).map Token.word = atoms := by
  induction sexpList generalizing atoms with
  | nil => rw [List.map_eq_nil_iff.mp h.symm]; rfl
  | cons sexp sexpList ih =>
    cases atoms with
    | nil => cases h
    | cons w atoms =>
      obtain ⟨hs, hl⟩ := List.cons.inj h
      cases sexp with
      | list => cases hs
      | atom token =>
        obtain ⟨hk, ht⟩ := Tree.atom.inj hs
        rw [tokensOfList, Sexp.tokens, List.map_append, ih hl]
        simp [Token.word, hk, ht]

theorem exists_literal_of_lexerRun {tokenList : List Token}
    (h : ∀ name ∈ nameList, Lexed .generic name)
    (hrun : lexerRun sexpConfig ('(' :: (importWord ++ ' ' ::
      (nameListPrint nameList ++ ' ' :: '"' :: rest))) = some (.ok tokenList)) :
    ∃ body content r words, rest = body ++ '"' :: r ∧ Unescapes body content ∧
      tokenList.map Token.word = (.delimiter, ['(']) :: (.generic, importWord) ::
        (nameList.map ((.generic, ·)) ++ (.string, stringCopy content) :: words) := by
  obtain ⟨ps, ht, -, hw⟩ : Spells _ _ ('"' :: rest) := spells_import h
  obtain ⟨qs, htiles, -, rfl⟩ := exists_tiles_of_lexerRun hrun
  obtain ⟨l, rfl, hl⟩ := ht.exists_append htiles
  generalize hx : '"' :: rest = x at hl
  cases hl with
  | nil => cases hx
  | @cons piece rest' stop pieces hc =>
    obtain ⟨c, m, hp, hshape⟩ := hc.startsWith
    rw [hp] at hx
    obtain ⟨rfl, hx⟩ := List.cons.inj hx
    cases hc with
    | @string body content r hu =>
      obtain rfl := (List.cons.inj hp).2
      use body, content, rest', pieces.filterMap Piece.word
      refine ⟨by simpa using hx, hu, ?_⟩
      rw [map_word_tokensOf, List.filterMap_append, hw]
      rfl
    | _ => cases hshape

theorem exists_path_of_parseStmt {P : TokenKind → Text → Prop} {sexp : Sexp} {path : Path}
    (hs : parseStmt sexp.tree = some (.stmtImport nameList (some path))) (hP : sexp.tree.All P) :
    ∃ start kind string stop, path = .new string ∧ P kind string ∧
      sexp.tokens.map Token.string = start :: importWord :: (nameList ++ string :: stop) := by
  obtain ⟨kind, l, ht, himport⟩ := parseStmt_eq_import hs
  rcases parseImport_eq_some himport with ⟨-, he⟩ | ⟨atoms, kind', string, rfl, he⟩
  · cases he
  · obtain ⟨rfl, hpath⟩ := Stmt.stmtImport.inj he
    rw [ht] at hP
    cases sexp with
    | atom token => cases ht
    | list startToken endToken sexpList =>
      have hatoms : treesOf sexpList = ((kind, importWord) :: (atoms ++ [(kind', string)])).map
          fun w => .atom w.1 w.2 := by simpa [Sexp.tree] using ht
      have hw := congrArg (List.map Prod.snd) (map_word_of_atoms hatoms)
      rw [map_snd_word] at hw
      have hw : (tokensOfList sexpList).map Token.string =
          importWord :: (atoms.map Prod.snd ++ [string]) := by simpa using hw
      have hstring : P kind' string := hP.2.append.1
      use startToken.string, kind', string, endToken.toList.map Token.string
      refine ⟨Option.some.inj hpath, hstring, ?_⟩
      simp [Sexp.tokens, hw]

theorem plain_of_parseImport {path : Path} {sexp : Sexp}
    (h : ∀ name ∈ nameList, Lexed .generic name)
    (ht : stmtPrint (.stmtImport nameList (some path)) = some text)
    (hp : sexpParse text = some (.ok (some sexp)))
    (hs : parseStmt sexp.tree = some (.stmtImport nameList (some path))) :
    (Stmt.stmtImport nameList (some path)).PlainPath := by
  obtain ⟨result, hlist, he⟩ := Option.map_eq_some_iff.mp hp
  cases result with
  | error e => cases he
  | ok sexpList =>
    obtain ⟨l, rfl⟩ := List.head?_eq_some_iff.mp (Except.ok.inj he)
    obtain ⟨tokenList, hrun, hparse⟩ := lexerRun_of_sexpParseList hlist
    have htokens : tokenList = sexp.tokens ++ tokensOfList l := by
      have htok := (tokens_of_parse _).2 _ _ _ hparse
      rwa [List.append_nil] at htok
    have hall := all_of_sexpParseList (P := fun _ _ => True) hlist List.mem_cons_self
      fun _ _ _ _ => trivial
    obtain ⟨start, kind, string, stop, rfl, ⟨-, ho, hc⟩, hstring⟩ :=
      exists_path_of_parseStmt hs hall
    have htext : text = '(' :: (importWord ++ ' ' :: (nameListPrint nameList ++
        ' ' :: '"' :: ((Path.new string).string ++ ['"', ')']))) := by
      rw [← Option.some.inj ht]
      simp
    rw [htext] at hrun
    obtain ⟨body, content, r, words, hbody, hu, hwords⟩ := exists_literal_of_lexerRun h hrun
    have hsame : string = stringCopy content := by
      have hmap := congrArg (List.map Prod.snd) hwords
      rw [map_snd_word, htokens, List.map_append, hstring] at hmap
      obtain ⟨-, hmap⟩ := List.cons.inj hmap
      obtain ⟨-, hmap⟩ := List.cons.inj hmap
      rw [List.append_eq, List.append_assoc, List.map_append, List.map_map] at hmap
      have hnames : nameList.map (Prod.snd ∘ ((TokenKind.generic, ·))) = nameList := by
        rw [← List.map_id nameList, List.map_map]
        rfl
      rw [hnames] at hmap
      exact (List.cons.inj (List.append_cancel_left hmap)).1
    have hcontent : string.length ≤ content.length :=
      hsame ▸ (List.takeWhile_prefix _).length_le
    have hlen := (Path.length_string_new_le string).trans hcontent
    obtain rfl := body_eq hbody.symm (hlen.trans hu.length_le)
    obtain ⟨hq, hb, rfl⟩ := plain_of_unescapes hu hlen
    refine ⟨_, rfl, hq, hb, ?_, ?_⟩
    · intro he
      rw [he] at hsame
      exact ho hsame
    · intro he
      rw [he] at hsame
      exact hc hsame

/-- The statement is printed, and the text is parsed into it. -/
def RoundTrip (stmt : Stmt) : Prop :=
  ∃ text sexp, stmtPrint stmt = some text ∧ sexpParse text = some (.ok (some sexp)) ∧
    parseStmt sexp.tree = some stmt

theorem plainPath_of_roundTrip {stmt : Stmt} (h : stmt.Ordinary) (hr : RoundTrip stmt) :
    stmt.PlainPath := by
  obtain ⟨text, sexp, ht, hp, hs⟩ := hr
  match stmt with
  | .stmtImport nameList (some path) => exact plain_of_parseImport h ht hp hs
  | .stmtImport nameList none => cases ht
  | .define _ _ | .defineFunction _ _ _ | .defineNode _ _ | .defineRule _ _
  | .defineRuleStar _ _ | .runExp _ => trivial

/-- What a statement with a plain path is printed as is parsed into the statement, but for
the expressions of its assignments. -/
theorem exists_reread {stmt : Stmt} (h : stmt.Ordinary) (hp : stmt.Parsed)
    (hpath : stmt.PlainPath) :
    ∃ text sexp, stmtPrint stmt = some text ∧ sexpParse text = some (.ok (some sexp)) ∧
      parseStmt sexp.tree = some stmt.reread := by
  obtain ⟨text, ht, ps, htiles, hl, hw⟩ := exists_spells_stmtPrint h hp hpath
  obtain ⟨sexp, hs, htree⟩ := exists_sexpParse htiles hl hw (stmt.printable h hp hpath)
  exact ⟨text, sexp, ht, hs, htree ▸ parseStmt_tree h hp⟩

/-- A statement comes back from its text if and only if it has no assignment with an
expression and imports nothing or a plain path. -/
theorem roundTrip_iff (source : CString) {sexpList : List Sexp} {sexp : Sexp} {stmt : Stmt}
    (h : sexpParseList source.text = some (.ok sexpList)) (hs : sexp ∈ sexpList)
    (hparse : parseStmt sexp.tree = some stmt) (ho : stmt.Ordinary) :
    RoundTrip stmt ↔ stmt.NoAssign ∧ stmt.PlainPath := by
  have hall : sexp.tree.All fun kind string => Lexed kind string ∧ string ≠ ['('] ∧
      string ≠ [')'] :=
    all_of_sexpParseList h hs fun _ hrun token ht => lexed_of_lexerRun hrun token ht
  have hp : stmt.Parsed := .of_parseStmt hparse (hall.mono fun _ _ ha => ha.1)
  constructor
  · intro hr
    have hpath := plainPath_of_roundTrip ho hr
    obtain ⟨text, sexp, ht, hsexp, hs⟩ := hr
    obtain ⟨text', sexp', ht', hsexp', hs'⟩ := exists_reread ho hp hpath
    obtain rfl := Option.some.inj (ht.symm.trans ht')
    obtain rfl := Option.some.inj (Except.ok.inj (Option.some.inj (hsexp.symm.trans hsexp')))
    exact ⟨(Stmt.reread_eq_iff hp).mp (Option.some.inj (hs'.symm.trans hs)), hpath⟩
  · rintro ⟨hn, hpath⟩
    have hr := exists_reread ho hp hpath
    rwa [(Stmt.reread_eq_iff hp).mpr hn] at hr

end

/-- `(define x (f 1))` -/
def defineStmt : Stmt := .define ['x'] (.ap (.var ['f']) [.int 1])

theorem roundTrip_define :
    RoundTrip defineStmt ↔ defineStmt.NoAssign ∧ defineStmt.PlainPath := by
  have hx : Lexed .generic ['x'] := lexed_word rfl (by decide)
  have hf : Lexed .generic ['f'] := lexed_word rfl (by decide)
  have hone : -2 ^ 60 ≤ (1 : BitVec 64).toInt ∧ (1 : BitVec 64).toInt < 2 ^ 60 := by decide
  have ho : defineStmt.Ordinary := ⟨hx, hf, hone, trivial⟩
  have hp : defineStmt.Parsed := ⟨by simp [equals, assignWord], trivial, trivial, trivial⟩
  obtain ⟨sexp, hs, htree⟩ := (Stmt.printable ho hp trivial).exists_sexpParseList
  have hz : '\x00' ∉ defineStmt.tree.print := by decide
  exact roundTrip_iff ⟨defineStmt.tree.print, hz⟩ hs (.head _) (htree ▸ parseStmt_tree ho hp) ho

/-- `(= x (f))` -/
def assignStmt : Stmt := .runExp (.assign [['x']] (.ap (.var ['f']) []))

/-- An assignment is printed as `(= x)`, which is read as an assignment of no names. -/
theorem not_roundTrip : ¬∀ (source : CString) (sexpList : List Sexp) (sexp : Sexp) (stmt : Stmt),
    sexpParseList source.text = some (.ok sexpList) → sexp ∈ sexpList →
      parseStmt sexp.tree = some stmt → stmt.Ordinary → RoundTrip stmt := by
  intro h
  have hx : Lexed .generic ['x'] := lexed_word rfl (by decide)
  have hf : Lexed .generic ['f'] := lexed_word rfl (by decide)
  let tree : Tree := .list [nameTree equals, nameTree ['x'], .list [nameTree ['f']]]
  have hprintable : tree.Printable :=
    ⟨printable_name lexed_equals, printable_name hx, ⟨printable_name hf, trivial⟩, trivial⟩
  have hparse : parseStmt tree = some assignStmt := rfl
  have ho : assignStmt.Ordinary := ⟨by simpa using hx, hf, trivial⟩
  have hp : assignStmt.Parsed := ⟨⟨by simp [equals, assignWord], trivial, trivial⟩, nofun⟩
  obtain ⟨sexp, hs, htree⟩ := hprintable.exists_sexpParseList
  obtain ⟨text, sexp', ht, hsexp, hread⟩ :=
    h ⟨tree.print, by decide⟩ [sexp] sexp assignStmt hs (.head _) (htree ▸ hparse) ho
  obtain ⟨text', sexp'', ht', hsexp', hread'⟩ := exists_reread ho hp trivial
  obtain rfl := Option.some.inj (ht.symm.trans ht')
  obtain rfl := Option.some.inj (Except.ok.inj (Option.some.inj (hsexp.symm.trans hsexp')))
  rw [hread] at hread'
  cases Option.some.inj hread'

end InetLisp.Parse
