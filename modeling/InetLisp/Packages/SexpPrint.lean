import InetLisp.Packages.Sexp

/-! # Printing S-expressions

A tree is an S-expression without the places of its tokens. What is printed is cut into
the words of the tree again, whatever spaces stand between them, and the parser makes the
tree of them.
-/

namespace InetLisp

open Lexer

mutual

def sexpPrint : Sexp → Text
  | .atom token => match token.kind with
    | .generic | .delimiter | .int | .float => token.string
    | .string => '"' :: (token.string ++ ['"'])
  | .list _ _ sexpList => '(' :: (sexpListPrint sexpList ++ [')'])

/-- The loop of `list_sexp_print`. -/
def sexpListPrint : List Sexp → Text
  | [] => []
  | [sexp] => sexpPrint sexp
  | sexp :: sexp' :: sexpList => sexpPrint sexp ++ ' ' :: sexpListPrint (sexp' :: sexpList)

end

inductive Tree where
  | atom (kind : TokenKind) (string : Text)
  | list (treeList : List Tree)
  deriving Repr

mutual

def Sexp.tree : Sexp → Tree
  | .atom token => .atom token.kind token.string
  | .list _ _ sexpList => .list (treesOf sexpList)

def treesOf : List Sexp → List Tree
  | [] => []
  | sexp :: sexpList => sexp.tree :: treesOf sexpList

end

mutual

/-- The kinds and the strings of the tokens of a tree. -/
def Tree.words : Tree → List (TokenKind × Text)
  | .atom kind string => [(kind, string)]
  | .list treeList => (.delimiter, ['(']) :: (wordsOf treeList ++ [(.delimiter, [')'])])

def wordsOf : List Tree → List (TokenKind × Text)
  | [] => []
  | tree :: treeList => tree.words ++ wordsOf treeList

end

mutual

def Tree.print : Tree → Text
  | .atom kind string => if kind = .string then '"' :: (string ++ ['"']) else string
  | .list treeList => '(' :: (printTrees treeList ++ [')'])

def printTrees : List Tree → Text
  | [] => []
  | [tree] => tree.print
  | tree :: tree' :: treeList => tree.print ++ ' ' :: printTrees (tree' :: treeList)

end

mutual

def Tree.pieces : Tree → List Piece
  | .atom kind string => if kind = .string then [.string string string] else [.generic string]
  | .list treeList => .delimiter '(' :: (piecesOf treeList ++ [.delimiter ')'])

def piecesOf : List Tree → List Piece
  | [] => []
  | [tree] => tree.pieces
  | tree :: tree' :: treeList => tree.pieces ++ .space [' '] :: piecesOf (tree' :: treeList)

end

/-- An atom that is printed as it is read. -/
structure Printable (kind : TokenKind) (string : Text) : Prop where
  lexed : Lexed kind string
  kind_ne : kind ≠ .delimiter
  ne_open : string ≠ ['(']
  ne_close : string ≠ [')']
  literal : kind = .string → '"' ∉ string ∧ '\\' ∉ string

mutual

def Tree.All (P : TokenKind → Text → Prop) : Tree → Prop
  | .atom kind string => P kind string
  | .list treeList => AllTrees P treeList

def AllTrees (P : TokenKind → Text → Prop) : List Tree → Prop
  | [] => True
  | tree :: treeList => tree.All P ∧ AllTrees P treeList

end

def Tree.Printable (tree : Tree) : Prop := tree.All InetLisp.Printable

def PrintableTrees (treeList : List Tree) : Prop := AllTrees InetLisp.Printable treeList

theorem PrintableTrees.head {tree : Tree} {treeList : List Tree}
    (h : PrintableTrees (tree :: treeList)) : tree.Printable := h.1

theorem PrintableTrees.tail {tree : Tree} {treeList : List Tree}
    (h : PrintableTrees (tree :: treeList)) : PrintableTrees treeList := h.2

theorem wordsOf_append (l m : List Tree) : wordsOf (l ++ m) = wordsOf l ++ wordsOf m := by
  induction l with
  | nil => rfl
  | cons tree l ih => simp [wordsOf, ih]

theorem PrintableTrees.concat {kind : TokenKind} {string : Text} {treeList : List Tree}
    (h : PrintableTrees treeList) (hp : InetLisp.Printable kind string) :
    PrintableTrees (treeList ++ [.atom kind string]) := by
  induction treeList with
  | nil => exact ⟨hp, trivial⟩
  | cons tree treeList ih => exact ⟨h.head, ih h.tail⟩

def Token.word (token : Token) : TokenKind × Text := (token.kind, token.string)

/-- The word of the token of a piece. -/
def Piece.word : Piece → Option (TokenKind × Text)
  | space _ => none
  | comment _ => none
  | delimiter c => some (.delimiter, [c])
  | string _ content => some (.string, stringCopy content)
  | generic s => some (kindOf (stringCopy s), stringCopy s)

section

variable {tree : Tree} {treeList : List Tree} {kind : TokenKind} {string text mid stop rest : Text}
  {ps qs : List Piece} {tokenList : List Token}

mutual

theorem sexpPrint_eq : ∀ sexp : Sexp, sexpPrint sexp = sexp.tree.print
  | .atom token => by
    rw [sexpPrint, Sexp.tree, Tree.print]
    cases token.kind <;> rfl
  | .list _ _ sexpList => by rw [sexpPrint, Sexp.tree, Tree.print, sexpListPrint_eq sexpList]

theorem sexpListPrint_eq :
    ∀ sexpList : List Sexp, sexpListPrint sexpList = printTrees (treesOf sexpList)
  | [] => rfl
  | [sexp] => sexpPrint_eq sexp
  | sexp :: sexp' :: sexpList => by
    rw [sexpListPrint, sexpPrint_eq sexp, sexpListPrint_eq (sexp' :: sexpList)]
    rfl

end

theorem map_word_tokensOf (before : Text) :
    (tokensOf before ps).map Token.word = ps.filterMap Piece.word := by
  induction ps generalizing before with
  | nil => rfl
  | cons piece ps ih =>
    rw [tokensOf, List.map_append, ih]
    cases piece <;> rfl

theorem Tree.words_ne_nil : tree.words ≠ [] := by
  cases tree <;> exact List.cons_ne_nil _ _

theorem Tree.Printable.head_words (h : tree.Printable) : ∀ w ∈ tree.words.head?, w.2 ≠ [')'] := by
  cases tree with
  | atom kind string =>
    rintro _ ⟨⟩
    exact InetLisp.Printable.ne_close h
  | list treeList =>
    rintro _ ⟨⟩
    decide

mutual

theorem parseSexp_words : ∀ tree : Tree, tree.Printable →
    ∀ {tokenList rest : List Token} {fuel : ℕ}, tokenList.map Token.word = tree.words →
    2 * tokenList.length ≤ fuel →
    ∃ sexp, parseSexp fuel (tokenList ++ rest) = some (sexp, rest) ∧ sexp.tree = tree
  | .atom kind string, h, tokenList, rest, fuel, hw, hf => by
    obtain ⟨token, rfl, ht⟩ := List.map_eq_singleton_iff.mp hw
    obtain ⟨rfl, rfl⟩ := Prod.mk.inj ht
    rw [List.length_singleton] at hf
    obtain ⟨fuel, rfl⟩ := Nat.exists_eq_succ_of_ne_zero (by omega : fuel ≠ 0)
    have ho : token.string ≠ ['('] := InetLisp.Printable.ne_open h
    use .atom token
    rw [List.singleton_append, parseSexp, if_neg ho]
    exact ⟨rfl, rfl⟩
  | .list treeList, h, tokenList, rest, fuel, hw, hf => by
    obtain ⟨a, l, rfl, ha, hw⟩ := List.map_eq_cons_iff.mp hw
    obtain ⟨ts, r, rfl, hts, hr⟩ := List.map_eq_append_iff.mp hw
    obtain ⟨z, rfl, hz⟩ := List.map_eq_singleton_iff.mp hr
    obtain ⟨fuel, rfl⟩ := Nat.exists_eq_succ_of_ne_zero (by simp at hf; omega : fuel ≠ 0)
    have hf : 2 * ts.length + 1 ≤ fuel := by
      simp only [List.length_cons, List.length_append, List.length_nil] at hf
      omega
    have hz : ∀ token ∈ (z :: rest).head?, token.string = [')'] := by
      rintro _ ⟨⟩
      exact (Prod.mk.inj hz).2
    obtain ⟨sexpList, hl, ht⟩ := parseList_words treeList h hts hf hz
    use .list a (some z) sexpList
    have happ : a :: (ts ++ [z]) ++ rest = a :: (ts ++ z :: rest) := by simp
    rw [happ, parseSexp, if_pos (Prod.mk.inj ha).2, hl]
    exact ⟨rfl, congrArg Tree.list ht⟩

theorem parseList_words : ∀ treeList : List Tree, PrintableTrees treeList →
    ∀ {tokenList rest : List Token} {fuel : ℕ}, tokenList.map Token.word = wordsOf treeList →
    2 * tokenList.length + 1 ≤ fuel → (∀ token ∈ rest.head?, token.string = [')']) →
    ∃ sexpList, parseList fuel (tokenList ++ rest) = some (sexpList, rest) ∧
      treesOf sexpList = treeList
  | [], _, tokenList, rest, fuel, hw, hf, hr => by
    obtain rfl := List.map_eq_nil_iff.mp hw
    obtain ⟨fuel, rfl⟩ := Nat.exists_eq_succ_of_ne_zero (by omega : fuel ≠ 0)
    use []
    cases rest with
    | nil => exact ⟨rfl, rfl⟩
    | cons token rest =>
      rw [List.nil_append, parseList, if_pos (hr token rfl)]
      exact ⟨rfl, rfl⟩
  | tree :: treeList, h, tokenList, rest, fuel, hw, hf, hr => by
    obtain ⟨ts, l, rfl, hts, hl⟩ := List.map_eq_append_iff.mp hw
    obtain ⟨fuel, rfl⟩ := Nat.exists_eq_succ_of_ne_zero (by omega : fuel ≠ 0)
    cases ts with
    | nil => exact (tree.words_ne_nil hts.symm).elim
    | cons t ts =>
      simp only [List.length_cons, List.length_append] at hf
      have hc : t.string ≠ [')'] := h.head.head_words t.word (by rw [← hts]; rfl)
      have hs : ∃ sexp, parseSexp fuel (t :: ts ++ (l ++ rest)) = some (sexp, l ++ rest) ∧
          sexp.tree = tree := parseSexp_words tree h.head hts (by rw [List.length_cons]; omega)
      have hp : ∃ sexpList, parseList fuel (l ++ rest) = some (sexpList, rest) ∧
          treesOf sexpList = treeList := parseList_words treeList h.tail hl (by omega) hr
      obtain ⟨sexp, hs, rfl⟩ := hs
      obtain ⟨sexpList, hp, rfl⟩ := hp
      use sexp :: sexpList
      have happ : t :: ts ++ l ++ rest = t :: (ts ++ (l ++ rest)) := by simp
      rw [happ, parseList, if_neg hc]
      rw [List.cons_append] at hs
      simp [hs, hp, treesOf]

end

theorem kindOf_ne (s : Text) : kindOf s ≠ .string ∧ kindOf s ≠ .delimiter := by
  unfold kindOf
  split
  · decide
  · split <;> decide

namespace Printable

def piece (kind : TokenKind) (string : Text) : Piece :=
  if kind = .string then .string string string else .generic string

theorem unescapes (hq : '"' ∉ string) (hb : '\\' ∉ string) : Unescapes string string := by
  induction string with
  | nil => exact .nil
  | cons c s ih =>
    rw [List.mem_cons, not_or] at hq hb
    exact .char (Ne.symm hb.1) (Ne.symm hq.1) (ih hq.2 hb.2)

theorem cuts (h : Printable kind string) (hr : ∀ c ∈ rest.head?, isEnd c) :
    Cuts (piece kind string) rest := by
  have hl := h.literal
  have hd := h.kind_ne
  obtain ⟨hlex, -, -, -, -⟩ := h
  cases hlex with
  | delimiter => exact (hd rfl).elim
  | string => exact .string (unescapes (hl rfl).1 (hl rfl).2)
  | generic hn hs hh hz hlen =>
    rw [piece, if_neg (kindOf_ne string).1]
    exact .generic hn hs hh hr

theorem text_piece : (piece kind string).text = (Tree.atom kind string).print := by
  unfold piece Tree.print
  split <;> rfl

theorem word_piece (h : Printable kind string) :
    (piece kind string).word = some (kind, string) := by
  have hd := h.kind_ne
  obtain ⟨hlex, -, -, -, -⟩ := h
  cases hlex with
  | delimiter => exact (hd rfl).elim
  | string hz => simp [piece, Piece.word, stringCopy_of_not_mem hz]
  | generic hn hs hh hz =>
    simp [piece, kindOf_ne string, Piece.word, stringCopy_of_not_mem hz]

theorem length_le (h : Printable kind string) :
    (piece kind string).content.length ≤ maxTokenLength := by
  have hd := h.kind_ne
  obtain ⟨hlex, -, -, -, -⟩ := h
  cases hlex with
  | delimiter => exact (hd rfl).elim
  | string hz hl => exact hl
  | generic hn hs hh hz hlen =>
    rw [piece, if_neg (kindOf_ne string).1]
    exact hlen

end Printable

theorem Tiles.append (h : Tiles text ps mid) (h' : Tiles mid qs stop) :
    Tiles text (ps ++ qs) stop := by
  induction h with
  | nil => exact h'
  | cons hc _ ih => exact .cons hc (ih h')

theorem Tiles.single {p : Piece} (h : Cuts p rest) : Tiles (p.text ++ rest) [p] rest := .cons h .nil

theorem isEnd_close (rest : Text) : ∀ c ∈ (')' :: rest).head?, isEnd c := by
  rintro _ ⟨⟩
  decide

theorem isEnd_space (rest : Text) : ∀ c ∈ (' ' :: rest).head?, isEnd c := by
  rintro _ ⟨⟩
  decide

theorem Tree.Printable.head_print (h : tree.Printable) :
    ∃ c l, tree.print = c :: l ∧ isspace c = false := by
  cases tree with
  | list treeList => exact ⟨_, _, rfl, rfl⟩
  | atom kind string =>
    have hc : Cuts (InetLisp.Printable.piece kind string) [] := InetLisp.Printable.cuts h nofun
    obtain ⟨c, l, hl, hs⟩ := hc.startsWith
    rw [InetLisp.Printable.text_piece] at hl
    refine ⟨c, l, hl, ?_⟩
    by_contra hsp
    rw [Bool.not_eq_false] at hsp
    rw [startsWith, if_pos hsp, InetLisp.Printable.piece] at hs
    split at hs <;> cases hs

theorem PrintableTrees.head_print (h : PrintableTrees (tree :: treeList)) (rest : Text) :
    ∀ c ∈ (printTrees (tree :: treeList) ++ rest).head?, !isspace c := by
  obtain ⟨c, l, hc, hs⟩ := h.head.head_print
  cases treeList with
  | nil =>
    rw [printTrees, hc]
    rintro _ ⟨⟩
    rw [hs]
    rfl
  | cons tree' treeList =>
    rw [printTrees, hc]
    rintro _ ⟨⟩
    rw [hs]
    rfl

mutual

theorem Tree.Printable.tiles : ∀ {tree : Tree}, tree.Printable →
    ∀ {rest : Text}, (∀ c ∈ rest.head?, isEnd c) → Tiles (tree.print ++ rest) tree.pieces rest
  | .atom kind string, h, rest, hr => by
    have ht := Tiles.single (InetLisp.Printable.cuts h hr)
    rw [InetLisp.Printable.text_piece] at ht
    have hp : (Tree.atom kind string).pieces = [InetLisp.Printable.piece kind string] := by
      unfold Tree.pieces InetLisp.Printable.piece
      split <;> rfl
    rwa [hp]
  | .list treeList, h, rest, hr => by
    have hp : PrintableTrees treeList := h
    have ho : Tiles ('(' :: (printTrees treeList ++ ')' :: rest)) [.delimiter '(']
        (printTrees treeList ++ ')' :: rest) := .single (.delimiter (by decide))
    have hl := hp.tiles (isEnd_close rest)
    have hc : Tiles (')' :: rest) [.delimiter ')'] rest := .single (.delimiter (by decide))
    have happ : (Tree.list treeList).print ++ rest =
        '(' :: (printTrees treeList ++ ')' :: rest) := by
      simp [Tree.print]
    rw [happ]
    exact ho.append (hl.append hc)

theorem PrintableTrees.tiles : ∀ {treeList : List Tree}, PrintableTrees treeList →
    ∀ {rest : Text}, (∀ c ∈ rest.head?, isEnd c) →
    Tiles (printTrees treeList ++ rest) (piecesOf treeList) rest
  | [], _, _, _ => .nil
  | [tree], h, _, hr => h.head.tiles hr
  | tree :: tree' :: treeList, h, rest, hr => by
    have ht := h.head.tiles (isEnd_space (printTrees (tree' :: treeList) ++ rest))
    have hl : Tiles (printTrees (tree' :: treeList) ++ rest) (piecesOf (tree' :: treeList)) rest :=
      h.tail.tiles hr
    have hs : Tiles (' ' :: (printTrees (tree' :: treeList) ++ rest)) [.space [' ']]
        (printTrees (tree' :: treeList) ++ rest) := by
      have hsp := PrintableTrees.head_print h.tail rest
      exact .single (.space (s := [' ']) (by decide) (List.all_eq_true.mp rfl) hsp)
    have happ : printTrees (tree :: tree' :: treeList) ++ rest =
        tree.print ++ ' ' :: (printTrees (tree' :: treeList) ++ rest) := by
      simp [printTrees]
    rw [happ]
    exact ht.append (hs.append hl)

end

mutual

theorem Tree.Printable.words_eq : ∀ {tree : Tree}, tree.Printable →
    tree.pieces.filterMap Piece.word = tree.words
  | .atom kind string, h => by
    have hw := InetLisp.Printable.word_piece h
    unfold InetLisp.Printable.piece at hw
    rw [Tree.pieces, Tree.words]
    split at hw
    · rename_i hk
      rw [if_pos hk, List.filterMap_cons_some hw, List.filterMap_nil]
    · rename_i hk
      rw [if_neg hk, List.filterMap_cons_some hw, List.filterMap_nil]
  | .list treeList, h => by
    have hp : PrintableTrees treeList := h
    simp [Tree.pieces, Tree.words, Piece.word, hp.words_eq]

theorem PrintableTrees.words_eq : ∀ {treeList : List Tree}, PrintableTrees treeList →
    (piecesOf treeList).filterMap Piece.word = wordsOf treeList
  | [], _ => rfl
  | [tree], h => by simp [piecesOf, wordsOf, h.head.words_eq]
  | tree :: tree' :: treeList, h => by
    have hl : (piecesOf (tree' :: treeList)).filterMap Piece.word = wordsOf (tree' :: treeList) :=
      h.tail.words_eq
    rw [piecesOf, List.filterMap_append, h.head.words_eq, List.filterMap_cons_none rfl, hl]
    rfl

end

mutual

theorem Tree.Printable.length_le : ∀ {tree : Tree}, tree.Printable →
    ∀ p ∈ tree.pieces, p.content.length ≤ maxTokenLength
  | .atom kind string, h => by
    have hl := InetLisp.Printable.length_le h
    unfold InetLisp.Printable.piece at hl
    intro p hp
    rw [Tree.pieces] at hp
    split at hl <;> simp_all
  | .list treeList, h => by
    have hp : PrintableTrees treeList := h
    intro p hm
    simp only [Tree.pieces, List.mem_cons, List.mem_append, List.not_mem_nil, or_false] at hm
    rcases hm with rfl | hm | rfl
    · exact (by decide : 1 ≤ 1024)
    · exact hp.length_le p hm
    · exact (by decide : 1 ≤ 1024)

theorem PrintableTrees.length_le : ∀ {treeList : List Tree}, PrintableTrees treeList →
    ∀ p ∈ piecesOf treeList, p.content.length ≤ maxTokenLength
  | [], _ => nofun
  | [tree], h => h.head.length_le
  | tree :: tree' :: treeList, h => by
    intro p hm
    simp only [piecesOf, List.mem_append, List.mem_cons] at hm
    rcases hm with hm | rfl | hm
    · exact h.head.length_le p hm
    · exact Nat.zero_le _
    · exact h.tail.length_le p hm

end

/-- A text that is cut into the words of trees is parsed into the trees. -/
theorem exists_sexpParseList (ht : Tiles text ps [])
    (hl : ∀ piece ∈ ps, piece.content.length ≤ maxTokenLength)
    (hw : ps.filterMap Piece.word = wordsOf treeList) (hp : PrintableTrees treeList) :
    ∃ sexpList, sexpParseList text = some (.ok sexpList) ∧ treesOf sexpList = treeList := by
  have htok : (tokensOf [] ps).map Token.word = wordsOf treeList := (map_word_tokensOf []).trans hw
  have hlist : ∃ sexpList, parseList (2 * (tokensOf [] ps).length + 1) (tokensOf [] ps ++ []) =
      some (sexpList, []) ∧ treesOf sexpList = treeList :=
    parseList_words treeList hp htok le_rfl nofun
  obtain ⟨sexpList, hparse, htree⟩ := hlist
  rw [List.append_nil] at hparse
  refine ⟨sexpList, ?_, htree⟩
  simp [sexpParseList, lexerRun_of_tiles ht hl, hparse]

theorem exists_sexpParse (ht : Tiles text ps [])
    (hl : ∀ piece ∈ ps, piece.content.length ≤ maxTokenLength)
    (hw : ps.filterMap Piece.word = tree.words) (hp : tree.Printable) :
    ∃ sexp, sexpParse text = some (.ok (some sexp)) ∧ sexp.tree = tree := by
  have hw : ps.filterMap Piece.word = wordsOf [tree] := by
    rw [hw, wordsOf, wordsOf, List.append_nil]
  obtain ⟨sexpList, hparse, htree⟩ := exists_sexpParseList ht hl hw ⟨hp, trivial⟩
  match sexpList, htree with
  | [sexp], htree =>
    refine ⟨sexp, ?_, (List.cons.inj htree).1⟩
    rw [sexpParse, hparse]
    rfl

theorem Tree.Printable.exists_sexpParseList (h : tree.Printable) :
    ∃ sexp, sexpParseList tree.print = some (.ok [sexp]) ∧ sexp.tree = tree := by
  have ht : Tiles (tree.print ++ []) tree.pieces [] := h.tiles nofun
  rw [List.append_nil] at ht
  have hw : tree.pieces.filterMap Piece.word = wordsOf [tree] := by
    rw [h.words_eq, wordsOf, wordsOf, List.append_nil]
  obtain ⟨sexpList, hparse, htree⟩ :=
    InetLisp.exists_sexpParseList ht h.length_le hw ⟨h, trivial⟩
  match sexpList, htree with
  | [sexp], htree => exact ⟨sexp, hparse, (List.cons.inj htree).1⟩

theorem Tree.Printable.exists_sexpParse (h : tree.Printable) :
    ∃ sexp, sexpParse tree.print = some (.ok (some sexp)) ∧ sexp.tree = tree := by
  obtain ⟨sexp, hparse, htree⟩ := h.exists_sexpParseList
  exact ⟨sexp, by rw [sexpParse, hparse]; rfl, htree⟩

theorem all_of_parse {P : TokenKind → Text → Prop} (fuel : ℕ) :
    (∀ token tokenList sexp rest, (∀ t ∈ token :: tokenList, P t.kind t.string) →
      token.string ≠ [')'] → parseSexp fuel (token :: tokenList) = some (sexp, rest) →
        sexp.tree.All fun kind string => P kind string ∧ string ≠ ['('] ∧ string ≠ [')']) ∧
    ∀ tokenList sexpList rest, (∀ t ∈ tokenList, P t.kind t.string) →
      parseList fuel tokenList = some (sexpList, rest) →
        AllTrees (fun kind string => P kind string ∧ string ≠ ['('] ∧ string ≠ [')'])
          (treesOf sexpList) := by
  induction fuel with
  | zero => exact ⟨nofun, nofun⟩
  | succ fuel ih =>
    constructor
    · intro token tokenList sexp rest hp hc h
      rw [parseSexp] at h
      split at h
      · obtain ⟨⟨sexpList, r⟩, hl, h⟩ := Option.bind_eq_some_iff.mp h
        obtain ⟨rfl, rfl⟩ := Prod.mk.inj (Option.some.inj h)
        exact ih.2 _ _ _ (fun t ht => hp t (List.mem_cons_of_mem token ht)) hl
      · rename_i ho
        obtain ⟨rfl, rfl⟩ := Prod.mk.inj (Option.some.inj h)
        exact ⟨hp token List.mem_cons_self, ho, hc⟩
    · intro tokenList sexpList rest hp h
      cases tokenList with
      | nil =>
        obtain ⟨rfl, rfl⟩ := Prod.mk.inj (Option.some.inj h)
        trivial
      | cons token tokenList =>
        rw [parseList] at h
        split at h
        · obtain ⟨rfl, rfl⟩ := Prod.mk.inj (Option.some.inj h)
          trivial
        · rename_i hc
          obtain ⟨⟨sexp, r⟩, hs, h⟩ := Option.bind_eq_some_iff.mp h
          obtain ⟨⟨sexps, r'⟩, hl, h⟩ := Option.bind_eq_some_iff.mp h
          obtain ⟨rfl, rfl⟩ := Prod.mk.inj (Option.some.inj h)
          have ht := (tokens_of_parse fuel).1 _ _ _ hs
          have hr : ∀ t ∈ r, P t.kind t.string := fun t hm =>
            hp t (ht ▸ List.mem_append_right _ hm)
          exact ⟨ih.1 _ _ _ _ hp hc hs, ih.2 _ _ _ hr hl⟩

theorem lexerRun_of_sexpParseList {sexpList : List Sexp}
    (h : sexpParseList text = some (.ok sexpList)) :
    ∃ tokenList, lexerRun sexpConfig text = some (.ok tokenList) ∧
      parseList (2 * tokenList.length + 1) tokenList = some (sexpList, []) := by
  unfold sexpParseList at h
  obtain ⟨r, hr, h⟩ := Option.bind_eq_some_iff.mp h
  cases r with
  | error e => cases h
  | ok tokenList =>
    obtain ⟨⟨l, rest⟩, hp, h⟩ := Option.bind_eq_some_iff.mp h
    dsimp only at h
    split at h
    · rename_i he
      obtain rfl := Except.ok.inj (Option.some.inj h)
      exact ⟨tokenList, hr, he ▸ hp⟩
    · cases h

theorem AllTrees.of_mem {P : TokenKind → Text → Prop} {sexp : Sexp} {sexpList : List Sexp}
    (h : AllTrees P (treesOf sexpList)) (hs : sexp ∈ sexpList) : sexp.tree.All P := by
  induction sexpList with
  | nil => cases hs
  | cons sexp' sexpList ih =>
    rcases List.mem_cons.mp hs with rfl | hs
    · exact h.1
    · exact ih h.2 hs

theorem AllTrees.append {P : TokenKind → Text → Prop} {l m : List Tree} (h : AllTrees P (l ++ m)) :
    AllTrees P m := by
  induction l with
  | nil => exact h
  | cons tree l ih => exact ih h.2

mutual

theorem Tree.All.mono {P Q : TokenKind → Text → Prop}
    (hPQ : ∀ kind string, P kind string → Q kind string) : ∀ {tree : Tree}, tree.All P → tree.All Q
  | .atom kind string, h => hPQ kind string h
  | .list _, h => AllTrees.mono hPQ h

theorem AllTrees.mono {P Q : TokenKind → Text → Prop}
    (hPQ : ∀ kind string, P kind string → Q kind string) :
    ∀ {treeList : List Tree}, AllTrees P treeList → AllTrees Q treeList
  | [], _ => trivial
  | _ :: _, h => ⟨h.1.mono hPQ, h.2.mono hPQ⟩

end

theorem Lexed.kind_ne_delimiter (h : Lexed kind string) (ho : string ≠ ['('])
    (hc : string ≠ [')']) : kind ≠ .delimiter := by
  cases h with
  | delimiter hd =>
    rcases List.mem_pair.mp hd with rfl | rfl
    · exact (ho rfl).elim
    · exact (hc rfl).elim
  | string => exact nofun
  | generic => exact (kindOf_ne string).2

theorem all_of_sexpParseList {P : TokenKind → Text → Prop} {sexpList : List Sexp} {sexp : Sexp}
    (h : sexpParseList text = some (.ok sexpList)) (hs : sexp ∈ sexpList)
    (hP : ∀ tokenList, lexerRun sexpConfig text = some (.ok tokenList) →
      ∀ token ∈ tokenList, P token.kind token.string) :
    sexp.tree.All fun kind string => P kind string ∧ string ≠ ['('] ∧ string ≠ [')'] := by
  obtain ⟨tokenList, hrun, hparse⟩ := lexerRun_of_sexpParseList h
  exact ((all_of_parse _).2 _ _ _ (hP tokenList hrun) hparse).of_mem hs

/-- What is printed for a parsed S-expression is parsed into the same tree. -/
theorem exists_sexpParse_sexpPrint (source : CString) {sexpList : List Sexp} {sexp : Sexp}
    (h : sexpParseList source.text = some (.ok sexpList)) (hs : sexp ∈ sexpList)
    (hq : ∀ tokenList, lexerRun sexpConfig source.text = some (.ok tokenList) →
      ∀ token ∈ tokenList, token.kind = .string → '"' ∉ token.string ∧ '\\' ∉ token.string) :
    ∃ sexp', sexpParse (sexpPrint sexp) = some (.ok (some sexp')) ∧ sexp'.tree = sexp.tree := by
  have hall : sexp.tree.All fun kind string =>
      (Lexed kind string ∧ (kind = .string → '"' ∉ string ∧ '\\' ∉ string)) ∧
        string ≠ ['('] ∧ string ≠ [')'] :=
    all_of_sexpParseList h hs fun tokenList hrun token ht =>
      ⟨lexed_of_lexerRun hrun token ht, hq tokenList hrun token ht⟩
  have hp : sexp.tree.Printable := hall.mono fun kind string ⟨⟨hl, hlit⟩, ho, hc⟩ =>
    ⟨hl, hl.kind_ne_delimiter ho hc, ho, hc, hlit⟩
  rw [sexpPrint_eq]
  exact hp.exists_sexpParse

end

/-- `("b;"(1))` -/
def nestedText : CString := ⟨['(', '"', 'b', ';', '"', '(', '1', ')', ')'], by decide⟩

def nestedTokens : List Token :=
  [⟨['('], .delimiter, 0, 1, 1, 2⟩, ⟨['b', ';'], .string, 2, 4, 1, 5⟩,
    ⟨['('], .delimiter, 5, 6, 1, 7⟩, ⟨['1'], .int, 6, 7, 1, 8⟩, ⟨[')'], .delimiter, 7, 8, 1, 9⟩,
    ⟨[')'], .delimiter, 8, 9, 1, 10⟩]

def nested : Sexp := .list ⟨['('], .delimiter, 0, 1, 1, 2⟩ (some ⟨[')'], .delimiter, 8, 9, 1, 10⟩)
  [.atom ⟨['b', ';'], .string, 2, 4, 1, 5⟩, .list ⟨['('], .delimiter, 5, 6, 1, 7⟩
    (some ⟨[')'], .delimiter, 7, 8, 1, 9⟩) [.atom ⟨['1'], .int, 6, 7, 1, 8⟩]]

theorem lexerRun_nested : lexerRun sexpConfig nestedText.text = some (.ok nestedTokens) := rfl

theorem sexpParseList_nested : sexpParseList nestedText.text = some (.ok [nested]) := by
  rw [sexpParseList, lexerRun_nested]
  rfl

theorem exists_sexpParse_sexpPrint_nested : ∃ sexp,
    sexpParse (sexpPrint nested) = some (.ok (some sexp)) ∧ sexp.tree = nested.tree := by
  have hs : nested ∈ [nested] := List.mem_cons_self
  apply exists_sexpParse_sexpPrint nestedText sexpParseList_nested hs
  intro tokenList h
  rw [lexerRun_nested] at h
  obtain rfl := Except.ok.inj (Option.some.inj h)
  decide

end InetLisp
