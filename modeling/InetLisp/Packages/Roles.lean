import InetLisp.Packages.SexpPrint

/-! # The roles of tokens

A token is an atom or one of the ends of a list. The parser goes by the string of a token
and does not look at its kind.
-/

namespace InetLisp

open Lexer

mutual

/-- The tokens of the atoms of an S-expression. -/
def Sexp.atoms : Sexp → List Token
  | .atom token => [token]
  | .list _ _ sexpList => atomsOfList sexpList

def atomsOfList : List Sexp → List Token
  | [] => []
  | sexp :: sexpList => sexp.atoms ++ atomsOfList sexpList

end

/-- The trees hold the tokens in their order, their lists stand between delimiters, and every
other token is an atom. -/
structure KeepsRoles (tokenList : List Token) (sexpList : List Sexp) : Prop where
  tokens : tokensOfList sexpList = tokenList
  brackets : ∀ p ∈ bracketsOfList sexpList,
    p.1.kind = .delimiter ∧ ∃ endToken, p.2 = some endToken ∧ endToken.kind = .delimiter
  atoms : ∀ token ∈ tokenList, token.kind ≠ .delimiter → token ∈ atomsOfList sexpList

section

variable {text : Text} {tokenList : List Token} {sexp : Sexp} {sexpList : List Sexp}
  {token : Token}

mutual

theorem Tree.All.of_mem_atoms {P : TokenKind → Text → Prop} :
    ∀ {sexp : Sexp}, sexp.tree.All P → ∀ token ∈ sexp.atoms, P token.kind token.string
  | .atom _, h, _, ht => by
    obtain rfl := List.mem_singleton.mp ht
    exact h
  | .list _ _ _, h, token, ht => AllTrees.of_mem_atoms h token ht

theorem AllTrees.of_mem_atoms {P : TokenKind → Text → Prop} :
    ∀ {sexpList : List Sexp}, AllTrees P (treesOf sexpList) →
      ∀ token ∈ atomsOfList sexpList, P token.kind token.string
  | [], _, _, ht => by cases ht
  | _ :: _, h, token, ht => by
    rcases List.mem_append.mp ht with ht | ht
    · exact h.1.of_mem_atoms token ht
    · exact h.2.of_mem_atoms token ht

end

mutual

theorem Sexp.Shaped.mem_atoms : ∀ {sexp : Sexp}, sexp.Shaped → ∀ token ∈ sexp.tokens,
    token.kind ≠ .delimiter → token ∈ sexp.atoms
  | .atom _, _, _, ht, _ => ht
  | .list _ _ _, h, token, ht, hk => by
    rcases List.mem_cons.mp ht with rfl | ht
    · exact (hk h.1.1).elim
    · rcases List.mem_append.mp ht with ht | ht
      · exact h.2.2.mem_atoms token ht hk
      · exact (hk (h.2.1 token (Option.mem_toList.mp ht)).1).elim

theorem ShapedList.mem_atoms : ∀ {sexpList : List Sexp}, ShapedList sexpList →
    ∀ token ∈ tokensOfList sexpList, token.kind ≠ .delimiter → token ∈ atomsOfList sexpList
  | [], _, _, ht, _ => ht
  | _ :: _, h, token, ht, hk => by
    rcases List.mem_append.mp ht with ht | ht
    · exact List.mem_append_left _ (h.1.mem_atoms token ht hk)
    · exact List.mem_append_right _ (h.2.mem_atoms token ht hk)

end

mutual

theorem Sexp.Shaped.brackets : ∀ {sexp : Sexp}, sexp.Shaped → ∀ p ∈ sexp.brackets,
    p.1.IsOpen ∧ ∀ endToken ∈ p.2, endToken.IsClose
  | .list _ _ _, h, p, hp => by
    rcases List.mem_cons.mp hp with rfl | hp
    · exact ⟨h.1, h.2.1⟩
    · exact h.2.2.brackets p hp

theorem ShapedList.brackets : ∀ {sexpList : List Sexp}, ShapedList sexpList →
    ∀ p ∈ bracketsOfList sexpList, p.1.IsOpen ∧ ∀ endToken ∈ p.2, endToken.IsClose
  | _ :: _, h, p, hp => by
    rcases List.mem_append.mp hp with hp | hp
    · exact h.1.brackets p hp
    · exact h.2.brackets p hp

end

theorem missing_eq_zero_iff {brackets : List (Token × Option Token)} :
    missing brackets = 0 ↔ ∀ p ∈ brackets, ∃ endToken, p.2 = some endToken := by
  simp only [missing, List.countP_eq_zero, decide_eq_true_eq, Option.ne_none_iff_exists']

/-- A quoted parenthesis is taken for a delimiter, and at the end of the text no token for the
end of a list is asked for. -/
theorem keepsRoles_iff (source : CString)
    (h : lexerRun sexpConfig source.text = some (.ok tokenList))
    (hs : sexpParseList source.text = some (.ok sexpList)) :
    KeepsRoles tokenList sexpList ↔
      (∀ token ∈ tokenList, token.kind = .string →
        token.string ≠ ['('] ∧ token.string ≠ [')']) ∧
      opened tokenList = closed tokenList := by
  obtain ⟨tokenList', hrun, hparse⟩ := lexerRun_of_sexpParseList hs
  obtain rfl : tokenList' = tokenList := Except.ok.inj (Option.some.inj (hrun.symm.trans h))
  have htokens : tokensOfList sexpList = tokenList' := by
    simpa using ((tokens_of_parse _).2 _ _ _ hparse).symm
  have hlexed := lexed_of_lexerRun h
  have hread (hl : ∀ token ∈ tokenList', token.kind = .string →
      token.string ≠ ['('] ∧ token.string ≠ [')']) : ShapedList sexpList :=
    ((read_of_parse _).2 _ _ _ (fun token ht => .of_lexed (hlexed token ht) (hl token ht))
      hparse).shaped
  constructor
  · rintro ⟨-, hbrackets, hatoms⟩
    have hl : ∀ token ∈ tokenList', token.kind = .string →
        token.string ≠ ['('] ∧ token.string ≠ [')'] := by
      intro token ht hk
      have hatom := hatoms token ht (by rw [hk]; exact nofun)
      have hall := (all_of_parse (P := fun _ _ => True) _).2 _ _ _ (fun _ _ => trivial) hparse
      exact (hall.of_mem_atoms token hatom).2
    have hmissing : missing (bracketsOfList sexpList) = 0 := by
      rw [missing_eq_zero_iff]
      intro p hp
      obtain ⟨-, endToken, he, -⟩ := hbrackets p hp
      exact ⟨endToken, he⟩
    have hopened := (hread hl).opened_eq
    rw [htokens, hmissing, Nat.add_zero] at hopened
    exact ⟨hl, hopened⟩
  · rintro ⟨hl, heq⟩
    have hshaped := hread hl
    have hopened := hshaped.opened_eq
    rw [htokens] at hopened
    have hends := missing_eq_zero_iff.mp (by omega : missing (bracketsOfList sexpList) = 0)
    refine ⟨htokens, ?_, ?_⟩
    · intro p hp
      obtain ⟨hopen, hclose⟩ := hshaped.brackets p hp
      obtain ⟨endToken, he⟩ := hends p hp
      exact ⟨hopen.1, endToken, he, (hclose endToken he).1⟩
    · intro token ht hk
      rw [← htokens] at ht
      exact hshaped.mem_atoms token ht hk

end

/-- `"(" a )` -/
def quotedText : CString := ⟨['"', '(', '"', ' ', 'a', ' ', ')'], by decide⟩

def quotedTokens : List Token :=
  [⟨['('], .string, 1, 2, 1, 3⟩, ⟨['a'], .generic, 4, 5, 1, 6⟩, ⟨[')'], .delimiter, 6, 7, 1, 8⟩]

def quotedSexp : Sexp :=
  .list ⟨['('], .string, 1, 2, 1, 3⟩ (some ⟨[')'], .delimiter, 6, 7, 1, 8⟩)
    [.atom ⟨['a'], .generic, 4, 5, 1, 6⟩]

theorem lexerRun_quoted : lexerRun sexpConfig quotedText.text = some (.ok quotedTokens) := rfl

theorem sexpParseList_quoted : sexpParseList quotedText.text = some (.ok [quotedSexp]) := rfl

/-- `("(a" b)` -/
def stringText : CString := ⟨['(', '"', '(', 'a', '"', ' ', 'b', ')'], by decide⟩

def stringTokens : List Token :=
  [⟨['('], .delimiter, 0, 1, 1, 2⟩, ⟨['(', 'a'], .string, 2, 4, 1, 5⟩,
    ⟨['b'], .generic, 6, 7, 1, 8⟩, ⟨[')'], .delimiter, 7, 8, 1, 9⟩]

def stringSexp : Sexp :=
  .list ⟨['('], .delimiter, 0, 1, 1, 2⟩ (some ⟨[')'], .delimiter, 7, 8, 1, 9⟩)
    [.atom ⟨['(', 'a'], .string, 2, 4, 1, 5⟩, .atom ⟨['b'], .generic, 6, 7, 1, 8⟩]

theorem lexerRun_string : lexerRun sexpConfig stringText.text = some (.ok stringTokens) := rfl

theorem sexpParseList_string : sexpParseList stringText.text = some (.ok [stringSexp]) := rfl

/-- A string keeps its role in the one text, and loses it in the other. -/
theorem keepsRoles_iff_quoted :
    KeepsRoles stringTokens [stringSexp] ∧ ¬KeepsRoles quotedTokens [quotedSexp] := by
  have hstring := keepsRoles_iff stringText lexerRun_string sexpParseList_string
  have hquoted := keepsRoles_iff quotedText lexerRun_quoted sexpParseList_quoted
  refine ⟨hstring.mpr (by decide), fun hroles => ?_⟩
  exact ((hquoted.mp hroles).1 _ List.mem_cons_self rfl).1 rfl

/-- A quoted parenthesis opens a list. -/
theorem not_keepsRoles : ¬∀ (source : CString) (tokenList : List Token) (sexpList : List Sexp),
    lexerRun sexpConfig source.text = some (.ok tokenList) →
      sexpParseList source.text = some (.ok sexpList) → KeepsRoles tokenList sexpList := by
  intro h
  have hroles := h quotedText quotedTokens [quotedSexp] lexerRun_quoted sexpParseList_quoted
  have hstart := (hroles.brackets _ List.mem_cons_self).1
  cases hstart

end InetLisp
