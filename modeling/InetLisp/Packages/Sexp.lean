import InetLisp.Packages.Tiling

/-! # S-expressions

The parser takes tokens off a shared list. A list takes the next token for its end,
whatever is left: at the end of the input there is none.
-/

namespace InetLisp

open Lexer

/-- `sexp_t`; a list at the end of the input has no end token. -/
inductive Sexp where
  | atom (token : Token)
  | list (startToken : Token) (endToken : Option Token) (sexpList : List Sexp)
  deriving Repr

/-- What stops `sexp_parse_list`. -/
inductive SexpError where
  | lexer (e : Lexer.Error)
  | tokensLeft
  deriving DecidableEq, Repr

mutual

/-- `parse_sexp`; it is not called on an empty list. -/
def parseSexp : ℕ → List Token → Option (Sexp × List Token)
  | 0, _ => none
  | _ + 1, [] => none
  | fuel + 1, token :: tokenList =>
    if token.string = ['('] then do
      let (sexpList, tokenList) ← parseList fuel tokenList
      return (.list token tokenList.head? sexpList, tokenList.tail)
    else some (.atom token, tokenList)

def parseList : ℕ → List Token → Option (List Sexp × List Token)
  | 0, _ => none
  | _ + 1, [] => some ([], [])
  | fuel + 1, token :: tokenList =>
    if token.string = [')'] then some ([], token :: tokenList)
    else do
      let (sexp, tokenList) ← parseSexp fuel (token :: tokenList)
      let (sexpList, tokenList) ← parseList fuel tokenList
      return (sexp :: sexpList, tokenList)

end

/-- `sexp_parse_list`. Two calls for every token, and one to see the end, are enough. -/
def sexpParseList (string : Text) : Option (Except SexpError (List Sexp)) := do
  match ← lexerRun sexpConfig string with
  | .error e => return .error (.lexer e)
  | .ok tokenList =>
    let (sexpList, tokenList) ← parseList (2 * tokenList.length + 1) tokenList
    return if tokenList = [] then .ok sexpList else .error .tokensLeft

def sexpParse (string : Text) : Option (Except SexpError (Option Sexp)) :=
  (sexpParseList string).map fun result => result.map List.head?

namespace Token

def IsOpen (token : Token) : Prop := token.kind = .delimiter ∧ token.string = ['(']

def IsClose (token : Token) : Prop := token.kind = .delimiter ∧ token.string = [')']

instance : DecidablePred IsOpen := fun _ => inferInstanceAs (Decidable (_ ∧ _))

instance : DecidablePred IsClose := fun _ => inferInstanceAs (Decidable (_ ∧ _))

/-- A token that the parser takes for a parenthesis is one. -/
def Plain (token : Token) : Prop :=
  token.string = ['('] ∨ token.string = [')'] → token.kind = .delimiter

end Token

def opened (tokenList : List Token) : ℕ := tokenList.countP fun token => token.IsOpen

def closed (tokenList : List Token) : ℕ := tokenList.countP fun token => token.IsClose

/-- Nothing is closed that has not been opened. -/
def NeverOvercloses (tokenList : List Token) : Prop :=
  ∀ l, l <+: tokenList → closed l ≤ opened l

/-- Every parenthesis has its partner. -/
def Balanced (tokenList : List Token) : Prop :=
  NeverOvercloses tokenList ∧ opened tokenList = closed tokenList

/-- The closing parenthesis is the one of the opening parenthesis. -/
def Matches (tokenList : List Token) (startToken endToken : Token) : Prop :=
  startToken.IsOpen ∧ endToken.IsClose ∧ ∃ before inner after,
    tokenList = before ++ startToken :: (inner ++ endToken :: after) ∧ Balanced inner

mutual

/-- The tokens from which an S-expression is read. -/
def Sexp.tokens : Sexp → List Token
  | .atom token => [token]
  | .list startToken endToken sexpList =>
    startToken :: (tokensOfList sexpList ++ endToken.toList)

def tokensOfList : List Sexp → List Token
  | [] => []
  | sexp :: sexpList => sexp.tokens ++ tokensOfList sexpList

end

mutual

/-- The first and the last tokens of the lists in an S-expression. -/
def Sexp.brackets : Sexp → List (Token × Option Token)
  | .atom _ => []
  | .list startToken endToken sexpList => (startToken, endToken) :: bracketsOfList sexpList

def bracketsOfList : List Sexp → List (Token × Option Token)
  | [] => []
  | sexp :: sexpList => sexp.brackets ++ bracketsOfList sexpList

end

mutual

/-- Atoms are no parentheses, and lists stand in parentheses of which the last may be missing. -/
def Sexp.Shaped : Sexp → Prop
  | .atom token => ¬token.IsOpen ∧ ¬token.IsClose
  | .list startToken endToken sexpList =>
    startToken.IsOpen ∧ (∀ token ∈ endToken, token.IsClose) ∧ ShapedList sexpList

def ShapedList : List Sexp → Prop
  | [] => True
  | sexp :: sexpList => sexp.Shaped ∧ ShapedList sexpList

end

/-- How many lists have no end token. -/
def missing (brackets : List (Token × Option Token)) : ℕ := brackets.countP fun p => p.2 = none

section

variable {sexp : Sexp} {sexpList : List Sexp} {token : Token} {l m tokenList rest : List Token}
  {fuel : ℕ}

@[simp] theorem opened_append : opened (l ++ m) = opened l + opened m := List.countP_append

@[simp] theorem closed_append : closed (l ++ m) = closed l + closed m := List.countP_append

theorem Token.IsOpen.not_isClose (h : token.IsOpen) : ¬token.IsClose := by
  rintro ⟨-, hc⟩
  rw [h.2] at hc
  cases hc

theorem missing_append {a b : List (Token × Option Token)} :
    missing (a ++ b) = missing a + missing b := List.countP_append

theorem NeverOvercloses.nil : NeverOvercloses [] := by
  intro l hl
  rw [List.prefix_nil.mp hl]
  exact le_rfl

theorem NeverOvercloses.append (h : NeverOvercloses l) (h' : NeverOvercloses m) :
    NeverOvercloses (l ++ m) := by
  rintro p ⟨t, ht⟩
  rcases List.append_eq_append_iff.mp ht with ⟨q, rfl, -⟩ | ⟨q, rfl, rfl⟩
  · exact h p (List.prefix_append p q)
  · have h₁ := h l (List.prefix_refl l)
    have h₂ := h' q (List.prefix_append q t)
    simp only [opened_append, closed_append]
    omega

@[simp] theorem opened_cons : opened (token :: l) = opened l + if token.IsOpen then 1 else 0 := by
  simp [opened, List.countP_cons]

@[simp] theorem closed_cons : closed (token :: l) = closed l + if token.IsClose then 1 else 0 := by
  simp [closed, List.countP_cons]

@[simp] theorem opened_nil : opened [] = 0 := rfl

@[simp] theorem closed_nil : closed [] = 0 := rfl

theorem NeverOvercloses.cons (ho : token.IsOpen) (h : NeverOvercloses l) {e : Option Token} :
    NeverOvercloses (token :: (l ++ e.toList)) := by
  intro p hp
  cases p with
  | nil => exact le_rfl
  | cons t p =>
    obtain ⟨rfl, r, hr⟩ := List.cons_prefix_cons.mp hp
    have hc : closed p ≤ opened p + 1 := by
      rcases List.append_eq_append_iff.mp hr with ⟨q, rfl, -⟩ | ⟨q, rfl, hq⟩
      · exact (h p (List.prefix_append p q)).trans (Nat.le_succ _)
      · have hl := h l (List.prefix_refl l)
        have hle : q.length ≤ 1 := by
          have he : e.toList.length ≤ 1 := by cases e <;> simp
          rw [hq, List.length_append] at he
          omega
        have hcq : closed q ≤ q.length := List.countP_le_length
        simp only [opened_append, closed_append]
        omega
    simp only [opened_cons, closed_cons, ho, ho.not_isClose, if_true, if_false]
    omega

mutual

theorem Sexp.Shaped.neverOvercloses : ∀ {sexp : Sexp}, sexp.Shaped → NeverOvercloses sexp.tokens
  | .atom token, h => by
    intro p hp
    have hc : closed p ≤ closed [token] := hp.sublist.countP_le
    simp only [closed_cons, h.2, closed_nil, if_false] at hc
    omega
  | .list _ _ _, h => .cons h.1 h.2.2.neverOvercloses

theorem ShapedList.neverOvercloses :
    ∀ {sexpList : List Sexp}, ShapedList sexpList → NeverOvercloses (tokensOfList sexpList)
  | [], _ => .nil
  | _ :: _, h => h.1.neverOvercloses.append h.2.neverOvercloses

end

mutual

theorem Sexp.Shaped.opened_eq : ∀ {sexp : Sexp}, sexp.Shaped →
    opened sexp.tokens = closed sexp.tokens + missing sexp.brackets
  | .atom token, h => by simp [Sexp.tokens, Sexp.brackets, h.1, h.2, missing]
  | .list startToken endToken sexpList, h => by
    have ih := h.2.2.opened_eq
    simp only [Sexp.tokens, Sexp.brackets, opened_cons, closed_cons, opened_append, closed_append,
      h.1, h.1.not_isClose, if_true, if_false, missing, List.countP_cons]
    cases endToken with
    | none =>
      simp [missing] at ih ⊢
      omega
    | some token =>
      have hc : token.IsClose := h.2.1 token rfl
      have ho : ¬token.IsOpen := fun ho => ho.not_isClose hc
      simp [missing, hc, ho] at ih ⊢
      omega

theorem ShapedList.opened_eq : ∀ {sexpList : List Sexp}, ShapedList sexpList →
    opened (tokensOfList sexpList) = closed (tokensOfList sexpList) +
      missing (bracketsOfList sexpList)
  | [], _ => rfl
  | sexp :: sexpList, h => by
    have h₁ := h.1.opened_eq
    have h₂ := h.2.opened_eq
    simp only [tokensOfList, bracketsOfList, opened_append, closed_append, missing_append]
    omega

end

/-- What `parse_sexp` reads, before the rest. -/
structure SexpRead (sexp : Sexp) (rest : List Token) : Prop where
  shaped : sexp.Shaped
  complete : rest ≠ [] → missing sexp.brackets = 0

/-- What `parse_list` reads, before the rest. -/
structure ListRead (sexpList : List Sexp) (rest : List Token) : Prop where
  shaped : ShapedList sexpList
  complete : rest ≠ [] → missing (bracketsOfList sexpList) = 0
  stop : ∀ token ∈ rest.head?, token.IsClose

theorem SexpRead.list (ho : token.IsOpen) (h : ListRead sexpList rest) :
    SexpRead (.list token rest.head? sexpList) rest.tail := by
  constructor
  · exact ⟨ho, h.stop, h.shaped⟩
  · intro hr
    have hne : rest ≠ [] := by
      rintro rfl
      exact hr rfl
    have hm := h.complete hne
    cases rest with
    | nil => exact (hne rfl).elim
    | cons t rest => simpa [Sexp.brackets, missing] using hm

theorem SexpRead.cons (h : SexpRead sexp l) (h' : ListRead sexpList rest)
    (hl : l = tokensOfList sexpList ++ rest) : ListRead (sexp :: sexpList) rest := by
  constructor
  · exact ⟨h.shaped, h'.shaped⟩
  · intro hr
    have hl : l ≠ [] := by
      rw [hl]
      exact List.append_ne_nil_of_right_ne_nil _ hr
    rw [bracketsOfList, missing_append, h.complete hl, h'.complete hr]
  · exact h'.stop

theorem tokens_of_parse (fuel : ℕ) :
    (∀ tokenList sexp rest, parseSexp fuel tokenList = some (sexp, rest) →
      tokenList = sexp.tokens ++ rest) ∧
    ∀ tokenList sexpList rest, parseList fuel tokenList = some (sexpList, rest) →
      tokenList = tokensOfList sexpList ++ rest := by
  induction fuel with
  | zero => exact ⟨nofun, nofun⟩
  | succ fuel ih =>
    constructor
    · intro tokenList sexp rest h
      cases tokenList with
      | nil => cases h
      | cons token tokenList =>
        rw [parseSexp] at h
        split at h
        · obtain ⟨⟨sexpList, r⟩, hl, h⟩ := Option.bind_eq_some_iff.mp h
          obtain ⟨rfl, rfl⟩ := Prod.mk.inj (Option.some.inj h)
          rw [ih.2 _ _ _ hl]
          cases r <;> simp [Sexp.tokens]
        · obtain ⟨rfl, rfl⟩ := Prod.mk.inj (Option.some.inj h)
          rfl
    · intro tokenList sexpList rest h
      cases tokenList with
      | nil =>
        obtain ⟨rfl, rfl⟩ := Prod.mk.inj (Option.some.inj h)
        rfl
      | cons token tokenList =>
        rw [parseList] at h
        split at h
        · obtain ⟨rfl, rfl⟩ := Prod.mk.inj (Option.some.inj h)
          rfl
        · obtain ⟨⟨sexp, r⟩, hs, h⟩ := Option.bind_eq_some_iff.mp h
          obtain ⟨⟨sexps, r'⟩, hl, h⟩ := Option.bind_eq_some_iff.mp h
          obtain ⟨rfl, rfl⟩ := Prod.mk.inj (Option.some.inj h)
          rw [ih.1 _ _ _ hs, ih.2 _ _ _ hl, tokensOfList, List.append_assoc]

/-- The parser reads what its result says. -/
theorem read_of_parse (fuel : ℕ) :
    (∀ token tokenList sexp rest, (∀ t ∈ token :: tokenList, t.Plain) → ¬token.IsClose →
      parseSexp fuel (token :: tokenList) = some (sexp, rest) → SexpRead sexp rest) ∧
    ∀ tokenList sexpList rest, (∀ t ∈ tokenList, t.Plain) →
      parseList fuel tokenList = some (sexpList, rest) → ListRead sexpList rest := by
  induction fuel with
  | zero => exact ⟨nofun, nofun⟩
  | succ fuel ih =>
    constructor
    · intro token tokenList sexp rest hp hc h
      rw [parseSexp] at h
      split at h
      · rename_i ho
        obtain ⟨⟨sexpList, r⟩, hl, h⟩ := Option.bind_eq_some_iff.mp h
        obtain ⟨rfl, rfl⟩ := Prod.mk.inj (Option.some.inj h)
        have hr := ih.2 _ _ _ (fun t ht => hp t (List.mem_cons_of_mem token ht)) hl
        exact .list ⟨hp token List.mem_cons_self (.inl ho), ho⟩ hr
      · rename_i ho
        obtain ⟨rfl, rfl⟩ := Prod.mk.inj (Option.some.inj h)
        exact ⟨⟨fun h => ho h.2, hc⟩, fun _ => rfl⟩
    · intro tokenList sexpList rest hp h
      cases tokenList with
      | nil =>
        obtain ⟨rfl, rfl⟩ := Prod.mk.inj (Option.some.inj h)
        exact ⟨trivial, fun _ => rfl, nofun⟩
      | cons token tokenList =>
        rw [parseList] at h
        split at h
        · rename_i hc
          obtain ⟨rfl, rfl⟩ := Prod.mk.inj (Option.some.inj h)
          refine ⟨trivial, fun _ => rfl, ?_⟩
          rintro _ ⟨⟩
          exact ⟨hp token List.mem_cons_self (.inr hc), hc⟩
        · rename_i hc
          obtain ⟨⟨sexp, r⟩, hs, h⟩ := Option.bind_eq_some_iff.mp h
          obtain ⟨⟨sexps, r'⟩, hl, h⟩ := Option.bind_eq_some_iff.mp h
          obtain ⟨rfl, rfl⟩ := Prod.mk.inj (Option.some.inj h)
          have ht := (tokens_of_parse fuel).1 _ _ _ hs
          have hr : ∀ t ∈ r, t.Plain := fun t hm => hp t (ht ▸ List.mem_append_right _ hm)
          have hread := ih.1 _ _ _ _ hp (fun h => hc h.2) hs
          exact hread.cons (ih.2 _ _ _ hr hl) ((tokens_of_parse fuel).2 _ _ _ hl)

/-- The parser ends, with fuel for two calls a token. -/
theorem exists_parse (fuel : ℕ) :
    (∀ token tokenList, 2 * (tokenList.length + 1) ≤ fuel →
      ∃ sexp rest, parseSexp fuel (token :: tokenList) = some (sexp, rest) ∧
        rest.length ≤ tokenList.length) ∧
    ∀ tokenList, 2 * tokenList.length + 1 ≤ fuel →
      ∃ sexpList rest, parseList fuel tokenList = some (sexpList, rest) ∧
        rest.length ≤ tokenList.length := by
  induction fuel with
  | zero => exact ⟨by intros; omega, by intros; omega⟩
  | succ fuel ih =>
    constructor
    · intro token tokenList hf
      rw [parseSexp]
      split
      · obtain ⟨sexpList, r, hl, hlen⟩ := ih.2 tokenList (by omega)
        rw [hl]
        exact ⟨_, _, rfl, by rw [List.length_tail]; omega⟩
      · exact ⟨_, _, rfl, le_rfl⟩
    · intro tokenList hf
      cases tokenList with
      | nil => exact ⟨_, _, rfl, le_rfl⟩
      | cons token tokenList =>
        rw [List.length_cons] at hf
        rw [parseList]
        split
        · exact ⟨_, _, rfl, le_rfl⟩
        · obtain ⟨sexp, r, hs, hlen⟩ := ih.1 token tokenList (by omega)
          obtain ⟨sexpList, r', hl, hlen'⟩ := ih.2 r (by omega)
          rw [hs, Option.bind_eq_bind, Option.bind_some]
          dsimp only
          rw [hl]
          refine ⟨_, _, rfl, ?_⟩
          simp only [List.length_cons]
          omega

theorem sexpParseList_eq {text : Text} (h : lexerRun sexpConfig text = some (.ok tokenList))
    (hp : ∀ token ∈ tokenList, token.Plain) : ∃ sexpList rest, ListRead sexpList rest ∧
      tokenList = tokensOfList sexpList ++ rest ∧
      sexpParseList text = some (if rest = [] then .ok sexpList else .error .tokensLeft) := by
  obtain ⟨sexpList, rest, hl, -⟩ := (exists_parse (2 * tokenList.length + 1)).2 tokenList le_rfl
  refine ⟨sexpList, rest, (read_of_parse _).2 _ _ _ hp hl, (tokens_of_parse _).2 _ _ _ hl, ?_⟩
  simp [sexpParseList, h, hl]

theorem Matches.append {s e : Token} (h : Matches tokenList s e) (l m : List Token) :
    Matches (l ++ tokenList ++ m) s e := by
  obtain ⟨hs, he, before, inner, after, rfl, hb⟩ := h
  exact ⟨hs, he, l ++ before, inner, after ++ m, by simp, hb⟩

theorem ShapedList.balanced (h : ShapedList sexpList) (hm : missing (bracketsOfList sexpList) = 0) :
    Balanced (tokensOfList sexpList) :=
  ⟨h.neverOvercloses, by rw [h.opened_eq, hm, Nat.add_zero]⟩

mutual

theorem Sexp.Shaped.matches : ∀ {sexp : Sexp}, sexp.Shaped → missing sexp.brackets = 0 →
    ∀ p ∈ sexp.brackets, ∃ e, p.2 = some e ∧ Matches sexp.tokens p.1 e
  | .atom _, _, _ => nofun
  | .list startToken none _, _, hm => by simp [Sexp.brackets, missing] at hm
  | .list startToken (some endToken) sexpList, h, hm => by
    have hm : missing (bracketsOfList sexpList) = 0 := by
      simpa [Sexp.brackets, missing] using hm
    intro p hp
    rcases List.mem_cons.mp hp with rfl | hp
    · refine ⟨endToken, rfl, h.1, h.2.1 endToken rfl, [], tokensOfList sexpList, [], ?_, ?_⟩
      · simp [Sexp.tokens]
      · exact h.2.2.balanced hm
    · obtain ⟨e, he, hmatch⟩ := h.2.2.matches hm p hp
      exact ⟨e, he, by simpa [Sexp.tokens] using hmatch.append [startToken] [endToken]⟩

theorem ShapedList.matches : ∀ {sexpList : List Sexp}, ShapedList sexpList →
    missing (bracketsOfList sexpList) = 0 →
    ∀ p ∈ bracketsOfList sexpList, ∃ e, p.2 = some e ∧ Matches (tokensOfList sexpList) p.1 e
  | [], _, _ => nofun
  | sexp :: sexpList, h, hm => by
    rw [bracketsOfList, missing_append, Nat.add_eq_zero_iff] at hm
    intro p hp
    rcases List.mem_append.mp hp with hp | hp
    · obtain ⟨e, he, hmatch⟩ := h.1.matches hm.1 p hp
      exact ⟨e, he, by simpa [tokensOfList] using hmatch.append [] (tokensOfList sexpList)⟩
    · obtain ⟨e, he, hmatch⟩ := h.2.matches hm.2 p hp
      exact ⟨e, he, by simpa [tokensOfList] using hmatch.append sexp.tokens []⟩

end

theorem Token.Plain.of_lexed (h : Lexed token.kind token.string)
    (hl : token.kind = .string → token.string ≠ ['('] ∧ token.string ≠ [')']) : token.Plain := by
  intro hp
  generalize hk : token.kind = k at h hl ⊢
  generalize hs : token.string = s at h hl hp
  cases h with
  | delimiter => rfl
  | string => exact (hp.elim (hl rfl).1 (hl rfl).2).elim
  | generic _ he =>
    rcases hp with rfl | rfl
    · exact absurd (he '(' List.mem_cons_self) (by decide)
    · exact absurd (he ')' List.mem_cons_self) (by decide)

/-- Exactly the balanced texts are parsed, and every list ends at its own parenthesis. -/
structure AcceptsBalanced (text : Text) (tokenList : List Token) : Prop where
  accepts : (∃ sexpList, sexpParseList text = some (.ok sexpList)) ↔ Balanced tokenList
  ended : ∀ sexpList, sexpParseList text = some (.ok sexpList) →
    ∀ p ∈ bracketsOfList sexpList, ∃ e, p.2 = some e ∧ Matches tokenList p.1 e

/-- The parser is right unless a parenthesis is left open at the end of the input and none
was closed too much. -/
theorem acceptsBalanced_iff (source : CString)
    (h : lexerRun sexpConfig source.text = some (.ok tokenList))
    (hl : ∀ token ∈ tokenList, token.kind = .string →
      token.string ≠ ['('] ∧ token.string ≠ [')']) :
    AcceptsBalanced source.text tokenList ↔
      ¬NeverOvercloses tokenList ∨ opened tokenList = closed tokenList := by
  have hp : ∀ token ∈ tokenList, token.Plain := fun token ht =>
    .of_lexed (lexed_of_lexerRun h token ht) (hl token ht)
  obtain ⟨sexpList, rest, hr, ht, he⟩ := sexpParseList_eq h hp
  -- The parser fails exactly if a parenthesis is closed that was not opened.
  have hrest : rest = [] ↔ NeverOvercloses tokenList := by
    constructor
    · rintro rfl
      rw [ht, List.append_nil]
      exact hr.shaped.neverOvercloses
    · intro hn
      cases rest with
      | nil => rfl
      | cons token rest =>
        have hc : token.IsClose := hr.stop token rfl
        have ho : ¬token.IsOpen := fun ho => ho.not_isClose hc
        have hb := hr.shaped.opened_eq
        rw [hr.complete nofun, Nat.add_zero] at hb
        have hle := hn (tokensOfList sexpList ++ [token]) (by simp [ht])
        simp [hc, ho, hb] at hle
  constructor
  · rintro ⟨hacc, -⟩
    by_cases hn : NeverOvercloses tokenList
    · rw [if_pos (hrest.mpr hn)] at he
      exact .inr (hacc.mp ⟨sexpList, he⟩).2
    · exact .inl hn
  · intro hcond
    by_cases hn : NeverOvercloses tokenList
    · obtain rfl := hrest.mpr hn
      have heq : opened tokenList = closed tokenList := hcond.resolve_left (not_not_intro hn)
      rw [if_pos rfl] at he
      rw [List.append_nil] at ht
      constructor
      · exact ⟨fun _ => ⟨hn, heq⟩, fun _ => ⟨sexpList, he⟩⟩
      · intro l hparse
        rw [he] at hparse
        obtain rfl := Except.ok.inj (Option.some.inj hparse)
        have hm := hr.shaped.opened_eq
        rw [ht] at heq ⊢
        exact hr.shaped.matches (by omega)
    · have hne : rest ≠ [] := fun h => hn (hrest.mp h)
      rw [if_neg hne] at he
      constructor
      · refine ⟨?_, fun hb => (hn hb.1).elim⟩
        rintro ⟨l, hparse⟩
        rw [he] at hparse
        cases hparse
      · intro l hparse
        rw [he] at hparse
        cases hparse

end

/-- `(a)` -/
theorem acceptsBalanced_iff_call :
    AcceptsBalanced ['(', 'a', ')'] [⟨['('], .delimiter, 0, 1, 1, 2⟩, ⟨['a'], .generic, 1, 2, 1, 3⟩,
      ⟨[')'], .delimiter, 2, 3, 1, 4⟩] :=
  (acceptsBalanced_iff ⟨['(', 'a', ')'], by decide⟩ rfl (by decide)).mpr
    (.inr (by decide))

/-- A text that ends in the middle of a list is accepted. -/
theorem not_acceptsBalanced : ¬∀ (source : CString) (tokenList : List Token),
    lexerRun sexpConfig source.text = some (.ok tokenList) →
      (∀ token ∈ tokenList, token.kind = .string →
        token.string ≠ ['('] ∧ token.string ≠ [')']) →
      AcceptsBalanced source.text tokenList := by
  intro h
  have hacc := (h ⟨['('], by decide⟩ [⟨['('], .delimiter, 0, 1, 1, 2⟩] rfl (by decide)).accepts
  have hparse : sexpParseList ['('] = some (.ok [.list ⟨['('], .delimiter, 0, 1, 1, 2⟩ none []]) :=
    rfl
  have hb := (hacc.mp ⟨_, hparse⟩).2
  exact absurd hb (by decide)

end InetLisp
