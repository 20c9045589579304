import InetLisp.Packages.Lexer
import Mathlib.Data.List.TakeWhile

/-! # The pieces of a text

White space, line comments, parentheses, string literals and generic runs. A piece in
front of a text extends as far as it can, and every step of the lexer reads one piece.
-/

namespace InetLisp

open Lib

def isEnd (c : Char) : Bool := isspace c || c ∈ ['(', ')']

/-- The body of a string literal, and the text that it stands for. -/
inductive Unescapes : Text → Text → Prop
  | nil : Unescapes [] []
  | char {c : Char} {s t : Text} (hb : c ≠ '\\') (hq : c ≠ '"') (h : Unescapes s t) :
      Unescapes (c :: s) (c :: t)
  | escape {c d : Char} {s t : Text} (hd : Lexer.escapeChar c = some d) (h : Unescapes s t) :
      Unescapes ('\\' :: c :: s) (d :: t)

theorem Unescapes.length_le {s t : Text} (h : Unescapes s t) : t.length ≤ s.length := by
  induction h with
  | nil => rfl
  | char _ _ _ ih => exact Nat.succ_le_succ ih
  | escape _ _ ih => exact (Nat.succ_le_succ ih).trans (Nat.le_succ _)

inductive Piece where
  | space (s : Text)
  | comment (s : Text)
  | delimiter (c : Char)
  | string (body content : Text)
  | generic (s : Text)
  deriving DecidableEq, Repr

namespace Piece

def text : Piece → Text
  | space s => s
  | comment s => s
  | delimiter c => [c]
  | string body _ => '"' :: (body ++ ['"'])
  | generic s => s

/-- The characters of the token of a piece. -/
def content : Piece → Text
  | space _ => []
  | comment _ => []
  | delimiter c => [c]
  | string _ content => content
  | generic s => s

end Piece

/-- The piece stands in front of the rest of a text. -/
inductive Cuts : Piece → Text → Prop
  | space {s rest : Text} (hn : s ≠ []) (hs : ∀ c ∈ s, isspace c)
      (hr : ∀ c ∈ rest.head?, !isspace c) : Cuts (.space s) rest
  | line {s rest : Text} (hs : '\n' ∉ s) : Cuts (.comment (';' :: (s ++ ['\n']))) rest
  | lastLine {s : Text} (hs : '\n' ∉ s) : Cuts (.comment (';' :: s)) []
  | delimiter {c : Char} {rest : Text} (hc : c ∈ ['(', ')']) : Cuts (.delimiter c) rest
  | string {body content rest : Text} (h : Unescapes body content) :
      Cuts (.string body content) rest
  | generic {s rest : Text} (hn : s ≠ []) (hs : ∀ c ∈ s, !isEnd c)
      (hh : ∀ c ∈ s.head?, c ∉ [';', '"']) (hr : ∀ c ∈ rest.head?, isEnd c) : Cuts (.generic s) rest

/-- The pieces stand in front of the rest of the text. -/
inductive Tiles : Text → List Piece → Text → Prop
  | nil {rest : Text} : Tiles rest [] rest
  | cons {piece : Piece} {rest stop : Text} {pieces : List Piece} (h : Cuts piece rest)
      (ht : Tiles rest pieces stop) : Tiles (piece.text ++ rest) (piece :: pieces) stop

theorem exists_span (p : Char → Bool) (l : Text) :
    ∃ s r, l = s ++ r ∧ (∀ c ∈ s, p c) ∧ ∀ c ∈ r.head?, !p c := by
  use l.takeWhile p, l.dropWhile p
  refine ⟨List.takeWhile_append_dropWhile.symm, fun c hc => List.mem_takeWhile_imp hc, ?_⟩
  intro c hc
  have h := List.head?_dropWhile_not p l
  rw [Option.mem_def.mp hc] at h
  simpa using h

namespace Cuts

variable {c : Char} {rest s r : Text}

theorem exists_space (hc : isspace c) : ∃ s r, c :: rest = s ++ r ∧ Cuts (.space s) r := by
  obtain ⟨s, r, he, hs, hr⟩ := exists_span isspace (c :: rest)
  use s, r, he
  refine .space ?_ hs hr
  rintro rfl
  rw [List.nil_append] at he
  simpa [hc] using hr c (he ▸ rfl)

theorem exists_comment : ∃ s r, ';' :: rest = s ++ r ∧ Cuts (.comment s) r := by
  obtain ⟨s, r, rfl, hs, hr⟩ := exists_span (· ≠ '\n') rest
  have hs : '\n' ∉ s := fun h => by simpa using hs _ h
  cases r with
  | nil =>
    use ';' :: s, []
    exact ⟨rfl, .lastLine hs⟩
  | cons d r =>
    obtain rfl : d = '\n' := by simpa using hr d rfl
    use ';' :: (s ++ ['\n']), r
    exact ⟨by simp, .line hs⟩

theorem generic_of_append (he : c :: rest = s ++ r) (h₁ : ¬isspace c) (h₂ : c ≠ ';')
    (h₃ : c ∉ ['(', ')']) (h₄ : c ≠ '"') (hs : ∀ d ∈ s, !isEnd d) (hr : ∀ d ∈ r.head?, isEnd d) :
    Cuts (.generic s) r := by
  cases s with
  | nil =>
    rw [List.nil_append] at he
    have hc := hr c (he ▸ rfl)
    simp only [isEnd, Bool.or_eq_true, decide_eq_true_eq] at hc
    exact (hc.elim h₁ h₃).elim
  | cons d s =>
    obtain ⟨rfl, -⟩ := List.cons.inj he
    refine .generic nofun hs ?_ hr
    rintro _ ⟨⟩
    simpa using ⟨h₂, h₄⟩

theorem exists_of_ne_nil (hn : rest ≠ [])
    (hq : ∀ l, rest = '"' :: l → ∃ body content r, l = body ++ '"' :: r ∧ Unescapes body content) :
    ∃ piece r, rest = piece.text ++ r ∧ Cuts piece r := by
  cases rest with
  | nil => exact (hn rfl).elim
  | cons c rest =>
    by_cases h₁ : isspace c
    · obtain ⟨s, r, he, h⟩ := exists_space h₁
      exact ⟨_, r, he, h⟩
    by_cases h₂ : c = ';'
    · subst h₂
      obtain ⟨s, r, he, h⟩ := exists_comment
      exact ⟨_, r, he, h⟩
    by_cases h₃ : c ∈ ['(', ')']
    · exact ⟨.delimiter c, rest, rfl, .delimiter h₃⟩
    by_cases h₄ : c = '"'
    · subst h₄
      obtain ⟨body, content, r, rfl, h⟩ := hq rest rfl
      exact ⟨.string body content, r, by simp [Piece.text], .string h⟩
    · obtain ⟨s, r, he, hs, hr⟩ := exists_span (!isEnd ·) (c :: rest)
      exact ⟨.generic s, r, he, generic_of_append he h₁ h₂ h₃ h₄ hs (by simpa using hr)⟩

theorem text_ne_nil {piece : Piece} (h : Cuts piece rest) : piece.text ≠ [] := by
  cases h with
  | space hn => exact hn
  | line => exact List.cons_ne_nil _ _
  | lastLine => exact List.cons_ne_nil _ _
  | delimiter => exact List.cons_ne_nil _ _
  | string => exact List.cons_ne_nil _ _
  | generic hn => exact hn

end Cuts

/-- The line, counted from 1, of the end of a text. -/
def lineOf (s : Text) : ℕ := s.count '\n' + 1

/-- The column, counted from 1, of the end of a text. -/
def columnOf (s : Text) : ℕ := (s.reverse.takeWhile (· ≠ '\n')).length + 1

def kindOf (s : Text) : TokenKind :=
  if stringIsXint s then .int else if stringIsDouble s then .float else .generic

/-- A token that ends after `before`, its end at the position of the cursor. -/
def tokenAt (before string : Text) (kind : TokenKind) : Token :=
  ⟨string, kind, before.length - string.length, before.length, lineOf before, columnOf before⟩

/-- The token of a piece that stands after `before`. -/
def Piece.token (before : Text) : Piece → Option Token
  | space _ => none
  | comment _ => none
  | delimiter c => some (tokenAt (before ++ [c]) [c] .delimiter)
  | string body content => some (tokenAt (before ++ '"' :: body) (stringCopy content) .string)
  | generic s => some (tokenAt (before ++ s) (stringCopy s) (kindOf (stringCopy s)))

/-- The tokens of pieces that stand after `before`. -/
def tokensOf (before : Text) : List Piece → List Token
  | [] => []
  | piece :: pieces => (piece.token before).toList ++ tokensOf (before ++ piece.text) pieces

namespace Lexer

variable {self self' : Lexer} {s t rest rest' body content : Text} {piece : Piece}

def move (self : Lexer) (s : Text) : Lexer := s.foldl step self

@[simp] theorem move_nil : self.move [] = self := rfl

@[simp] theorem move_cons {c : Char} : self.move (c :: s) = (self.step c).move s := rfl

theorem move_append : self.move (s ++ t) = (self.move s).move t := List.foldl_append

@[simp] theorem step_buffer {c : Char} : (self.step c).buffer = self.buffer := by
  unfold step
  split <;> rfl

@[simp] theorem move_buffer : (self.move s).buffer = self.buffer := by
  induction s generalizing self with
  | nil => rfl
  | cons c s ih => rw [move_cons, ih, step_buffer]

theorem step_setBuffer {c : Char} :
    { self with buffer := t }.step c = { self.step c with buffer := t } := by
  unfold step
  split <;> rfl

theorem move_setBuffer : { self with buffer := t }.move s = { self.move s with buffer := t } := by
  induction s generalizing self with
  | nil => rfl
  | cons c s ih => rw [move_cons, move_cons, ← ih, step_setBuffer]

theorem skipSpace_append (hs : ∀ c ∈ s, isspace c) (hr : ∀ c ∈ rest.head?, !isspace c) :
    self.skipSpace (s ++ rest) = (self.move s, rest) := by
  induction s generalizing self with
  | nil =>
    cases rest with
    | nil => rfl
    | cons c rest =>
      have hc : isspace c = false := by simpa using hr c rfl
      simp [skipSpace, hc]
  | cons c s ih =>
    have hc : isspace c = true := hs c List.mem_cons_self
    simp only [List.cons_append, skipSpace, hc, if_true]
    exact ih fun d hd => hs d (List.mem_cons_of_mem c hd)

theorem skipLine_append (hs : '\n' ∉ s) :
    self.skipLine (s ++ '\n' :: rest) = (self.move (s ++ ['\n']), rest) := by
  induction s generalizing self with
  | nil => simp [skipLine]
  | cons c s ih =>
    rw [List.mem_cons, not_or] at hs
    simp only [List.cons_append, skipLine, Ne.symm hs.1, if_false]
    exact ih hs.2

theorem skipLine_of_not_mem (hs : '\n' ∉ s) : self.skipLine s = (self.move s, []) := by
  induction s generalizing self with
  | nil => rfl
  | cons c s ih =>
    rw [List.mem_cons, not_or] at hs
    simp only [skipLine, Ne.symm hs.1, if_false]
    exact ih hs.2

theorem collectChar_eq_ok {c : Char} :
    self.collectChar c = .ok self' ↔
      self.buffer.length < maxTokenLength ∧ self' = { self with buffer := self.buffer ++ [c] } := by
  unfold collectChar
  split
  · rename_i h
    constructor
    · rintro ⟨⟩
      exact ⟨h, rfl⟩
    · rintro ⟨-, rfl⟩
      rfl
  · rename_i h
    constructor
    · rintro ⟨⟩
    · rintro ⟨h', -⟩
      exact (h h').elim

theorem collectChar_of_lt (hl : self.buffer.length < maxTokenLength) (c : Char) :
    self.collectChar c = .ok { self with buffer := self.buffer ++ [c] } :=
  collectChar_eq_ok.mpr ⟨hl, rfl⟩

/-- The lexer after the characters `s`, with the characters `t` added to its buffer. -/
def gather (self : Lexer) (s t : Text) : Lexer :=
  { self.move s with buffer := self.buffer ++ t }

theorem gather_nil : self.gather [] [] = self := by simp [gather]

theorem gather_gather {s' t' : Text} :
    (self.gather s t).gather s' t' = self.gather (s ++ s') (t ++ t') := by
  simp [gather, move_setBuffer, move_append]

theorem collectStringLoop_quote :
    self.collectStringLoop ('"' :: rest) = .ok ((self.pushBuffer .string).step '"', rest) := by
  cases rest <;> rfl

theorem collectStringLoop_char {c : Char} (hb : c ≠ '\\') (hq : c ≠ '"')
    (hl : self.buffer.length < maxTokenLength) :
    self.collectStringLoop (c :: rest) = (self.gather [c] [c]).collectStringLoop rest := by
  rw [collectStringLoop.eq_def]
  simp only [hb, hq, if_false, collectChar_of_lt hl, Outcome.ok_bind, step_setBuffer]
  rfl

theorem collectStringLoop_escape {c d : Char} (hd : escapeChar c = some d)
    (hl : self.buffer.length < maxTokenLength) :
    self.collectStringLoop ('\\' :: c :: rest) =
      (self.gather ['\\', c] [d]).collectStringLoop rest := by
  have hl : (self.step '\\').buffer.length < maxTokenLength := by rwa [step_buffer]
  rw [collectStringLoop]
  simp only [if_true, hd, collectChar_of_lt hl, Outcome.ok_bind, step_setBuffer, step_buffer]
  rfl

theorem collectStringLoop_of_unescapes (h : Unescapes body content)
    (hl : self.buffer.length + content.length ≤ maxTokenLength) :
    self.collectStringLoop (body ++ '"' :: rest) =
      .ok (((self.gather body content).pushBuffer .string).step '"', rest) := by
  induction h generalizing self with
  | nil => rw [List.nil_append, collectStringLoop_quote, gather_nil]
  | @char c s t hb hq h ih =>
    rw [List.length_cons] at hl
    rw [List.cons_append, collectStringLoop_char hb hq (by omega), ih, gather_gather]
    · rfl
    · simp only [gather, List.length_append, List.length_singleton]
      omega
  | @escape c d s t hd h ih =>
    rw [List.length_cons] at hl
    rw [List.cons_append, List.cons_append, collectStringLoop_escape hd (by omega), ih,
      gather_gather]
    · rfl
    · simp only [gather, List.length_append, List.length_singleton]
      omega

theorem exists_of_collectStringLoop (h : self.collectStringLoop rest = .ok (self', rest'))
    (hb : self.buffer.length ≤ maxTokenLength) :
    ∃ body content, rest = body ++ '"' :: rest' ∧ Unescapes body content ∧
      self.buffer.length + content.length ≤ maxTokenLength := by
  fun_induction collectStringLoop self rest with
  | case1 => cases h
  | case2 => cases h
  | case3 => cases h
  | case4 self d rest char hd ih =>
    obtain ⟨s, hc, h⟩ := Outcome.of_bind_eq_ok h
    obtain ⟨hl, rfl⟩ := collectChar_eq_ok.mp hc
    rw [step_buffer] at hl
    obtain ⟨body, content, rfl, hu, hlen⟩ := ih _ h (by simpa using hl.nat_succ_le)
    use '\\' :: d :: body, char :: content
    simp only [step_buffer, List.length_append, List.length_cons] at hlen ⊢
    exact ⟨rfl, .escape hd hu, by omega⟩
  | case5 self rest =>
    obtain ⟨rfl, rfl⟩ := Prod.mk.inj (Except.ok.inj h)
    use [], []
    exact ⟨rfl, .nil, by simpa using hb⟩
  | case6 self c rest hc hq ih =>
    obtain ⟨s, hs, h⟩ := Outcome.of_bind_eq_ok h
    obtain ⟨hl, rfl⟩ := collectChar_eq_ok.mp hs
    obtain ⟨body, content, rfl, hu, hlen⟩ := ih _ h (by simpa using hl.nat_succ_le)
    use c :: body, c :: content
    simp only [step_buffer, List.length_append, List.length_cons] at hlen ⊢
    exact ⟨rfl, .char hc hq hu, by omega⟩

theorem matchDelimiter_cons {c : Char} :
    matchDelimiter sexpConfig (c :: rest) = if c ∈ ['(', ')'] then some [c] else none := by
  by_cases h₁ : c = '('
  · subst h₁
    simp [matchDelimiter, sexpConfig, stringStartsWith]
  · by_cases h₂ : c = ')'
    · subst h₂
      simp [matchDelimiter, sexpConfig, stringStartsWith]
    · simp [matchDelimiter, sexpConfig, stringStartsWith, h₁, h₂, Ne.symm h₁, Ne.symm h₂]

theorem isEnd_eq {c : Char} :
    (isspace c || (matchDelimiter sexpConfig (c :: rest)).isSome) = isEnd c := by
  rw [matchDelimiter_cons, isEnd]
  split <;> simp_all

theorem collectGenericLoop_append (hs : ∀ c ∈ s, !isEnd c) (hr : ∀ c ∈ rest.head?, isEnd c)
    (hl : self.buffer.length + s.length ≤ maxTokenLength) :
    self.collectGenericLoop sexpConfig (s ++ rest) =
      .ok ((self.gather s s).pushBuffer .generic, rest) := by
  induction s generalizing self with
  | nil =>
    rw [gather_nil]
    cases rest with
    | nil => rfl
    | cons c rest =>
      rw [List.nil_append, collectGenericLoop, isEnd_eq, if_pos (hr c rfl)]
  | cons c s ih =>
    rw [List.length_cons] at hl
    have hc : isEnd c = false := by simpa using hs c List.mem_cons_self
    rw [List.cons_append, collectGenericLoop, isEnd_eq, hc, if_neg Bool.false_ne_true,
      collectChar_of_lt (by omega), Outcome.ok_bind, step_setBuffer]
    have hl : (self.gather [c] [c]).buffer.length + s.length ≤ maxTokenLength := by
      simp only [gather, List.length_append, List.length_singleton]
      omega
    have ih := ih (fun d hd => hs d (List.mem_cons_of_mem c hd)) hl
    rw [gather_gather] at ih
    exact ih

theorem exists_of_collectGenericLoop
    (h : self.collectGenericLoop sexpConfig rest = .ok (self', rest'))
    (hb : self.buffer.length ≤ maxTokenLength) :
    ∃ s, rest = s ++ rest' ∧ (∀ c ∈ s, !isEnd c) ∧ (∀ c ∈ rest'.head?, isEnd c) ∧
      self.buffer.length + s.length ≤ maxTokenLength := by
  induction rest generalizing self with
  | nil =>
    obtain ⟨-, rfl⟩ := Prod.mk.inj (Except.ok.inj h)
    use []
    simpa using hb
  | cons c rest ih =>
    rw [collectGenericLoop, isEnd_eq] at h
    split at h
    · rename_i hc
      obtain ⟨-, rfl⟩ := Prod.mk.inj (Except.ok.inj h)
      use []
      simpa using ⟨hc, hb⟩
    · rename_i hc
      obtain ⟨s, hs, h⟩ := Outcome.of_bind_eq_ok h
      obtain ⟨hl, rfl⟩ := collectChar_eq_ok.mp hs
      obtain ⟨s, rfl, hs, hr, hlen⟩ := ih h (by simpa using hl.nat_succ_le)
      use c :: s
      simp only [step_buffer, List.length_append, List.length_cons] at hlen ⊢
      refine ⟨rfl, ?_, hr, by omega⟩
      intro d hd
      rcases List.mem_cons.mp hd with rfl | hd
      · simpa using hc
      · exact hs d hd

theorem ignoreSpace_cons {c : Char} : self.ignoreSpace (c :: rest) =
    if isspace c then some (self.skipSpace (c :: rest)) else none := rfl

theorem ignoreComment_cons {c : Char} : self.ignoreComment sexpConfig (c :: rest) =
    .ok (if c = ';' then some ((self.step c).skipLine rest) else none) := by
  simp only [ignoreComment, sexpConfig, stringStartsWith, List.isPrefixOf, Bool.and_true]
  by_cases hc : c = ';'
  · subst hc
    rfl
  · simp [hc, Ne.symm hc]

theorem collectDelimiter_cons {c : Char} : self.collectDelimiter sexpConfig (c :: rest) =
    .ok (if c ∈ ['(', ')'] then
      some ((self.step c).pushToken [c] .delimiter self.cursor (self.cursor + 1), rest)
    else none) := by
  rw [collectDelimiter, matchDelimiter_cons]
  by_cases hc : c ∈ ['(', ')']
  · have hz : stringCopy [c] = [c] := by
      rcases List.mem_pair.mp hc with rfl | rfl <;> rfl
    rw [if_pos hc, if_pos hc]
    simp only [hz]
    rfl
  · rw [if_neg hc, if_neg hc]

theorem lexerStep_cons {c : Char} : lexerStep sexpConfig (self, c :: rest) =
    if isspace c then .ok (self.skipSpace (c :: rest))
    else if c = ';' then .ok ((self.step c).skipLine rest)
    else if c ∈ ['(', ')'] then
      .ok ((self.step c).pushToken [c] .delimiter self.cursor (self.cursor + 1), rest)
    else if c = '"' then ({ self with buffer := [] }.step c).collectStringLoop rest
    else { self with buffer := [] }.collectGenericLoop sexpConfig (c :: rest) := by
  unfold lexerStep
  dsimp only
  rw [ignoreSpace_cons, ignoreComment_cons, collectDelimiter_cons]
  by_cases hs : isspace c
  · rw [if_pos hs, if_pos hs]
  · rw [if_neg hs, if_neg hs]
    by_cases hc : c = ';'
    · rw [if_pos hc, if_pos hc]
      rfl
    · rw [if_neg hc, if_neg hc]
      by_cases hd : c ∈ ['(', ')']
      · rw [if_pos hd, if_pos hd]
        rfl
      · rw [if_neg hd, if_neg hd]
        by_cases hq : c = '"'
        · simp only [Outcome.ok_bind, collectString, hq, if_true, sexpConfig]
          cases ({ self with buffer := [] }.step '"').collectStringLoop rest <;> rfl
        · simp [collectString, hq, sexpConfig, collectGeneric]

theorem lexerStep_quote : lexerStep sexpConfig (self, '"' :: rest) =
    { self.step '"' with buffer := [] }.collectStringLoop rest := by
  rw [lexerStep_cons, if_neg (by decide), if_neg (by decide), if_neg (by decide), if_pos rfl,
    step_setBuffer]

theorem lexerStep_generic (hn : s ≠ []) (hs : ∀ c ∈ s, !isEnd c)
    (hh : ∀ c ∈ s.head?, c ∉ [';', '"']) : lexerStep sexpConfig (self, s ++ rest) =
      { self with buffer := [] }.collectGenericLoop sexpConfig (s ++ rest) := by
  cases s with
  | nil => exact (hn rfl).elim
  | cons c s =>
    have hc := hs c List.mem_cons_self
    have hq := hh c rfl
    simp only [isEnd, Bool.not_eq_true', Bool.or_eq_false_iff, decide_eq_false_iff_not] at hc
    simp only [List.mem_pair, not_or] at hq
    rw [List.cons_append, lexerStep_cons, if_neg (by simp [hc.1]), if_neg hq.1, if_neg hc.2,
      if_neg hq.2]

def read (self : Lexer) : Piece → Lexer
  | .space s => self.move s
  | .comment s => self.move s
  | .delimiter c => (self.step c).pushToken [c] .delimiter self.cursor (self.cursor + 1)
  | .string body content =>
    (({ self.step '"' with buffer := [] }.gather body content).pushBuffer .string).step '"'
  | .generic s => ({ self with buffer := [] }.gather s s).pushBuffer .generic

theorem lexerStep_of_cuts (h : Cuts piece rest) (hl : piece.content.length ≤ maxTokenLength) :
    lexerStep sexpConfig (self, piece.text ++ rest) = .ok (self.read piece, rest) := by
  cases h with
  | @space s rest hn hs hr =>
    cases s with
    | nil => exact (hn rfl).elim
    | cons c s =>
      have hc : isspace c = true := hs c List.mem_cons_self
      have hsp : self.skipSpace (c :: (s ++ rest)) = (self.move (c :: s), rest) :=
        skipSpace_append hs hr
      rw [Piece.text, List.cons_append, lexerStep_cons, if_pos hc, hsp]
      rfl
  | @line s rest hs =>
    rw [Piece.text, List.cons_append, List.append_assoc, lexerStep_cons]
    rw [if_neg (by decide), if_pos rfl, List.singleton_append, skipLine_append hs]
    rfl
  | @lastLine s hs =>
    rw [Piece.text, List.append_nil, lexerStep_cons]
    rw [if_neg (by decide), if_pos rfl, skipLine_of_not_mem hs]
    rfl
  | @delimiter c rest hc =>
    have hs : isspace c = false ∧ c ≠ ';' := by
      rcases List.mem_pair.mp hc with rfl | rfl <;> decide
    rw [Piece.text, List.singleton_append, lexerStep_cons, if_neg (by simp [hs.1]), if_neg hs.2,
      if_pos hc]
    rfl
  | @string body content rest hu =>
    rw [Piece.text, List.cons_append, List.append_assoc, lexerStep_quote]
    have hl : ({ self.step '"' with buffer := [] } : Lexer).buffer.length + content.length ≤
        maxTokenLength := by simpa [Piece.content] using hl
    exact collectStringLoop_of_unescapes hu hl
  | @generic s rest hn hs hh hr =>
    rw [Piece.text, lexerStep_generic hn hs hh]
    exact collectGenericLoop_append hs hr (by simpa [Piece.content] using hl)

/-- Every step that succeeds reads a piece. -/
theorem exists_cuts_of_lexerStep {x : Lexer × Text} (hn : rest ≠ [])
    (h : lexerStep sexpConfig (self, rest) = .ok x) :
    ∃ piece r, rest = piece.text ++ r ∧ Cuts piece r ∧ piece.content.length ≤ maxTokenLength := by
  obtain ⟨self', rest'⟩ := x
  cases rest with
  | nil => exact (hn rfl).elim
  | cons c rest =>
    rw [lexerStep_cons] at h
    split_ifs at h with h₁ h₂ h₃ h₄
    · obtain ⟨s, r, he, h⟩ := Cuts.exists_space h₁
      exact ⟨_, r, he, h, Nat.zero_le _⟩
    · subst h₂
      obtain ⟨s, r, he, h⟩ := Cuts.exists_comment
      exact ⟨_, r, he, h, Nat.zero_le _⟩
    · exact ⟨.delimiter c, rest, rfl, .delimiter h₃, (by decide : 1 ≤ 1024)⟩
    · subst h₄
      obtain ⟨body, content, rfl, hu, hl⟩ := exists_of_collectStringLoop h (by simp)
      rw [step_buffer, List.length_nil, Nat.zero_add] at hl
      exact ⟨.string body content, rest', by simp [Piece.text], .string hu, hl⟩
    · obtain ⟨s, he, hs, hr, hl⟩ := exists_of_collectGenericLoop h (Nat.zero_le _)
      rw [List.length_nil, Nat.zero_add] at hl
      exact ⟨.generic s, rest', he, Cuts.generic_of_append he h₁ h₂ h₃ h₄ hs hr, hl⟩

/-- The lexer stands at the end of a text. -/
structure At (lexer : Lexer) (before : Text) : Prop where
  cursor : lexer.cursor = before.length
  lineno : lexer.lineno = lineOf before
  column : lexer.column = columnOf before

theorem At.init : At init [] := ⟨rfl, rfl, rfl⟩

theorem At.step {c : Char} (h : self.At s) : (self.step c).At (s ++ [c]) := by
  unfold Lexer.step
  split
  · rename_i hc
    subst hc
    constructor <;> simp [lineOf, columnOf, h.cursor, h.lineno]
  · rename_i hc
    constructor
    · simp [h.cursor]
    · simp [lineOf, h.lineno, hc]
    · simp [columnOf, h.column, hc]

theorem At.move (h : self.At s) : (self.move t).At (s ++ t) := by
  induction t generalizing self s with
  | nil => simpa using h
  | cons c t ih =>
    rw [move_cons, ← List.singleton_append, ← List.append_assoc]
    exact ih h.step

theorem At.setBuffer (h : self.At s) : { self with buffer := t }.At s :=
  ⟨h.cursor, h.lineno, h.column⟩

theorem At.pushToken {string : Text} {kind : TokenKind} {start stop : ℕ} (h : self.At s) :
    (self.pushToken string kind start stop).At s := ⟨h.cursor, h.lineno, h.column⟩

theorem At.pushBuffer {kind : TokenKind} (h : self.At s) : (self.pushBuffer kind).At s :=
  h.pushToken.setBuffer

theorem At.gather (h : self.At s) : (self.gather t content).At (s ++ t) := h.move.setBuffer

theorem At.read (h : self.At s) : (self.read piece).At (s ++ piece.text) := by
  cases piece with
  | space t => exact h.move
  | comment t => exact h.move
  | delimiter c => exact h.step.pushToken
  | string body content =>
    have hq : (self.step '"').At (s ++ ['"']) := h.step
    have hb : ({ self.step '"' with buffer := [] }.gather body content).At (s ++ ['"'] ++ body) :=
      hq.setBuffer.gather
    have hr : (self.read (.string body content)).At (s ++ ['"'] ++ body ++ ['"']) :=
      hb.pushBuffer.step
    simpa [Piece.text] using hr
  | generic t => exact h.setBuffer.gather.pushBuffer

/-- What is done to the token list after the loop. -/
def finish (tokenList : List Token) : List Token :=
  postprocess .float stringIsDouble (postprocess .int stringIsXint tokenList)

theorem finish_append {l m : List Token} : finish (l ++ m) = finish l ++ finish m := by
  simp [finish, postprocess]

@[simp] theorem step_tokenList {c : Char} : (self.step c).tokenList = self.tokenList := by
  unfold step
  split <;> rfl

@[simp] theorem move_tokenList : (self.move s).tokenList = self.tokenList := by
  induction s generalizing self with
  | nil => rfl
  | cons c s ih => rw [move_cons, ih, step_tokenList]

theorem finish_pushToken {string : Text} {start stop : ℕ} (kind : TokenKind) (h : self.At s)
    (hs : stop = s.length) (ht : start + string.length = stop) :
    finish (self.pushToken string kind start stop).tokenList = finish self.tokenList ++
      [tokenAt s string (if kind = .generic then kindOf string else kind)] := by
  have hstart : s.length - string.length = start := by omega
  simp only [pushToken, finish_append, h.lineno, h.column, hs]
  congr 1
  by_cases hk : kind = .generic
  · subst hk
    by_cases hx : stringIsXint string
    · simp [finish, postprocess, tokenAt, kindOf, hx, hstart]
    · by_cases hd : stringIsDouble string
      · simp [finish, postprocess, tokenAt, kindOf, hx, hd, hstart]
      · simp [finish, postprocess, tokenAt, kindOf, hx, hd, hstart]
  · simp [finish, postprocess, tokenAt, hk, hstart]

theorem finish_pushBuffer (kind : TokenKind) (h : self.At s) (hl : self.buffer.length ≤ s.length) :
    finish (self.pushBuffer kind).tokenList = finish self.tokenList ++
      [tokenAt s (stringCopy self.buffer)
        (if kind = .generic then kindOf (stringCopy self.buffer) else kind)] := by
  have hc : (stringCopy self.buffer).length ≤ self.buffer.length :=
    (List.takeWhile_prefix _).length_le
  have hs := h.cursor
  exact finish_pushToken kind h hs (by omega)

theorem finish_read (h : self.At s) (hp : Cuts piece rest) :
    finish (self.read piece).tokenList = finish self.tokenList ++ (piece.token s).toList := by
  cases hp with
  | space => simp [read, Piece.token]
  | line => simp [read, Piece.token]
  | lastLine => simp [read, Piece.token]
  | @delimiter c =>
    have hs : self.cursor + 1 = (s ++ [c]).length := by simp [h.cursor]
    have ht (string : Text) (hl : self.cursor + string.length = self.cursor + 1) :=
      finish_pushToken .delimiter h.step hs hl
    simpa [read, Piece.token] using ht [c] rfl
  | @string body content rest hu =>
    have hq : (self.step '"').At (s ++ ['"']) := h.step
    have hb : ({ self.step '"' with buffer := [] }.gather body content).At (s ++ ['"'] ++ body) :=
      hq.setBuffer.gather
    have hl : content.length ≤ (s ++ ['"'] ++ body).length := by
      simp only [List.length_append]
      exact hu.length_le.trans (Nat.le_add_left _ _)
    have ht := finish_pushBuffer .string hb hl
    simpa [read, gather, Piece.token] using ht
  | @generic t rest =>
    have hb : ({ self with buffer := [] }.gather t t).At (s ++ t) := h.setBuffer.gather
    have hl : t.length ≤ (s ++ t).length := by
      rw [List.length_append]
      exact Nat.le_add_left _ _
    have ht := finish_pushBuffer .generic hb hl
    simpa [read, gather, Piece.token] using ht

theorem leads_of_tiles {text stop : Text} {pieces : List Piece} (h : Tiles text pieces stop)
    (hl : ∀ piece ∈ pieces, piece.content.length ≤ maxTokenLength) (hs : self.At s) :
    ∃ self', Leads more (lexerStep sexpConfig) (self, text) (self', stop) ∧
      finish self'.tokenList = finish self.tokenList ++ tokensOf s pieces := by
  induction h generalizing self s with
  | nil => exact ⟨self, .refl _, by simp [tokensOf]⟩
  | @cons piece rest stop pieces hc ht ih =>
    have hstep : lexerStep sexpConfig (self, piece.text ++ rest) = .ok (self.read piece, rest) :=
      lexerStep_of_cuts hc (hl _ List.mem_cons_self)
    have hm : more (self, piece.text ++ rest) = true := by
      have hne : piece.text ≠ [] := hc.text_ne_nil
      simp [more, hne]
    obtain ⟨self', hlead, htok⟩ := ih (fun p hp => hl p (List.mem_cons_of_mem _ hp)) hs.read
    use self', (Leads.of_step hm hstep).trans hlead
    rw [htok, finish_read hs hc, List.append_assoc]
    rfl

theorem exists_loop_eq_some {n : ℕ} (hn : rest.length < n) :
    ∃ r, loop more (lexerStep sexpConfig) n (self, rest) = some r := by
  induction n generalizing self rest with
  | zero => cases hn
  | succ n ih =>
    by_cases hr : rest = []
    · subst hr
      exact ⟨_, rfl⟩
    · have hm : more (self, rest) = true := by simpa [more] using hr
      rw [loop, if_pos hm]
      cases hs : lexerStep sexpConfig (self, rest) with
      | error e => exact ⟨_, rfl⟩
      | ok x =>
        obtain ⟨piece, r, rfl, hc, hl⟩ := exists_cuts_of_lexerStep hr hs
        rw [lexerStep_of_cuts hc hl] at hs
        obtain rfl := Except.ok.inj hs
        apply ih
        have hp := List.length_pos_iff.mpr hc.text_ne_nil
        rw [List.length_append] at hn
        omega

theorem exists_loop (text : Text) :
    ∃ r, loop more (lexerStep sexpConfig) (text.length + 1) (init, text) = some r :=
  exists_loop_eq_some (Nat.lt_succ_self text.length)

/-- The lexer ends on every text. -/
theorem exists_lexerRun (text : Text) : ∃ r, lexerRun sexpConfig text = some r := by
  obtain ⟨r, hr⟩ := exists_loop text
  exact ⟨_, by rw [lexerRun, hr, Option.map_some]⟩

theorem lexerRun_of_tiles {text : Text} {pieces : List Piece} (h : Tiles text pieces [])
    (hl : ∀ piece ∈ pieces, piece.content.length ≤ maxTokenLength) :
    lexerRun sexpConfig text = some (.ok (tokensOf [] pieces)) := by
  obtain ⟨self', hlead, htok⟩ := leads_of_tiles h hl At.init
  obtain ⟨r, hr⟩ := exists_loop text
  have he : r = .ok (self', []) := Ends.unique ⟨_, hr⟩ (hlead.ends (.of_not_more rfl))
  subst he
  rw [lexerRun, hr]
  show some (Except.ok (finish self'.tokenList)) = _
  rw [htok]
  rfl

theorem exists_tiles_of_loop {n : ℕ} {x : Lexer × Text}
    (h : loop more (lexerStep sexpConfig) n (self, rest) = some (.ok x)) :
    ∃ pieces, Tiles rest pieces [] ∧ ∀ piece ∈ pieces, piece.content.length ≤ maxTokenLength := by
  induction n generalizing self rest with
  | zero => cases h
  | succ n ih =>
    by_cases hr : rest = []
    · subst hr
      exact ⟨[], .nil, nofun⟩
    · have hm : more (self, rest) = true := by simpa [more] using hr
      rw [loop, if_pos hm] at h
      cases hs : lexerStep sexpConfig (self, rest) with
      | error e =>
        rw [hs] at h
        cases h
      | ok y =>
        obtain ⟨piece, r, rfl, hc, hl⟩ := exists_cuts_of_lexerStep hr hs
        rw [hs] at h
        rw [lexerStep_of_cuts hc hl] at hs
        obtain rfl := Except.ok.inj hs
        obtain ⟨pieces, ht, hp⟩ := ih h
        use piece :: pieces, .cons hc ht
        simpa using ⟨hl, hp⟩

theorem exists_tiles_of_lexerRun {text : Text} {tokenList : List Token}
    (h : lexerRun sexpConfig text = some (.ok tokenList)) :
    ∃ pieces, Tiles text pieces [] ∧ (∀ piece ∈ pieces, piece.content.length ≤ maxTokenLength) ∧
      tokenList = tokensOf [] pieces := by
  obtain ⟨r, hr⟩ := exists_loop text
  cases r with
  | error e =>
    rw [lexerRun, hr] at h
    cases h
  | ok x =>
    obtain ⟨pieces, ht, hl⟩ := exists_tiles_of_loop hr
    use pieces, ht, hl
    rw [lexerRun_of_tiles ht hl] at h
    exact (Except.ok.inj (Option.some.inj h)).symm

end Lexer

end InetLisp
