import InetLisp.Packages.Tiles

/-! # The tokens of a text

A text is cut into pieces in one way only. If its string literals end and its tokens
are not too long, the lexer gives the tokens of its pieces.
-/

namespace InetLisp

open Lib Lexer

/-- A string of the source language: the zero character ends it. -/
structure CString where
  text : Text
  zero_not_mem : '\x00' ∉ text

/-- What the first character of a piece says about it. -/
def startsWith (c : Char) : ℕ :=
  if isspace c then 0 else if c = ';' then 1 else if c ∈ ['(', ')'] then 2
  else if c = '"' then 3 else 4

namespace Piece

def shape : Piece → ℕ
  | space _ => 0
  | comment _ => 1
  | delimiter _ => 2
  | string _ _ => 3
  | generic _ => 4

end Piece

section

variable {p q : Piece} {r r' s s' t t' text rest : Text} {ps qs : List Piece}

theorem span_unique {f : Char → Bool} (hs : ∀ c ∈ s, f c) (hs' : ∀ c ∈ s', f c)
    (hr : ∀ c ∈ r.head?, !f c) (hr' : ∀ c ∈ r'.head?, !f c) (h : s ++ r = s' ++ r') :
    s = s' ∧ r = r' := by
  have hspan {s r : Text} (hs : ∀ c ∈ s, f c) (hr : ∀ c ∈ r.head?, !f c) :
      (s ++ r).takeWhile f = s := by
    rw [List.takeWhile_append_of_pos hs]
    cases r with
    | nil => simp
    | cons c r => simpa using hr c rfl
  have he : s = s' := by rw [← hspan hs hr, h, hspan hs' hr']
  subst he
  exact ⟨rfl, List.append_cancel_left h⟩

theorem Unescapes.unique (h : Unescapes s t) (h' : Unescapes s' t')
    (he : s ++ '"' :: r = s' ++ '"' :: r') : s = s' ∧ t = t' ∧ r = r' := by
  induction h generalizing s' t' with
  | nil =>
    cases h' with
    | nil => exact ⟨rfl, rfl, (List.cons.inj he).2⟩
    | char _ hq => exact (hq (List.cons.inj he).1.symm).elim
    | escape => simp at he
  | @char c s t hb hq h ih =>
    cases h' with
    | nil => exact (hq (List.cons.inj he).1).elim
    | char _ _ h' =>
      obtain ⟨rfl, hs⟩ := List.cons.inj he
      obtain ⟨rfl, rfl, rfl⟩ := ih h' hs
      exact ⟨rfl, rfl, rfl⟩
    | escape => exact (hb (List.cons.inj he).1).elim
  | @escape c d s t hd h ih =>
    cases h' with
    | nil => simp at he
    | char hb => exact (hb (List.cons.inj he).1.symm).elim
    | escape hd' h' =>
      obtain ⟨rfl, hs⟩ := List.cons.inj (List.cons.inj he).2
      obtain ⟨rfl, rfl, rfl⟩ := ih h' hs
      obtain rfl := Option.some.inj (hd.symm.trans hd')
      exact ⟨rfl, rfl, rfl⟩

theorem Cuts.startsWith (h : Cuts p r) : ∃ c l, p.text = c :: l ∧ startsWith c = p.shape := by
  cases h with
  | @space s r hn hs =>
    cases s with
    | nil => exact (hn rfl).elim
    | cons c s => exact ⟨c, s, rfl, by simp [InetLisp.startsWith, hs c, Piece.shape]⟩
  | line => exact ⟨_, _, rfl, rfl⟩
  | lastLine => exact ⟨_, _, rfl, rfl⟩
  | @delimiter c r hc =>
    refine ⟨c, [], rfl, ?_⟩
    rcases List.mem_pair.mp hc with rfl | rfl <;> rfl
  | string => exact ⟨_, _, rfl, rfl⟩
  | @generic s r hn hs hh =>
    cases s with
    | nil => exact (hn rfl).elim
    | cons c s =>
      have hc := hs c List.mem_cons_self
      have hq := hh c rfl
      simp only [isEnd, Bool.not_eq_true', Bool.or_eq_false_iff, decide_eq_false_iff_not] at hc
      simp only [List.mem_pair, not_or] at hq
      exact ⟨c, s, rfl, by simp only [InetLisp.startsWith, hc, hq, if_false, Piece.shape]; simp⟩

theorem Cuts.shape_eq (h : Cuts p r) (h' : Cuts q r') (he : p.text ++ r = q.text ++ r') :
    p.shape = q.shape := by
  obtain ⟨c, l, hp, hc⟩ := h.startsWith
  obtain ⟨d, m, hq, hd⟩ := h'.startsWith
  rw [hp, hq] at he
  rw [← hc, ← hd, (List.cons.inj he).1]

theorem not_mem_append {s r : Text} (hs : '\n' ∉ s) (he : s = s' ++ '\n' :: r) : False :=
  hs (he ▸ List.mem_append_right s' List.mem_cons_self)

theorem Cuts.unique (h : Cuts p r) (h' : Cuts q r') (he : p.text ++ r = q.text ++ r') :
    p = q ∧ r = r' := by
  have hshape := h.shape_eq h' he
  cases h with
  | space hn hs hr =>
    cases h' with
    | space hn' hs' hr' =>
      obtain ⟨rfl, rfl⟩ := span_unique hs hs' hr hr' he
      exact ⟨rfl, rfl⟩
    | _ => cases hshape
  | @line s r hs =>
    have hs : ∀ c ∈ s, c ≠ '\n' := fun c hc h => hs (h ▸ hc)
    cases h' with
    | @line s' r' hs' =>
      have hs' : ∀ c ∈ s', c ≠ '\n' := fun c hc h => hs' (h ▸ hc)
      have he : s ++ '\n' :: r = s' ++ '\n' :: r' := by simpa [Piece.text] using he
      obtain ⟨rfl, hr⟩ := span_unique (f := (· ≠ '\n')) (by simpa using hs) (by simpa using hs')
        (by simp) (by simp) he
      exact ⟨rfl, (List.cons.inj hr).2⟩
    | @lastLine s' hs' =>
      exact (not_mem_append hs' (by simpa [Piece.text] using he.symm)).elim
    | _ => cases hshape
  | @lastLine s hs =>
    cases h' with
    | line => exact (not_mem_append hs (by simpa [Piece.text] using he)).elim
    | lastLine => exact ⟨by simpa [Piece.text] using he, rfl⟩
    | _ => cases hshape
  | delimiter =>
    cases h' with
    | delimiter =>
      obtain ⟨rfl, rfl⟩ := List.cons.inj he
      exact ⟨rfl, rfl⟩
    | _ => cases hshape
  | @string body content r hu =>
    cases h' with
    | @string body' content' r' hu' =>
      have he : body ++ '"' :: r = body' ++ '"' :: r' := by simpa [Piece.text] using he
      obtain ⟨rfl, rfl, rfl⟩ := hu.unique hu' he
      exact ⟨rfl, rfl⟩
    | _ => cases hshape
  | generic hn hs hh hr =>
    cases h' with
    | generic hn' hs' hh' hr' =>
      obtain ⟨rfl, rfl⟩ := span_unique hs hs' (by simpa using hr) (by simpa using hr') he
      exact ⟨rfl, rfl⟩
    | _ => cases hshape

/-- Pieces in front of a text are the first of the pieces of the whole text. -/
theorem Tiles.exists_append (h : Tiles text ps rest) (h' : Tiles text qs []) :
    ∃ l, qs = ps ++ l ∧ Tiles rest l [] := by
  induction h generalizing qs with
  | nil => exact ⟨qs, rfl, h'⟩
  | @cons piece rest stop pieces hc ht ih =>
    generalize hx : piece.text ++ rest = x at h'
    cases h' with
    | nil => exact (hc.text_ne_nil (List.append_eq_nil_iff.mp hx).1).elim
    | cons hc' ht' =>
      obtain ⟨rfl, rfl⟩ := hc.unique hc' hx
      obtain ⟨l, rfl, hl⟩ := ih ht'
      exact ⟨l, rfl, hl⟩

theorem Tiles.snoc (h : Tiles text ps (p.text ++ r)) (hc : Cuts p r) :
    Tiles text (ps ++ [p]) r := by
  generalize hx : p.text ++ r = x at h
  induction h with
  | nil =>
    subst hx
    exact .cons hc .nil
  | cons hc' _ ih => exact .cons hc' (ih hx)

/-- Every string literal ends and uses known escapes only, and no token is too long. -/
structure WellLexed (text : Text) : Prop where
  literal : ∀ pieces rest, Tiles text pieces ('"' :: rest) →
    ∃ body content r, rest = body ++ '"' :: r ∧ Unescapes body content
  length : ∀ pieces rest, Tiles text pieces rest →
    ∀ piece ∈ pieces, piece.content.length ≤ maxTokenLength

theorem WellLexed.of_tiles (h : Tiles text ps [])
    (hl : ∀ piece ∈ ps, piece.content.length ≤ maxTokenLength) : WellLexed text := by
  constructor
  · intro qs rest hq
    obtain ⟨l, rfl, hr⟩ := hq.exists_append h
    generalize hx : '"' :: rest = x at hr
    cases hr with
    | nil => cases hx
    | @cons piece rest' stop pieces hc ht =>
      obtain ⟨c, m, hp, hshape⟩ := hc.startsWith
      rw [hp] at hx
      obtain ⟨rfl, hx⟩ := List.cons.inj hx
      cases hc with
      | @string body content r hu =>
        obtain rfl := (List.cons.inj hp).2
        exact ⟨body, content, rest', by simpa using hx, hu⟩
      | _ => cases hshape
  · intro qs rest hq piece hpiece
    obtain ⟨l, rfl, -⟩ := hq.exists_append h
    exact hl piece (List.mem_append_left l hpiece)

theorem WellLexed.of_lexerRun {tokenList : List Token}
    (h : lexerRun sexpConfig text = some (.ok tokenList)) : WellLexed text := by
  obtain ⟨ps, ht, hl, -⟩ := exists_tiles_of_lexerRun h
  exact .of_tiles ht hl

theorem WellLexed.exists_tiles (h : WellLexed text) : ∃ ps, Tiles text ps [] := by
  have hex (n : ℕ) : ∀ ps rest, rest.length = n → Tiles text ps rest → ∃ qs, Tiles text qs [] := by
    induction n using Nat.strongRecOn with
    | ind n ih =>
      intro ps rest hn ht
      by_cases hr : rest = []
      · exact ⟨ps, hr ▸ ht⟩
      · obtain ⟨p, r, rfl, hc⟩ := Cuts.exists_of_ne_nil hr fun l hl => h.literal ps l (hl ▸ ht)
        have hp := List.length_pos_iff.mpr hc.text_ne_nil
        rw [List.length_append] at hn
        exact ih r.length (by omega) _ r rfl (ht.snoc hc)
  exact hex _ [] text rfl .nil

theorem Tiles.text_eq (h : Tiles text ps rest) : text = (ps.map Piece.text).flatten ++ rest := by
  induction h with
  | nil => rfl
  | cons _ _ ih => rw [List.map_cons, List.flatten_cons, List.append_assoc, ← ih]

def Piece.isToken : Piece → Bool
  | space _ => false
  | comment _ => false
  | delimiter _ => true
  | string _ _ => true
  | generic _ => true

/-- The pieces with the offsets at which they stand. -/
def placed (offset : ℕ) : List Piece → List (ℕ × Piece)
  | [] => []
  | piece :: pieces => (offset, piece) :: placed (offset + piece.text.length) pieces

/-- The token is the one of a piece at this offset. -/
def IsTokenOf (p : ℕ × Piece) (token : Token) : Prop :=
  match p.2 with
  | .space _ => False
  | .comment _ => False
  | .delimiter c => token.kind = .delimiter ∧ token.string = [c] ∧
      token.start = p.1 ∧ token.stop = p.1 + 1
  | .string body content => token.kind = .string ∧ token.string = stringCopy content ∧
      token.stop = p.1 + 1 + body.length
  | .generic s => token.kind = kindOf s ∧ token.string = s ∧
      token.start = p.1 ∧ token.stop = p.1 + s.length

/-- The tokens of a text that is cut into the pieces. -/
structure Tiling (text : Text) (pieceList : List Piece) (tokenList : List Token) : Prop where
  tiles : Tiles text pieceList []
  text_eq : text = (pieceList.map Piece.text).flatten
  tokens : List.Forall₂ IsTokenOf ((placed 0 pieceList).filter fun p => p.2.isToken) tokenList
  slice : ∀ token ∈ tokenList, token.kind ≠ .string →
    (text.take token.stop).drop token.start = token.string
  lineno : ∀ token ∈ tokenList, token.lineno = lineOf (text.take token.stop)
  column : ∀ token ∈ tokenList, token.column = columnOf (text.take token.stop)

theorem stringCopy_of_not_mem (h : '\x00' ∉ s) : stringCopy s = s := by
  rw [stringCopy, List.takeWhile_eq_self_iff]
  intro c hc
  have hz : c ≠ '\x00' := fun he => h (he ▸ hc)
  simpa using hz

theorem forall₂_tokensOf (h : Tiles text ps rest) (hz : '\x00' ∉ text) (before : Text) :
    List.Forall₂ IsTokenOf ((placed before.length ps).filter fun p => p.2.isToken)
      (tokensOf before ps) := by
  induction h generalizing before with
  | nil => exact .nil
  | @cons piece rest stop pieces hc ht ih =>
    simp only [List.mem_append, not_or] at hz
    have ih := ih hz.2 (before ++ piece.text)
    rw [List.length_append] at ih
    cases piece with
    | space s => simpa [placed, Piece.isToken, tokensOf, Piece.token] using ih
    | comment s => simpa [placed, Piece.isToken, tokensOf, Piece.token] using ih
    | delimiter c =>
      refine .cons ⟨rfl, rfl, ?_, ?_⟩ ih <;> simp [tokenAt]
    | string body content =>
      refine .cons ⟨rfl, rfl, ?_⟩ ih
      simp only [tokenAt, List.length_append, List.length_cons]
      omega
    | generic s =>
      have hs : stringCopy s = s := stringCopy_of_not_mem hz.1
      refine .cons ⟨?_, ?_, ?_, ?_⟩ ih <;> simp [tokenAt, hs]

theorem exists_of_mem_tokensOf {token : Token} (h : Tiles text ps rest) (hz : '\x00' ∉ text)
    (before : Text) (ht : token ∈ tokensOf before ps) : ∃ s string kind, s <+: before ++ text ∧
      token = tokenAt s string kind ∧ (kind ≠ .string → string <:+ s) := by
  induction h generalizing before with
  | nil => cases ht
  | @cons piece rest stop pieces hc _ ih =>
    simp only [List.mem_append, not_or] at hz
    rw [tokensOf, List.mem_append] at ht
    rcases ht with ht | ht
    · cases piece with
      | space s => cases ht
      | comment s => cases ht
      | delimiter c =>
        obtain rfl := List.mem_singleton.mp ht
        refine ⟨_, _, _, ?_, rfl, fun _ => List.suffix_append _ _⟩
        exact (List.prefix_append_right_inj _).mpr (List.prefix_append _ _)
      | string body content =>
        obtain rfl := List.mem_singleton.mp ht
        refine ⟨_, _, _, ?_, rfl, fun h => (h rfl).elim⟩
        exact (List.prefix_append_right_inj _).mpr (by simp [Piece.text])
      | generic s =>
        have hs : stringCopy s = s := stringCopy_of_not_mem hz.1
        obtain rfl := List.mem_singleton.mp ht
        refine ⟨_, _, _, ?_, rfl, fun _ => ?_⟩
        · exact (List.prefix_append_right_inj _).mpr (List.prefix_append _ _)
        · rw [hs]
          exact List.suffix_append _ _
    · obtain ⟨s, string, kind, hp, he, hk⟩ := ih hz.2 _ ht
      exact ⟨s, string, kind, by simpa using hp, he, hk⟩

theorem Tiling.of_tiles (h : Tiles text ps []) (hz : '\x00' ∉ text) :
    Tiling text ps (tokensOf [] ps) := by
  have hmem {token : Token} (ht : token ∈ tokensOf [] ps) := exists_of_mem_tokensOf h hz [] ht
  have htake {s : Text} (hs : s <+: [] ++ text) : text.take s.length = s :=
    (List.prefix_iff_eq_take.mp hs).symm
  refine ⟨h, by simpa using h.text_eq, forall₂_tokensOf h hz [], ?_, ?_, ?_⟩
  · intro token ht hk
    obtain ⟨s, string, kind, hs, rfl, hsuffix⟩ := hmem ht
    simp only [tokenAt, htake hs]
    exact (List.suffix_iff_eq_drop.mp (hsuffix hk)).symm
  · intro token ht
    obtain ⟨s, string, kind, hs, rfl, -⟩ := hmem ht
    simp only [tokenAt, htake hs]
  · intro token ht
    obtain ⟨s, string, kind, hs, rfl, -⟩ := hmem ht
    simp only [tokenAt, htake hs]

/-- The lexer ends, and tiles its text. -/
theorem exists_tiling_of_wellLexed (source : CString) (h : WellLexed source.text) :
    ∃ pieceList tokenList, lexerRun sexpConfig source.text = some (.ok tokenList) ∧
      Tiling source.text pieceList tokenList := by
  obtain ⟨ps, ht⟩ := h.exists_tiles
  exact ⟨ps, _, lexerRun_of_tiles ht (h.length ps [] ht), .of_tiles ht source.zero_not_mem⟩

/-- The kinds and the strings of the tokens that the lexer makes. -/
inductive Lexed : TokenKind → Text → Prop
  | delimiter {c : Char} (hc : c ∈ ['(', ')']) : Lexed .delimiter [c]
  | string {s : Text} (hz : '\x00' ∉ s) (hl : s.length ≤ maxTokenLength) : Lexed .string s
  | generic {s : Text} (hn : s ≠ []) (hs : ∀ c ∈ s, !isEnd c) (hh : ∀ c ∈ s.head?, c ∉ [';', '"'])
      (hz : '\x00' ∉ s) (hl : s.length ≤ maxTokenLength) : Lexed (kindOf s) s

theorem lexed_of_mem_tokensOf {token : Token} (h : Tiles text ps rest) (hz : '\x00' ∉ text)
    (hl : ∀ piece ∈ ps, piece.content.length ≤ maxTokenLength) {before : Text}
    (ht : token ∈ tokensOf before ps) : Lexed token.kind token.string := by
  induction h generalizing before with
  | nil => cases ht
  | @cons piece rest stop pieces hc _ ih =>
    simp only [List.mem_append, not_or] at hz
    rw [tokensOf, List.mem_append] at ht
    rcases ht with ht | ht
    · have hl := hl piece List.mem_cons_self
      cases hc with
      | space => cases ht
      | line => cases ht
      | lastLine => cases ht
      | delimiter hc =>
        obtain rfl := List.mem_singleton.mp ht
        exact .delimiter hc
      | @string body content rest hu =>
        obtain rfl := List.mem_singleton.mp ht
        refine .string ?_ ((List.takeWhile_prefix _).length_le.trans hl)
        intro hm
        simpa using List.mem_takeWhile_imp hm
      | @generic s rest hn hs hh =>
        obtain rfl := List.mem_singleton.mp ht
        have he : stringCopy s = s := stringCopy_of_not_mem hz.1
        simp only [tokenAt, he]
        exact .generic hn hs hh hz.1 hl
    · exact ih hz.2 (fun p hp => hl p (List.mem_cons_of_mem _ hp)) ht

theorem lexed_of_lexerRun {source : CString} {tokenList : List Token}
    (h : lexerRun sexpConfig source.text = some (.ok tokenList)) :
    ∀ token ∈ tokenList, Lexed token.kind token.string := by
  obtain ⟨ps, ht, hl, rfl⟩ := exists_tiles_of_lexerRun h
  intro token hm
  exact lexed_of_mem_tokensOf ht source.zero_not_mem hl hm

theorem Lexed.zero_not_mem {kind : TokenKind} (h : Lexed kind s) : '\x00' ∉ s := by
  cases h with
  | delimiter hc => rcases List.mem_pair.mp hc with rfl | rfl <;> decide
  | string hz => exact hz
  | generic _ _ _ hz => exact hz

theorem Lexed.length_le {kind : TokenKind} (h : Lexed kind s) : s.length ≤ maxTokenLength := by
  cases h with
  | delimiter => exact (by decide : 1 ≤ 1024)
  | string _ hl => exact hl
  | generic _ _ _ _ hl => exact hl

end

/-- `(a; "\\n" ;x` -/
def sample : CString := ⟨['(', 'a', ';', ' ', '"', '\\', 'n', '"', ' ', ';', 'x'], by decide⟩

theorem exists_tiling_of_wellLexed_sample : ∃ pieceList tokenList,
    lexerRun sexpConfig sample.text = some (.ok tokenList) ∧
      Tiling sample.text pieceList tokenList :=
  exists_tiling_of_wellLexed sample (.of_lexerRun (rfl : lexerRun sexpConfig sample.text =
    some (.ok [⟨['('], .delimiter, 0, 1, 1, 2⟩, ⟨['a', ';'], .generic, 1, 3, 1, 4⟩,
      ⟨['\n'], .string, 6, 7, 1, 8⟩])))

end InetLisp
