import InetLisp.Packages.Tiling
import Mathlib.Data.List.Forall2

/-! # The tokens of string literals

A string token ends before its closing quote, and its start is taken back by the length of
the string that the literal stands for.
-/

namespace InetLisp

open Lexer

section

variable {text : Text} {ps : List Piece} {tokenList : List Token} {token : Token}
  {body content s t rest : Text} {p : ℕ × Piece}

theorem Unescapes.eq_of_not_mem (h : Unescapes s t) (hb : '\\' ∉ s) : t = s := by
  induction h with
  | nil => rfl
  | char _ _ _ ih => rw [ih fun hm => hb (List.mem_cons_of_mem _ hm)]
  | escape => exact (hb List.mem_cons_self).elim

theorem Unescapes.length_lt (h : Unescapes s t) (hb : '\\' ∈ s) : t.length < s.length := by
  induction h with
  | nil => cases hb
  | char hne _ _ ih =>
    rcases List.mem_cons.mp hb with rfl | hb
    · exact (hne rfl).elim
    · exact Nat.succ_lt_succ (ih hb)
  | escape _ h => exact Nat.lt_succ_of_le (Nat.succ_le_succ h.length_le)

/-- The slice of the token is the text between the quotes, and it stands for the string. -/
structure Locates (text body : Text) (token : Token) : Prop where
  slice : (text.take token.stop).drop token.start = body
  unescapes : Unescapes body token.string

/-- The property holds of the raw text and the token of every string literal. -/
def EachLiteral (P : Text → Token → Prop) (pieceList : List Piece) (tokenList : List Token) :
    Prop :=
  List.Forall₂ (fun p token => ∀ body content, p.2 = .string body content → P body token)
    ((placed 0 pieceList).filter fun p => p.2.isToken) tokenList

def StandsAt (text : Text) (p : ℕ × Piece) : Prop :=
  ∃ before after, text = before ++ (p.2.text ++ after) ∧ before.length = p.1 ∧ Cuts p.2 after

theorem standsAt_of_mem (h : Tiles rest ps []) (before : Text) :
    ∀ p ∈ placed before.length ps, StandsAt (before ++ rest) p := by
  generalize hstop : ([] : Text) = stop at h
  induction h generalizing before with
  | nil => exact nofun
  | @cons piece rest stop pieces hc ht ih =>
    subst hstop
    intro p hp
    rcases List.mem_cons.mp hp with rfl | hp
    · exact ⟨before, rest, rfl, rfl, hc⟩
    · have ih := ih (before ++ piece.text) rfl p
      rw [List.length_append, List.append_assoc] at ih
      exact ih hp

theorem start_of_mem_tokensOf (h : Tiles text ps []) (hz : '\x00' ∉ text) :
    ∀ token ∈ tokensOf [] ps, token.start = token.stop - token.string.length := by
  intro token ht
  obtain ⟨s, string, kind, -, rfl, -⟩ := exists_of_mem_tokensOf h hz [] ht
  rfl

/-- The slice is as long as the string, so it is the whole literal if nothing was escaped. -/
theorem locates_iff_of_isTokenOf (hz : '\x00' ∉ text) (hp : StandsAt text p)
    (hb : p.2 = .string body content) (ht : IsTokenOf p token)
    (hs : token.start = token.stop - token.string.length) :
    Locates text body token ↔ '\\' ∉ body := by
  obtain ⟨offset, piece⟩ := p
  obtain rfl : piece = .string body content := hb
  obtain ⟨before, after, htext, hoffset, hcut⟩ := hp
  obtain ⟨-, hstring, hstop⟩ := ht
  dsimp only at htext hoffset hstop
  cases hcut with
  | string hu =>
    have htake : text.take token.stop = before ++ '"' :: body := by
      have hlen : token.stop = (before ++ '"' :: body).length := by
        rw [hstop, ← hoffset, List.length_append, List.length_cons]
        omega
      have hsplit : text = (before ++ '"' :: body) ++ ('"' :: after) := by
        rw [htext]
        simp [Piece.text]
      rw [hlen, hsplit, List.take_left]
    have hcopy : (stringCopy content).length ≤ content.length :=
      (List.takeWhile_prefix _).length_le
    have hslice :
        ((text.take token.stop).drop token.start).length = (stringCopy content).length := by
      have hstart := hu.length_le
      rw [htake, List.length_drop, hs, hstring, hstop, ← hoffset]
      simp only [List.length_append, List.length_cons]
      omega
    constructor
    · rintro ⟨hbody, -⟩ hescape
      have hlt := hu.length_lt hescape
      rw [hbody] at hslice
      omega
    · intro hescape
      obtain rfl := hu.eq_of_not_mem hescape
      have hzero : '\x00' ∉ content := by
        intro hm
        apply hz
        rw [htext]
        simp [Piece.text, hm]
      rw [stringCopy_of_not_mem hzero] at hstring
      constructor
      · have hdrop : token.start = (before ++ ['"']).length := by
          rw [hs, hstring, hstop, ← hoffset, List.length_append, List.length_singleton]
          omega
        rw [htake, hdrop, show before ++ '"' :: content = (before ++ ['"']) ++ content by simp,
          List.drop_left]
      · rw [hstring]
        exact hu

theorem Tiles.unique {qs : List Piece} (h : Tiles text ps []) (h' : Tiles text qs []) :
    qs = ps := by
  obtain ⟨l, rfl, hl⟩ := h.exists_append h'
  cases l with
  | nil => simp
  | cons p l =>
    generalize hx : ([] : Text) = x at hl
    cases hl with
    | cons hc =>
      exact (hc.text_ne_nil (List.append_eq_nil_iff.mp hx.symm).1).elim

/-- The positions of a string token are right if its literal has no escape. -/
theorem locates_iff (source : CString) {pieceList : List Piece}
    (h : lexerRun sexpConfig source.text = some (.ok tokenList))
    (ht : Tiling source.text pieceList tokenList) :
    EachLiteral (fun body token => Locates source.text body token ↔ '\\' ∉ body)
      pieceList tokenList := by
  obtain ⟨ps, htiles, -, rfl⟩ := exists_tiles_of_lexerRun h
  obtain rfl := htiles.unique ht.tiles
  have hplaced := standsAt_of_mem htiles []
  have hstart := start_of_mem_tokensOf htiles source.zero_not_mem
  have hleft := (List.forall₂_and_left _ _).mpr ⟨hstart, ht.tokens.flip⟩
  have hpairs := (List.forall₂_and_left _ _).mpr
    ⟨fun p hp => hplaced p (List.mem_of_mem_filter hp), hleft.flip⟩
  exact hpairs.imp fun p token ⟨hp, hs, hto⟩ body content hb =>
    locates_iff_of_isTokenOf source.zero_not_mem hp hb hto hs

end

/-- `"a\nb"` -/
def escapeText : CString := ⟨['"', 'a', '\\', 'n', 'b', '"'], by decide⟩

def escapePieces : List Piece := [.string ['a', '\\', 'n', 'b'] ['a', '\n', 'b']]

def escapeTokens : List Token := [⟨['a', '\n', 'b'], .string, 2, 5, 1, 6⟩]

theorem tiles_escape : Tiles escapeText.text escapePieces [] := by
  have hu : Unescapes ['a', '\\', 'n', 'b'] ['a', '\n', 'b'] :=
    .char (by decide) (by decide) (.escape rfl (.char (by decide) (by decide) .nil))
  exact .cons (.string hu) .nil

theorem lexerRun_escape : lexerRun sexpConfig escapeText.text = some (.ok escapeTokens) := rfl

theorem tiling_escape : Tiling escapeText.text escapePieces escapeTokens :=
  .of_tiles tiles_escape escapeText.zero_not_mem

/-- `"ab" "a\nb"` -/
def twoText : CString :=
  ⟨['"', 'a', 'b', '"', ' ', '"', 'a', '\\', 'n', 'b', '"'], by decide⟩

def twoPieces : List Piece :=
  [.string ['a', 'b'] ['a', 'b'], .space [' '], .string ['a', '\\', 'n', 'b'] ['a', '\n', 'b']]

def twoTokens : List Token :=
  [⟨['a', 'b'], .string, 1, 3, 1, 4⟩, ⟨['a', '\n', 'b'], .string, 7, 10, 1, 11⟩]

theorem tiles_two : Tiles twoText.text twoPieces [] := by
  have hu : Unescapes ['a', 'b'] ['a', 'b'] :=
    .char (by decide) (by decide) (.char (by decide) (by decide) .nil)
  have hu' : Unescapes ['a', '\\', 'n', 'b'] ['a', '\n', 'b'] :=
    .char (by decide) (by decide) (.escape rfl (.char (by decide) (by decide) .nil))
  have hspace : Cuts (.space [' ']) ('"' :: (['a', '\\', 'n', 'b'] ++ ['"'])) := by
    refine .space (List.cons_ne_nil _ _) (List.forall_mem_singleton.mpr rfl) ?_
    rintro c ⟨⟩
    rfl
  exact .cons (.string hu) (.cons hspace (.cons (.string hu') .nil))

/-- The token of the first literal is right, that of the second one is not. -/
theorem locates_iff_escape : Locates twoText.text ['a', 'b'] ⟨['a', 'b'], .string, 1, 3, 1, 4⟩ ∧
    ¬Locates twoText.text ['a', '\\', 'n', 'b'] ⟨['a', '\n', 'b'], .string, 7, 10, 1, 11⟩ := by
  have hlexer : lexerRun sexpConfig twoText.text = some (.ok twoTokens) := rfl
  have hall := locates_iff twoText hlexer (.of_tiles tiles_two twoText.zero_not_mem)
  cases hall with
  | cons hfirst hall =>
    cases hall with
    | cons hsecond hall =>
      exact ⟨(hfirst _ _ rfl).mpr (by decide), fun h => (hsecond _ _ rfl).mp h (by decide)⟩

/-- An escape moves the start of a token behind its opening quote. -/
theorem not_locates : ¬∀ (source : CString) (pieceList : List Piece) (tokenList : List Token),
    lexerRun sexpConfig source.text = some (.ok tokenList) →
      Tiling source.text pieceList tokenList →
        EachLiteral (Locates source.text) pieceList tokenList := by
  intro h
  cases h escapeText escapePieces escapeTokens lexerRun_escape tiling_escape with
  | cons hlocates =>
    have hslice := (hlocates _ _ rfl).slice
    exact absurd hslice (by decide)

end InetLisp
