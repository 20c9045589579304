import InetLisp.Packages.Tiles
import InetLisp.Packages.TokenBuffer

/-! # The lexer with its buffer

The buffer holds what the lexer has collected, with the zero character after it, up to the
longest token. The character after that one is written into the last byte, and the zero
character behind it, before the assertion on the length fails.
-/

namespace InetLisp

open Lib Lexer

namespace TokenBuffer

variable {config : LexerConfig} {lexer : Lexer} {self : TokenBuffer} {s rest : Text}

/-! ### What the buffer holds -/

/-- The characters stand at the beginning of the buffer, and the zero character after them. -/
structure Holds (array : TokenBuffer) (s : Text) : Prop where
  bufferLength : array.bufferLength = s.length
  terminated : ∃ junk, array.buffer = s ++ '\x00' :: junk

/-- How a failure of the lexer shows, if its buffer is bounded: where the token is too long, the
assertion comes after the write. -/
def failure : Lexer.Error → Error
  | .tokenTooLong => .outside (maxTokenLength + 1)
  | e => .assertion e

theorem Holds.length_le (h : self.Holds s) : s.length ≤ maxTokenLength := by
  obtain ⟨junk, he⟩ := h.terminated
  have hlen := self.allocated
  rw [he, List.length_append, List.length_cons] at hlen
  omega

theorem stringCopy_append (s junk : Text) : stringCopy (s ++ '\x00' :: junk) = stringCopy s := by
  induction s with
  | nil => rfl
  | cons c s ih =>
    unfold stringCopy at ih ⊢
    rw [List.cons_append, List.takeWhile_cons, List.takeWhile_cons, ih]

theorem Holds.stringCopy_eq (h : self.Holds s) : stringCopy self.buffer = stringCopy s := by
  obtain ⟨junk, he⟩ := h.terminated
  rw [he, stringCopy_append]

theorem write_of_le (index : ℕ) (h : index ≤ maxTokenLength) (c : Char) : ∃ b,
    self.write index c = .ok b ∧ b.bufferLength = self.bufferLength ∧
      b.buffer = self.buffer.set index c := by
  have hlt : index < self.buffer.length := self.allocated ▸ Nat.lt_succ_of_le h
  exact ⟨_, if_pos hlt, rfl, rfl⟩

theorem exists_clear (self : TokenBuffer) : ∃ b, self.clear = .ok b ∧ b.Holds [] := by
  obtain ⟨b, hb, -, hset⟩ := self.write_of_le 0 (Nat.zero_le _) '\x00'
  refine ⟨{ b with bufferLength := 0 }, ?_, rfl, ?_⟩
  · rw [clear, hb]
    rfl
  · have hlen := self.allocated
    cases hbuf : self.buffer with
    | nil => simp [hbuf] at hlen
    | cons d junk => exact ⟨junk, by rw [hset, hbuf]; rfl⟩

theorem Holds.collectChar_of_lt (h : self.Holds s) (hl : s.length < maxTokenLength) (c : Char) :
    ∃ b, self.collectChar c = .ok b ∧ b.Holds (s ++ [c]) := by
  obtain ⟨junk, he⟩ := h.terminated
  have hlen := self.allocated
  rw [he, List.length_append, List.length_cons] at hlen
  obtain ⟨d, junk, rfl⟩ : ∃ d l, junk = d :: l := List.exists_cons_of_length_pos (by omega)
  have hn := h.bufferLength
  obtain ⟨b, hb, hbn, hbs⟩ := self.write_of_le self.bufferLength (by omega) c
  obtain ⟨b', hb', hbn', hbs'⟩ := b.write_of_le (b.bufferLength + 1) (by omega) '\x00'
  refine ⟨{ b' with bufferLength := b'.bufferLength + 1 }, ?_, ?_, junk, ?_⟩
  · simp only [collectChar, hb, hb', Outcome.ok_bind]
    exact if_pos (by omega)
  · simp [hbn', hbn, hn]
  · simp [hbs', hbs, hbn, he, hn]

/-- The terminator is written behind the buffer before the assertion fails. -/
theorem Holds.collectChar_of_eq (h : self.Holds s) (hl : s.length = maxTokenLength) (c : Char) :
    self.collectChar c = .error (.outside (maxTokenLength + 1)) := by
  have hn := h.bufferLength
  obtain ⟨b, hb, hbn, -⟩ := self.write_of_le self.bufferLength (by omega) c
  have hlen := b.allocated
  have hout : b.write (b.bufferLength + 1) '\x00' = .error (.outside (maxTokenLength + 1)) := by
    rw [write, if_neg (by omega), hbn, hn, hl]
  simp only [collectChar, hb, Outcome.ok_bind, hout, Outcome.error_bind]

/-! ### The lexer with the buffer -/

/-- The lexer with its text, and the one that has its buffer apart from it -/
def Beside (x : Lexer × Text) (y : Lexer × TokenBuffer × Text) : Prop :=
  x.1 = y.1 ∧ x.2 = y.2.2 ∧ y.1.buffer = []

@[simp] theorem pushToken_buffer (kind : TokenKind) :
    (self.pushToken lexer kind).buffer = lexer.buffer := rfl

theorem Holds.pushToken (h : self.Holds s) (hl : lexer.buffer = []) (kind : TokenKind) :
    { lexer with buffer := s }.pushBuffer kind = self.pushToken lexer kind := by
  unfold Lexer.pushBuffer TokenBuffer.pushToken
  rw [h.stringCopy_eq]
  cases lexer
  cases hl
  rfl

theorem Holds.collectChar (h : self.Holds s) (c : Char)
    {f : Lexer → Except Lexer.Error (Lexer × Text)}
    {g : TokenBuffer → Except Error (Lexer × TokenBuffer × Text)}
    (hfg : ∀ b : TokenBuffer, b.Holds (s ++ [c]) →
      Mirrors Beside failure (f { lexer with buffer := s ++ [c] }) (g b)) :
    Mirrors Beside failure ({ lexer with buffer := s }.collectChar c >>= f)
      (self.collectChar c >>= g) := by
  rcases Nat.lt_or_eq_of_le h.length_le with hlt | heq
  · obtain ⟨b, hb, hs⟩ := h.collectChar_of_lt hlt c
    have hc : { lexer with buffer := s }.collectChar c = .ok { lexer with buffer := s ++ [c] } :=
      Lexer.collectChar_of_lt hlt c
    rw [hb, hc]
    exact hfg b hs
  · have hlong : { lexer with buffer := s }.collectChar c = .error .tokenTooLong :=
      if_neg (by simp [heq])
    rw [h.collectChar_of_eq heq, hlong]
    exact .error Lexer.Error.tokenTooLong

theorem Holds.collectStringLoop (h : self.Holds s) (hl : lexer.buffer = []) :
    Mirrors Beside failure ({ lexer with buffer := s }.collectStringLoop rest)
      (self.collectStringLoop lexer rest) := by
  fun_induction TokenBuffer.collectStringLoop self lexer rest generalizing s with
  | case1 => exact .error Lexer.Error.stringMismatch
  | case2 => exact .error Lexer.Error.unknownEscapeChar
  | case3 self lexer d rest hd =>
    rw [Lexer.collectStringLoop, if_pos rfl, hd]
    exact .error Lexer.Error.unknownEscapeChar
  | case4 self lexer d rest char hd ih =>
    rw [Lexer.collectStringLoop, if_pos rfl, hd, step_setBuffer]
    refine h.collectChar char fun b hb => ?_
    rw [step_setBuffer]
    exact ih b hb (by simp [hl])
  | case5 self lexer rest =>
    rw [collectStringLoop_quote, h.pushToken hl]
    obtain ⟨b, hb, -⟩ := self.exists_clear
    simp only [hb, Outcome.ok_bind]
    exact .ok ⟨rfl, rfl, by rw [step_buffer, pushToken_buffer, hl]⟩
  | case6 self lexer c rest hc hq ih =>
    rw [Lexer.collectStringLoop.eq_def]
    simp only [hc, hq, if_false]
    refine h.collectChar c fun b hb => ?_
    rw [step_setBuffer]
    exact ih b hb (by simp [hl])

theorem Holds.collectGenericLoop (h : self.Holds s) (hl : lexer.buffer = []) :
    Mirrors Beside failure ({ lexer with buffer := s }.collectGenericLoop config rest)
      (self.collectGenericLoop config lexer rest) := by
  obtain ⟨b, hb, -⟩ := self.exists_clear
  induction rest generalizing self lexer s b with
  | nil =>
    simp only [Lexer.collectGenericLoop, TokenBuffer.collectGenericLoop, h.pushToken hl, hb,
      Outcome.ok_bind]
    exact .ok ⟨rfl, rfl, hl⟩
  | cons c rest ih =>
    unfold Lexer.collectGenericLoop TokenBuffer.collectGenericLoop
    split
    · rw [h.pushToken hl]
      simp only [hb, Outcome.ok_bind]
      exact .ok ⟨rfl, rfl, hl⟩
    · refine h.collectChar c fun b hs => ?_
      rw [step_setBuffer]
      obtain ⟨b', hb', -⟩ := b.exists_clear
      exact ih hs (by simp [hl]) b' hb'

/-! ### Steps -/

theorem skipSpace_buffer : (lexer.skipSpace rest).1.buffer = lexer.buffer := by
  induction rest generalizing lexer with
  | nil => rfl
  | cons c rest ih =>
    unfold skipSpace
    split
    · rw [ih, step_buffer]
    · rfl

theorem skipLine_buffer : (lexer.skipLine rest).1.buffer = lexer.buffer := by
  induction rest generalizing lexer with
  | nil => rfl
  | cons c rest ih =>
    unfold skipLine
    split
    · exact step_buffer
    · rw [ih, step_buffer]

/-- The parts of the lexer that do not collect fail at the end of the text only, and leave the
buffer as it is. -/
def Quiet (lexer : Lexer) (x : Except Lexer.Error (Option (Lexer × Text))) : Prop :=
  Outcome (· = .finished) (fun o => ∀ y ∈ o, y.1.buffer = lexer.buffer) x

theorem forward_quiet (n : ℕ) : Outcome (· = .finished) (fun y => y.1.buffer = lexer.buffer)
    (lexer.forward n rest) := by
  induction n generalizing lexer rest with
  | zero => exact rfl
  | succ n ih =>
    cases rest with
    | nil => exact rfl
    | cons c rest => exact ih.mono fun y hy => hy.trans step_buffer

theorem ignoreComment_quiet : Quiet lexer (lexer.ignoreComment config rest) := by
  unfold Lexer.ignoreComment Quiet
  split
  · rintro _ ⟨⟩
  · split
    · refine (forward_quiet _).bind fun x hx => ?_
      rintro y ⟨⟩
      rw [skipLine_buffer, hx]
    · rintro _ ⟨⟩

theorem collectDelimiter_quiet : Quiet lexer (lexer.collectDelimiter config rest) := by
  unfold Lexer.collectDelimiter Quiet
  split
  · rintro _ ⟨⟩
  · refine (forward_quiet _).bind fun x hx => ?_
    rintro y ⟨⟩
    exact hx

/-- A part that does not collect, and what comes after it if it does not apply -/
theorem Quiet.mirrors {x : Except Lexer.Error (Option (Lexer × Text))} (h : Quiet lexer x)
    (hl : lexer.buffer = []) {f : Except Lexer.Error (Lexer × Text)}
    {g : Except Error (Lexer × TokenBuffer × Text)} (hfg : Mirrors Beside failure f g) :
    Mirrors Beside failure (x >>= fun o => match o with | some s => .ok s | none => f)
      (x.mapError .assertion >>= fun o => match o with
        | some (lexer, rest) => .ok (lexer, self, rest)
        | none => g) := by
  cases x with
  | error e =>
    obtain rfl : e = .finished := h
    exact .error Lexer.Error.finished
  | ok o =>
    cases o with
    | none => exact hfg
    | some y => exact .ok ⟨rfl, rfl, (h y rfl).trans hl⟩

theorem lexerStep_mirrors (hl : lexer.buffer = []) (b : TokenBuffer) :
    Mirrors Beside failure (Lexer.lexerStep config (lexer, rest))
      (TokenBuffer.lexerStep config (lexer, b, rest)) := by
  obtain ⟨b', hb, hs⟩ := b.exists_clear
  unfold Lexer.lexerStep TokenBuffer.lexerStep ignoreSpace
  by_cases hsp : isspace (currentChar rest)
  · simp only [hsp, if_true]
    exact .ok ⟨rfl, rfl, by rw [skipSpace_buffer, hl]⟩
  · simp only [hsp]
    refine ignoreComment_quiet.mirrors hl ?_
    refine collectDelimiter_quiet.mirrors hl ?_
    have hgeneric : Mirrors Beside failure (Lexer.collectGeneric config lexer rest)
        (collectGeneric config b lexer rest) := by
      unfold Lexer.collectGeneric TokenBuffer.collectGeneric
      rw [hb]
      exact hs.collectGenericLoop hl
    by_cases hstring : config.enableString
    · simp only [hstring, if_true]
      cases rest with
      | nil => exact hgeneric
      | cons c rest =>
        simp only [Lexer.collectString, TokenBuffer.collectString]
        by_cases hc : c = '"'
        · have hm : Mirrors Beside failure
              ({ lexer.step c with buffer := [] }.collectStringLoop rest)
              (b'.collectStringLoop (lexer.step c) rest) := hs.collectStringLoop (by simp [hl])
          rw [← step_setBuffer] at hm
          simp only [hc, if_true, hb, Outcome.ok_bind] at hm ⊢
          generalize Lexer.collectStringLoop _ rest = x at hm ⊢
          generalize b'.collectStringLoop _ rest = y at hm ⊢
          cases hm with
          | ok h => exact .ok h
          | error e => exact .error e
        · simp only [hc, if_false]
          exact hgeneric
    · simp only [hstring]
      exact hgeneric

/-- With the buffer that is bounded, the lexer gives what it gives without, but where a token is too
long, it writes beyond the buffer before it stops. -/
theorem lexerRun_eq (self : TokenBuffer) (string : Text) :
    self.lexerRun config string =
      (Lexer.lexerRun config string).map fun result => result.mapError failure := by
  have hrel : Option.Rel (Mirrors Beside failure)
      (loop Lexer.more (Lexer.lexerStep config) (string.length + 1) (init, string))
      (loop TokenBuffer.more (TokenBuffer.lexerStep config) (string.length + 1)
        (init, { self with bufferLength := 0 }, string)) := by
    apply rel_loop
    · rintro ⟨l, r⟩ ⟨l', b, r'⟩ ⟨-, rfl, -⟩
      rfl
    · rintro ⟨l, r⟩ ⟨l', b, r'⟩ ⟨rfl, rfl, hl⟩ -
      exact lexerStep_mirrors hl b
    · exact ⟨rfl, rfl, rfl⟩
  unfold Lexer.lexerRun TokenBuffer.lexerRun
  generalize loop Lexer.more _ _ _ = x at hrel ⊢
  generalize loop TokenBuffer.more _ _ _ = y at hrel ⊢
  cases hrel with
  | none => rfl
  | some h =>
    cases h with
    | error e => rfl
    | ok h =>
      obtain ⟨h₁, h₂, h₃⟩ := h
      simp only [Option.map_some, Except.map, Except.mapError, h₁]

end TokenBuffer

end InetLisp
