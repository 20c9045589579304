import InetLisp.Packages.BufferedLexer
import InetLisp.Packages.Tiling

/-! # Tokens that are too long

Where the lexer comes to a token of more characters than the buffer has room for, it writes
beyond the buffer. It does so nowhere else.
-/

namespace InetLisp

open Lib Lexer

/-- The characters that are collected first, where the lexer comes to a token at the text. -/
inductive Starts : Text → Text → Prop
  | string {body content rest : Text} (hu : Unescapes body content) :
      Starts ('"' :: (body ++ rest)) content
  | generic {s rest : Text} (hs : ∀ c ∈ s, !isEnd c) (hh : ∀ c ∈ s.head?, c ∉ [';', '"']) :
      Starts (s ++ rest) s

/-- A token of the text starts with these characters. -/
def Begins (text content : Text) : Prop :=
  ∃ pieces rest, Tiles text pieces rest ∧ Starts rest content

variable {rest text body content s : Text} {piece : Piece} {pieces : List Piece}

theorem Cuts.starts (h : Cuts piece rest) (hl : 1 < piece.content.length) :
    Starts (piece.text ++ rest) piece.content := by
  cases h with
  | space => cases hl
  | line => cases hl
  | lastLine => cases hl
  | delimiter => exact absurd hl (lt_irrefl 1)
  | @string body content rest hu =>
    have hs : Starts ('"' :: (body ++ '"' :: rest)) content := .string hu
    simpa [Piece.text, Piece.content] using hs
  | generic _ hs hh => exact .generic hs hh

theorem Starts.ne_nil (h : Starts rest content) (hl : 0 < content.length) : rest ≠ [] := by
  cases h with
  | string => exact List.cons_ne_nil _ _
  | generic => exact List.append_ne_nil_of_left_ne_nil (List.ne_nil_of_length_pos hl) _

namespace Lexer

variable {self : Lexer}

theorem collectChar_of_eq (hl : self.buffer.length = maxTokenLength) (c : Char) :
    self.collectChar c = .error .tokenTooLong := if_neg (by omega)

/-! ### The lexer stops at a long token -/

theorem collectStringLoop_of_lt (h : Unescapes body content)
    (hb : self.buffer.length ≤ maxTokenLength)
    (hl : maxTokenLength < self.buffer.length + content.length) (rest : Text) :
    self.collectStringLoop (body ++ rest) = .error .tokenTooLong := by
  induction h generalizing self with
  | nil => exact (not_lt_of_ge hb hl).elim
  | @char c s t hc hq h ih =>
    rw [List.length_cons] at hl
    rcases Nat.lt_or_eq_of_le hb with hlt | heq
    · rw [List.cons_append, collectStringLoop_char hc hq hlt]
      refine ih ?_ ?_ <;>
      · simp only [gather, List.length_append, List.length_singleton]
        omega
    · rw [List.cons_append, collectStringLoop.eq_def]
      simp only [hc, hq, if_false, collectChar_of_eq heq, Outcome.error_bind]
  | @escape c d s t hd h ih =>
    rw [List.length_cons] at hl
    rcases Nat.lt_or_eq_of_le hb with hlt | heq
    · rw [List.cons_append, List.cons_append, collectStringLoop_escape hd hlt]
      refine ih ?_ ?_ <;>
      · simp only [gather, List.length_append, List.length_singleton]
        omega
    · have heq : (self.step '\\').buffer.length = maxTokenLength := by rwa [step_buffer]
      rw [List.cons_append, List.cons_append, collectStringLoop]
      simp only [if_true, hd, collectChar_of_eq heq, Outcome.error_bind]

theorem collectGenericLoop_of_lt (hs : ∀ c ∈ s, !isEnd c) (hb : self.buffer.length ≤ maxTokenLength)
    (hl : maxTokenLength < self.buffer.length + s.length) (rest : Text) :
    self.collectGenericLoop sexpConfig (s ++ rest) = .error .tokenTooLong := by
  induction s generalizing self with
  | nil => exact (not_lt_of_ge hb hl).elim
  | cons c s ih =>
    rw [List.length_cons] at hl
    have hc : isEnd c = false := by simpa using hs c List.mem_cons_self
    rw [List.cons_append, collectGenericLoop, isEnd_eq, hc, if_neg Bool.false_ne_true]
    rcases Nat.lt_or_eq_of_le hb with hlt | heq
    · rw [collectChar_of_lt hlt, Outcome.ok_bind, step_setBuffer]
      refine ih (fun d hd => hs d (List.mem_cons_of_mem c hd)) ?_ ?_ <;>
      · simp only [List.length_append, List.length_singleton]
        omega
    · rw [collectChar_of_eq heq, Outcome.error_bind]

theorem lexerStep_of_starts (h : Starts rest content) (hl : maxTokenLength < content.length) :
    lexerStep sexpConfig (self, rest) = .error .tokenTooLong := by
  cases h with
  | @string body content rest hu =>
    rw [lexerStep_quote]
    exact collectStringLoop_of_lt hu (Nat.zero_le _) (by simpa using hl) rest
  | @generic _ rest hs hh =>
    rw [lexerStep_generic (List.ne_nil_of_length_pos (Nat.zero_lt_of_lt hl)) hs hh]
    exact collectGenericLoop_of_lt hs (Nat.zero_le _) (by simpa using hl) rest

/-- The lexer gets to the first of the long tokens. -/
theorem exists_first {stop : Text} (h : Tiles text pieces stop) (hs : Starts stop content)
    (hl : maxTokenLength < content.length) : ∃ ps r t, Tiles text ps r ∧
      (∀ piece ∈ ps, piece.content.length ≤ maxTokenLength) ∧ Starts r t ∧
      maxTokenLength < t.length := by
  induction h with
  | nil => exact ⟨[], _, content, .nil, List.forall_mem_nil _, hs, hl⟩
  | @cons piece rest stop pieces hc ht ih =>
    by_cases hlong : maxTokenLength < piece.content.length
    · have hs : Starts (piece.text ++ rest) piece.content :=
        hc.starts (lt_of_le_of_lt (by decide) hlong)
      exact ⟨[], _, piece.content, .nil, List.forall_mem_nil _, hs, hlong⟩
    · obtain ⟨ps, r, t, htiles, hshort, hst⟩ := ih hs
      refine ⟨piece :: ps, r, t, .cons hc htiles, ?_, hst⟩
      exact List.forall_mem_cons.mpr ⟨not_lt.mp hlong, hshort⟩

theorem lexerRun_of_begins (h : Begins text content) (hl : maxTokenLength < content.length) :
    lexerRun sexpConfig text = some (.error .tokenTooLong) := by
  obtain ⟨pieces, stop, ht, hs⟩ := h
  obtain ⟨ps, r, t, htiles, hshort, hst, hlong⟩ := exists_first ht hs hl
  obtain ⟨self', hlead, -⟩ := leads_of_tiles htiles hshort At.init
  have hm : more (self', r) = true := by
    have hne := hst.ne_nil (Nat.zero_lt_of_lt hlong)
    simpa [more] using hne
  obtain ⟨x, hx⟩ := exists_loop text
  have he : x = .error .tokenTooLong :=
    Ends.unique ⟨_, hx⟩ (hlead.ends (.of_error hm (lexerStep_of_starts hst hlong)))
  subst he
  rw [lexerRun, hx]
  rfl

/-! ### The lexer stops at a long token only -/

theorem exists_of_collectStringLoop_error (h : self.collectStringLoop rest = .error .tokenTooLong)
    (hb : self.buffer.length ≤ maxTokenLength) : ∃ body content r, rest = body ++ r ∧
      Unescapes body content ∧ maxTokenLength < self.buffer.length + content.length := by
  fun_induction collectStringLoop self rest with
  | case1 => cases h
  | case2 => cases h
  | case3 => cases h
  | case4 self d rest char hd ih =>
    rcases Nat.lt_or_eq_of_le hb with hlt | heq
    · have hlt : (self.step '\\').buffer.length < maxTokenLength := by rwa [step_buffer]
      rw [collectChar_of_lt hlt, Outcome.ok_bind] at h
      obtain ⟨body, content, r, rfl, hu, hl⟩ := ih _ h (by simpa using hlt.nat_succ_le)
      refine ⟨'\\' :: d :: body, char :: content, r, rfl, .escape hd hu, ?_⟩
      simp only [step_buffer, List.length_append, List.length_cons, List.length_nil] at hl ⊢
      omega
    · refine ⟨['\\', d], [char], rest, rfl, .escape hd .nil, ?_⟩
      rw [heq]
      exact Nat.lt_succ_self _
  | case5 self rest => cases h
  | case6 self c rest hc hq ih =>
    rcases Nat.lt_or_eq_of_le hb with hlt | heq
    · rw [collectChar_of_lt hlt, Outcome.ok_bind] at h
      obtain ⟨body, content, r, rfl, hu, hl⟩ := ih _ h (by simpa using hlt.nat_succ_le)
      refine ⟨c :: body, c :: content, r, rfl, .char hc hq hu, ?_⟩
      simp only [step_buffer, List.length_append, List.length_cons, List.length_nil] at hl ⊢
      omega
    · refine ⟨[c], [c], rest, rfl, .char hc hq .nil, ?_⟩
      rw [heq]
      exact Nat.lt_succ_self _

theorem exists_of_collectGenericLoop_error
    (h : self.collectGenericLoop sexpConfig rest = .error .tokenTooLong)
    (hb : self.buffer.length ≤ maxTokenLength) : ∃ s r, rest = s ++ r ∧ (∀ c ∈ s, !isEnd c) ∧
      maxTokenLength < self.buffer.length + s.length := by
  induction rest generalizing self with
  | nil => cases h
  | cons c rest ih =>
    rw [collectGenericLoop, isEnd_eq] at h
    split at h
    · cases h
    · rename_i hc
      have hc : !isEnd c := by simpa using hc
      rcases Nat.lt_or_eq_of_le hb with hlt | heq
      · rw [collectChar_of_lt hlt, Outcome.ok_bind] at h
        obtain ⟨s, r, rfl, hs, hl⟩ := ih h (by simpa using hlt.nat_succ_le)
        refine ⟨c :: s, r, rfl, List.forall_mem_cons.mpr ⟨hc, hs⟩, ?_⟩
        simp only [step_buffer, List.length_append, List.length_cons, List.length_nil] at hl ⊢
        omega
      · refine ⟨[c], rest, rfl, List.forall_mem_singleton.mpr hc, ?_⟩
        rw [heq]
        exact Nat.lt_succ_self _

theorem exists_starts_of_lexerStep (h : lexerStep sexpConfig (self, rest) = .error .tokenTooLong) :
    ∃ content, Starts rest content ∧ maxTokenLength < content.length := by
  cases rest with
  | nil => cases h
  | cons c rest =>
    rw [lexerStep_cons] at h
    split_ifs at h with h₁ h₂ h₃ h₄
    · subst h₄
      obtain ⟨body, content, r, rfl, hu, hl⟩ :=
        exists_of_collectStringLoop_error h (by simp)
      exact ⟨content, .string hu, by simpa using hl⟩
    · obtain ⟨s, r, he, hs, hl⟩ := exists_of_collectGenericLoop_error h (Nat.zero_le _)
      rw [List.length_nil, Nat.zero_add] at hl
      rw [he]
      refine ⟨s, .generic hs ?_, hl⟩
      cases s with
      | nil => cases hl
      | cons d s =>
        obtain ⟨rfl, -⟩ := List.cons.inj he
        rintro _ ⟨⟩
        simp [h₂, h₄]

theorem exists_begins_of_loop {n : ℕ}
    (h : loop more (lexerStep sexpConfig) n (self, rest) = some (.error .tokenTooLong)) :
    ∃ content, Begins rest content ∧ maxTokenLength < content.length := by
  induction n generalizing self rest with
  | zero => cases h
  | succ n ih =>
    by_cases hr : rest = []
    · subst hr
      cases h
    · have hm : more (self, rest) = true := by simpa [more] using hr
      rw [loop, if_pos hm] at h
      cases hs : lexerStep sexpConfig (self, rest) with
      | error e =>
        rw [hs] at h
        cases h
        obtain ⟨content, hst, hl⟩ := exists_starts_of_lexerStep hs
        exact ⟨content, ⟨[], rest, .nil, hst⟩, hl⟩
      | ok y =>
        obtain ⟨piece, r, rfl, hc, hshort⟩ := exists_cuts_of_lexerStep hr hs
        rw [hs] at h
        rw [lexerStep_of_cuts hc hshort] at hs
        obtain rfl := Except.ok.inj hs
        obtain ⟨content, ⟨pieces, stop, ht, hst⟩, hl⟩ := ih h
        exact ⟨content, ⟨piece :: pieces, stop, .cons hc ht, hst⟩, hl⟩

theorem exists_begins_of_lexerRun (h : lexerRun sexpConfig text = some (.error .tokenTooLong)) :
    ∃ content, Begins text content ∧ maxTokenLength < content.length := by
  obtain ⟨r, hr⟩ := exists_loop text
  rw [lexerRun, hr] at h
  cases r with
  | ok x => cases h
  | error e =>
    cases h
    exact exists_begins_of_loop hr

end Lexer

/-- No write of the lexer is outside of its buffer, tokens that are not too long are collected
completely, and longer ones are stopped by the assertion. -/
structure TokenBuffer.Contains (array : TokenBuffer) (source : CString) : Prop where
  inside : ∀ index, array.lexerRun sexpConfig source.text ≠ some (.error (.outside index))
  complete : ∀ pieceList, Tiles source.text pieceList [] →
    (∀ piece ∈ pieceList, piece.content.length ≤ maxTokenLength) →
      array.lexerRun sexpConfig source.text = some (.ok (tokensOf [] pieceList))
  stopped : ∀ content, Begins source.text content → maxTokenLength < content.length →
    array.lexerRun sexpConfig source.text = some (.error (.assertion .tokenTooLong))

namespace TokenBuffer

variable {self : TokenBuffer} {source : CString}

theorem lexerRun_of_begins (h : Begins text content) (hl : maxTokenLength < content.length) :
    self.lexerRun sexpConfig text = some (.error (.outside (maxTokenLength + 1))) := by
  rw [lexerRun_eq, Lexer.lexerRun_of_begins h hl]
  rfl

/-- The writes stay inside the buffer exactly when no token of the text is longer than the longest
that the buffer has room for. -/
theorem contains_iff (self : TokenBuffer) (source : CString) : self.Contains source ↔
    ∀ content, Begins source.text content → content.length ≤ maxTokenLength := by
  constructor
  · intro h content hb
    by_contra hl
    exact h.inside _ (lexerRun_of_begins hb (not_le.mp hl))
  · intro h
    refine ⟨fun index he => ?_, fun pieceList ht hl => ?_, fun content hb hl => ?_⟩
    · obtain ⟨r, hr⟩ := exists_lexerRun source.text
      rw [lexerRun_eq, hr] at he
      cases r with
      | ok tokenList => cases he
      | error e =>
        cases e with
        | tokenTooLong =>
          obtain ⟨content, hb, hl⟩ := exists_begins_of_lexerRun hr
          exact absurd (h content hb) (not_le.mpr hl)
        | _ => cases he
    · rw [lexerRun_eq, lexerRun_of_tiles ht hl]
      rfl
    · exact absurd (h content hb) (not_le.mpr hl)

/-- A name of one character more than the buffer has room for -/
def longName : CString where
  text := List.replicate (maxTokenLength + 1) 'a'
  zero_not_mem h := absurd (List.eq_of_mem_replicate h) (by decide)

theorem not_contains_longName : ¬ new.Contains longName := by
  intro h
  have hs : ∀ c ∈ longName.text, !isEnd c := by
    intro c hc
    rw [List.eq_of_mem_replicate hc]
    rfl
  have hb : Begins longName.text longName.text := by
    refine ⟨[], longName.text ++ [], ?_, .generic hs ?_⟩
    · rw [List.append_nil]
      exact .nil
    · rintro _ ⟨⟩
      decide
  have hl : maxTokenLength < longName.text.length := by
    rw [longName, List.length_replicate]
    exact Nat.lt_succ_self _
  exact h.inside _ (lexerRun_of_begins hb hl)

end TokenBuffer

end InetLisp
