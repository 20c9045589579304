import InetLisp.Packages.Lexer

/-! # The token buffer

The lexer collects the characters of a token in a buffer that is allocated once, of as many
bytes as the longest token has and one more for the zero character.
-/

namespace InetLisp

open Lib Lexer

/-- The buffer of the lexer, as `lexer_new` has allocated it, and `buffer_length`. -/
structure TokenBuffer where
  buffer : List Char
  bufferLength : ℕ
  allocated : buffer.length = maxTokenLength + 1

namespace TokenBuffer

inductive Error where
  | assertion (e : Lexer.Error)
  /-- A character is written at an index that is not one of the buffer. -/
  | outside (index : ℕ)
  deriving DecidableEq, Repr

/-- What `lexer_new` allocates. -/
def new : TokenBuffer := ⟨List.replicate (maxTokenLength + 1) '\x00', 0, List.length_replicate⟩

def write (self : TokenBuffer) (index : ℕ) (c : Char) : Except Error TokenBuffer :=
  if index < self.buffer.length then
    .ok ⟨self.buffer.set index c, self.bufferLength, List.length_set.trans self.allocated⟩
  else .error (.outside index)

def collectChar (self : TokenBuffer) (c : Char) : Except Error TokenBuffer := do
  let self ← self.write self.bufferLength c
  let self ← self.write (self.bufferLength + 1) '\x00'
  let self := { self with bufferLength := self.bufferLength + 1 }
  if self.bufferLength ≤ maxTokenLength then .ok self else .error (.assertion .tokenTooLong)

/-- The buffer is emptied before a token and after it. -/
def clear (self : TokenBuffer) : Except Error TokenBuffer := do
  let self ← self.write 0 '\x00'
  return { self with bufferLength := 0 }

/-- The token of the buffer, which ends at the cursor; the lexer with its own buffer left aside. -/
def pushToken (self : TokenBuffer) (lexer : Lexer) (kind : TokenKind) : Lexer :=
  let stop := lexer.cursor
  let start := stop - (stringCopy self.buffer).length
  lexer.pushToken (stringCopy self.buffer) kind start stop

/-- The loop of `collect_string`. -/
def collectStringLoop (self : TokenBuffer) (lexer : Lexer) :
    Text → Except Error (Lexer × TokenBuffer × Text)
  | [] => .error (.assertion .stringMismatch)
  | c :: rest =>
    if c = '\\' then
      match rest with
      | [] => .error (.assertion .unknownEscapeChar)
      | d :: rest => match escapeChar d with
        | none => .error (.assertion .unknownEscapeChar)
        | some char => do
          let self ← self.collectChar char
          self.collectStringLoop ((lexer.step c).step d) rest
    else if c = '"' then do
      let lexer := self.pushToken lexer .string
      let self ← self.clear
      return (lexer.step c, self, rest)
    else do
      let self ← self.collectChar c
      self.collectStringLoop (lexer.step c) rest

def collectString (self : TokenBuffer) (lexer : Lexer) (rest : Text) :
    Except Error (Option (Lexer × TokenBuffer × Text)) :=
  match rest with
  | [] => .ok none
  | c :: rest =>
    if c = '"' then do
      let self ← self.clear
      let result ← self.collectStringLoop (lexer.step c) rest
      return some result
    else .ok none

/-- The loop of `collect_generic`. -/
def collectGenericLoop (config : LexerConfig) (self : TokenBuffer) (lexer : Lexer) :
    Text → Except Error (Lexer × TokenBuffer × Text)
  | [] => do
    let lexer := self.pushToken lexer .generic
    let self ← self.clear
    return (lexer, self, [])
  | c :: rest =>
    if isspace c || (matchDelimiter config (c :: rest)).isSome then do
      let lexer := self.pushToken lexer .generic
      let self ← self.clear
      return (lexer, self, c :: rest)
    else do
      let self ← self.collectChar c
      self.collectGenericLoop config (lexer.step c) rest

def collectGeneric (config : LexerConfig) (self : TokenBuffer) (lexer : Lexer) (rest : Text) :
    Except Error (Lexer × TokenBuffer × Text) := do
  let self ← self.clear
  self.collectGenericLoop config lexer rest

def lexerStep (config : LexerConfig) :
    Lexer × TokenBuffer × Text → Except Error (Lexer × TokenBuffer × Text)
  | (lexer, self, rest) => match lexer.ignoreSpace rest with
    | some (lexer, rest) => .ok (lexer, self, rest)
    | none => do
      match ← (lexer.ignoreComment config rest).mapError .assertion with
      | some (lexer, rest) => return (lexer, self, rest)
      | none => match ← (lexer.collectDelimiter config rest).mapError .assertion with
        | some (lexer, rest) => return (lexer, self, rest)
        | none =>
          match ← (if config.enableString then self.collectString lexer rest else .ok none) with
          | some s => return s
          | none => self.collectGeneric config lexer rest

/-- `!is_finished` -/
def more (s : Lexer × TokenBuffer × Text) : Bool := s.2.2 ≠ []

/-- `lexer_run`, with the buffer as it was left by the run before. -/
def lexerRun (config : LexerConfig) (self : TokenBuffer) (string : Text) :
    Option (Except Error (List Token)) :=
  (loop more (lexerStep config) (string.length + 1)
    (init, { self with bufferLength := 0 }, string)).map fun result =>
      result.map fun (self, _) =>
        let tokenList := self.tokenList
        let tokenList :=
          if config.enableInt then postprocess .int stringIsXint tokenList else tokenList
        if config.enableFloat then postprocess .float stringIsDouble tokenList else tokenList

end TokenBuffer

end InetLisp
