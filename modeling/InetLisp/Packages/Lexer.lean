import InetLisp.Lib.Loop
import InetLisp.Lib.Outcome
import InetLisp.Packages.String

/-! # The lexer

The lexer stands at a character of a text and the text from there on is passed along
with it. It cuts the text into pieces: white space, line comments, delimiters, string
literals and generic runs. Each of the last three gives one token.
-/

namespace InetLisp

open Lib

inductive TokenKind where
  | generic
  | delimiter
  | int
  | float
  | string
  deriving DecidableEq, Repr

/-- `token_t`; it ends before the character at `stop`. -/
structure Token where
  string : Text
  kind : TokenKind
  start : ℕ
  stop : ℕ
  lineno : ℕ
  column : ℕ
  deriving DecidableEq, Repr

structure LexerConfig where
  lineComment : Option Text
  delimiterList : List Text
  enableInt : Bool
  enableFloat : Bool
  enableString : Bool

/-- `lexer_t`, without its text and what it is configured with. -/
structure Lexer where
  cursor : ℕ
  lineno : ℕ
  column : ℕ
  buffer : Text
  tokenList : List Token
  deriving DecidableEq, Repr

namespace Lexer

inductive Error where
  | finished
  | stringMismatch
  | unknownEscapeChar
  | tokenTooLong
  deriving DecidableEq, Repr

def maxTokenLength : ℕ := 1024

def init : Lexer := ⟨0, 1, 1, [], []⟩

def currentChar (rest : Text) : Char := rest.headD '\x00'

def matchDelimiter (config : LexerConfig) (rest : Text) : Option Text :=
  config.delimiterList.find? (stringStartsWith rest)

/-- `step`, over the character at the cursor. -/
def step (self : Lexer) (c : Char) : Lexer :=
  if c = '\n' then
    { self with lineno := self.lineno + 1, column := 1, cursor := self.cursor + 1 }
  else { self with column := self.column + 1, cursor := self.cursor + 1 }

def forward (self : Lexer) : ℕ → Text → Except Error (Lexer × Text)
  | 0, rest => .ok (self, rest)
  | _ + 1, [] => .error .finished
  | length + 1, c :: rest => (self.step c).forward length rest

/-- The loop of `ignore_space`. -/
def skipSpace (self : Lexer) : Text → Lexer × Text
  | [] => (self, [])
  | c :: rest => if isspace c then (self.step c).skipSpace rest else (self, c :: rest)

/-- `ignore_space`; nothing if it returns false. -/
def ignoreSpace (self : Lexer) (rest : Text) : Option (Lexer × Text) :=
  if isspace (currentChar rest) then some (self.skipSpace rest) else none

/-- The loop of `ignore_comment`. -/
def skipLine (self : Lexer) : Text → Lexer × Text
  | [] => (self, [])
  | c :: rest => if c = '\n' then (self.step c, rest) else (self.step c).skipLine rest

def ignoreComment (config : LexerConfig) (self : Lexer) (rest : Text) :
    Except Error (Option (Lexer × Text)) :=
  match config.lineComment with
  | none => .ok none
  | some lineComment =>
    if stringStartsWith rest lineComment then do
      let (self, rest) ← self.forward lineComment.length rest
      return some (self.skipLine rest)
    else .ok none

/-- A new token with the position of the cursor. -/
def pushToken (self : Lexer) (string : Text) (kind : TokenKind) (start stop : ℕ) : Lexer :=
  let token := ⟨string, kind, start, stop, self.lineno, self.column⟩
  { self with tokenList := self.tokenList ++ [token] }

def collectDelimiter (config : LexerConfig) (self : Lexer) (rest : Text) :
    Except Error (Option (Lexer × Text)) :=
  match matchDelimiter config rest with
  | none => .ok none
  | some delimiter => do
    let start := self.cursor
    let stop := self.cursor + delimiter.length
    let (self, rest) ← self.forward delimiter.length rest
    return some (self.pushToken (stringCopy delimiter) .delimiter start stop, rest)

def collectChar (self : Lexer) (c : Char) : Except Error Lexer :=
  if self.buffer.length + 1 ≤ maxTokenLength then .ok { self with buffer := self.buffer ++ [c] }
  else .error .tokenTooLong

/-- The token of the buffer, which ends at the cursor. -/
def pushBuffer (self : Lexer) (kind : TokenKind) : Lexer :=
  let stop := self.cursor
  let start := stop - (stringCopy self.buffer).length
  { self.pushToken (stringCopy self.buffer) kind start stop with buffer := [] }

/-- The character that a character after a backslash stands for. -/
def escapeChar (c : Char) : Option Char :=
  [('n', '\n'), ('t', '\t'), ('b', '\x08'), ('f', '\x0c'), ('r', '\r'), ('0', '\x00'), ('"', '"'),
    ('\\', '\\')].lookup c

/-- The loop of `collect_string`. -/
def collectStringLoop (self : Lexer) : Text → Except Error (Lexer × Text)
  | [] => .error .stringMismatch
  | c :: rest =>
    if c = '\\' then
      match rest with
      | [] => .error .unknownEscapeChar
      | d :: rest => match escapeChar d with
        | none => .error .unknownEscapeChar
        | some char => do
          let self ← (self.step c).collectChar char
          (self.step d).collectStringLoop rest
    else if c = '"' then .ok ((self.pushBuffer .string).step c, rest)
    else do
      let self ← self.collectChar c
      (self.step c).collectStringLoop rest

def collectString (self : Lexer) (rest : Text) : Except Error (Option (Lexer × Text)) :=
  match rest with
  | [] => .ok none
  | c :: rest =>
    if c = '"' then do
      let result ← ({ self with buffer := [] }.step c).collectStringLoop rest
      return some result
    else .ok none

/-- The loop of `collect_generic`. -/
def collectGenericLoop (config : LexerConfig) (self : Lexer) : Text → Except Error (Lexer × Text)
  | [] => .ok (self.pushBuffer .generic, [])
  | c :: rest =>
    if isspace c || (matchDelimiter config (c :: rest)).isSome then
      .ok (self.pushBuffer .generic, c :: rest)
    else do
      let self ← self.collectChar c
      (self.step c).collectGenericLoop config rest

def collectGeneric (config : LexerConfig) (self : Lexer) (rest : Text) :
    Except Error (Lexer × Text) :=
  { self with buffer := [] }.collectGenericLoop config rest

def lexerStep (config : LexerConfig) (s : Lexer × Text) : Except Error (Lexer × Text) :=
  match s.1.ignoreSpace s.2 with
  | some s => .ok s
  | none => do
    match ← s.1.ignoreComment config s.2 with
    | some s => return s
    | none => match ← s.1.collectDelimiter config s.2 with
      | some s => return s
      | none => match ← (if config.enableString then s.1.collectString s.2 else .ok none) with
        | some s => return s
        | none => s.1.collectGeneric config s.2

/-- `postprocess_int` and `postprocess_float` -/
def postprocess (kind : TokenKind) (test : Text → Bool) (tokenList : List Token) : List Token :=
  tokenList.map fun token =>
    if token.kind = .generic ∧ test token.string then { token with kind } else token

/-- `!is_finished` -/
def more (s : Lexer × Text) : Bool := s.2 ≠ []

/-- `lexer_run`. Every step of its loop takes a character, so as many steps are enough. -/
def lexerRun (config : LexerConfig) (string : Text) : Option (Except Error (List Token)) :=
  (loop more (lexerStep config) (string.length + 1) (init, string)).map fun result =>
    result.map fun (self, _) =>
      let tokenList := self.tokenList
      let tokenList :=
        if config.enableInt then postprocess .int stringIsXint tokenList else tokenList
      if config.enableFloat then postprocess .float stringIsDouble tokenList else tokenList

end Lexer

/-- How `sexp_parse_list` configures the lexer. -/
def sexpConfig : LexerConfig where
  lineComment := some [';']
  delimiterList := [['('], [')']]
  enableInt := true
  enableFloat := true
  enableString := true

end InetLisp
