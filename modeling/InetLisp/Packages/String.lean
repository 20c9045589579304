import InetLisp.Packages.Path
import Mathlib.Data.Int.Log
import Mathlib.Data.Rat.Floor

/-! # Strings

A text is a list of characters; a C string is one without the zero character, and a
buffer that holds the zero character ends there for the string functions. Numerals
are read as by the standard library in the C locale.
-/

namespace InetLisp

def isspace (c : Char) : Bool := c ∈ [' ', '\t', '\n', '\x0b', '\x0c', '\r']

/-- `string_copy`: the buffer up to the zero character. -/
def stringCopy (self : Text) : Text := self.takeWhile (· ≠ '\x00')

def stringStartsWith (target start : Text) : Bool := start.isPrefixOf target

/-- The value of a character as a digit of the base. -/
def digit (base : ℕ) (c : Char) : Option ℕ :=
  let value :=
    if c.isDigit then c.toNat - 48
    else if c.isLower then c.toNat - 87
    else if c.isUpper then c.toNat - 55
    else base
  if value < base then some value else none

/-- The digits in front of a text, after digits of the value `n`, and the text after them. -/
def digits (base n : ℕ) : Text → ℕ × Text
  | [] => (n, [])
  | c :: rest => match digit base c with
    | some d => digits base (n * base + d) rest
    | none => (n, c :: rest)

def sign : Text → Bool × Text
  | '-' :: rest => (true, rest)
  | '+' :: rest => (false, rest)
  | rest => (false, rest)

/-- The text after `0x`, if a digit follows. -/
def skipHex (self : Text) : Option Text :=
  match self with
  | '0' :: x :: c :: rest =>
    if x ∈ ['x', 'X'] ∧ (digit 16 c).isSome then some (c :: rest) else none
  | _ => none

/-- `strtol`: the value and the text from `end` on, or nothing if `end` is the string itself. -/
def strtol (base : ℕ) (self : Text) : Option (BitVec 64 × Text) :=
  let (negative, rest) := sign (self.dropWhile isspace)
  let rest := if base = 16 then (skipHex rest).getD rest else rest
  let (n, stop) := digits base 0 rest
  if stop.length = rest.length then none
  else
    let value : ℤ := if negative then -n else n
    some (.ofInt 64 (max (-2 ^ 63) (min value (2 ^ 63 - 1))), stop)

def stringIsIntOfBase (self : Text) (base : ℕ) : Bool :=
  match strtol base self with
  | some (_, stop) => stop = []
  | none => false

def stringParseInt (self : Text) (base : ℕ) : BitVec 64 :=
  match strtol base self with
  | some (value, _) => value
  | none => 0#64

def stringIsXint : Text → Bool
  | [] => stringIsIntOfBase [] 10
  | c :: substring =>
    if c = '-' ∨ c = '+' then
      if stringStartsWith substring ['-'] || stringStartsWith substring ['+'] then false
      else stringIsXint substring
    else if stringStartsWith (c :: substring) ['0', 'x'] then
      stringIsIntOfBase (substring.drop 1) 16
    else if stringStartsWith (c :: substring) ['0', 'o'] then
      stringIsIntOfBase (substring.drop 1) 8
    else stringIsIntOfBase (c :: substring) 10

def stringParseXint : Text → BitVec 64
  | [] => stringParseInt [] 10
  | c :: substring =>
    if c = '-' then -stringParseXint substring
    else if c = '+' then stringParseXint substring
    else if stringStartsWith (c :: substring) ['0', 'x'] then
      stringParseInt (substring.drop 1) 16
    else if stringStartsWith (c :: substring) ['0', 'o'] then
      stringParseInt (substring.drop 1) 8
    else if stringStartsWith (c :: substring) ['0', 'b'] then
      stringParseInt (substring.drop 1) 2
    else stringParseInt (c :: substring) 10

/-- The digits around a point: their value, how many of them stand after the point, and the
text after them. -/
def significand (base : ℕ) (self : Text) : Option (ℕ × ℕ × Text) :=
  let (n, rest) := digits base 0 self
  match rest with
  | '.' :: rest' =>
    let (m, stop) := digits base n rest'
    if rest.length = self.length ∧ stop.length = rest'.length then none
    else some (m, rest'.length - stop.length, stop)
  | _ => if rest.length = self.length then none else some (n, 0, rest)

/-- The exponent after a marker, and the text after it. -/
def exponent (marker : Char) (self : Text) : ℤ × Text :=
  match self with
  | [] => (0, [])
  | c :: rest =>
    if c.toLower = marker then
      let (negative, rest) := sign rest
      let (n, stop) := digits 10 0 rest
      if stop.length = rest.length then (0, self) else (if negative then -n else n, stop)
    else (0, self)

/-- The bits of the double that is nearest to a number, the even one of two, or of infinity. -/
def roundDouble (q : ℚ) : BitVec 64 :=
  if q ≤ 0 then 0#64
  else
    let e := max (Int.log 2 q) (-1022)
    let scaled := q * 2 ^ (52 - e)
    let low := ⌊scaled⌋
    let half := scaled - low
    let m := if half < 1 / 2 ∨ half = 1 / 2 ∧ low % 2 = 0 then low else low + 1
    .ofInt 64 (min ((e + 1022) * 2 ^ 52 + m) 0x7ff0000000000000)

/-- The text after a word, in either case. -/
def skipWord (word self : Text) : Option Text :=
  if stringStartsWith (self.map Char.toLower) word then some (self.drop word.length) else none

/-- The text after the characters in parentheses that may follow `nan`. -/
def skipPayload (self : Text) : Text :=
  match self with
  | '(' :: rest => match rest.dropWhile fun c => c.isAlphanum ∨ c = '_' with
    | ')' :: stop => stop
    | _ => self
  | _ => self

/-- The number that `strtod` reads after the sign. -/
def unsignedDouble (self : Text) : Option (BitVec 64 × Text) :=
  match skipWord ['i', 'n', 'f', 'i', 'n', 'i', 't', 'y'] self, skipWord ['i', 'n', 'f'] self,
    skipWord ['n', 'a', 'n'] self with
  | some stop, _, _ => some (0x7ff0000000000000#64, stop)
  | none, some stop, _ => some (0x7ff0000000000000#64, stop)
  | none, none, some stop => some (0x7ff8000000000000#64, skipPayload stop)
  | none, none, none =>
    match self with
    | '0' :: x :: rest =>
      match (if x.toLower = 'x' then significand 16 rest else none) with
      | some (n, k, stop) =>
        let (e, stop) := exponent 'p' stop
        some (roundDouble (n * 2 ^ (e - 4 * k)), stop)
      | none => decimal self
    | _ => decimal self
where
  decimal (self : Text) : Option (BitVec 64 × Text) :=
    (significand 10 self).map fun (n, k, stop) =>
      let (e, stop) := exponent 'e' stop
      (roundDouble (n * 10 ^ (e - k)), stop)

/-- `strtod`: the bits of the value and the text from `end` on, or nothing. -/
def strtod (self : Text) : Option (BitVec 64 × Text) :=
  let (negative, rest) := sign (self.dropWhile isspace)
  (unsignedDouble rest).map fun (value, stop) =>
    (if negative then value ||| 0x8000000000000000#64 else value, stop)

def stringIsDouble (self : Text) : Bool :=
  match strtod self with
  | some (_, stop) => stop = []
  | none => false

def stringParseDouble (self : Text) : BitVec 64 :=
  match strtod self with
  | some (value, _) => value
  | none => 0#64

end InetLisp
