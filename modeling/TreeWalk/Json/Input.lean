/-
Text that is being read, and what can be wrong with it.

Offsets count bytes, as the position that a message gives does: the line is one more
than the number of line feeds before the offset, the column the number of bytes since
the last of them.  A complaint is placed after the last byte consumed, or at the first
byte not consumed, whichever shows the reader the culprit.
-/

namespace TreeWalk.Json

/-- What is left of a text, and how many bytes of it have been consumed. -/
structure Input where
  rest : List Char
  offset : Nat

/-- What is wrong with a text that is not JSON. -/
inductive Flaw where
  | endInValue
  | endInList
  | endInObject
  | endInString
  | noValue
  | noWord
  | noListEnd
  | noObjectEnd
  | noColon
  | keyNotString
  | trailingComma
  | trailingCharacters
  | badNumber
  | numberOutOfRange
  | controlCharacter
  | badEscape
  | loneSurrogate
  | escapeCutShort
deriving DecidableEq, Inhabited

/-- How a message names a flaw. -/
def Flaw.text : Flaw → String
  | endInValue => "EOF while parsing a value"
  | endInList => "EOF while parsing a list"
  | endInObject => "EOF while parsing an object"
  | endInString => "EOF while parsing a string"
  | noValue => "expected value"
  | noWord => "expected ident"
  | noListEnd => "expected `,` or `]`"
  | noObjectEnd => "expected `,` or `\x7d`"
  | noColon => "expected `:`"
  | keyNotString => "key must be a string"
  | trailingComma => "trailing comma"
  | trailingCharacters => "trailing characters"
  | badNumber => "invalid number"
  | numberOutOfRange => "number out of range"
  | controlCharacter => "control character (\\u0000-\\u001F) found while parsing a string"
  | badEscape => "invalid escape"
  | loneSurrogate => "lone leading surrogate in hex escape"
  | escapeCutShort => "unexpected end of hex escape"

/-- A flaw and the number of bytes up to where it is reported. -/
structure Fault where
  flaw : Flaw
  offset : Nat
deriving DecidableEq

namespace Input

/-- A text from its start. -/
def ofString (s : String) : Input := ⟨s.toList, 0⟩

/-- A fault reported after the last byte consumed. -/
def faultAfter (inp : Input) (flaw : Flaw) : Fault := ⟨flaw, inp.offset⟩

/-- A fault reported at the first byte not consumed, or at the end of the text. -/
def faultAt (inp : Input) (flaw : Flaw) : Fault :=
  ⟨flaw, if inp.rest.isEmpty then inp.offset else inp.offset + 1⟩

/-- The characters that may stand between the parts of a text. -/
def isBlank (c : Char) : Bool := c == ' ' || c == '\n' || c == '\t' || c == '\r'

/-- What is left after the blanks; a blank is one byte. -/
def skipBlanks (inp : Input) : Input :=
  ⟨inp.rest.dropWhile isBlank, inp.offset + (inp.rest.takeWhile isBlank).length⟩

theorem length_skipBlanks (inp : Input) : inp.skipBlanks.rest.length ≤ inp.rest.length :=
  (List.dropWhile_sublist isBlank).length_le

end Input

/-- Line and column of the place that many bytes into a text, having come to the given ones. -/
def position (line column : Nat) : List Char → Nat → Nat × Nat
  | [], _ => (line, column)
  | c :: rest, bytes =>
    if bytes = 0 then (line, column)
    else if c = '\n' then position (line + 1) 0 rest (bytes - 1)
    else if bytes < c.utf8Size then (line, column + bytes)
    else position line (column + c.utf8Size) rest (bytes - c.utf8Size)

end TreeWalk.Json
