/-
JSON text of a value.

Two layouts share the spelling of scalars: `Json.written` puts everything on one
line without blanks, `Json.pretty` gives each item and member a line of its own,
two columns further in than the bracket around it, and leaves an empty container
on one line.  A string is written with the short escape where there is one, other
control characters by code point, and every other character as it is.

A layout puts a value in front of the text that stands behind it, so that a document
is built from its end and no part of it is copied on the way.
-/
import TreeWalk.Json.Value
import TreeWalk.Text.Shortest

namespace TreeWalk

namespace Json

/-! ### Scalars -/

/-- The lower case hexadecimal digit of a number below sixteen. -/
def hexDigit (n : Nat) : Char := Nat.digitChar (n % 16)

/-- How a character stands in a string. -/
def escapedChar (c : Char) : List Char :=
  if c = '"' then ['\\', '"']
  else if c = '\\' then ['\\', '\\']
  else if c = '\x08' then ['\\', 'b']
  else if c = '\x0c' then ['\\', 'f']
  else if c = '\n' then ['\\', 'n']
  else if c = '\r' then ['\\', 'r']
  else if c = '\t' then ['\\', 't']
  else if c.toNat < 0x20 then ['\\', 'u', '0', '0', hexDigit (c.toNat / 16), hexDigit c.toNat]
  else [c]

/-- The characters of a string between its quotes, both quotes included. -/
def quotedChars (s : String) : List Char :=
  '"' :: s.toList.flatMap escapedChar ++ ['"']

/-- A string as JSON writes it. -/
def quoted (s : String) : String := String.ofList (quotedChars s)

/-- The spelling of a number. -/
def numberChars : Number → List Char
  | .int v => (toString v).toList
  | .float x => (Shortest.text x).toList

/-- The spelling of a truth value. -/
def boolChars (b : Bool) : List Char :=
  if b then ['t', 'r', 'u', 'e'] else ['f', 'a', 'l', 's', 'e']

/-- The spelling of the value that stands for none. -/
def nullChars : List Char := ['n', 'u', 'l', 'l']

/-! ### One line -/

mutual
/-- The value on one line, without blanks, and the text behind it. -/
def writtenChars : Json → List Char → List Char
  | .null, tail => nullChars ++ tail
  | .bool b, tail => boolChars b ++ tail
  | .num n, tail => numberChars n ++ tail
  | .str s, tail => quotedChars s ++ tail
  | .arr [], tail => '[' :: ']' :: tail
  | .arr (v :: rest), tail => '[' :: v.writtenChars (itemsChars rest tail)
  | .obj [], tail => '\x7b' :: '\x7d' :: tail
  | .obj ((name, v) :: rest), tail =>
    '\x7b' :: (quotedChars name ++ ':' :: v.writtenChars (membersChars rest tail))
/-- The further items of a list, its closing bracket and the text behind it. -/
def itemsChars : List Json → List Char → List Char
  | [], tail => ']' :: tail
  | v :: rest, tail => ',' :: v.writtenChars (itemsChars rest tail)
/-- The further members of an object, its closing brace and the text behind it. -/
def membersChars : List (String × Json) → List Char → List Char
  | [], tail => '\x7d' :: tail
  | (name, v) :: rest, tail =>
    ',' :: (quotedChars name ++ ':' :: v.writtenChars (membersChars rest tail))
end

/-- The value on one line, without blanks. -/
def written (v : Json) : String := String.ofList (v.writtenChars [])

/-! ### One line an item -/

/-- A new line, the blanks before what stands `level` brackets deep, and the text behind them. -/
def newLine (level : Nat) (tail : List Char) : List Char :=
  '\n' :: (List.replicate (2 * level) ' ' ++ tail)

mutual
/-- The value laid out over several lines, and the text behind it; `level` brackets are open
around it. -/
def prettyChars (level : Nat) : Json → List Char → List Char
  | .null, tail => nullChars ++ tail
  | .bool b, tail => boolChars b ++ tail
  | .num n, tail => numberChars n ++ tail
  | .str s, tail => quotedChars s ++ tail
  | .arr [], tail => '[' :: ']' :: tail
  | .arr (v :: rest), tail =>
    '[' :: newLine (level + 1) (v.prettyChars (level + 1) (prettyItems level rest tail))
  | .obj [], tail => '\x7b' :: '\x7d' :: tail
  | .obj ((name, v) :: rest), tail =>
    '\x7b' :: newLine (level + 1) (quotedChars name ++ ':' :: ' ' ::
      v.prettyChars (level + 1) (prettyMembers level rest tail))
/-- The further items, a line each, the closing bracket on its own line, and the text behind it. -/
def prettyItems (level : Nat) : List Json → List Char → List Char
  | [], tail => newLine level (']' :: tail)
  | v :: rest, tail =>
    ',' :: newLine (level + 1) (v.prettyChars (level + 1) (prettyItems level rest tail))
/-- The further members, a line each, the closing brace on its own line, and the text behind it. -/
def prettyMembers (level : Nat) : List (String × Json) → List Char → List Char
  | [], tail => newLine level ('\x7d' :: tail)
  | (name, v) :: rest, tail =>
    ',' :: newLine (level + 1) (quotedChars name ++ ':' :: ' ' ::
      v.prettyChars (level + 1) (prettyMembers level rest tail))
end

/-- The value laid out over several lines. -/
def pretty (v : Json) : String := String.ofList (v.prettyChars 0 [])

end Json

end TreeWalk
