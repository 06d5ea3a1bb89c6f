/-
How deeply a text nests.

The depth is found by one pass over the characters that minds brackets outside
strings and nothing else, so it can be had of any text before it is read as JSON.  On
a JSON text it is the depth of the value; on any other, a closing bracket too many
leaves the count at zero.
-/

namespace TreeWalk

namespace Depth

/-- What the pass has seen. -/
structure Scan where
  /-- How many brackets are open. -/
  current : Nat
  /-- The most that were ever open. -/
  deepest : Nat
  inString : Bool
  /-- Whether the character before was a backslash that escapes this one. -/
  escaped : Bool

/-- The pass before the first character. -/
def Scan.initial : Scan := ⟨0, 0, false, false⟩

/-- Takes one character into account. -/
def Scan.next (s : Scan) (c : Char) : Scan :=
  if s.inString then
    if s.escaped then { s with escaped := false }
    else if c = '\\' then { s with escaped := true }
    else if c = '"' then { s with inString := false }
    else s
  else if c = '"' then { s with inString := true }
  else if c = '\x7b' ∨ c = '[' then
    { s with current := s.current + 1, deepest := max s.deepest (s.current + 1) }
  else if c = '\x7d' ∨ c = ']' then { s with current := s.current - 1 }
  else s

end Depth

/-- The most brackets that are open at once, outside strings. -/
def nestingDepth (text : List Char) : Nat := (text.foldl Depth.Scan.next .initial).deepest

/-- The deepest nesting that is accepted. -/
def maxDepth : Nat := 2048

end TreeWalk
