/-
Text between double quotes, for a reader of messages.

A quoted text stays on one line and shows every character it holds: the quote and
the backslash are escaped, three control characters and NUL have short escapes, and
any other concealed character is written by its code point.
-/
import TreeWalk.Text.Concealed

namespace TreeWalk.Text

/-- How a character stands between the quotes. -/
def quotedChar (c : Char) : List Char :=
  if c = '\x00' then ['\\', '0']
  else if c = '\t' then ['\\', 't']
  else if c = '\n' then ['\\', 'n']
  else if c = '\r' then ['\\', 'r']
  else if c = '"' then ['\\', '"']
  else if c = '\\' then ['\\', '\\']
  else if concealed c then ['\\', 'u', '\x7b'] ++ Nat.toDigits 16 c.toNat ++ ['\x7d']
  else [c]

/-- The text between double quotes, every concealed character escaped. -/
def quoted (s : String) : String :=
  String.ofList ('"' :: s.toList.flatMap quotedChar ++ ['"'])

end TreeWalk.Text
