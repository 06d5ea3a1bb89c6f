/-
What can be wrong with a document.

A document may be unreadable, nest too deeply, be no JSON, or be JSON that describes
no syntax tree.  The last two are placed in the text by line and column.
-/
import TreeWalk.Json.Input
import TreeWalk.Json.Value
import TreeWalk.Text.Quoted
import TreeWalk.Text.Shortest

namespace TreeWalk

/-- What stands where something else was expected. -/
inductive Found where
  | null
  | boolean (value : Bool)
  | integer (value : Int)
  | float (value : Float)
  | string (value : String)
  | sequence
  | map

namespace Found

/-- What a value is found to be. -/
def ofJson : Json → Found
  | .null => null
  | .bool b => boolean b
  | .num (.int v) => integer v
  | .num (.float x) => float x
  | .str s => string s
  | .arr _ => sequence
  | .obj _ => map

/-- How a message names what was found. -/
def text : Found → String
  | null => "null"
  | boolean b => "boolean `" ++ (if b then "true" else "false") ++ "`"
  | integer v => "integer `" ++ toString v ++ "`"
  | float x => "floating point `" ++ Shortest.text x ++ "`"
  | string s => "string " ++ Text.quoted s
  | sequence => "sequence"
  | map => "map"

end Found

/-- Why a JSON value describes no syntax tree. -/
inductive DataFault where
  | invalidType (found : Found) (expected : String)
  | invalidValue (found : Found) (expected : String)
  | invalidLength (length : Nat) (expected : String)
  | unknownVariant (name : String) (expected : List String)
  | missingField (name : String)
  | duplicateField (name : String)

/-- What is said about a value that describes no syntax tree. -/
def DataFault.message : DataFault → String
  | invalidType found expected => "invalid type: " ++ found.text ++ ", expected " ++ expected
  | invalidValue found expected => "invalid value: " ++ found.text ++ ", expected " ++ expected
  | invalidLength length expected =>
    "invalid length " ++ toString length ++ ", expected " ++ expected
  | unknownVariant name expected =>
    "unknown variant `" ++ name ++ "`, expected one of " ++
      ", ".intercalate (expected.map fun e => "`" ++ e ++ "`")
  | missingField name => "missing field `" ++ name ++ "`"
  | duplicateField name => "duplicate field `" ++ name ++ "`"

/-- What is wrong with the text of a document. -/
inductive TextFault where
  | json (flaw : Json.Flaw)
  | data (fault : DataFault)

/-- What is said about the text of a document. -/
def TextFault.message : TextFault → String
  | json flaw => flaw.text
  | data fault => fault.message

/-- Why a document could not be loaded. -/
inductive LoadError where
  /-- The file could not be read. -/
  | file (path cause : String)
  /-- The bytes are not text. -/
  | notText
  | tooDeep (depth limit : Nat)
  | invalid (fault : TextFault) (line column : Nat)

/-- What is said about a document that could not be loaded. -/
def LoadError.message : LoadError → String
  | file path cause => "failed to read '" ++ path ++ "': " ++ cause
  | notText => "failed to read syntax tree: stream did not contain valid UTF-8"
  | tooDeep depth limit =>
    s!"syntax tree nests {depth} levels deep, the limit is {limit}"
  | invalid fault line column =>
    "invalid syntax tree: " ++ fault.message ++ s!" at line {line} column {column}"

end TreeWalk
