/-
What the arguments of the program ask for.

The arguments are a command and what belongs to it.  An option is written `--name value`
or `--name=value`, before or after the file, and counts once; a token that begins with
a dash is never taken for a value, unless the dash is all of it.  Everything behind
`--` is a file.  The option that asks for more logging may stand anywhere and any
number of times, and be written together with others of one letter.
-/
import TreeWalk.Syntax.Span

namespace TreeWalk.CommandLine

/-- How a report is printed. -/
inductive Format where
  | text
  | json
deriving DecidableEq, Inhabited

/-- The format of a given spelling. -/
def Format.ofName? : String → Option Format
  | "text" => some text
  | "json" => some json
  | _ => none

/-- What to do with a tree. -/
inductive Command where
  /-- Report its scopes. -/
  | scopes
  /-- Count its nodes. -/
  | stats
  /-- Find the innermost node around a position, dispatched under the key if one is given. -/
  | find (pos : Offset) (key : Option String)

/-- A command, the file it is for, and how to print what comes of it. -/
structure Invocation where
  command : Command
  file : String
  format : Format

/-- What the arguments ask for. -/
inductive Request where
  | version
  | invoke (invocation : Invocation)

/-- Why the arguments ask for nothing. -/
inductive UsageError where
  | noCommand
  | unknownCommand (name : String)
  | unknownOption (argument : String)
  | unexpectedArgument (argument : String)
  | missingValue (option : String)
  | invalidValue (option value : String)
  | repeatedOption (option : String)
  | missingArgument (name : String)
deriving DecidableEq

/-- What is said about arguments that ask for nothing. -/
def UsageError.message : UsageError → String
  | noCommand => "a command is required: scopes, stats or find"
  | unknownCommand name => "unrecognized command '" ++ name ++ "'"
  | unknownOption argument => "unexpected option '" ++ argument ++ "'"
  | unexpectedArgument argument => "unexpected argument '" ++ argument ++ "'"
  | missingValue option => "a value is required for '" ++ option ++ "'"
  | invalidValue option value => "invalid value '" ++ value ++ "' for '" ++ option ++ "'"
  | repeatedOption option => "'" ++ option ++ "' cannot be used multiple times"
  | missingArgument name => "'" ++ name ++ "' is required"

/-! ### Tokens -/

/-- A token on the command line. -/
inductive Token where
  /-- Ends the options. -/
  | separator
  /-- An option by name, perhaps with a value attached. -/
  | long (name : String) (value : Option String)
  /-- Options of one letter each. -/
  | short (letters : List Char)
  /-- Anything else. -/
  | plain (text : String)

/-- Splits the characters of a named option at the first equals sign. -/
def longToken (cs : List Char) : Token :=
  let name := String.ofList (cs.takeWhile (· != '='))
  match cs.dropWhile (· != '=') with
  | [] => .long name none
  | _ :: value => .long name (some (String.ofList value))

/-- What an argument is, by its dashes. -/
def Token.ofArgument (argument : String) : Token :=
  match argument.toList with
  | ['-', '-'] => .separator
  | '-' :: '-' :: cs => longToken cs
  | '-' :: c :: cs => .short (c :: cs)
  | _ => .plain argument

/-- Reads an offset: decimal digits, perhaps with a sign, whose value fits in 32 bits. -/
def offsetOfText? (text : String) : Option Offset :=
  let (negative, digits) :=
    match text.toList with
    | '-' :: ds => (true, ds)
    | '+' :: ds => (false, ds)
    | ds => (false, ds)
  let value := digits.foldl (fun n d => 10 * n + (d.toNat - '0'.toNat)) 0
  if digits.isEmpty || !digits.all Char.isDigit then none
  else if value < UInt32.size ∧ (!negative ∨ value = 0) then some (.ofNat value)
  else none

/-! ### Commands -/

/-- The commands by name, and whether they look for a position. -/
def searches? : String → Option Bool
  | "scopes" => some false
  | "stats" => some false
  | "find" => some true
  | _ => none

/-- What has been read of the arguments of a command. -/
structure Draft where
  file : Option String
  format : Option Format
  pos : Option Offset
  key : Option String

/-- Takes an argument that is no option: the file, if there is none yet. -/
def Draft.addFile (d : Draft) (file : String) : Except UsageError Draft :=
  if d.file.isSome then .error (.unexpectedArgument file)
  else if file.isEmpty then .error (.invalidValue "FILE" file)
  else .ok { d with file := some file }

/-- Whether a command has an option that takes a value. -/
def hasOption (search : Bool) (name : String) : Bool :=
  name == "format" || (search && (name == "pos" || name == "type"))

/-- Takes the value of an option. -/
def Draft.addOption (d : Draft) (name value : String) : Except UsageError Draft :=
  match name with
  | "format" =>
    match d.format, Format.ofName? value with
    | some _, _ => .error (.repeatedOption "--format")
    | none, some format => .ok { d with format := some format }
    | none, none => .error (.invalidValue "--format" value)
  | "pos" =>
    match d.pos, offsetOfText? value with
    | some _, _ => .error (.repeatedOption "--pos")
    | none, some pos => .ok { d with pos := some pos }
    | none, none => .error (.invalidValue "--pos" value)
  | _ =>
    if d.key.isSome then .error (.repeatedOption "--type") else .ok { d with key := some value }

/-- What the arguments of a command come to when all have been read. -/
def Draft.finish (d : Draft) (name : String) : Except UsageError Invocation := do
  let file ← d.file.elim (.error (.missingArgument "FILE")) .ok
  let command ←
    match name with
    | "scopes" => .ok .scopes
    | "stats" => .ok .stats
    | _ => d.pos.elim (.error (.missingArgument "--pos")) fun pos => .ok (.find pos d.key)
  .ok ⟨command, file, d.format.getD .text⟩

/-- Reads the arguments of a command. -/
def readCommand (search : Bool) (d : Draft) : List String → Except UsageError Draft
  | [] => .ok d
  | argument :: rest =>
    match Token.ofArgument argument with
    | .separator => rest.foldlM Draft.addFile d
    | .plain file => do readCommand search (← d.addFile file) rest
    | .short letters =>
      if letters.all (· == 'v') then readCommand search d rest
      else .error (.unknownOption argument)
    | .long name value =>
      if name == "verbose" && value.isNone then readCommand search d rest
      else if !hasOption search name then .error (.unknownOption argument)
      else
        match value with
        | some value => do readCommand search (← d.addOption name value) rest
        | none =>
          match rest with
          | [] => .error (.missingValue argument)
          | next :: rest =>
            match Token.ofArgument next with
            | .plain value => do readCommand search (← d.addOption name value) rest
            | _ => .error (.missingValue argument)

/-- Reads options of one letter in front of a command: whether the version is asked for. -/
def readLetters : List Char → Option Bool
  | [] => some false
  | 'v' :: rest => readLetters rest
  | 'V' :: _ => some true
  | _ => none

/-- Reads the arguments of the program. -/
def Request.ofArguments : List String → Except UsageError Request
  | [] => .error .noCommand
  | argument :: rest =>
    match Token.ofArgument argument with
    | .separator => .error .noCommand
    | .long "verbose" none => ofArguments rest
    | .long "version" none => .ok .version
    | .long _ _ => .error (.unknownOption argument)
    | .short letters =>
      match readLetters letters with
      | some true => .ok .version
      | some false => ofArguments rest
      | none => .error (.unknownOption argument)
    | .plain name =>
      match searches? name with
      | some search => do
        let d ← readCommand search ⟨none, none, none, none⟩ rest
        .ok (.invoke (← d.finish name))
      | none => .error (.unknownCommand name)

end TreeWalk.CommandLine
