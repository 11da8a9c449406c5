import CommandFrame.Arguments.Value
import CommandFrame.Schema.Usage
import CommandFrame.Text.Blank
import CommandFrame.WordList.Fault

/-!
# Chunks of argument words

The words of a command are read one chunk at a time: a positional word, an
option with its value, or one of the words with a meaning of their own,
`-help`, `-hidden` and `--`.  After `--` every word is positional.  The first
word that fits nowhere ends the reading.
-/

namespace CommandFrame

open Decimal (Binary64)

inductive ParseError
  | invalidOption (name : Text)
  | missingValue (name : Text)
  | invalidValue (name value : Text)
  | groupExclusivity (members : List Text)
  | groupRequirement (members : List Text)
  deriving DecidableEq, Repr

def ParseError.message : ParseError → Text
  | .invalidOption name => "Invalid option '" ++ name ++ "'"
  | .missingValue name => "Missing value for '-" ++ name ++ "'"
  | .invalidValue name value => "Invalid value '" ++ value ++ "' for '-" ++ name ++ "'"
  | .groupExclusivity members => "Only one of " ++ Text.join ", " members ++ " allowed"
  | .groupRequirement members => "One of " ++ Text.join ", " members ++ " required"

inductive Given
  | nothing
  | flag
  | int (i : Int)
  | real (r : Binary64)
  | bool (b : Bool)
  | word (word : Text)
  | words (words : List Text)
  deriving DecidableEq, Repr

def Argument.read? (argument : Argument) (value : Text) : Option Given :=
  match argument.type with
  | .none => some .nothing
  | .boolean => some .flag
  | .integer => (Decimal.signed? (Text.trim value)).map .int
  | .real => (Binary64.parse? (Text.trim value)).map .real
  | .stringBool => (readBool? value).map .bool
  | .string =>
      if argument.multiple then (WordList.split value).toOption.map .words
      else some (.word value)

inductive Chunk
  | positional (word : Text)
  | help
  /-- A word `-hidden` that the schema does not declare. -/
  | hidden
  | terminator
  | option (argument : Argument) (value : Option Text) (given : Given)
  deriving DecidableEq, Repr

namespace Chunk

def words : Chunk → List Text
  | positional word => [word]
  | help => ["-help"]
  | hidden => ["-hidden"]
  | terminator => ["--"]
  | option argument value _ => ('-' :: argument.name) :: value.toList

def ofOption (argument : Argument) (rest : List Text) :
    Except ParseError (Chunk × List Text) :=
  if argument.type.takesValue then
    match rest with
    | [] => .error (.missingValue argument.name)
    | value :: rest =>
        match argument.read? value with
        | none => .error (.invalidValue argument.name value)
        | some given => .ok (.option argument (some value) given, rest)
  else
    .ok (.option argument none (if argument.type = .boolean then .flag else .nothing), rest)

def read (schema : Schema) (word : Text) (rest : List Text) :
    Except ParseError (Chunk × List Text) :=
  match word with
  | '-' :: name =>
      if name = "help" then .ok (.help, rest)
      else if name = "-" then .ok (.terminator, rest)
      else
        match schema.option? name with
        | some argument => ofOption argument rest
        | none => if name = "hidden" then .ok (.hidden, rest) else .error (.invalidOption name)
  | _ => .ok (.positional word, rest)

theorem length_read_le {schema : Schema} {word : Text} {rest after : List Text} {chunk : Chunk}
    (h : read schema word rest = .ok (chunk, after)) : after.length ≤ rest.length := by
  unfold read at h
  split at h
  · split at h
    · simp_all
    split at h
    · simp_all
    split at h
    · unfold ofOption at h
      split at h
      · split at h
        · simp at h
        · split at h
          · simp at h
          · simp_all
      · simp_all
    · split at h <;> simp_all
  · simp_all

def readAll (schema : Schema) : List Text → Except ParseError (List Chunk)
  | [] => .ok []
  | word :: rest =>
      match _h : read schema word rest with
      | .error error => .error error
      | .ok (.terminator, after) => .ok (.terminator :: after.map .positional)
      | .ok (chunk, after) => (readAll schema after).map (chunk :: ·)
termination_by words => words.length
decreasing_by exact Nat.lt_succ_of_le (length_read_le _h)

end Chunk

end CommandFrame
