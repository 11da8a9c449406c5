import CommandFrame.Arguments.Parse
import CommandFrame.Catalog
import CommandFrame.Completion.Query
import CommandFrame.Schema.Declaration

/-!
# Commands

A command has a schema, a source of values for completion, and what it does to
a session.  A registry holds the commands by name.
-/

namespace CommandFrame

inductive CommandError
  | file (cause : FileError) (path : Text)
  | notDirectory (path : Text)
  | noImage (path : Text)
  | missingOption (name : Text)
  | noData (name : Text)
  | noCommandMatches (pattern : Text)
  | malformedList (fault : WordList.Fault)
  | query (cause : QueryError)
  | stated (text : Text)
  deriving DecidableEq, Repr

def CommandError.message : CommandError → Text
  | .file cause path => cause.message ++ ": `" ++ path ++ "'"
  | .notDirectory path => "not a directory: `" ++ path ++ "'"
  | .noImage path => "no such image: `" ++ path ++ "'"
  | .missingOption name => "missing -" ++ name
  | .noData name => "no data named `" ++ name ++ "'"
  | .noCommandMatches pattern => "no command matches `" ++ pattern ++ "'"
  | .malformedList fault => fault.message
  | .query cause => cause.message
  | .stated text => text

structure Surroundings where
  catalog : Catalog
  host : Host

structure Command where
  schema : Schema
  values : ValueSource := fun _ _ _ _ => none
  run : Surroundings → Session → Bindings → Except CommandError (Session × Text)

namespace Command

def name (command : Command) : Text := command.schema.name

def entry (command : Command) : Entry := ⟨command.schema, command.values⟩

end Command

abbrev Registry := NameMap Command

namespace Registry

def register (registry : Registry) (command : Command) : Registry :=
  registry.insert command.name command

def ofCommands (commands : List Command) : Registry := commands.foldl register .empty

def catalog (registry : Registry) : Catalog := registry.mapValues Command.entry

end Registry

end CommandFrame
