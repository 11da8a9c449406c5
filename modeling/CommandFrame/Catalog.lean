import CommandFrame.Line.Commands
import CommandFrame.Schema.Basic
import CommandFrame.Session

/-!
# Catalog of commands

What completion knows of the commands: the schema of each, and where the
values of its arguments come from.
-/

namespace CommandFrame

abbrev NameValues := NameMap Text

/-- Where a command takes the values of an argument from; `none` leaves them to
the schema. -/
abbrev ValueSource := Host → Session → Text → NameValues → Option (List Text)

structure Entry where
  schema : Schema
  values : ValueSource

abbrev Catalog := NameMap Entry

namespace Catalog

/-- Whether an option takes a value.  An option that the schema of a known
command does not list takes none. -/
def arity (catalog : Catalog) : Line.Arity := fun command option => do
  let entry ← catalog.get? command
  match entry.schema.option? option with
  | some argument => return argument.type.takesValue
  | none => return false

def schemaValues (host : Host) (session : Session) (name : Text) (given : NameValues) :
    Option Argument → List Text
  | none => []
  | some argument =>
      if argument.path then
        let typed := (given.get? name).getD []
        ((session.pathCompleter host).matchStart? typed).getD []
      else argument.labels.map (·.1)

def argumentValues (catalog : Catalog) (host : Host) (session : Session) (command name : Text)
    (given : NameValues) : List Text :=
  match catalog.get? command with
  | none => []
  | some entry =>
      match entry.values host session name given with
      | some values => values
      | none => schemaValues host session name given (entry.schema.argument? name)

def candidates (catalog : Catalog) (host : Host) (session : Session) (command : Text)
    (argument : Argument) (given : NameValues) : List Text :=
  match argument.type.fixedValues? with
  | some values => values
  | none => catalog.argumentValues host session command argument.name given

end Catalog

end CommandFrame
