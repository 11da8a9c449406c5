import CommandFrame.Catalog
import CommandFrame.Text.Candidates

/-!
# Completion queries

A query asks for the completion of a command name, of an option of a command,
or of a value of an option.
-/

namespace CommandFrame

structure CompletionQuery where
  command : Text
  option : Option Text := none
  value : Option Text := none
  given : NameValues := .empty
  all : Bool := false
  exactSpace : Bool := false

inductive QueryResult
  | best (text : Text)
  | all (candidates : List Text)
  deriving DecidableEq, Repr

inductive QueryError
  | unknownCommand (command : Text)
  | unknownOption (command option : Text)
  deriving DecidableEq, Repr

def QueryError.message : QueryError → Text
  | .unknownCommand command => "unknown command `" ++ command ++ "'"
  | .unknownOption command option => command ++ ": unknown option `-" ++ option ++ "'"

/-- What the matches share, unless it is shorter than what was typed. -/
def longestExtension? (typed : Text) (found : List Text) (exactSpace : Bool) : Option Text :=
  let common := Text.commonStart found
  if Text.byteLength common < Text.byteLength typed then none
  else if Text.isExact found && exactSpace then some (common ++ [' '])
  else some common

namespace CompletionQuery

def extend? (query : CompletionQuery) (typed : Text) (candidates : List Text) : Option Text :=
  longestExtension? typed (Text.candidatesFor typed candidates) query.exactSpace

def answerCommand (query : CompletionQuery) (catalog : Catalog) : QueryResult :=
  if query.all then .all (Text.candidatesFor query.command catalog.keys)
  else .best ((query.extend? query.command catalog.keys).getD [])

def answerOption (query : CompletionQuery) (schema : Schema) (option : Text) : QueryResult :=
  let names := schema.optionNames false
  if query.all then .all (names.map (·.drop 1))
  else .best ((query.extend? ('-' :: option) names).getD [])

def answerValue (query : CompletionQuery) (values : List Text) (typed : Text) : QueryResult :=
  if query.all then .all values
  else
    match query.extend? typed values with
    | some text => .best text
    | none => .all values

def answer (query : CompletionQuery) (catalog : Catalog) (host : Host) (session : Session) :
    Except QueryError QueryResult :=
  match query.option with
  | none => .ok (query.answerCommand catalog)
  | some option =>
      match catalog.get? query.command with
      | none => .error (.unknownCommand query.command)
      | some entry =>
          match query.value with
          | none => .ok (query.answerOption entry.schema option)
          | some typed =>
              match entry.schema.option? option with
              | none => .error (.unknownOption query.command option)
              | some argument =>
                  let values :=
                    catalog.candidates host session query.command argument query.given
                  .ok (query.answerValue values typed)

end CompletionQuery

end CommandFrame
