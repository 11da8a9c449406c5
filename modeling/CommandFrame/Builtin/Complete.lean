import CommandFrame.Command

/-!
# Completion as a command
-/

namespace CommandFrame.Builtin

/-- Reads a list of pairs of a name and a value.  Lists of another length are
passed over. -/
def readNameValues (text : Text) : Except WordList.Fault NameValues := do
  let pairs ← (← WordList.split text).mapM WordList.split
  return .ofList <| pairs.filterMap fun
    | [name, value] => some (name, value)
    | _ => none

def completionQuery (bindings : Bindings) (given : NameValues) : CompletionQuery where
  command := bindings.strOr "command" []
  option := if bindings.has "option" then some (bindings.strOr "option" []) else none
  value :=
    if bindings.has "option" && bindings.has "value" then some (bindings.strOr "value" [])
    else none
  given := given
  all := bindings.boolOr "all" false
  exactSpace := bindings.boolOr "exact_space" false

def complete : Command where
  schema := .ofDeclarations "complete"
    [.argument "-command" .string "command" "command (prefix) to complete", .refine .required,
      .argument "-option" .string "option" "option (prefix) to complete",
      .argument "-value" .string "value" "option value to complete",
      .argument "-name_values" .string "name_values" "other option values on the line",
      .argument "-all" .boolean "" "get all matches",
      .argument "-exact_space" .boolean "" "add a space to an exact match"] (by decide)
  run := fun surroundings session bindings =>
    match readNameValues (bindings.strOr "name_values" []) with
    | .error fault => .error (.malformedList fault)
    | .ok given =>
        let query := completionQuery bindings given
        match query.answer surroundings.catalog surroundings.host session with
        | .error cause => .error (.query cause)
        | .ok (.best text) => .ok (session, text)
        | .ok (.all candidates) => .ok (session, WordList.merge candidates)

end CommandFrame.Builtin
