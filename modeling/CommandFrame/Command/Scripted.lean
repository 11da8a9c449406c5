import CommandFrame.Command

/-!
# Commands given by data

A scripted command has a table of rules for its values, and a fixed answer or
none.  Without one it shows what its words were bound to.
-/

namespace CommandFrame

inductive OfferedValues
  | schema
  | list (values : List Text)
  | dump
  deriving DecidableEq, Repr

structure ValueRule where
  argument : Text
  conditions : List (Text × Text)
  offered : OfferedValues
  deriving DecidableEq, Repr

namespace ValueRule

def applies (rule : ValueRule) (name : Text) (given : NameValues) : Bool :=
  rule.argument = name &&
    rule.conditions.all fun (option, value) => given.get? option = some value

def dump (name : Text) (given : NameValues) : List Text :=
  let typed := (given.get? name).getD []
  let pairs := given.entries.map fun (option, value) => option ++ "=" ++ value
  [typed ++ "|" ++ Text.join ";" pairs, typed ++ "~"]

def values (rule : ValueRule) (name : Text) (given : NameValues) : Option (List Text) :=
  match rule.offered with
  | .schema => none
  | .list values => some values
  | .dump => some (dump name given)

end ValueRule

structure ScriptedCommand where
  name : Text
  declarations : List Declaration
  rules : List ValueRule
  fail : Option Text
  result : Option Text
  deriving DecidableEq, Repr

namespace ScriptedCommand

def describe (schema : Schema) (bindings : Bindings) : Text :=
  let bound : List Text := schema.arguments.filterMap fun argument =>
    (bindings.value? argument.name).map fun value => argument.name ++ "=" ++ value.render
  let words : Text := "args=" ++ WordList.merge bindings.positionals
  let help := bindings.help.toList.map fun usage => ("help=" : Text) ++ usage
  Text.join "\n" (bound ++ [words] ++ help)

def build (scripted : ScriptedCommand) : Except DeclarationError Command := do
  let schema ← Schema.build scripted.name scripted.declarations
  return {
    schema
    values := fun _ _ name given =>
      (scripted.rules.find? (·.applies name given)).bind (·.values name given)
    run := fun _ session bindings =>
      match scripted.fail, scripted.result with
      | some text, _ => .error (.stated text)
      | none, some text => .ok (session, text)
      | none, none => .ok (session, describe schema bindings) }

end ScriptedCommand

end CommandFrame
