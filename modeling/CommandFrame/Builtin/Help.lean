import CommandFrame.Command

/-!
# Help on commands
-/

namespace CommandFrame.Builtin

def help : Command where
  schema := .ofDeclarations "help"
    [.argument "-hidden" .boolean "" "show hidden options",
      .argument "-verbose" .boolean "" "show long descriptions",
      .argument "pattern" .string "pattern" "commands to describe"] (by decide)
  run := fun surroundings session bindings =>
    let showHidden := bindings.boolOr "hidden" false || bindings.showHidden
    let verbose := bindings.boolOr "verbose" false
    let pattern := bindings.positionals.head?.getD "*"
    let found := surroundings.catalog.values.filter fun entry =>
      Glob.accepts pattern entry.schema.name
    if found.isEmpty then .error (.noCommandMatches pattern)
    else
      let usages := found.map fun entry => entry.schema.usage showHidden verbose
      .ok (session, Text.join "\n" usages)

end CommandFrame.Builtin
