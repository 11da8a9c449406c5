import CommandFrame.Command

/-!
# Printing words
-/

namespace CommandFrame.Builtin

def echo : Command where
  schema := .ofDeclarations "echo" [.argument "args" .string "args" "words to print"] (by decide)
  run := fun _ session bindings => .ok (session, Text.join " " bindings.positionals)

end CommandFrame.Builtin
