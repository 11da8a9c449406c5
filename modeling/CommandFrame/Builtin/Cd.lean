import CommandFrame.Command

/-!
# Changing the working directory
-/

namespace CommandFrame.Builtin

def cd : Command where
  schema := .ofDeclarations "cd"
    [.argument "dir" .string "dir" "directory to change to", .refine .path] (by decide)
  run := fun surroundings session bindings =>
    let tree := surroundings.host.tree
    let given := bindings.positionals.head?.getD "~"
    let directory := (session.pathCompleter surroundings.host).expanded given
    match tree.seek (Path.join session.cwd directory) with
    | .error cause => .error (.file cause directory)
    | .ok (location, .directory) => .ok ({ session with cwd := Path.ofLocation location }, [])
    | .ok _ => .error (.notDirectory directory)

end CommandFrame.Builtin
