import CommandFrame.Command

/-!
# Named data
-/

namespace CommandFrame.Builtin

def setData : Command where
  schema := .ofDeclarations "set_data"
    [.argument "-name" .string "name" "", .refine .required,
      .argument "-value" .string "value" "", .refine .required] (by decide)
  run := fun _ session bindings =>
    if !bindings.has "name" then .error (.missingOption "name")
    else if !bindings.has "value" then .error (.missingOption "value")
    else
      let data := session.data.insert (bindings.strOr "name" []) (bindings.strOr "value" [])
      .ok ({ session with data }, [])

def getData : Command where
  schema := .ofDeclarations "get_data"
    [.argument "-name" .string "name" "", .refine .required] (by decide)
  values := fun _ session name _ => if name = "name" then some session.data.keys else none
  run := fun _ session bindings =>
    let name := bindings.strOr "name" []
    match session.data.get? name with
    | some value => .ok (session, value)
    | none => .error (.noData name)

end CommandFrame.Builtin
