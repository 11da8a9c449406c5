import CommandFrame.Text.Basic

/-!
# Outputs of commands
-/

namespace CommandFrame

inductive OutputKind
  | html
  | svg
  | text
  | help
  | error
  deriving DecidableEq, Repr

structure Output where
  kind : OutputKind
  text : Text
  deriving DecidableEq, Repr

namespace Output

def ofResult (text : Text) : Output :=
  if Text.startsWith "<html>" text then ⟨.html, text⟩
  else if Text.startsWith "<svg>" text then ⟨.svg, text⟩
  else ⟨.text, text⟩

def isError (output : Output) : Bool := output.kind = .error

end Output

end CommandFrame
