import CommandFrame.Command

/-!
# Listing the history
-/

namespace CommandFrame.Builtin

def historyLine (number : Nat) (line : Text) : Text :=
  let digits := Text.ofNat number
  List.replicate (5 - digits.length) ' ' ++ digits ++ "  " ++ line ++ "\n"

def history : Command where
  schema := .ofDeclarations "history"
    [.argument "-count" .integer "count" "show the last <count> entries only"] (by decide)
  run := fun _ session bindings =>
    let length := session.history.length
    let count := (bindings.intOr "count" length).toNat
    let shown := session.history.numbered.drop (length - count)
    .ok (session, shown.flatMap fun (number, line) => historyLine number line)

end CommandFrame.Builtin
