import CommandFrame.Repl.Lines

/-!
# Running lines of input

The loop shows a prompt, if it has one, takes a line, and runs what is
complete.  Errors go to standard error, other outputs to standard output.
-/

namespace CommandFrame

structure Repl where
  frame : Frame
  pending : Text := []
  ok : Bool := true
  stdout : Text := []
  stderr : Text := []

namespace Repl

def notice (text : Text) : Text := "dframe: " ++ text ++ "\n"

def print (repl : Repl) (output : Output) : Repl :=
  match output.kind with
  | .error => { repl with stderr := repl.stderr ++ notice output.text, ok := false }
  | .text | .html | .svg | .help =>
      if output.kind = .text ∧ output.text = [] then repl
      else
        let ending : Text := if Text.endsWith "\n" output.text then [] else "\n"
        { repl with stdout := repl.stdout ++ output.text ++ ending }

def run (repl : Repl) (buffer : Text) : Repl :=
  let (outputs, frame) := repl.frame.processLine buffer
  outputs.foldl print { repl with frame, pending := [] }

def ask (repl : Repl) (prompt : Option Text) : Repl :=
  match prompt with
  | none => repl
  | some prompt =>
      { repl with stdout := repl.stdout ++ if repl.pending = [] then prompt else "... " }

def take (repl : Repl) (line : Text) : Repl :=
  match feed repl.pending line with
  | .skipped => repl
  | .pending buffer => { repl with pending := buffer }
  | .ready buffer => repl.run buffer

def finish (repl : Repl) : Repl := if repl.pending = [] then repl else repl.run repl.pending

/-- Runs all lines.  A line that is not UTF-8 ends the loop at once. -/
def runLines (prompt : Option Text) (repl : Repl) : List (Option Text) → Repl × Option FileError
  | [] => ((repl.ask prompt).finish, none)
  | none :: _ => (repl.ask prompt, some .notUtf8)
  | some line :: rest => runLines prompt ((repl.ask prompt).take line) rest

end Repl

end CommandFrame
