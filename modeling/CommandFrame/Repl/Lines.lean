import CommandFrame.Frame

/-!
# Lines of input

Input is read line by line.  A line is joined to the lines before it as long
as these are no complete command; blank lines between commands are skipped.
-/

namespace CommandFrame.Repl

/-- The lines of an input without their ends; `none` for a line that is not
UTF-8.  A carriage return belongs to the newline after it. -/
def readLines (input : Bytes) : List (Option Text) :=
  let lines := input.splitOn 10
  let ended := lines.dropLast.map fun line =>
    (Utf8.decode? line).map fun text =>
      if text.getLast? = some '\r' then text.dropLast else text
  match lines.getLast? with
  | none | some [] => ended
  | some last => ended ++ [Utf8.decode? last]

inductive Fed
  | skipped
  | pending (buffer : Text)
  | ready (buffer : Text)
  deriving DecidableEq, Repr

def feed (pending line : Text) : Fed :=
  if pending = [] && Text.isBlank line then .skipped
  else
    let buffer := if pending = [] then line else pending ++ '\n' :: line
    if Frame.isComplete buffer then .ready buffer else .pending buffer

/-- The buffers that the lines make up; what is pending at the end is the last
of them. -/
def buffers (pending : Text) : List Text → List Text
  | [] => if pending = [] then [] else [pending]
  | line :: rest =>
      match feed pending line with
      | .skipped => buffers pending rest
      | .pending buffer => buffers buffer rest
      | .ready buffer => buffer :: buffers [] rest

end CommandFrame.Repl
