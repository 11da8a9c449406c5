import CommandFrame.WordList.Split

/-!
# Faults of a word list

A fault knows the text before it and the text from it on.  Its message shows
the line it stands in, a mark below it, and what could have stood there.
-/

namespace CommandFrame.WordList

structure Fault where
  cause : FaultCause
  before : Text
  after : Text
  deriving DecidableEq, Repr

namespace Fault

def line (fault : Fault) : Nat := fault.before.count '\n' + 1

def lineStart (fault : Fault) : Text :=
  (fault.before.reverse.takeWhile (· ≠ '\n')).reverse

def column (fault : Fault) : Nat := fault.lineStart.length + 1

def shownLine (fault : Fault) : Text :=
  (fault.lineStart ++ fault.after.takeWhile (· ≠ '\n')).filter (· ≠ '\r')

def indent (fault : Fault) : Text :=
  (fault.shownLine.take (fault.column - 1)).map fun c => if c = '\t' then '\t' else ' '

/-- At the start of the text any list would do; further on, the end of the
input or, in place of an unclosed element, a bare word. -/
def expected (fault : Fault) : Text :=
  match fault.cause with
  | .joined => "EOI"
  | .unclosed => if fault.before = [] then "list" else "EOI or bare"

def report (fault : Fault) : Text :=
  let number := Text.ofNat fault.line
  let gutter := number.map fun _ => ' '
  gutter ++ "--> " ++ number ++ ":" ++ Text.ofNat fault.column ++ "\n" ++
    gutter ++ " |\n" ++
    number ++ " | " ++ fault.shownLine ++ "\n" ++
    gutter ++ " | " ++ fault.indent ++ "^---\n" ++
    gutter ++ " |\n" ++
    gutter ++ " = expected " ++ fault.expected

def message (fault : Fault) : Text := "malformed list: " ++ fault.report

end Fault

def split (text : Text) : Except Fault (List Text) :=
  match readElements text with
  | .ok elements => .ok (elements.map Element.item)
  | .error (cause, after) =>
      .error ⟨cause, text.take (text.length - after.length), after⟩

end CommandFrame.WordList
