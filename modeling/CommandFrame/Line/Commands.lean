import CommandFrame.Line.Scan

/-!
# Commands of a line

Completion reads `[...]` as a nested invocation and asks which options take
values.  To run a line it is split into commands and their words; brackets are
ordinary characters then.
-/

namespace CommandFrame.Line

def tokens (arity : Arity) (line : Text) : List Token := (scan arity true line).tokens

def isComplete (line : Text) : Bool :=
  (scan unknownArity true line).complete && !Text.endsWith "\\\n" line

def splitCommands (line : Text) : List (List Text) :=
  let invocations :=
    (scan unknownArity false line).tokens.splitBy fun first second =>
      first.invocation == second.invocation
  invocations.map fun words => words.map Token.value

end CommandFrame.Line
