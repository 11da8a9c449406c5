import CommandFrame.Catalog
import CommandFrame.Completion.Escape
import CommandFrame.Completion.Focus
import CommandFrame.Text.Candidates

/-!
# Completing the word under the cursor

The candidates depend on the kind of the word.  What all candidates that start
with the typed text share takes the place of the word, written for its quoting;
if that adds nothing, the candidates are offered.
-/

namespace CommandFrame

inductive Completion
  | unchanged
  | replaced (line : Text) (cursor : Nat)
  | candidates (candidates : List Text)
  deriving DecidableEq, Repr

def Completion.apply (line : Text) : Completion → Text
  | replaced completed _ => completed
  | unchanged | candidates _ => line

structure CompletionTarget where
  candidates : List Text
  exactSpace : Bool
  deriving DecidableEq, Repr

namespace Focus

def optionTarget? (focus : Focus) (catalog : Catalog) : Option CompletionTarget := do
  let entry ← catalog.get? (← focus.command?)
  return ⟨entry.schema.optionNames false, true⟩

/-- The argument that the focus is a value of, and the options given: a value
belongs to the option before it, another word to the first positional that is
a string. -/
def valueArgument? (focus : Focus) (schema : Schema) : Option (Argument × NameValues) :=
  if focus.token.kind = .value then do
    let argument ← schema.option? (← focus.option?)
    return (argument, focus.given)
  else do
    let argument ← schema.positionals.find? (·.type = .string)
    return (argument, focus.given.insert argument.name focus.typed)

def valueTarget? (focus : Focus) (catalog : Catalog) (host : Host) (session : Session) :
    Option CompletionTarget := do
  let command ← focus.command?
  let entry ← catalog.get? command
  let (argument, given) ← focus.valueArgument? entry.schema
  return {
    candidates := catalog.candidates host session command argument given
    exactSpace := !argument.path || session.config.pathExactSpace }

def target? (focus : Focus) (catalog : Catalog) (host : Host) (session : Session) :
    Option CompletionTarget :=
  match focus.token.kind with
  | .command => some ⟨catalog.keys, true⟩
  | .option => focus.optionTarget? catalog
  | .value | .positional => focus.valueTarget? catalog host session

/-- Puts a word in the place of the focus.  A space ends a bare word only, and
one that is there already will do. -/
def replace (focus : Focus) (line word : Text) (spaceAfter : Bool) : Completion :=
  let start := (Text.splitBytes focus.token.start line).1
  let rest := (Text.splitBytes focus.token.stop line).2
  let written := start ++ focus.token.quote.escape word
  let spaceAfter := spaceAfter && focus.token.quote = .bare
  let hasSpace := rest.head? = some ' ' || rest.head? = some '\t'
  let completed := written ++ (if spaceAfter && !hasSpace then [' '] else []) ++ rest
  let cursor := Text.byteLength written + if spaceAfter then 1 else 0
  if completed = line ∧ cursor = focus.token.stop then .unchanged
  else .replaced completed cursor

def reduce (focus : Focus) (line : Text) (target : CompletionTarget) : Completion :=
  let found := Text.candidatesFor focus.typed target.candidates
  let common := Text.commonStart found
  if found = [] then .unchanged
  else if !Text.isExact found && Text.byteLength common ≤ Text.byteLength focus.typed then
    .candidates found
  else focus.replace line common (Text.isExact found && target.exactSpace)

end Focus

def Catalog.complete (catalog : Catalog) (host : Host) (session : Session) (line : Text)
    (cursor : Nat) : Completion :=
  match Focus.find? catalog.arity line cursor with
  | none => .unchanged
  | some focus =>
      match focus.target? catalog host session with
      | none => .unchanged
      | some target => focus.reduce line target

end CommandFrame
