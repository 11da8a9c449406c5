import CommandFrame.Line.Lexeme

/-!
# Scanning a command line

The scanner turns lexemes into tokens.  It keeps the invocation it is in, the
invocations around it that brackets have interrupted, and the number of
invocations so far.  A scan never fails; `complete` says that nothing was left
open.
-/

namespace CommandFrame.Line

/-- Whether an option of a command takes a value; `none` if that is unknown. -/
abbrev Arity := Text → Text → Option Bool

def unknownArity : Arity := fun _ _ => none

structure Invocation where
  number : Nat
  command : Option Text := none
  awaitsValue : Bool := false
  optionsDone : Bool := false
  deriving DecidableEq, Repr

/-- The kind of a word, and the invocation after it.  An option of unknown
arity takes a value. -/
def Invocation.takeWord (arity : Arity) (invocation : Invocation) (text : Text) :
    TokenKind × Invocation :=
  match invocation.command with
  | none => (.command, { invocation with command := some text })
  | some name =>
      if invocation.awaitsValue then (.value, { invocation with awaitsValue := false })
      else if invocation.optionsDone then (.positional, invocation)
      else
        match text with
        | '-' :: option =>
            if option = ['-'] then (.option, { invocation with optionsDone := true })
            else
              (.option, { invocation with awaitsValue := (arity name option).getD true })
        | _ => (.positional, invocation)

def Invocation.takeSubstitution (invocation : Invocation) : Invocation :=
  { invocation with command := some (invocation.command.getD []), awaitsValue := false }

structure State where
  current : Invocation
  outer : List Invocation
  numbered : Nat
  deriving DecidableEq, Repr

namespace State

def start : State := ⟨{ number := 0 }, [], 1⟩

def context (state : State) (brackets : Bool) : Context where
  brackets := brackets
  nested := !state.outer.isEmpty
  fresh := state.current.command.isNone

def advance (arity : Arity) (state : State) (offset : Nat) : Lexeme → State × Option Token
  | .blank _ | .continuation | .comment _ => (state, none)
  | .separator _ =>
      match state.current.command with
      | none => (state, none)
      | some _ =>
          ({ state with current := { number := state.numbered }, numbered := state.numbered + 1 },
            none)
  | .opening =>
      (⟨{ number := state.numbered }, state.current :: state.outer, state.numbered + 1⟩, none)
  | .closing =>
      match state.outer with
      | [] => (state, none)
      | parent :: outer =>
          ({ state with current := parent.takeSubstitution, outer := outer }, none)
  | .word quote text _ =>
      let (kind, current) := state.current.takeWord arity text
      let start := offset + Text.byteLength quote.opening
      let token : Token :=
        { kind, text, start, stop := start + Text.byteLength text, quote,
          invocation := state.current.number }
      ({ state with current }, some token)

end State

structure Scan where
  tokens : List Token
  complete : Bool
  deriving DecidableEq, Repr

def scanFrom (arity : Arity) (brackets : Bool) (state : State) (offset : Nat) : Text → Scan
  | [] => ⟨[], state.outer.isEmpty⟩
  | c :: rest =>
      let read := readLexeme (state.context brackets) c rest
      let (next, token) := state.advance arity offset read.1
      let scan :=
        scanFrom arity brackets next (offset + Text.byteLength read.1.source) read.2
      ⟨token.toList ++ scan.tokens, read.1.isClosed && scan.complete⟩
termination_by text => text.length
decreasing_by exact length_readLexeme_lt ..

def scan (arity : Arity) (brackets : Bool) (line : Text) : Scan :=
  scanFrom arity brackets State.start 0 line

end CommandFrame.Line
