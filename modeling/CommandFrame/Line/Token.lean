import CommandFrame.Text.Unescape

/-!
# Words of a command line

A token is a word with its place in the line.  Its text is what stands between
its delimiters, and `Token.value` the word that is meant.
-/

namespace CommandFrame.Line

inductive TokenKind
  | command
  | option
  | value
  | positional
  deriving DecidableEq, Repr

inductive Quote
  | bare
  | brace
  | double
  deriving DecidableEq, Repr

def Quote.opening : Quote → Text
  | .bare => []
  | .brace => ['{']
  | .double => ['"']

def Quote.closing : Quote → Text
  | .bare => []
  | .brace => ['}']
  | .double => ['"']

def Quote.read : Quote → Text → Text
  | .brace, text => text
  | .bare, text | .double, text => Text.unescape text

structure Token where
  kind : TokenKind
  text : Text
  start : Nat
  stop : Nat
  quote : Quote
  /-- Tokens of one invocation share this number. -/
  invocation : Nat
  deriving DecidableEq, Repr

namespace Token

def value (token : Token) : Text := token.quote.read token.text

def contains (token : Token) (offset : Nat) : Bool :=
  token.start ≤ offset && offset ≤ token.stop

end Token

/-- The position of the first token that contains `offset`. -/
def indexAt? (tokens : List Token) (offset : Nat) : Option Nat :=
  tokens.findIdx? (·.contains offset)

end CommandFrame.Line
