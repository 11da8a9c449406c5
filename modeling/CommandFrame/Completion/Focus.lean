import CommandFrame.Line.Commands
import CommandFrame.NameMap

/-!
# The word under the cursor

Completion works on the token that contains the cursor.  Between tokens it
works on the word that would begin there: a probe character is put at the
cursor to find out what kind of word that is.
-/

namespace CommandFrame

open Line (Token)

structure Focus where
  before : List Token
  token : Token
  after : List Token
  typed : Text
  deriving DecidableEq, Repr

namespace Focus

/-- A character that no one types. -/
def probe : Char := '\x01'

def splitAt? (test : Token → Bool) : List Token → Option (List Token × Token × List Token)
  | [] => none
  | token :: rest =>
      if test token then some ([], token, rest)
      else
        (splitAt? test rest).map fun (before, found, after) => (token :: before, found, after)

def onToken? (tokens : List Token) (offset : Nat) : Option Focus :=
  (splitAt? (·.contains offset) tokens).map fun (before, token, after) =>
    { before, token, after, typed := token.value }

def onNewWord? (arity : Line.Arity) (start rest : Text) : Option Focus :=
  let offset := Text.byteLength start
  let tokens := Line.tokens arity (start ++ probe :: rest)
  (splitAt? (fun token => token.start = offset) tokens).map fun (before, token, after) =>
    { before, token := { token with text := [], stop := offset }, after, typed := [] }

/-- The focus on a line with the cursor at a byte offset.  A cursor inside a
character counts as before it, one past the end as at the end. -/
def find? (arity : Line.Arity) (line : Text) (cursor : Nat) : Option Focus :=
  let (start, rest) := Text.splitBytes cursor line
  match onToken? (Line.tokens arity line) (Text.byteLength start) with
  | some focus => some focus
  | none => onNewWord? arity start rest

def previous? (focus : Focus) (kind : Line.TokenKind) : Option Token :=
  focus.before.reverse.find? fun token =>
    token.invocation = focus.token.invocation && token.kind = kind

def command? (focus : Focus) : Option Text := (focus.previous? .command).map Token.value

def option? (focus : Focus) : Option Text :=
  (focus.previous? .option).map fun token => token.value.drop 1

/-! ## Options of the invocation -/

structure Given where
  values : NameMap Text
  last : Option Text

namespace Given

def none : Given := ⟨.empty, Option.none⟩

def take (given : Given) (kind : Line.TokenKind) (word : Text) : Given :=
  match kind with
  | .option =>
      if word = "--" then given
      else ⟨given.values.insert (word.drop 1) [], some (word.drop 1)⟩
  | .value =>
      match given.last with
      | some option => { given with values := given.values.insert option word }
      | Option.none => given
  | .command | .positional => given

def takeTokens (invocation : Nat) (given : Given) (tokens : List Token) : Given :=
  (tokens.filter (·.invocation = invocation)).foldl
    (fun given token => given.take token.kind token.value) given

end Given

/-- The options of the focus's invocation with their values.  An option that
is given again later still has what is being typed. -/
def given (focus : Focus) : NameMap Text :=
  let invocation := focus.token.invocation
  let before := Given.none.takeTokens invocation focus.before
  let here := before.take focus.token.kind focus.typed
  let all := here.takeTokens invocation focus.after
  match focus.token.kind, before.last with
  | .value, some option => all.values.insert option focus.typed
  | _, _ => all.values

end Focus

end CommandFrame
