import CommandFrame.Line.Token

/-!
# Lexemes of a command line

A line is cut into lexemes, whose sources make it up again.  What a character
begins depends on a little context: whether brackets are read at all, whether
one is open, and whether the invocation has a command yet.  Nothing is
refused; what is left open at the end of the line is a word that is not closed.
-/

namespace CommandFrame.Line

structure Context where
  brackets : Bool
  nested : Bool
  fresh : Bool
  deriving DecidableEq, Repr

inductive Lexeme
  | blank (c : Char)
  | continuation
  | separator (c : Char)
  | comment (text : Text)
  | opening
  | closing
  | word (quote : Quote) (text : Text) (closed : Bool)
  deriving DecidableEq, Repr

def Lexeme.source : Lexeme → Text
  | .blank c | .separator c => [c]
  | .continuation => ['\\', '\n']
  | .comment text => text
  | .opening => ['[']
  | .closing => [']']
  | .word quote text closed =>
      quote.opening ++ text ++ bif closed then quote.closing else []

def Lexeme.isClosed : Lexeme → Bool
  | .word _ _ closed => closed
  | _ => true

def isBlank (c : Char) : Bool := c = ' ' || c = '\t' || c = '\r'

def isSeparator (c : Char) : Bool := c = '\n' || c = ';'

def endsBare (nested : Bool) (c : Char) : Bool :=
  isBlank c || isSeparator c || (nested && c = ']')

/-! ## Words -/

/-- The text of a word, what follows the word, and whether the word ended. -/
structure Body where
  text : Text
  rest : Text
  closed : Bool
  deriving DecidableEq, Repr

def Body.push (read : Text) (body : Body) : Body := { body with text := read ++ body.text }

@[simp] theorem Body.text_push (read : Text) (body : Body) :
    (body.push read).text = read ++ body.text := rfl

@[simp] theorem Body.rest_push (read : Text) (body : Body) :
    (body.push read).rest = body.rest := rfl

@[simp] theorem Body.closed_push (read : Text) (body : Body) :
    (body.push read).closed = body.closed := rfl

def braceBody : Nat → Text → Body
  | _, [] => ⟨[], [], false⟩
  | depth, '\\' :: c :: rest => (braceBody depth rest).push ['\\', c]
  | 0, '}' :: rest => ⟨[], rest, true⟩
  | depth + 1, '}' :: rest => (braceBody depth rest).push ['}']
  | depth, '{' :: rest => (braceBody (depth + 1) rest).push ['{']
  | depth, c :: rest => (braceBody depth rest).push [c]

def doubleBody : Text → Body
  | [] => ⟨[], [], false⟩
  | '\\' :: c :: rest => (doubleBody rest).push ['\\', c]
  | '"' :: rest => ⟨[], rest, true⟩
  | c :: rest => (doubleBody rest).push [c]

/-- The text up to a character that ends a bare word and that no backslash
hides.  A backslash at the end of the line leaves the word open. -/
def bareBody (nested : Bool) : Text → Body
  | [] => ⟨[], [], true⟩
  | ['\\'] => ⟨['\\'], [], false⟩
  | '\\' :: c :: rest => (bareBody nested rest).push ['\\', c]
  | c :: rest =>
      if endsBare nested c then ⟨[], c :: rest, true⟩
      else (bareBody nested rest).push [c]

def Body.toWord (quote : Quote) (body : Body) : Lexeme × Text :=
  (.word quote body.text body.closed, body.rest)

def readWord (nested : Bool) (c : Char) (rest : Text) : Lexeme × Text :=
  if c = '{' then (braceBody 0 rest).toWord .brace
  else if c = '"' then (doubleBody rest).toWord .double
  else (bareBody nested (c :: rest)).toWord .bare

/-! ## Lexemes -/

def readLexeme (context : Context) (c : Char) (rest : Text) : Lexeme × Text :=
  if isBlank c then (.blank c, rest)
  else if c = '\\' ∧ rest.head? = some '\n' then (.continuation, rest.tail)
  else if isSeparator c then (.separator c, rest)
  else if c = ']' ∧ context.nested then (.closing, rest)
  else if c = '#' ∧ context.fresh then
    (.comment (c :: rest.takeWhile (· ≠ '\n')), rest.dropWhile (· ≠ '\n'))
  else if c = '[' ∧ context.brackets then (.opening, rest)
  else readWord context.nested c rest

/-! ## Nothing is lost -/

theorem braceBody_source (depth : Nat) (text : Text) :
    (braceBody depth text).text ++
      (bif (braceBody depth text).closed then ['}'] else []) ++
        (braceBody depth text).rest = text := by
  fun_induction braceBody depth text <;> simp_all

theorem doubleBody_source (text : Text) :
    (doubleBody text).text ++
      (bif (doubleBody text).closed then ['"'] else []) ++ (doubleBody text).rest = text := by
  fun_induction doubleBody text <;> simp_all

theorem bareBody_source (nested : Bool) (text : Text) :
    (bareBody nested text).text ++ (bareBody nested text).rest = text := by
  fun_induction bareBody nested text <;> simp_all

theorem bareBody_text_ne_nil {nested : Bool} {c : Char} (h : endsBare nested c = false)
    (rest : Text) : (bareBody nested (c :: rest)).text ≠ [] := by
  unfold bareBody
  split <;> simp_all

theorem source_readLexeme (context : Context) (c : Char) (rest : Text) :
    (readLexeme context c rest).1.source ++ (readLexeme context c rest).2 = c :: rest := by
  unfold readLexeme
  split
  · rfl
  split
  · rename_i h
    cases rest with
    | nil => simp at h
    | cons next rest => simp_all [Lexeme.source]
  split
  · rfl
  split
  · rename_i h; simp [Lexeme.source, h.1]
  split
  · simp [Lexeme.source]
  split
  · rename_i h; simp [Lexeme.source, h.1]
  unfold readWord
  split
  · have := braceBody_source 0 rest
    simp_all [Body.toWord, Lexeme.source, Quote.opening, Quote.closing]
  split
  · have := doubleBody_source rest
    simp_all [Body.toWord, Lexeme.source, Quote.opening, Quote.closing]
  · have := bareBody_source context.nested (c :: rest)
    simp_all [Body.toWord, Lexeme.source, Quote.opening, Quote.closing]

theorem source_readLexeme_ne_nil (context : Context) (c : Char) (rest : Text) :
    (readLexeme context c rest).1.source ≠ [] := by
  unfold readLexeme
  split
  · simp [Lexeme.source]
  split
  · simp [Lexeme.source]
  split
  · simp [Lexeme.source]
  split
  · simp [Lexeme.source]
  split
  · simp [Lexeme.source]
  split
  · simp [Lexeme.source]
  unfold readWord
  split
  · simp [Body.toWord, Lexeme.source, Quote.opening]
  split
  · simp [Body.toWord, Lexeme.source, Quote.opening]
  · rename_i hblank _ hseparator hclosing _ _ _ _
    have hends : endsBare context.nested c = false := by
      cases hnested : context.nested <;> simp_all [endsBare]
    have := bareBody_text_ne_nil hends rest
    simp [Body.toWord, Lexeme.source, Quote.opening, Quote.closing, this]

theorem length_readLexeme_lt (context : Context) (c : Char) (rest : Text) :
    (readLexeme context c rest).2.length < (c :: rest).length := by
  have hsource := congrArg List.length (source_readLexeme context c rest)
  have hne := List.length_pos_iff.2 (source_readLexeme_ne_nil context c rest)
  simp only [List.length_append] at hsource
  omega

end CommandFrame.Line
