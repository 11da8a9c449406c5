import CommandFrame.Proofs.Text.Peg
import CommandFrame.Proofs.WordList.RoundTrip

/-!
# The grammar of word lists

The grammar gives every text one outcome, and reading the elements of a text one
after the other comes to the same: no choice of the grammar is ever in doubt.
-/

namespace CommandFrame.WordList

open Peg (Parses Match)

namespace Grammar

inductive Rule
  | list
  | separator
  | element
  | braced
  | nested
  | quoted
  | bare
  | bareUnit
  deriving DecidableEq, Repr

abbrev Expression := Peg Rule Element

def inside : Expression := .many (.choice (.rule .nested) (.noneOf '{' ['}']))

def quotedInside : Expression := .many (.pairOr (.noneOf '"' []))

def separators : Expression := .many (.rule .separator)

def gap : Expression := .seq (.rule .separator) separators

def others : Expression := .many (.seq gap (.rule .element))

def rules : Rule → Expression
  | .list =>
      .seq separators
        (.seq (.choice (.seq (.rule .element) others) .empty) (.seq separators (.not .any)))
  | .separator => .oneOf ' ' ['\t', '\r', '\n', ';']
  | .element => .choice (.rule .braced) (.choice (.rule .quoted) (.rule .bare))
  | .braced => .seq (.char '{') (.seq (.keep .braced inside) (.char '}'))
  | .nested => .seq (.char '{') (.seq inside (.char '}'))
  | .quoted => .seq (.char '"') (.seq (.keep .quoted quotedInside) (.char '"'))
  | .bare =>
      .keep .bare
        (.seq (.not (.oneOf '{' ['"'])) (.seq (.rule .bareUnit) (.many (.rule .bareUnit))))
  | .bareUnit => .pairOr (.seq (.not (.rule .separator)) .any)

end Grammar

open Grammar

/-! ## Delimiters -/

@[simp] theorem consume_comp (first second : Text) :
    consume first ∘ consume second = consume (first ++ second) := by
  funext found
  simp [consume]

/-- What was taken up, and what follows the delimiter behind it, if there is one. -/
def upTo? (delimiter : Char) (found : Match Element) : Option (Text × Text) :=
  (Text.dropStart? [delimiter] found.rest).map fun rest => (found.read, rest)

def Element.source : Element → Text
  | .braced body => '{' :: body ++ ['}']
  | .quoted body => '"' :: body ++ ['"']
  | .bare body => body

end CommandFrame.WordList
