import CommandFrame.Text.Basic

/-!
# Candidates of a completion

The candidates that start with what was typed, and the longest start they
share.  A list of candidates is exact when it names a single text.
-/

namespace CommandFrame.Text

def candidatesFor (typed : Text) (candidates : List Text) : List Text :=
  (candidates.filter (startsWith typed)).eraseDups

def sharedStart : Text → Text → Text
  | a :: first, b :: second => if a = b then a :: sharedStart first second else []
  | _, _ => []

def commonStart : List Text → Text
  | [] => []
  | text :: rest => rest.foldl sharedStart text

def isExact (texts : List Text) : Bool :=
  let shared := commonStart texts
  !texts.isEmpty && texts.all (· = shared)

end CommandFrame.Text
