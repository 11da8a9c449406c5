import CommandFrame.Text.Blank
import CommandFrame.WordList.Split

/-!
# Merging items into a word list

An item is written as it is if nothing in it could be misread, in braces if
its own braces match, and otherwise with a backslash before every character
that has a meaning.
-/

namespace CommandFrame.WordList

def isSpecial (c : Char) : Bool :=
  Text.isBlankChar c || c = ';' || c = '{' || c = '}' || c = '"' || c = '\\'

def isPlain (item : Text) : Bool := !item.isEmpty && !item.any isSpecial

/-- Whether the closing braces match the opening ones, `depth` of which stand
before the text. -/
def isBalanced : Nat → Text → Bool
  | depth, [] => depth = 0
  | depth, '{' :: rest => isBalanced (depth + 1) rest
  | 0, '}' :: _ => false
  | depth + 1, '}' :: rest => isBalanced depth rest
  | depth, _ :: rest => isBalanced depth rest

def escapeChar (c : Char) : Text :=
  if c = '\n' then "\\n"
  else if c = '\t' then "\\t"
  else if isSpecial c then ['\\', c]
  else [c]

def escape (item : Text) : Text := item.flatMap escapeChar

def writeItem (item : Text) : Text :=
  if isPlain item then item
  else if isBalanced 0 item && !Text.endsWith "\\" item then '{' :: item ++ ['}']
  else escape item

def merge (items : List Text) : Text := Text.join " " (items.map writeItem)

end CommandFrame.WordList
