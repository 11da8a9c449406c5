import CommandFrame.Text.Blank

/-!
# History of entered lines

The last lines that were entered, at most `capacity` of them.  A line keeps
the number it was given when it was entered.
-/

namespace CommandFrame

structure History where
  capacity : Nat
  /-- The number of the oldest line that is kept; the first line has number 1. -/
  first : Nat
  lines : List Text
  deriving DecidableEq, Repr

inductive CapacityError
  | overflow
  deriving DecidableEq, Repr

def CapacityError.message : CapacityError → Text
  | .overflow => "capacity overflow"

namespace History

def new (capacity : Nat) : History := ⟨capacity, 1, []⟩

def lineSize : Nat := 24

def maxSize : Nat := Nat.pow 2 63 - 1

/-- An empty history with room for `capacity` lines set aside, if there can be
so much room. -/
def reserve (capacity : Nat) : Except CapacityError History :=
  if maxSize < lineSize * capacity then .error .overflow else .ok (new capacity)

def length (history : History) : Nat := history.lines.length

def nthLast? (history : History) (back : Nat) : Option Text := history.lines.reverse[back]?

/-- Adds a line, without the blanks at its end, unless it is blank or repeats
the newest one. -/
def append (history : History) (line : Text) : History :=
  let line := Text.trimEnd line
  if Text.isBlank line || history.capacity = 0 || history.nthLast? 0 = some line then history
  else if history.length = history.capacity then
    { history with first := history.first + 1, lines := history.lines.tail ++ [line] }
  else { history with lines := history.lines ++ [line] }

def numbered (history : History) : List (Nat × Text) :=
  history.lines.zipIdx.map fun (line, place) => (history.first + place, line)

end History

end CommandFrame
