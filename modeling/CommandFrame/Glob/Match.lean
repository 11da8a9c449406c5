import CommandFrame.Glob.Pattern

/-!
# What globs match

Only a slash matches a slash, except for a run of segments, and a dot at the
start of a segment is matched by a dot of the pattern only.
-/

namespace CommandFrame.Glob

/-- Whether a character is left to a piece that does not name it: no slash, and
no dot at the start of a segment. -/
def isOpen (segmentStart : Bool) (c : Char) : Bool := c ≠ '/' && !(segmentStart && c = '.')

def Piece.admits (segmentStart : Bool) (c : Char) : Piece → Bool
  | char d => c = d
  | anyChar => isOpen segmentStart c
  | oneOf set => isOpen segmentStart c && set.any (·.holds c)
  | noneOf set => isOpen segmentStart c && !set.any (·.holds c)
  | anyRun | anyPath => false

def afterRun (rest : Bool → Text → Bool) (segmentStart : Bool) : Text → Bool
  | [] => rest segmentStart []
  | c :: text =>
      rest segmentStart (c :: text) ||
        (isOpen segmentStart c && afterRun rest false text)

def afterSegments (rest : Bool → Text → Bool) (segmentStart : Bool) : Text → Bool
  | [] => rest segmentStart []
  | c :: text =>
      if segmentStart && c = '.' then false
      else if c = '/' then rest true text || afterSegments rest true text
      else afterSegments rest false text

/-- Whether the pieces match the whole text.  `segmentStart` says that a
segment begins here. -/
def matchFrom : List Piece → Bool → Text → Bool
  | [], _, text => text.isEmpty
  | .anyRun :: pieces, segmentStart, text => afterRun (matchFrom pieces) segmentStart text
  | .anyPath :: pieces, segmentStart, text =>
      matchFrom pieces segmentStart text || afterSegments (matchFrom pieces) segmentStart text
  | _ :: _, _, [] => false
  | piece :: pieces, segmentStart, c :: text =>
      piece.admits segmentStart c && matchFrom pieces (c = '/') text

end CommandFrame.Glob
