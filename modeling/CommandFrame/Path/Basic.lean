import CommandFrame.FileTree.Basic

/-!
# Paths

A path is a text whose segments are separated by slashes.  Empty segments mean
nothing, but a slash at the end asks for a directory.
-/

namespace CommandFrame.Path

def isAbsolute (path : Text) : Bool := path.head? = some '/'

def segments (path : Text) : List Text := (Text.splitOn (· = '/') path).filter (· ≠ [])

/-- The steps that a path asks for: its segments, and a `.` for a slash at the
end. -/
def steps (path : Text) : List Text :=
  segments path ++ if path.getLast? = some '/' then [['.']] else []

def join (directory path : Text) : Text :=
  if isAbsolute path then path
  else if directory = [] ∨ directory.getLast? = some '/' then directory ++ path
  else directory ++ '/' :: path

def ofLocation (location : Location) : Text := '/' :: Text.join "/" location

end CommandFrame.Path
