import CommandFrame.FileTree.Walk
import CommandFrame.Glob.Row

/-!
# Matching names in a directory

A pattern is matched against the names in one directory.  Names that an ignore
rule matches are left out, and a dot at the start of a name must be written.
A pattern that names an entry literally gives that name, hidden or not.
-/

namespace CommandFrame

structure DirectoryMatcher where
  ignored : List (List Glob.Piece) := []
  onlyExecutable : Bool := false

namespace DirectoryMatcher

def ofRules (rules : List Text) : DirectoryMatcher := { ignored := rules.map Glob.compile }

def isIgnored (matcher : DirectoryMatcher) (name : Text) : Bool :=
  matcher.ignored.any (Glob.matchPieces · name)

def admits (matcher : DirectoryMatcher) (tree : FileTree) (directory name : Text) : Bool :=
  !matcher.isIgnored name &&
    (!matcher.onlyExecutable || tree.isExecutable (Path.join directory name))

def namesIn (matcher : DirectoryMatcher) (tree : FileTree) (directory pattern : Text) :
    List Text :=
  if pattern = [] then []
  else if pattern = "." ∨ pattern = ".." then [pattern]
  else if !pattern.contains '/' && tree.isPresent (Path.join directory pattern) then [pattern]
  else
    match tree.list directory with
    | .error _ => []
    | .ok names =>
        let pieces := Glob.compile pattern
        names.filter fun name =>
          matcher.admits tree directory name && Glob.matchPieces pieces name

end DirectoryMatcher

end CommandFrame
