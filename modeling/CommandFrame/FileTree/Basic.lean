import CommandFrame.Text.Utf8

/-!
# File trees

A file tree gives the node at each location, a location being the names on the
way from the root.  It is a value: what changes files gives another tree.
-/

namespace CommandFrame

abbrev Location := List Text

namespace FileTree

inductive Node
  | directory
  | file (content : Bytes) (executable : Bool)
  /-- Reads as empty, but is no file. -/
  | device
  | link (target : Text)
  deriving DecidableEq, Repr

end FileTree

open FileTree (Node)

structure FileTree where
  nodes : List (Location × Node)
  deriving DecidableEq, Repr

inductive FileError
  | notFound
  | fileExists
  | notDirectory
  | isDirectory
  | tooManyLinks
  | nameTooLong
  | nulInName
  | notUtf8
  deriving DecidableEq, Repr

namespace FileError

def description : FileError → Text
  | notFound => "No such file or directory"
  | fileExists => "File exists"
  | notDirectory => "Not a directory"
  | isDirectory => "Is a directory"
  | tooManyLinks => "Too many levels of symbolic links"
  | nameTooLong => "File name too long"
  | nulInName => "file name contained an unexpected NUL byte"
  | notUtf8 => "stream did not contain valid UTF-8"

def number? : FileError → Option Nat
  | notFound => some 2
  | fileExists => some 17
  | notDirectory => some 20
  | isDirectory => some 21
  | tooManyLinks => some 40
  | nameTooLong => some 36
  | nulInName | notUtf8 => none

def message (error : FileError) : Text :=
  match error.number? with
  | some number => error.description ++ " (os error " ++ Text.ofNat number ++ ")"
  | none => error.description

end FileError

namespace FileTree

def Node.read : Node → Except FileError Bytes
  | file content _ => .ok content
  | device => .ok []
  | directory | link _ => .error .isDirectory

def isAt (location : Location) (entry : Location × Node) : Bool :=
  entry.1.getLast? = location.getLast? && entry.1 = location

@[simp] theorem isAt_eq_true {location : Location} {entry : Location × Node} :
    isAt location entry = true ↔ entry.1 = location := by
  simp only [isAt, Bool.and_eq_true, decide_eq_true_eq, and_iff_right_iff_imp]
  exact congrArg List.getLast?

def node? (tree : FileTree) (location : Location) : Option Node :=
  if location = [] then some .directory
  else (tree.nodes.find? (isAt location)).map (·.2)

def names (tree : FileTree) (directory : Location) : List Text :=
  let listed := tree.nodes.filterMap fun (location, _) =>
    if location.dropLast = directory then location.getLast? else none
  Text.sort listed.eraseDups

def put (tree : FileTree) (location : Location) (node : Node) : FileTree :=
  ⟨tree.nodes.filter (!isAt location ·) ++ [(location, node)]⟩

end FileTree

end CommandFrame
