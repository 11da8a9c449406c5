import CommandFrame.Path.Basic

/-!
# Following paths

A walk takes the steps of a path from a directory.  It follows symbolic links,
at most forty of them, and every place that it steps from must be a directory.
A path that is not absolute starts at the location `here`, which is the root
unless another one is given.
-/

namespace CommandFrame.FileTree

def maxLinks : Nat := 40

def maxName : Nat := 255

def maxPath : Nat := 4095

/-- The location that steps lead to from the location `here`, with at most
`links` links on the way.  There may be nothing at the location itself. -/
def walk (tree : FileTree) (links : Nat) (here : Location) :
    List Text → Except FileError Location
  | [] => .ok here
  | step :: rest =>
      if tree.node? here ≠ some .directory then .error .notDirectory
      else if step = "." then walk tree links here rest
      else if step = ".." then walk tree links here.dropLast rest
      else if maxName < Text.byteLength step then .error .nameTooLong
      else
        match tree.node? (here ++ [step]), links with
        | none, _ => if rest = [] then .ok (here ++ [step]) else .error .notFound
        | some (.link _), 0 => .error .tooManyLinks
        | some (.link target), links + 1 =>
            walk tree links (if Path.isAbsolute target then [] else here)
              (Path.steps target ++ rest)
        | some _, links => walk tree links (here ++ [step]) rest
termination_by steps => (links, steps.length)

def follow (tree : FileTree) (path : Text) (here : Location := []) :
    Except FileError Location :=
  if path.contains '\x00' then .error .nulInName
  else if path = [] then .error .notFound
  else tree.walk maxLinks (if Path.isAbsolute path then [] else here) (Path.steps path)

def locate (tree : FileTree) (directory : Text) : Location :=
  (tree.follow directory).toOption.getD []

def resolve (tree : FileTree) (path : Text) (here : Location := []) :
    Except FileError Location :=
  if !path.contains '\x00' && maxPath < Text.byteLength path then .error .nameTooLong
  else tree.follow path here

def nodeAt (tree : FileTree) (location : Location) : Except FileError (Location × Node) :=
  match tree.node? location with
  | some node => .ok (location, node)
  | none => .error .notFound

def seek (tree : FileTree) (path : Text) : Except FileError (Location × Node) := do
  tree.nodeAt (← tree.follow path)

def find (tree : FileTree) (path : Text) (here : Location := []) :
    Except FileError (Location × Node) := do
  tree.nodeAt (← tree.resolve path here)

def isPresent (tree : FileTree) (path : Text) : Bool := (tree.find path).isOk

def isDirectory (tree : FileTree) (path : Text) : Bool :=
  match tree.find path with
  | .ok (_, .directory) => true
  | _ => false

def isFile (tree : FileTree) (path : Text) : Bool :=
  match tree.find path with
  | .ok (_, .file ..) => true
  | _ => false

def isExecutable (tree : FileTree) (path : Text) : Bool :=
  match tree.find path with
  | .ok (_, .directory) => true
  | .ok (_, .file _ executable) => executable
  | _ => false

def list (tree : FileTree) (path : Text) : Except FileError (List Text) := do
  match ← tree.find path with
  | (location, .directory) => return tree.names location
  | _ => throw .notDirectory

def readText (tree : FileTree) (path : Text) : Except FileError Text := do
  let (_, node) ← tree.find path
  match Utf8.decode? (← node.read) with
  | some text => return text
  | none => throw .notUtf8

end CommandFrame.FileTree
