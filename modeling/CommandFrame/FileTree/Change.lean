import CommandFrame.FileTree.Walk

/-!
# Changing file trees

New nodes are put in directories that are there.  What was done before a
failure stays done.
-/

namespace CommandFrame.FileTree

abbrev Change := ExceptT FileError (StateM FileTree)

namespace Change

def apply (change : Change Unit) (tree : FileTree) : FileTree × Option FileError :=
  match change.run.run tree with
  | (.ok (), tree) => (tree, none)
  | (.error error, tree) => (tree, some error)

def check (path : Text) : Change Unit := do
  if path.contains '\x00' then throw .nulInName
  if maxPath < Text.byteLength path then throw .nameTooLong

def create (steps : List Text) (node : Node) : Change Unit := do
  let tree ← get
  match steps.getLast? with
  | none => throw .fileExists
  | some name =>
      let directory ← ofExcept (tree.walk maxLinks [] (steps.dropLast ++ [['.']]))
      if name = "." ∨ name = ".." then throw .fileExists
      if maxName < Text.byteLength name then throw .nameTooLong
      if (tree.node? (directory ++ [name])).isSome then throw .fileExists
      set (tree.put (directory ++ [name]) node)

def ensureDirectory (steps : List Text) : Change Unit := do
  let tree ← get
  let there := (tree.walk maxLinks [] steps).toOption.bind tree.node?
  if there ≠ some .directory then create steps .directory

/-- Makes the directory that steps lead to, the last step first, after those on
the way that are missing. -/
def ensureDirectories : List Text → Change Unit
  | [] => pure ()
  | step :: above =>
      tryCatch (ensureDirectory (step :: above).reverse) fun error => do
        if error ≠ .notFound then throw error
        ensureDirectories above
        ensureDirectory (step :: above).reverse

def makeDirectories (path : Text) : Change Unit := do
  check path
  ensureDirectories (Path.segments path).reverse

def openFile (path : Text) : Change Unit := do
  let tree ← get
  let location ← ofExcept (tree.resolve path)
  match tree.node? location with
  | some .directory => throw .isDirectory
  | some (.file ..) | some .device => pure ()
  | some (.link _) | none => set (tree.put location (.file [] false))

end Change

end CommandFrame.FileTree
