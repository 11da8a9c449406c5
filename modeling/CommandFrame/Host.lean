import CommandFrame.FileTree.Walk

/-!
# The machine that a session runs on

A session sees its machine as a value: the file tree, the home directories of
its users, and what becomes of programs that are started.  The programs are a
parameter.  They may leave any files behind, and need not do the same thing
each time.
-/

namespace CommandFrame

structure Launch where
  program : Text
  arguments : List Text
  cwd : Text
  deriving DecidableEq, Repr

structure Finished where
  /-- The exit code; `none` for a program that a signal has ended. -/
  code : Option Nat
  stdout : Bytes
  stderr : Bytes
  deriving DecidableEq, Repr

/-- What becomes of a program in a file tree, if so many were started before it: the system's words
for why it cannot be started, or its end, and the file tree after it. -/
abbrev Programs := Nat → Launch → FileTree → Except Text Finished × FileTree

def Programs.none : Programs := fun _ _ tree => (.error FileError.notFound.message, tree)

structure Host where
  tree : FileTree
  homes : List (Text × Text)
  programs : Programs := .none
  started : Nat := 0

namespace Host

def home? (host : Host) (user : Text) : Option Text :=
  (host.homes.find? (·.1 = user)).map (·.2)

def launch (host : Host) (launch : Launch) : Except Text Finished × Host :=
  let (result, tree) := host.programs host.started launch host.tree
  (result, { host with tree, started := host.started + 1 })

end Host

end CommandFrame
