import CommandFrame.Host
import CommandFrame.Path.Directory
import CommandFrame.Path.Tilde
import CommandFrame.Text.Candidates

/-!
# Completing paths

A path pattern is matched segment by segment, each segment against the
directories that the segments before it have matched.  Paths below the home
directory are offered with a tilde.
-/

namespace CommandFrame

structure PathCompleter where
  host : Host
  matcher : DirectoryMatcher
  base : Text
  home : Option Text

namespace PathCompleter

def expandTilde? (completer : PathCompleter) (path : Text) : Option Text :=
  Path.expandTilde? completer.host.home? completer.home path

def collapseTilde? (completer : PathCompleter) (path : Text) : Option Text :=
  Path.collapseTilde? completer.home path

def expanded (completer : PathCompleter) (path : Text) : Text :=
  (completer.expandTilde? path).getD path

def extend (found name : Text) : Text :=
  if found = [] ∨ found.getLast? = some '/' then found ++ name else found ++ '/' :: name

def directory? (completer : PathCompleter) (found : Text) : Option Text :=
  if found = [] then some completer.base
  else
    let path := Path.join completer.base found
    if completer.host.tree.isDirectory path then some path else none

def step (completer : PathCompleter) (segment found : Text) : List Text :=
  match completer.directory? found with
  | none => []
  | some directory =>
      (completer.matcher.namesIn completer.host.tree directory segment).map (extend found)

def walk (completer : PathCompleter) (segments : List Text) (found : List Text) : List Text :=
  segments.foldl (fun found segment => found.flatMap (completer.step segment)) found

/-- The paths that match a pattern, before tildes are put back; `none` if the
pattern has no segment. -/
def matchSegments? (completer : PathCompleter) (pattern : Text) : Option (List Text) :=
  let expanded := completer.expanded pattern
  match Path.segments expanded with
  | [] => none
  | segments =>
      let start : Text := if Path.isAbsolute expanded then ['/'] else []
      some (completer.walk segments [start])

def matchPattern? (completer : PathCompleter) (pattern : Text) : Option (List Text) :=
  (completer.matchSegments? pattern).map fun found =>
    found.map fun path => (completer.collapseTilde? path).getD path

def expand (completer : PathCompleter) (pattern : Text) : List Text :=
  (completer.matchPattern? pattern).getD []

def matchStart? (completer : PathCompleter) (typed : Text) : Option (List Text) :=
  completer.matchPattern? (typed ++ ['*'])

def mostMatch (text : Text) : Option (List Text) → Text
  | some (path :: paths) => Text.commonStart (path :: paths)
  | _ => text

def mostMatchPattern (completer : PathCompleter) (pattern : Text) : Text :=
  mostMatch pattern (completer.matchPattern? pattern)

def mostMatchStart (completer : PathCompleter) (typed : Text) : Text :=
  mostMatch typed (completer.matchStart? typed)

end PathCompleter

end CommandFrame
