import CommandFrame.Path.Basic

/-!
# Home directories in paths

A path that starts with `~` or `~user` means the home directory of that user.
`expandTilde?` writes the directory out, `collapseTilde?` puts the tilde back.
-/

namespace CommandFrame.Path

def expandTilde? (homes : Text → Option Text) (home : Option Text) : Text → Option Text
  | '~' :: rest =>
      let user := rest.takeWhile (· ≠ '/')
      let after := rest.dropWhile (· ≠ '/')
      let directory := if user = [] then home else homes user
      directory.map (· ++ after)
  | _ => none

def trimSlashes (path : Text) : Text := (path.reverse.dropWhile (· = '/')).reverse

def collapseTilde? (home : Option Text) (path : Text) : Option Text :=
  match home.map trimSlashes with
  | none | some [] => none
  | some home =>
      match Text.dropStart? home path with
      | some [] => some ['~']
      | some ('/' :: rest) => some ('~' :: '/' :: rest)
      | _ => none

end CommandFrame.Path
