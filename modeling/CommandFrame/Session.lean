import CommandFrame.Config
import CommandFrame.History
import CommandFrame.Path.Completer

/-!
# Sessions

What commands act on: the configuration, the working directory, the lines
entered so far and the named data.
-/

namespace CommandFrame

structure Session where
  config : Config
  cwd : Text
  history : History
  data : NameMap Text
  home : Option Text

namespace Session

def new (config : Config) (cwd : Text) (home : Option Text) : Except CapacityError Session := do
  let history ← History.reserve config.historySize
  return { config, cwd, history, data := .empty, home }

def pathCompleter (session : Session) (host : Host) : PathCompleter :=
  { host
    matcher := .ofRules session.config.ignorePatterns
    base := session.cwd
    home := session.home }

def filePath (session : Session) (host : Host) (file : Text) : Text :=
  Path.join session.cwd ((session.pathCompleter host).expanded file)

end Session

end CommandFrame
