import CommandFrame.Builtin.Cd
import CommandFrame.Builtin.Complete
import CommandFrame.Builtin.Data
import CommandFrame.Builtin.Echo
import CommandFrame.Builtin.Help
import CommandFrame.Builtin.History
import CommandFrame.Builtin.View

/-!
# The commands that every frame has
-/

namespace CommandFrame

namespace Builtin

def all : List Command :=
  [cd, complete, setData, getData, echo, help, history] ++ ViewKind.all.map view

end Builtin

def Registry.builtins : Registry := .ofCommands Builtin.all

end CommandFrame
