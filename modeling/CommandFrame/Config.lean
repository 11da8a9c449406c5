import CommandFrame.Arguments.Value
import CommandFrame.Text.Blank

/-!
# Configuration

Defaults, overridden by variables of the environment.
-/

namespace CommandFrame

inductive LogLevel
  | off
  | error
  | warn
  | info
  | debug
  | trace
  deriving DecidableEq, Repr

def LogLevel.parse? (name : Text) : Option LogLevel :=
  let name := (Text.trim name).map Char.toLower
  if name = "off" then some .off
  else if name = "error" then some .error
  else if name = "warn" then some .warn
  else if name = "info" then some .info
  else if name = "debug" then some .debug
  else if name = "trace" then some .trace
  else none

structure Config where
  prompt : Text := "> "
  historySize : Nat := 100
  ignorePatterns : List Text := []
  pathExactSpace : Bool := false
  debug : Bool := false
  logLevel : Option LogLevel := none
  deriving DecidableEq, Repr

namespace Config

/-- The configuration that the variables of an environment describe.  A size
that is no number is passed over. -/
def ofVariables (lookup : Text → Option Text) : Config :=
  let defaults : Config := {}
  { prompt := (lookup "DFRAME_PROMPT").getD defaults.prompt
    historySize :=
      ((lookup "DFRAME_HISTSIZE").bind fun size => Decimal.unsigned? (Text.trim size)).getD
        defaults.historySize
    ignorePatterns :=
      match lookup "DFRAME_IGNORE" with
      | some rules => (Text.splitOn (· = ':') rules).filter (· ≠ [])
      | none => defaults.ignorePatterns
    pathExactSpace := ((lookup "DFRAME_PATH_SPACE").bind readBool?).getD false
    debug := defaults.debug
    logLevel := (lookup "DFRAME_LOG").bind LogLevel.parse? }

end Config

end CommandFrame
