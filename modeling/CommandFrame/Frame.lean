import CommandFrame.Command
import CommandFrame.Completion.Interactive
import CommandFrame.Output
import CommandFrame.Program

/-!
# Frames

A frame runs lines.  A line that starts with `!` runs a program; any other
line is split into commands, which run in order until one of them fails.
-/

namespace CommandFrame

inductive RunError
  | unknownCommand (name : Text)
  | badWords (command : Text) (cause : ParseError)
  | failed (command : Text) (cause : CommandError)
  | missingProgram
  | program (cause : ProgramError)
  deriving DecidableEq, Repr

def RunError.message : RunError → Text
  | .unknownCommand name => "unknown command `" ++ name ++ "'"
  | .badWords command cause => command ++ ": " ++ cause.message
  | .failed command cause => command ++ ": " ++ cause.message
  | .missingProgram => "!: missing command"
  | .program cause => cause.message

def Output.ofError (error : RunError) : Output := ⟨.error, error.message⟩

structure Frame where
  host : Host
  registry : Registry
  session : Session

namespace Frame

def surroundings (frame : Frame) : Surroundings := ⟨frame.registry.catalog, frame.host⟩

def perform (frame : Frame) (name : Text) (words : List Text) : Except RunError (Output × Frame) :=
  match frame.registry.get? name with
  | none => .error (.unknownCommand name)
  | some command =>
      match command.schema.parse frame.session.config.debug words with
      | .error cause => .error (.badWords name cause)
      | .ok (.help usage) => .ok (⟨.help, usage⟩, frame)
      | .ok (.bound bindings) =>
          match command.run frame.surroundings frame.session bindings with
          | .error cause => .error (.failed name cause)
          | .ok (session, text) => .ok (.ofResult text, { frame with session })

def runCommand (frame : Frame) : List Text → Output × Frame
  | [] => (⟨.text, []⟩, frame)
  | name :: words =>
      match frame.perform name words with
      | .error error => (.ofError error, frame)
      | .ok done => done

def runCommands (frame : Frame) : List (List Text) → List Output × Frame
  | [] => ([], frame)
  | words :: rest =>
      let (output, frame) := frame.runCommand words
      if output.isError then ([output], frame)
      else
        let (outputs, frame) := frame.runCommands rest
        (output :: outputs, frame)

def runProgram (frame : Frame) (text : Text) : Output × Frame :=
  match Line.splitCommands text with
  | (program :: arguments) :: _ =>
      match frame.host.run program arguments frame.session.cwd with
      | (.ok text, host) => (.ofResult text, { frame with host })
      | (.error cause, host) => (.ofError (.program cause), { frame with host })
  | _ => (.ofError .missingProgram, frame)

def record (frame : Frame) (line : Text) : Frame :=
  { frame with session := { frame.session with history := frame.session.history.append line } }

def processLine (frame : Frame) (line : Text) : List Output × Frame :=
  match Text.trim line with
  | [] => ([], frame)
  | '!' :: text =>
      let (output, frame) := (frame.record line).runProgram text
      ([output], frame)
  | _ => (frame.record line).runCommands (Line.splitCommands line)

def isVerbatim (line : Text) : Bool :=
  let line := Text.trimStart line
  Text.startsWith "!" line || line = "cd" || Text.startsWith "cd " line

/-- Whether a line can be run.  A program and `cd` go on after a backslash at
the end only. -/
def isComplete (line : Text) : Bool :=
  if isVerbatim line then
    !Text.endsWith "\\" (line.reverse.dropWhile (· = '\n')).reverse
  else Line.isComplete line

def complete (frame : Frame) (line : Text) (cursor : Nat) : Completion :=
  frame.registry.catalog.complete frame.host frame.session line cursor

end Frame

end CommandFrame
