import CommandFrame.Builtin.All
import CommandFrame.FileTree.Change
import CommandFrame.Repl.Run

/-!
# The program

The program completes one line, runs a script, or runs the lines of its
standard input with a prompt.  A failed command makes a script fail, but not
the standard input.
-/

namespace CommandFrame

structure Options where
  debug : Bool := false
  logLevel : Option Text := none
  ignore : List Text := []
  complete : Option Text := none
  script : Option Text := none
  deriving DecidableEq, Repr

structure Environment where
  host : Host
  settings : List (Text × Text)
  cwd : Text
  user : Text
  /-- What reading an opened file gives, up to its end.  This is what it holds unless it is changed
  while it is read. -/
  reading : FileTree.Node → Except FileError Bytes := FileTree.Node.read

namespace Environment

def lookup (environment : Environment) (name : Text) : Option Text :=
  (environment.settings.find? (·.1 = name)).map (·.2)

def home? (environment : Environment) : Option Text :=
  (environment.lookup "HOME").filter (· ≠ []) <|> environment.host.home? environment.user

end Environment

structure ProgramResult where
  stdout : Text := []
  stderr : Text := []
  code : Nat := 0
  deriving DecidableEq, Repr

namespace CommandLine

def config (environment : Environment) (options : Options) : Config :=
  let config := Config.ofVariables environment.lookup
  { config with
    debug := config.debug || options.debug
    ignorePatterns := config.ignorePatterns ++ options.ignore
    logLevel := (options.logLevel.bind LogLevel.parse?) <|> config.logLevel }

def notices (options : Options) : Text :=
  match options.logLevel with
  | some level =>
      if (LogLevel.parse? level).isSome then []
      else Repl.notice ("invalid log level: `" ++ level ++ "'")
  | none => []

inductive LogFault
  | noHome
  | file (error : FileError)
  deriving DecidableEq, Repr

def LogFault.message : LogFault → Text
  | .noHome => "where's your home dir?"
  | .file error => error.message

def makeLog (home : Text) : FileTree.Change Unit := do
  let directory := Path.join home ".dframe"
  FileTree.Change.makeDirectories directory
  let logs := Path.join directory "log"
  FileTree.Change.makeDirectories logs
  FileTree.Change.openFile (Path.join logs "dframe.log")

def prepare (environment : Environment) : FileTree × Option LogFault :=
  let tree := environment.host.tree
  match environment.home? with
  | none => (tree, some .noHome)
  | some home =>
      let (tree, error) := (makeLog (Path.join environment.cwd home)).apply tree
      (tree, error.map .file)

def start (environment : Environment) (options : Options) : Text × Except CapacityError Frame :=
  let (tree, fault) := prepare environment
  let complaint : Text :=
    match fault with
    | none => []
    | some fault => Repl.notice ("failed to initialize the logger: " ++ fault.message)
  let session := Session.new (config environment options) environment.cwd environment.home?
  (notices options ++ complaint,
    session.map (⟨{ environment.host with tree }, Registry.builtins, ·⟩))

def aborted : Nat := 101

def showCompletion (line : Text) : Completion → Text
  | .replaced completed _ => completed ++ "\n"
  | .candidates candidates => candidates.flatMap (· ++ "\n")
  | .unchanged => line ++ "\n"

def runScript (reading : FileTree.Node → Except FileError Bytes) (frame : Frame) (path : Text) :
    ProgramResult :=
  let tree := frame.host.tree
  match tree.find path (tree.locate frame.session.cwd) with
  | .error error => { stderr := Repl.notice (path ++ ": " ++ error.message), code := 1 }
  | .ok (_, node) =>
      match reading node with
      | .error error => { stderr := Repl.notice error.message, code := 1 }
      | .ok content =>
          match Repl.runLines none { frame } (Repl.readLines content) with
          | (repl, none) => ⟨repl.stdout, repl.stderr, if repl.ok then 0 else 1⟩
          | (repl, some error) => ⟨repl.stdout, repl.stderr ++ Repl.notice error.message, 1⟩

def runInput (frame : Frame) (input : Bytes) : ProgramResult :=
  match Repl.runLines (some frame.session.config.prompt) { frame } (Repl.readLines input) with
  | (repl, none) => ⟨repl.stdout ++ "\n", repl.stderr, 0⟩
  | (repl, some error) => ⟨repl.stdout ++ "\n", repl.stderr ++ Repl.notice error.message, 1⟩

def run (environment : Environment) (options : Options) (input : Bytes) : ProgramResult :=
  let (notice, frame) := start environment options
  let result : ProgramResult :=
    match frame, options.complete, options.script with
    | .error _, _, _ => { code := aborted }
    | .ok frame, some line, _ =>
        let completion := frame.complete line (Text.byteLength line)
        { stdout := showCompletion line completion }
    | .ok frame, none, some path => runScript environment.reading frame path
    | .ok frame, none, none => runInput frame input
  { result with stderr := notice ++ result.stderr }

end CommandLine

end CommandFrame
