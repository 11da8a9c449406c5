import CommandFrame.Host

/-!
# Running a program from a line

What a program prints is read as UTF-8, with a replacement character for each
fault.  A failure carries all that the program printed.
-/

namespace CommandFrame

inductive ProgramError
  | spawn (program cause : Text)
  | failed (program : Text) (code : Option Nat) (output : Text)
  deriving DecidableEq, Repr

def ProgramError.message : ProgramError → Text
  | .spawn program cause => program ++ ": " ++ cause
  | .failed program code output =>
      let status : Text := (code.map Text.ofNat).getD "signal"
      program ++ ": exited with " ++ status ++ "\n" ++ output

namespace Finished

/-- All that a failed program printed, its errors on a line of their own. -/
def printed (finished : Finished) : Text :=
  let stdout := Utf8.decodeLossy finished.stdout
  let stderr := Utf8.decodeLossy finished.stderr
  if stderr = [] then stdout
  else if stdout = [] ∨ Text.endsWith "\n" stdout then stdout ++ stderr
  else stdout ++ "\n" ++ stderr

def result (finished : Finished) (program : Text) : Except ProgramError Text :=
  if finished.code = some 0 then .ok (Utf8.decodeLossy finished.stdout)
  else .error (.failed program finished.code finished.printed)

end Finished

def Host.run (host : Host) (program : Text) (arguments : List Text) (cwd : Text) :
    Except ProgramError Text × Host :=
  match host.launch ⟨program, arguments, cwd⟩ with
  | (.error cause, host) => (.error (.spawn program cause), host)
  | (.ok finished, host) => (finished.result program, host)

end CommandFrame
