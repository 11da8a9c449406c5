import CommandFrame.Frame

/-!
# Runs of a frame

A run is a sequence of commands, each with its output, that takes one frame to
another.  A line runs its commands up to the first that fails.
-/

namespace CommandFrame

/-- A command that was run, and its output. -/
structure Performed where
  words : List Text
  output : Output
  deriving DecidableEq, Repr

namespace Frame

inductive Runs : Frame → List Performed → Frame → Prop
  | nil (frame : Frame) : Runs frame [] frame
  | cons {frame middle after : Frame} {words : List Text} {output : Output}
      {performed : List Performed} (hfirst : frame.runCommand words = (output, middle))
      (hrest : Runs middle performed after) : Runs frame (⟨words, output⟩ :: performed) after

theorem Runs.append {frame middle after : Frame} {first second : List Performed}
    (hfirst : Runs frame first middle) (hsecond : Runs middle second after) :
    Runs frame (first ++ second) after := by
  induction hfirst with
  | nil => exact hsecond
  | cons hcommand _ ih => exact .cons hcommand (ih hsecond)

/-- The outputs are those of the first commands: of all of them, unless the last
output is an error, and no other is. -/
structure StopsAtError (commands : List (List Text)) (outputs : List Output) : Prop where
  length_le : outputs.length ≤ commands.length
  ok : ∀ output ∈ outputs.dropLast, output.isError = false
  stop : outputs.length < commands.length →
    ∃ output, outputs.getLast? = some output ∧ output.isError = true

theorem stopsAtError_nil : StopsAtError [] [] where
  length_le := Nat.le_refl 0
  ok := by simp
  stop h := absurd h (Nat.lt_irrefl 0)

theorem StopsAtError.error {output : Output} (h : output.isError = true) (words : List Text)
    (commands : List (List Text)) : StopsAtError (words :: commands) [output] where
  length_le := by simp
  ok := by simp
  stop _ := ⟨output, rfl, h⟩

theorem StopsAtError.cons {commands : List (List Text)} {outputs : List Output}
    (h : StopsAtError commands outputs) {output : Output} (hok : output.isError = false)
    (words : List Text) : StopsAtError (words :: commands) (output :: outputs) where
  length_le := Nat.succ_le_succ h.length_le
  ok := by
    cases outputs with
    | nil => simp
    | cons next outputs => exact List.forall_mem_cons.2 ⟨hok, h.ok⟩
  stop hlt := by
    obtain ⟨last, hlast, herror⟩ := h.stop (Nat.lt_of_succ_lt_succ hlt)
    refine ⟨last, ?_, herror⟩
    rw [List.getLast?_cons, hlast]
    rfl

theorem runs_of_runCommands {frame after : Frame} {commands : List (List Text)}
    {outputs : List Output} (h : frame.runCommands commands = (outputs, after)) :
    Runs frame (commands.zipWith Performed.mk outputs) after ∧ StopsAtError commands outputs := by
  induction commands generalizing frame outputs with
  | nil =>
      cases h
      exact ⟨.nil _, stopsAtError_nil⟩
  | cons words commands ih =>
      simp only [runCommands] at h
      split at h
      · rename_i herror
        cases h
        rw [List.zipWith_cons_cons, List.zipWith_nil_right]
        exact ⟨.cons rfl (.nil _), .error herror words commands⟩
      · rename_i hok
        cases h
        obtain ⟨hruns, hstops⟩ := ih rfl
        exact ⟨.cons rfl hruns, hstops.cons (by simpa using hok) words⟩

def processLines (frame : Frame) : List Text → List Output × Frame
  | [] => ([], frame)
  | line :: rest =>
      let (outputs, frame) := frame.processLine line
      let (others, frame) := frame.processLines rest
      (outputs ++ others, frame)

theorem processLines_append (frame : Frame) (first second : List Text) :
    frame.processLines (first ++ second) =
      ((frame.processLines first).1 ++ ((frame.processLines first).2.processLines second).1,
        ((frame.processLines first).2.processLines second).2) := by
  induction first generalizing frame with
  | nil => rfl
  | cons line first ih => simp only [List.cons_append, processLines, ih, List.append_assoc]

def transcript (frame : Frame) : List Text → List Performed
  | [] => []
  | line :: rest =>
      let (outputs, frame) := frame.processLine line
      (Line.splitCommands line).zipWith Performed.mk outputs ++ frame.transcript rest

/-- A line that is not blank and does not run a program. -/
def IsPlain (line : Text) : Prop := Text.trim line ≠ [] ∧ (Text.trim line).head? ≠ some '!'

instance (line : Text) : Decidable (IsPlain line) := inferInstanceAs (Decidable (_ ∧ _))

theorem processLine_of_isPlain {line : Text} (h : IsPlain line) (frame : Frame) :
    frame.processLine line = (frame.record line).runCommands (Line.splitCommands line) := by
  unfold processLine
  split
  · rename_i htrim
    exact absurd htrim h.1
  · rename_i htrim
    exact absurd (congrArg List.head? htrim) h.2
  · rfl

end Frame

end CommandFrame
