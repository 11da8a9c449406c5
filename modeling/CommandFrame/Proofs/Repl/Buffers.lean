import CommandFrame.CommandLine.Run
import CommandFrame.Proofs.Frame.Run

/-!
# What the loop makes of its lines

The lines fall into portions: blank lines that are skipped, and lines that are
joined until they can be run.  Running the loop is processing the joined lines
in order, and its outcome depends on their outputs alone.
-/

namespace CommandFrame

namespace Repl

/-! ## Portions -/

inductive Portion
  | skipped (line : Text)
  | buffer (lines : List Text)
  deriving DecidableEq, Repr

namespace Portion

def lines : Portion → List Text
  | skipped line => [line]
  | buffer lines => lines

def buffer? : Portion → Option Text
  | skipped _ => none
  | buffer lines => some (Text.join "\n" lines)

/-- A skipped line is blank.  A buffer begins with a line that is not, and its first
lines are no complete command before the last one is there. -/
def Valid : Portion → Prop
  | skipped line => Text.isBlank line = true
  | buffer lines =>
      (∃ first rest, lines = first :: rest ∧ Text.isBlank first = false) ∧
        ∀ start, start <+: lines → start ≠ [] → start ≠ lines →
          Frame.isComplete (Text.join "\n" start) = false

def IsComplete : Portion → Prop
  | skipped _ => True
  | buffer lines => Frame.isComplete (Text.join "\n" lines) = true

end Portion

/-! ## Feeding lines -/

structure Waits (taken : List Text) : Prop where
  first : ∀ first rest, taken = first :: rest → Text.isBlank first = false
  incomplete : ∀ start, start <+: taken → start ≠ [] →
    Frame.isComplete (Text.join "\n" start) = false

theorem waits_nil : Waits [] where
  first _ _ h := absurd h.symm (List.cons_ne_nil _ _)
  incomplete _ hstart hne := absurd (List.prefix_nil.1 hstart) hne

variable {taken : List Text} {line : Text}

theorem Waits.join_eq_nil_iff (h : Waits taken) : Text.join "\n" taken = [] ↔ taken = [] := by
  constructor
  · intro hjoin
    cases taken with
    | nil => rfl
    | cons first rest =>
        have hfirst := h.first first rest rfl
        cases rest with
        | nil =>
            obtain rfl : first = [] := hjoin
            contradiction
        | cons second rest => simp [Text.join] at hjoin
  · rintro rfl
    rfl

theorem Waits.joined (h : Waits taken) (line : Text) :
    (if Text.join "\n" taken = [] then line else Text.join "\n" taken ++ '\n' :: line) =
      Text.join "\n" (taken ++ [line]) := by
  by_cases htaken : taken = []
  · subst htaken
    rfl
  · rw [if_neg (mt h.join_eq_nil_iff.1 htaken), Text.join_concat _ htaken]
    simp

inductive Feeding (taken : List Text) (line : Text) : Fed → Prop
  | skipped (htaken : taken = []) (hblank : Text.isBlank line = true) :
      Feeding taken line .skipped
  | pending (hwaits : Waits (taken ++ [line])) :
      Feeding taken line (.pending (Text.join "\n" (taken ++ [line])))
  | ready (hvalid : (Portion.buffer (taken ++ [line])).Valid)
      (hcomplete : (Portion.buffer (taken ++ [line])).IsComplete) :
      Feeding taken line (.ready (Text.join "\n" (taken ++ [line])))

theorem Waits.feeding (h : Waits taken) (line : Text) :
    Feeding taken line (feed (Text.join "\n" taken) line) := by
  unfold feed
  split
  · rename_i hskip
    rw [Bool.and_eq_true, decide_eq_true_eq, h.join_eq_nil_iff] at hskip
    exact .skipped hskip.1 hskip.2
  · rename_i hskip
    have hfirst : ∃ first rest, taken ++ [line] = first :: rest ∧ Text.isBlank first = false := by
      cases taken with
      | nil => exact ⟨line, [], rfl, by simpa [Text.join] using hskip⟩
      | cons first rest => exact ⟨first, rest ++ [line], rfl, h.first first rest rfl⟩
    have hstart : ∀ start, start <+: taken ++ [line] → start ≠ [] → start ≠ taken ++ [line] →
        Frame.isComplete (Text.join "\n" start) = false := by
      intro start hprefix hne hlast
      rcases List.prefix_concat_iff.1 hprefix with heq | hbefore
      · exact absurd heq hlast
      · exact h.incomplete start hbefore hne
    simp only [h.joined]
    split
    · rename_i hcomplete
      exact .ready ⟨hfirst, hstart⟩ hcomplete
    · rename_i hincomplete
      refine .pending ⟨?_, ?_⟩
      · rintro first rest hcons
        obtain ⟨head, tail, heq, hblank⟩ := hfirst
        rw [hcons] at heq
        exact (List.cons.inj heq).1 ▸ hblank
      · intro start hprefix hne
        by_cases hlast : start = taken ++ [line]
        · rw [hlast]
          simpa using hincomplete
        · exact hstart start hprefix hne hlast

/-- The portions are made of the lines in order, and hold the buffers.  A buffer that
is no complete command is the last portion. -/
structure Splits (lines buffers : List Text) (portions : List Portion) : Prop where
  lines_eq : portions.flatMap Portion.lines = lines
  buffers_eq : portions.filterMap Portion.buffer? = buffers
  valid : ∀ portion ∈ portions, portion.Valid
  complete : ∀ before portion after, portions = before ++ portion :: after →
    portion.IsComplete ∨ after = []

theorem splits_nil : Splits [] [] [] where
  lines_eq := rfl
  buffers_eq := rfl
  valid := by simp
  complete := by simp

theorem Splits.cons {lines buffers : List Text} {portions : List Portion}
    (h : Splits lines buffers portions) {portion : Portion} (hvalid : portion.Valid)
    (hcomplete : portion.IsComplete) :
    Splits (portion.lines ++ lines) (portion.buffer?.toList ++ buffers)
      (portion :: portions) where
  lines_eq := by rw [List.flatMap_cons, h.lines_eq]
  buffers_eq := by
    rw [List.filterMap_cons, h.buffers_eq]
    cases portion.buffer? <;> rfl
  valid := List.forall_mem_cons.2 ⟨hvalid, h.valid⟩
  complete := by
    intro before other after hsplit
    cases before with
    | nil =>
        obtain ⟨rfl, -⟩ := List.cons.inj hsplit
        exact .inl hcomplete
    | cons first before => exact h.complete before other after (List.cons.inj hsplit).2

theorem Waits.splits (h : Waits taken) (htaken : taken ≠ []) :
    Splits taken [Text.join "\n" taken] [.buffer taken] where
  lines_eq := by simp [Portion.lines]
  buffers_eq := rfl
  valid := by
    obtain ⟨first, rest, rfl⟩ := List.exists_cons_of_ne_nil htaken
    refine List.forall_mem_singleton.2 ⟨⟨first, rest, rfl, h.first first rest rfl⟩, ?_⟩
    intro start hstart hne _
    exact h.incomplete start hstart hne
  complete := by
    intro before portion after hsplit
    have hlength := congrArg List.length hsplit
    simp only [List.length_append, List.length_cons, List.length_nil] at hlength
    exact .inr (List.eq_nil_of_length_eq_zero (by omega))

theorem Waits.exists_splits (h : Waits taken) (lines : List Text) :
    ∃ portions, Splits (taken ++ lines) (buffers (Text.join "\n" taken) lines) portions := by
  induction lines generalizing taken with
  | nil =>
      rw [buffers, List.append_nil]
      by_cases htaken : taken = []
      · subst htaken
        exact ⟨[], splits_nil⟩
      · rw [if_neg (mt h.join_eq_nil_iff.1 htaken)]
        exact ⟨_, h.splits htaken⟩
  | cons line lines ih =>
      have hfeeding := h.feeding line
      unfold buffers
      generalize feed (Text.join "\n" taken) line = fed at hfeeding
      cases hfeeding with
      | skipped htaken hblank =>
          subst htaken
          obtain ⟨portions, hsplits⟩ := ih waits_nil
          exact ⟨.skipped line :: portions,
            hsplits.cons (show (Portion.skipped line).Valid from hblank) trivial⟩
      | pending hwaits =>
          obtain ⟨portions, hsplits⟩ := ih hwaits
          rw [List.append_assoc] at hsplits
          exact ⟨portions, hsplits⟩
      | ready hvalid hcomplete =>
          obtain ⟨portions, hsplits⟩ := ih waits_nil
          have hcons := hsplits.cons hvalid hcomplete
          rw [Portion.lines, List.append_assoc] at hcons
          exact ⟨.buffer (taken ++ [line]) :: portions, hcons⟩

/-! ## Running the loop -/

@[simp] theorem frame_print (repl : Repl) (output : Output) :
    (repl.print output).frame = repl.frame := by
  unfold print
  split
  · rfl
  all_goals split <;> rfl

@[simp] theorem pending_print (repl : Repl) (output : Output) :
    (repl.print output).pending = repl.pending := by
  unfold print
  split
  · rfl
  all_goals split <;> rfl

@[simp] theorem ok_print (repl : Repl) (output : Output) :
    (repl.print output).ok = (repl.ok && !output.isError) := by
  unfold print
  split
  · rename_i hkind
    simp [Output.isError, hkind]
  all_goals
    rename_i hkind
    split <;> simp [Output.isError, hkind]

def allOk (outputs : List Output) : Bool := outputs.all (!·.isError)

theorem foldl_print (outputs : List Output) (repl : Repl) :
    (outputs.foldl print repl).frame = repl.frame ∧
      (outputs.foldl print repl).pending = repl.pending ∧
      (outputs.foldl print repl).ok = (repl.ok && allOk outputs) := by
  induction outputs generalizing repl with
  | nil => simp [allOk]
  | cons output outputs ih =>
      obtain ⟨hframe, hpending, hok⟩ := ih (repl.print output)
      simp only [List.foldl_cons, hframe, hpending, hok, frame_print, pending_print, ok_print,
        true_and]
      simp [allOk, Bool.and_assoc]

/-- The loop has come to the state `after` from `before` by processing lines. -/
structure Processes (before : Repl) (lines : List Text) (after : Repl) : Prop where
  frame_eq : after.frame = (before.frame.processLines lines).2
  ok_eq : after.ok = (before.ok && allOk (before.frame.processLines lines).1)

theorem processes_run (repl : Repl) (buffer : Text) :
    (repl.run buffer).pending = [] ∧ repl.Processes [buffer] (repl.run buffer) := by
  obtain ⟨hframe, hpending, hok⟩ := foldl_print (repl.frame.processLine buffer).1
    { repl with frame := (repl.frame.processLine buffer).2, pending := [] }
  refine ⟨hpending, hframe, ?_⟩
  simp only [Frame.processLines, List.append_nil]
  exact hok

theorem Processes.refl (repl : Repl) : repl.Processes [] repl where
  frame_eq := rfl
  ok_eq := by simp [Frame.processLines, allOk]

theorem Processes.trans {before middle after : Repl} {first second : List Text}
    (hfirst : before.Processes first middle) (hsecond : middle.Processes second after) :
    before.Processes (first ++ second) after where
  frame_eq := by rw [hsecond.frame_eq, hfirst.frame_eq, Frame.processLines_append]
  ok_eq := by
    rw [hsecond.ok_eq, hfirst.ok_eq, hfirst.frame_eq, Frame.processLines_append]
    simp [allOk, Bool.and_assoc]

theorem processes_ask (repl : Repl) (prompt : Option Text) :
    (repl.ask prompt).pending = repl.pending ∧ repl.Processes [] (repl.ask prompt) := by
  cases prompt with
  | none => exact ⟨rfl, .refl repl⟩
  | some prompt => exact ⟨rfl, (Processes.refl repl).frame_eq, (Processes.refl repl).ok_eq⟩

theorem processes_finish (repl : Repl) :
    repl.Processes (buffers repl.pending []) repl.finish := by
  rw [buffers, finish]
  split
  · exact .refl repl
  · exact (processes_run repl repl.pending).2

theorem processes_take (repl : Repl) (line : Text) :
    ∃ ready, repl.Processes ready (repl.take line) ∧
      ∀ rest, buffers repl.pending (line :: rest) =
        ready ++ buffers (repl.take line).pending rest := by
  simp only [take, buffers]
  cases feed repl.pending line with
  | skipped => exact ⟨[], .refl repl, fun rest => rfl⟩
  | pending buffer =>
      exact ⟨[], ⟨(Processes.refl repl).frame_eq, (Processes.refl repl).ok_eq⟩, fun rest => rfl⟩
  | ready buffer =>
      obtain ⟨hpending, hprocesses⟩ := processes_run repl buffer
      refine ⟨[buffer], hprocesses, fun rest => ?_⟩
      simp only [hpending]
      rfl

theorem exists_runLines (prompt : Option Text) (repl : Repl) (lines : List Text) :
    ∃ after, runLines prompt repl (lines.map some) = (after, none) ∧
      repl.Processes (buffers repl.pending lines) after := by
  induction lines generalizing repl with
  | nil =>
      obtain ⟨hpending, hask⟩ := processes_ask repl prompt
      have hfinish := hask.trans (processes_finish (repl.ask prompt))
      rw [hpending] at hfinish
      exact ⟨_, rfl, hfinish⟩
  | cons line lines ih =>
      obtain ⟨hpending, hask⟩ := processes_ask repl prompt
      obtain ⟨ready, htake, hbuffers⟩ := processes_take (repl.ask prompt) line
      obtain ⟨after, hrun, hrest⟩ := ih ((repl.ask prompt).take line)
      refine ⟨after, hrun, ?_⟩
      rw [← hpending, hbuffers]
      exact hask.trans (htake.trans hrest)

end Repl

/-! ## The program -/

namespace CommandLine

open Repl (buffers readLines allOk)

/-- The script is opened, and reading it gives its content. -/
structure Opens (reading : FileTree.Node → Except FileError Bytes) (frame : Frame) (path : Text)
    (location : Location) (node : FileTree.Node) (content : Bytes) : Prop where
  found : frame.host.tree.find path (frame.host.tree.locate frame.session.cwd) =
    .ok (location, node)
  content : reading node = .ok content

variable {reading : FileTree.Node → Except FileError Bytes} {frame : Frame} {lines : List Text}

theorem code_runScript {path : Text} {location : Location} {node : FileTree.Node} {content : Bytes}
    (hopens : Opens reading frame path location node content)
    (hlines : readLines content = lines.map some) :
    (runScript reading frame path).code =
      if allOk (frame.processLines (buffers [] lines)).1 then 0 else 1 := by
  obtain ⟨after, hrun, hprocesses⟩ := Repl.exists_runLines none { frame } lines
  have hok := hprocesses.ok_eq
  rw [Bool.true_and] at hok
  simp only [runScript, hopens.found, hopens.content, hlines, hrun, hok]

theorem code_runInput {input : Bytes} (hlines : readLines input = lines.map some) :
    (runInput frame input).code = 0 := by
  obtain ⟨after, hrun, -⟩ := Repl.exists_runLines (some frame.session.config.prompt) { frame } lines
  simp only [runInput, hlines, hrun]

theorem run_of_start {environment : Environment} {options : Options} {notice : Text}
    (hstart : start environment options = (notice, .ok frame)) (hcomplete : options.complete = none)
    (input : Bytes) :
    (run environment options input).code =
      match options.script with
      | some path => (runScript environment.reading frame path).code
      | none => (runInput frame input).code := by
  simp only [run, hstart, hcomplete]
  cases options.script <;> rfl

end CommandLine

/-- Every line is skipped or stands in one of the buffers that are processed, in order; a buffer is
complete as soon as it can be, or ends the input.  The loop succeeds if no output is an error,
whatever programs there are and whatever they do, also to a script that is being read.  A script
fails with it, the standard input does not. -/
theorem Repl.runLines_splits (lines : List Text) :
    (∃ portions, Splits lines (buffers [] lines) portions) ∧
    (∀ (frame : Frame) (prompt : Option Text), ∃ repl,
      runLines prompt { frame } (lines.map some) = (repl, none) ∧
      repl.frame = (frame.processLines (buffers [] lines)).2 ∧
      repl.ok = allOk (frame.processLines (buffers [] lines)).1) ∧
    ∀ (environment : Environment) (options : Options) (input : Bytes) (notice : Text)
        (frame : Frame),
      CommandLine.start environment options = (notice, .ok frame) →
      options.complete = none →
      (∀ path location node content, options.script = some path →
        CommandLine.Opens environment.reading frame path location node content →
        readLines content = lines.map some →
        (CommandLine.run environment options input).code =
          if allOk (frame.processLines (buffers [] lines)).1 then 0 else 1) ∧
      (options.script = none → readLines input = lines.map some →
        (CommandLine.run environment options input).code = 0) := by
  refine ⟨waits_nil.exists_splits lines, ?_, ?_⟩
  · intro frame prompt
    obtain ⟨repl, hrun, hprocesses⟩ := exists_runLines prompt { frame } lines
    have hok := hprocesses.ok_eq
    rw [Bool.true_and] at hok
    exact ⟨repl, hrun, hprocesses.frame_eq, hok⟩
  · intro environment options input notice frame hstart hcomplete
    rw [CommandLine.run_of_start hstart hcomplete]
    constructor
    · intro path location node content hscript hopens hlines
      rw [hscript]
      exact CommandLine.code_runScript hopens hlines
    · intro hscript hlines
      rw [hscript]
      exact CommandLine.code_runInput hlines

namespace Repl

namespace Script

def content : Text := "echo \"a\n\nb\"\n\n!true\n!false\n"

def lines : List Text := ["echo \"a", "", "b\"", "", "!true", "!false"]

def bytes : Bytes := content.map fun c => c.toNat.toUInt8

def tree : FileTree := ⟨[(["s"], .file bytes false)]⟩

def programs : Programs := fun started launch tree =>
  if launch.program = "true" then (.ok ⟨some 0, [], []⟩, tree)
  else if launch.program = "false" then (.ok ⟨some 1, [], []⟩, tree)
  else Programs.none started launch tree

def environment : Environment where
  host := { tree, homes := [], programs }
  settings := []
  cwd := "/"
  user := "u"

def frame : Frame := ⟨environment.host, .builtins, ⟨{}, "/", .new 100, .empty, none⟩⟩

end Script

theorem runLines_splits_script :
    buffers [] Script.lines = (["echo \"a\n\nb\"", "!true", "!false"] : List Text) ∧
      (CommandLine.run Script.environment { script := some "s" } []).code = 1 := by
  have hbuffers : buffers [] Script.lines =
      (["echo \"a\n\nb\"", "!true", "!false"] : List Text) := by
    decide +kernel
  have hstart : CommandLine.start Script.environment { script := some "s" } =
      ((CommandLine.start Script.environment { script := some "s" }).1, .ok Script.frame) := by rfl
  have hfound : Script.tree.find "s" (Script.tree.locate "/") =
      .ok (["s"], .file Script.bytes false) := by
    have hsize : 's'.utf8Size = 1 := by decide
    simp [FileTree.find, FileTree.locate, FileTree.resolve, FileTree.follow, FileTree.walk,
      FileTree.nodeAt, FileTree.node?, FileTree.isAt, FileTree.maxName, FileTree.maxPath,
      Path.isAbsolute, Path.steps, Path.segments, Text.splitOn, Script.tree, hsize,
      Except.toOption, Bind.bind, Except.bind]
  obtain ⟨-, -, hprogram⟩ := runLines_splits Script.lines
  have hcode := (hprogram Script.environment { script := some "s" } [] _ _ hstart rfl).1 "s" ["s"] _
    Script.bytes rfl ⟨hfound, rfl⟩ (by decide +kernel)
  refine ⟨hbuffers, hcode.trans ?_⟩
  rw [hbuffers]
  decide +kernel

end Repl

end CommandFrame
