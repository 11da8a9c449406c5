import CommandFrame.Proofs.Builtin.Effects
import CommandFrame.Proofs.Frame.Run

/-!
# Commands take effect whole or not at all

A command that fails or shows its usage changes nothing, and of the others only
`cd` and `set_data` do.  So what lines make of a session can be told from these
commands alone, and a name has the value that was set last.
-/

namespace CommandFrame

def Output.isDone (output : Output) : Bool := output.kind ≠ .error && output.kind ≠ .help

theorem Output.isDone_ofResult (text : Text) : (ofResult text).isDone = true := by
  unfold ofResult
  split
  · rfl
  · split <;> rfl

namespace Performed

def changes (performed : Performed) : Bool :=
  performed.output.isDone &&
    (performed.words.head? = some ("cd" : Text) || performed.words.head? = some ("set_data" : Text))

theorem changes_iff {performed : Performed} :
    performed.changes = true ↔ performed.output.isDone = true ∧
      (performed.words.head? = some ("cd" : Text) ∨
        performed.words.head? = some ("set_data" : Text)) := by
  simp only [changes, Bool.and_eq_true, Bool.or_eq_true, decide_eq_true_eq]

def setting? (performed : Performed) : Option (Text × Text) :=
  if performed.output.isDone then Builtin.setting? performed.words else none

theorem changes_of_setting? {performed : Performed} {entry : Text × Text}
    (h : performed.setting? = some entry) : performed.changes = true := by
  unfold setting? at h
  split at h
  · rename_i hdone
    exact changes_iff.2 ⟨hdone, .inr (Builtin.head?_of_setting? h)⟩
  · contradiction

end Performed

namespace Frame

/-! ## One command -/

/-- What comes of running the words of a command. -/
inductive Outcome (frame : Frame) (words : List Text) : Output × Frame → Prop
  | refused {output : Output} (houtput : output.isDone = false) :
      Outcome frame words (output, frame)
  | kept {output : Output} (houtput : output.isDone = true)
      (hcd : words.head? ≠ some ("cd" : Text)) (hset : words.head? ≠ some ("set_data" : Text)) :
      Outcome frame words (output, frame)
  | went {output : Output} {location : Location} (houtput : output.isDone = true)
      (hcd : words.head? = some ("cd" : Text)) (hlocation : frame.host.tree.IsCanonical location) :
      Outcome frame words
        (output, { frame with
          session := { frame.session with cwd := Path.ofLocation location } })
  | set {output : Output} {name value : Text} (houtput : output.isDone = true)
      (hsetting : Builtin.setting? words = some (name, value)) :
      Outcome frame words
        (output, { frame with
          session := { frame.session with data := frame.session.data.insert name value } })

theorem perform_eq_ok {frame after : Frame} {name : Text} {words : List Text} {output : Output}
    (h : frame.perform name words = .ok (output, after)) :
    ∃ command, frame.registry.get? name = some command ∧
      (output.isDone = false ∧ after = frame ∨
        ∃ bindings session text,
          command.schema.parse frame.session.config.debug words = .ok (.bound bindings) ∧
          command.run frame.surroundings frame.session bindings = .ok (session, text) ∧
          output = .ofResult text ∧ after = { frame with session }) := by
  unfold perform at h
  split at h
  · contradiction
  rename_i command hcommand
  refine ⟨command, hcommand, ?_⟩
  split at h
  · contradiction
  · cases h
    exact .inl ⟨rfl, rfl⟩
  · rename_i bindings hparse
    split at h
    · contradiction
    · rename_i session text hrun
      cases h
      exact .inr ⟨bindings, session, text, hparse, hrun, rfl, rfl⟩

theorem outcome_of_perform {frame after : Frame} {name : Text} {words : List Text}
    {output : Output} (hregistry : frame.registry = .builtins)
    (h : frame.perform name words = .ok (output, after)) :
    Outcome frame (name :: words) (output, after) := by
  obtain ⟨command, hcommand, hrefused | hbound⟩ := perform_eq_ok h
  · obtain ⟨houtput, rfl⟩ := hrefused
    exact .refused houtput
  · obtain ⟨bindings, session, text, hparse, hrun, rfl, rfl⟩ := hbound
    have hdone := Output.isDone_ofResult text
    rw [hregistry] at hcommand
    obtain ⟨hmem, rfl⟩ := Registry.mem_of_get?_builtins hcommand
    cases Builtin.effect_of_run hmem hrun with
    | keeps hcd hset =>
        exact .kept hdone (by simpa using hcd) (by simpa using hset)
    | goes hlocation => exact .went hdone rfl hlocation
    | sets hname hvalue => exact .set hdone (Builtin.setting?_of_parse hparse hname hvalue)

theorem outcome_runCommand {frame : Frame} (hregistry : frame.registry = .builtins)
    (words : List Text) : Outcome frame words (frame.runCommand words) := by
  cases words with
  | nil => exact .kept rfl (by simp) (by simp)
  | cons name words =>
      cases hperform : frame.perform name words with
      | error error =>
          simp only [runCommand, hperform]
          exact .refused rfl
      | ok done =>
          simp only [runCommand, hperform]
          exact outcome_of_perform hregistry hperform

/-! ## Without the history -/

def withHistory (frame : Frame) (history : History) : Frame :=
  { frame with session := { frame.session with history } }

theorem perform_withHistory {frame : Frame} {name : Text} {command : Command}
    (hcommand : frame.registry.get? name = some command) (history : History)
    (hrun : ∀ bindings, command.run frame.surroundings { frame.session with history } bindings =
      (command.run frame.surroundings frame.session bindings).map fun (session, text) =>
        ({ session with history }, text))
    (words : List Text) :
    (frame.withHistory history).perform name words =
      (frame.perform name words).map fun (output, after) => (output, after.withHistory history) := by
  cases hparse : command.schema.parse frame.session.config.debug words with
  | error cause => simp only [perform, withHistory, hcommand, hparse, Except.map]
  | ok parsed =>
      cases parsed with
      | help usage => simp only [perform, withHistory, hcommand, hparse, Except.map]
      | bound bindings =>
          simp only [perform, withHistory, surroundings, hcommand, hparse] at hrun ⊢
          rw [hrun]
          cases command.run ⟨frame.registry.catalog, frame.host⟩ frame.session bindings <;> rfl

theorem run_cd_withHistory (surroundings : Surroundings) (session : Session) (history : History)
    (bindings : Bindings) :
    Builtin.cd.run surroundings { session with history } bindings =
      (Builtin.cd.run surroundings session bindings).map fun (session, text) =>
        ({ session with history }, text) := by
  simp only [Builtin.cd, Session.pathCompleter]
  split <;> rfl

theorem run_setData_withHistory (surroundings : Surroundings) (session : Session)
    (history : History) (bindings : Bindings) :
    Builtin.setData.run surroundings { session with history } bindings =
      (Builtin.setData.run surroundings session bindings).map fun (session, text) =>
        ({ session with history }, text) := by
  simp only [Builtin.setData]
  split
  · rfl
  · split <;> rfl

theorem runCommand_withHistory {frame : Frame} (hregistry : frame.registry = .builtins)
    {words : List Text}
    (hwords : words.head? = some ("cd" : Text) ∨ words.head? = some ("set_data" : Text))
    (history : History) :
    (frame.withHistory history).runCommand words =
      ((frame.runCommand words).1, (frame.runCommand words).2.withHistory history) := by
  have hcd : frame.registry.get? "cd" = some Builtin.cd := by rw [hregistry]; rfl
  have hset : frame.registry.get? "set_data" = some Builtin.setData := by rw [hregistry]; rfl
  cases words with
  | nil => simp at hwords
  | cons name words =>
      have hperform : (frame.withHistory history).perform name words =
          (frame.perform name words).map fun (output, after) =>
            (output, after.withHistory history) := by
        simp only [List.head?_cons, Option.some.injEq] at hwords
        rcases hwords with rfl | rfl
        · exact perform_withHistory hcd history (run_cd_withHistory _ _ history) words
        · exact perform_withHistory hset history (run_setData_withHistory _ _ history) words
      simp only [runCommand, hperform]
      cases frame.perform name words <;> rfl

/-! ## Many commands -/

/-- What the successful commands among those performed make of a frame, and nothing
else does. -/
structure ChangedBy (frame : Frame) (performed : List Performed) (after : Frame) : Prop where
  registry_eq : after.registry = frame.registry
  host_eq : after.host = frame.host
  config_eq : after.session.config = frame.session.config
  home_eq : after.session.home = frame.session.home
  data_eq : after.session.data =
    frame.session.data.setAll (performed.filterMap Performed.setting?)
  /-- The commands that change something do the same without the others. -/
  replayed : ∀ history, Runs (frame.withHistory history) (performed.filter Performed.changes)
    (after.withHistory history)

variable {frame middle after : Frame}

theorem changedBy_withHistory (frame : Frame) (history : History) :
    ChangedBy frame [] (frame.withHistory history) where
  registry_eq := rfl
  host_eq := rfl
  config_eq := rfl
  home_eq := rfl
  data_eq := rfl
  replayed _ := .nil _

theorem ChangedBy.refl (frame : Frame) : ChangedBy frame [] frame :=
  changedBy_withHistory frame frame.session.history

theorem ChangedBy.trans {first second : List Performed} (hfirst : ChangedBy frame first middle)
    (hsecond : ChangedBy middle second after) : ChangedBy frame (first ++ second) after where
  registry_eq := hsecond.registry_eq.trans hfirst.registry_eq
  host_eq := hsecond.host_eq.trans hfirst.host_eq
  config_eq := hsecond.config_eq.trans hfirst.config_eq
  home_eq := hsecond.home_eq.trans hfirst.home_eq
  data_eq := by
    rw [hsecond.data_eq, hfirst.data_eq, List.filterMap_append, NameMap.setAll_append]
  replayed history := by
    rw [List.filter_append]
    exact (hfirst.replayed history).append (hsecond.replayed history)

theorem changedBy_self {performed : Performed} (hchanges : ¬performed.changes = true) :
    ChangedBy frame [performed] frame where
  registry_eq := rfl
  host_eq := rfl
  config_eq := rfl
  home_eq := rfl
  data_eq := by
    have hsetting : performed.setting? = none := by
      rw [Option.eq_none_iff_forall_ne_some]
      intro entry hentry
      exact hchanges (Performed.changes_of_setting? hentry)
    simp [hsetting, NameMap.setAll]
  replayed history := by
    rw [List.filter_cons_of_neg hchanges, List.filter_nil]
    exact .nil _

theorem changedBy_runCommand (hregistry : frame.registry = .builtins) (words : List Text) :
    ChangedBy frame [⟨words, (frame.runCommand words).1⟩] (frame.runCommand words).2 := by
  have houtcome := outcome_runCommand hregistry words
  have hreplay (hchanges : (Performed.mk words (frame.runCommand words).1).changes = true)
      (history : History) :
      Runs (frame.withHistory history)
        ([Performed.mk words (frame.runCommand words).1].filter Performed.changes)
        ((frame.runCommand words).2.withHistory history) := by
    rw [List.filter_cons_of_pos hchanges, List.filter_nil]
    have hwords := (Performed.changes_iff.1 hchanges).2
    exact .cons (runCommand_withHistory hregistry hwords history) (.nil _)
  generalize frame.runCommand words = done at houtcome hreplay
  cases houtcome with
  | refused houtput =>
      refine changedBy_self fun hchanges => ?_
      exact absurd ((Performed.changes_iff.1 hchanges).1.symm.trans houtput) (by simp)
  | kept houtput hcd hset =>
      exact changedBy_self fun hchanges => (Performed.changes_iff.1 hchanges).2.elim hcd hset
  | went houtput hcd hlocation =>
      refine ⟨rfl, rfl, rfl, rfl, ?_, hreplay (Performed.changes_iff.2 ⟨houtput, .inl hcd⟩)⟩
      have hsetting : Builtin.setting? words = none := by
        rw [Builtin.setting?, hcd]
        rfl
      simp [Performed.setting?, hsetting, NameMap.setAll]
  | set houtput hsetting =>
      refine ⟨rfl, rfl, rfl, rfl, ?_, hreplay ?_⟩
      · simp [Performed.setting?, houtput, hsetting, NameMap.setAll]
      · exact Performed.changes_iff.2 ⟨houtput, .inr (Builtin.head?_of_setting? hsetting)⟩

theorem Runs.changedBy {performed : List Performed} (h : Runs frame performed after)
    (hregistry : frame.registry = .builtins) : ChangedBy frame performed after := by
  induction h with
  | nil frame => exact .refl frame
  | @cons frame _ _ words _ _ hcommand _ ih =>
      have hfirst := changedBy_runCommand hregistry words
      rw [hcommand] at hfirst
      exact hfirst.trans (ih (hfirst.registry_eq.trans hregistry))

theorem Runs.history_eq {performed : List Performed} (h : Runs frame performed after)
    (hregistry : frame.registry = .builtins) :
    after.session.history = frame.session.history := by
  induction h with
  | nil => rfl
  | @cons frame _ _ words _ _ hcommand _ ih =>
      have hfirst := changedBy_runCommand hregistry words
      have houtcome := outcome_runCommand hregistry words
      rw [hcommand] at hfirst houtcome
      rw [ih (hfirst.registry_eq.trans hregistry)]
      cases houtcome <;> rfl

/-! ## Lines -/

theorem runs_processLine {line : Text} (hplain : IsPlain line) (frame : Frame) :
    Runs (frame.record line)
        ((Line.splitCommands line).zipWith Performed.mk (frame.processLine line).1)
        (frame.processLine line).2 ∧
      StopsAtError (Line.splitCommands line) (frame.processLine line).1 := by
  rw [processLine_of_isPlain hplain]
  exact runs_of_runCommands rfl

theorem changedBy_processLines (hregistry : frame.registry = .builtins) {lines : List Text}
    (hplain : ∀ line ∈ lines, IsPlain line) :
    ChangedBy frame (frame.transcript lines) (frame.processLines lines).2 ∧
      (frame.processLines lines).2.session.history =
        lines.foldl History.append frame.session.history := by
  induction lines generalizing frame with
  | nil => exact ⟨.refl frame, rfl⟩
  | cons line lines ih =>
      rw [List.forall_mem_cons] at hplain
      have hruns := (runs_processLine hplain.1 frame).1
      have hrecord : ChangedBy frame [] (frame.record line) :=
        changedBy_withHistory frame (frame.session.history.append line)
      have hfirst := hrecord.trans (hruns.changedBy hregistry)
      have hhistory := hruns.history_eq hregistry
      obtain ⟨hrest, hrestHistory⟩ := ih (hfirst.registry_eq.trans hregistry) hplain.2
      rw [hhistory] at hrestHistory
      exact ⟨hfirst.trans hrest, hrestHistory⟩

theorem runCommand_getData (hregistry : frame.registry = .builtins) (name : Text) :
    frame.runCommand ["get_data", "-name", name] =
      (match frame.session.data.get? name with
        | some value => .ofResult value
        | none => .ofError (.failed "get_data" (.noData name)), frame) := by
  have hcommand : frame.registry.get? "get_data" = some Builtin.getData := by rw [hregistry]; rfl
  obtain ⟨bindings, hparse, hname⟩ := Builtin.parse_getData frame.session.config.debug name
  simp only [runCommand, perform, hcommand, hparse]
  simp only [Builtin.getData, hname]
  cases frame.session.data.get? name <;> rfl

/-- A command takes effect whole or not at all, and a line ends with the first that
fails.  After many lines the session is as the successful `cd` and `set_data` made it,
and a name has the value that was set last. -/
theorem processLines_atomic (hregistry : frame.registry = .builtins) :
    (∀ words, Outcome frame words (frame.runCommand words)) ∧
    (∀ line, IsPlain line →
      Runs (frame.record line)
        ((Line.splitCommands line).zipWith Performed.mk (frame.processLine line).1)
        (frame.processLine line).2 ∧
      StopsAtError (Line.splitCommands line) (frame.processLine line).1) ∧
    ∀ lines, (∀ line ∈ lines, IsPlain line) →
      ChangedBy frame (frame.transcript lines) (frame.processLines lines).2 ∧
      (frame.processLines lines).2.session.history =
        lines.foldl History.append frame.session.history ∧
      ∀ name, (frame.processLines lines).2.runCommand ["get_data", "-name", name] =
        (match (NameMap.last? ((frame.transcript lines).filterMap Performed.setting?) name).or
            (frame.session.data.get? name) with
          | some value => .ofResult value
          | none => .ofError (.failed "get_data" (.noData name)),
        (frame.processLines lines).2) := by
  refine ⟨outcome_runCommand hregistry, fun line hplain => runs_processLine hplain frame, ?_⟩
  intro lines hplain
  obtain ⟨hchanged, hhistory⟩ := changedBy_processLines hregistry hplain
  refine ⟨hchanged, hhistory, fun name => ?_⟩
  rw [runCommand_getData (hchanged.registry_eq.trans hregistry), hchanged.data_eq,
    NameMap.get?_setAll]

namespace Mishap

def start : Frame :=
  ⟨{ tree := ⟨[]⟩, homes := [] }, .builtins, ⟨{}, "/", .new 100, .empty, none⟩⟩

def lines : List Text :=
  ["set_data -name x -value 1; nope; set_data -name x -value 2", "set_data -name x"]

end Mishap

theorem processLines_atomic_mishap :
    ((Mishap.start.processLines Mishap.lines).2.runCommand ["get_data", "-name", "x"]).1 =
      ⟨.text, "1"⟩ := by
  obtain ⟨-, -, hlines⟩ := @processLines_atomic Mishap.start rfl
  have hget := (hlines Mishap.lines (by decide)).2.2 "x"
  rw [hget]
  decide +kernel

end Frame

end CommandFrame
