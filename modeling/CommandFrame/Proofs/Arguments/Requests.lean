import CommandFrame.Proofs.Arguments.Refusal

/-!
# Requests for help and for hidden options

The words `-help` and `-hidden` bind nothing.  Wherever a chunk could begin they can be put
in or left out, and a parse differs only in what is to be shown.
-/

namespace CommandFrame

namespace Parsed

def withHelp (usage : Text) : Parsed → Parsed
  | bound bindings => .bound { bindings with help := some usage }
  | help _ => .help usage

/-- What a parse comes to when the hidden options are shown. -/
def reveal (schema : Schema) : Parsed → Parsed
  | bound bindings =>
      .bound { bindings with
        showHidden := true
        help := bindings.help.map fun _ => schema.usage true false }
  | help _ => .help (schema.usage true false)

end Parsed

namespace Chunk

/-- The word stands where an option does. -/
def IsOption (word : Text) (chunk : Chunk) : Prop :=
  chunk.words.head? = some word ∧ ∀ text, chunk ≠ .positional text

/-- The chunk asks for what is to be shown and for nothing else. -/
def isRequest : Chunk → Bool
  | help | hidden => true
  | positional _ | terminator | option .. => false

theorem asksHidden_iff {chunks : List Chunk} :
    asksHidden chunks = true ↔ ∃ chunk ∈ chunks, chunk.IsOption "-hidden" := by
  rw [asksHidden, List.any_eq_true]
  refine exists_congr fun chunk => and_congr_right fun _ => ?_
  cases chunk <;> simp [IsOption, words]

section

variable {request : Chunk} (front behind : List Chunk)

theorem bindAll_insert_request (h : request.isRequest = true) :
    bindAll (front ++ request :: behind) = bindAll (front ++ behind) := by
  cases request with
  | help | hidden => simp [bindAll, bind]
  | positional | terminator | option => contradiction

theorem positionals_insert_request (h : request.isRequest = true) :
    positionals (front ++ request :: behind) = positionals (front ++ behind) := by
  cases request with
  | help | hidden => simp [positionals]
  | positional | terminator | option => contradiction

theorem asksHelp_insert_help : asksHelp (front ++ .help :: behind) = true := by
  simp [asksHelp]

theorem asksHelp_insert_hidden :
    asksHelp (front ++ .hidden :: behind) = asksHelp (front ++ behind) := by
  simp [asksHelp]

theorem asksHidden_insert_help :
    asksHidden (front ++ .help :: behind) = asksHidden (front ++ behind) := by
  simp [asksHidden]

theorem asksHidden_insert_hidden : asksHidden (front ++ .hidden :: behind) = true := by
  simp [asksHidden]

end

variable {schema : Schema} {before : List Text} {chunks : List Chunk}

theorem readAll_insert_help (h : readAll schema before = .ok chunks)
    (hopen : .terminator ∉ chunks) (after : List Text) :
    readAll schema (before ++ ("-help" : Text) :: after) =
      (readAll schema after).map (chunks ++ .help :: ·) := by
  have hhelp : Effect schema "-help" after (.ok (.help, after)) := .help after
  rw [readAll_append_of_ok h hopen, hhelp.readAll_eq_map (by simp)]
  cases readAll schema after <;> rfl

theorem readAll_insert_hidden (h : readAll schema before = .ok chunks)
    (hopen : .terminator ∉ chunks) (hundeclared : schema.option? "hidden" = none)
    (after : List Text) :
    readAll schema (before ++ ("-hidden" : Text) :: after) =
      (readAll schema after).map (chunks ++ .hidden :: ·) := by
  have hhidden : Effect schema "-hidden" after (.ok (.hidden, after)) :=
    .hidden after hundeclared
  rw [readAll_append_of_ok h hopen, hhidden.readAll_eq_map (by simp)]
  cases readAll schema after <;> rfl

end Chunk

namespace Schema

variable {schema : Schema}

theorem finish_of_asksHelp {chunks : List Chunk} (h : Chunk.asksHelp chunks = true) :
    schema.finish false chunks =
      .ok (.help (schema.usage (Chunk.asksHidden chunks) false)) := by
  simp [finish, h]

theorem finish_of_debug (chunks : List Chunk) :
    schema.finish true chunks =
      (schema.checkGroups (Chunk.bindAll chunks) schema.groups).map fun _ =>
        .bound ⟨Chunk.bindAll chunks, Chunk.positionals chunks, Chunk.asksHidden chunks,
          if Chunk.asksHelp chunks then
            some (schema.usage (Chunk.asksHidden chunks) false)
          else none⟩ := by
  unfold finish
  cases Chunk.asksHelp chunks <;> rfl

theorem finish_insert_help (front behind : List Chunk) :
    schema.finish true (front ++ .help :: behind) =
      (schema.finish true (front ++ behind)).map
        (·.withHelp (schema.usage (Chunk.asksHidden (front ++ behind)) false)) := by
  rw [finish_of_debug, finish_of_debug, Chunk.bindAll_insert_request front behind rfl,
    Chunk.positionals_insert_request front behind rfl, Chunk.asksHidden_insert_help,
    Chunk.asksHelp_insert_help]
  cases schema.checkGroups (Chunk.bindAll (front ++ behind)) schema.groups <;> rfl

theorem finish_insert_hidden (debug : Bool) (front behind : List Chunk) :
    schema.finish debug (front ++ .hidden :: behind) =
      (schema.finish debug (front ++ behind)).map (·.reveal schema) := by
  simp only [finish, Chunk.asksHelp_insert_hidden, Chunk.asksHidden_insert_hidden,
    Chunk.bindAll_insert_request front behind (rfl : Chunk.hidden.isRequest = true),
    Chunk.positionals_insert_request front behind (rfl : Chunk.hidden.isRequest = true)]
  cases Chunk.asksHelp (front ++ behind) <;> cases debug <;>
    cases schema.checkGroups (Chunk.bindAll (front ++ behind)) schema.groups <;> rfl

section

variable {before : List Text} {chunks : List Chunk}
  (h : Chunk.readAll schema before = .ok chunks) (hopen : .terminator ∉ chunks)

include h hopen

theorem parse_insert_hidden (hundeclared : schema.option? "hidden" = none) (debug : Bool)
    (after : List Text) :
    schema.parse debug (before ++ ("-hidden" : Text) :: after) =
      (schema.parse debug (before ++ after)).map (·.reveal schema) := by
  unfold parse
  rw [Chunk.readAll_insert_hidden h hopen hundeclared, Chunk.readAll_append_of_ok h hopen]
  cases Chunk.readAll schema after with
  | error error => rfl
  | ok behind => exact finish_insert_hidden debug chunks behind

theorem parse_insert_help_of_error {after : List Text} {error : ParseError}
    (herror : Chunk.readAll schema (before ++ after) = .error error) (debug : Bool) :
    schema.parse debug (before ++ ("-help" : Text) :: after) = .error error := by
  apply parse_of_readAll_eq_error
  rw [Chunk.readAll_append_of_ok h hopen] at herror
  rw [Chunk.readAll_insert_help h hopen]
  cases hafter : Chunk.readAll schema after with
  | error failure =>
      rw [hafter] at herror
      exact herror
  | ok behind =>
      rw [hafter] at herror
      contradiction

theorem parse_insert_help_of_ok {after : List Text} {others : List Chunk}
    (hread : Chunk.readAll schema (before ++ after) = .ok others) :
    schema.parse false (before ++ ("-help" : Text) :: after) =
        .ok (.help (schema.usage (Chunk.asksHidden others) false)) ∧
      schema.parse true (before ++ ("-help" : Text) :: after) =
        (schema.parse true (before ++ after)).map
          (·.withHelp (schema.usage (Chunk.asksHidden others) false)) := by
  have hhelp := Chunk.readAll_insert_help h hopen after
  have hplain := hread
  rw [Chunk.readAll_append_of_ok h hopen] at hplain
  cases hafter : Chunk.readAll schema after with
  | error failure =>
      rw [hafter] at hplain
      contradiction
  | ok behind =>
      rw [hafter] at hplain hhelp
      obtain rfl : chunks ++ behind = others := Except.ok.inj hplain
      rw [parse_of_readAll hread, parse_of_readAll hhelp, parse_of_readAll hhelp,
        finish_of_asksHelp (Chunk.asksHelp_insert_help ..), Chunk.asksHidden_insert_help]
      exact ⟨rfl, finish_insert_help chunks behind⟩

end

/-- `-help` between two chunks leaves an error of reading as it is.  Otherwise it ends the
parse with the usage text, also where a group would be judged, or with debugging adds that
text and nothing else.  An undeclared `-hidden` there reveals the hidden arguments in the
usage text and does nothing else. -/
theorem requests_are_transparent {schema : Schema} {before : List Text} {chunks : List Chunk}
    (h : Chunk.readAll schema before = .ok chunks) (hopen : .terminator ∉ chunks)
    (after : List Text) :
    (∀ error, Chunk.readAll schema (before ++ after) = .error error → ∀ debug,
      schema.parse debug (before ++ after) = .error error ∧
        schema.parse debug (before ++ ("-help" : Text) :: after) = .error error) ∧
    (∀ others, Chunk.readAll schema (before ++ after) = .ok others →
      ∃ showHidden, (showHidden = true ↔ ∃ chunk ∈ others, chunk.IsOption "-hidden") ∧
        schema.parse false (before ++ ("-help" : Text) :: after) =
          .ok (.help (schema.usage showHidden false)) ∧
        schema.parse true (before ++ ("-help" : Text) :: after) =
          (schema.parse true (before ++ after)).map
            (·.withHelp (schema.usage showHidden false))) ∧
    (schema.option? "hidden" = none → ∀ debug,
      schema.parse debug (before ++ ("-hidden" : Text) :: after) =
        (schema.parse debug (before ++ after)).map (·.reveal schema)) := by
  refine ⟨?_, ?_, fun hundeclared debug => parse_insert_hidden h hopen hundeclared debug after⟩
  · intro error herror debug
    exact ⟨parse_of_readAll_eq_error herror debug,
      parse_insert_help_of_error h hopen herror debug⟩
  · intro others hothers
    exact ⟨Chunk.asksHidden others, Chunk.asksHidden_iff, parse_insert_help_of_ok h hopen hothers⟩

theorem requests_are_transparent_unjudged :
    Choice.schema.parse false ["x", "-help", "-hidden"] =
      .ok (.help (Choice.schema.usage true false)) ∧
    Choice.schema.parse true ["x", "-help", "-hidden"] =
      .error (.groupRequirement ["a", "b", "file"]) ∧
    Choice.schema.parse false ["x", "-help", "-b"] = .error (.missingValue "b") ∧
    Choice.schema.parse true ["x", "-hidden", "-hidden"] =
      .error (.groupRequirement ["a", "b", "file"]) := by
  have hread : Chunk.readAll Choice.schema ["x"] = .ok [.positional "x"] := by cbv
  have hopen : Chunk.terminator ∉ [Chunk.positional "x"] := by simp
  have hothers : Chunk.readAll Choice.schema ["x", "-hidden"] =
      .ok [.positional "x", .hidden] := by
    cbv
  have hjudged : Choice.schema.parse true ["x", "-hidden"] =
      .error (.groupRequirement ["a", "b", "file"]) := by
    cbv
  obtain ⟨-, hhelp, hhidden⟩ := requests_are_transparent hread hopen ["-hidden"]
  obtain ⟨hrefused, -⟩ := requests_are_transparent hread hopen ["-b"]
  obtain ⟨showHidden, hshow, hended, hdebug⟩ := hhelp _ hothers
  have hshown : showHidden = true :=
    hshow.2 ⟨.hidden, List.mem_cons_of_mem _ List.mem_cons_self, rfl, by simp⟩
  refine ⟨hshown ▸ hended, ?_, (hrefused (.missingValue "b") (by cbv) false).2, ?_⟩
  · refine hdebug.trans ?_
    rw [List.singleton_append, hjudged]
    rfl
  · refine (hhidden rfl true).trans ?_
    rw [List.singleton_append, hjudged]
    rfl

end Schema

end CommandFrame
