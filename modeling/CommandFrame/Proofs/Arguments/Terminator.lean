import CommandFrame.Proofs.Arguments.Occurrences

/-!
# Words behind the terminator

The word `--` ends the options where a chunk could begin.  Every word behind it is
positional, whatever it looks like, so a parse comes to what it comes to without these
words, and puts them behind the other positional words.
-/

namespace CommandFrame

/-- What a parse comes to, with more positional words. -/
def Parsed.addPositionals (rest : List Text) : Parsed → Parsed
  | .bound bindings => .bound { bindings with positionals := bindings.positionals ++ rest }
  | .help usage => .help usage

namespace Chunk

variable (chunks : List Chunk) (rest : List Text)

def terminated : List Chunk := .terminator :: rest.map .positional

theorem foldl_bind_terminated (values : NameMap Value) :
    (terminated rest).foldl bind values = values := by
  induction rest with
  | nil => rfl
  | cons word rest ih => exact ih

@[simp] theorem bindAll_append_terminated :
    bindAll (chunks ++ terminated rest) = bindAll chunks := by
  simp [bindAll, foldl_bind_terminated]

@[simp] theorem positionals_append_terminated :
    positionals (chunks ++ terminated rest) = positionals chunks ++ rest := by
  have hwords : positionals (terminated rest) = rest := by
    induction rest with
    | nil => rfl
    | cons word rest ih => exact congrArg (word :: ·) ih
  rw [positionals, List.filterMap_append]
  exact congrArg (positionals chunks ++ ·) hwords

@[simp] theorem asksHelp_append_terminated :
    asksHelp (chunks ++ terminated rest) = asksHelp chunks := by
  simp [asksHelp, terminated]

@[simp] theorem asksHidden_append_terminated :
    asksHidden (chunks ++ terminated rest) = asksHidden chunks := by
  simp [asksHidden, terminated, Function.comp_def]

variable {chunks} {schema : Schema} {words : List Text}

theorem readAll_append_terminator (h : readAll schema words = .ok chunks)
    (hopen : .terminator ∉ chunks) :
    readAll schema (words ++ ("--" : Text) :: rest) = .ok (chunks ++ terminated rest) := by
  rw [readAll_append_of_ok h hopen, readAll_terminator]
  rfl

end Chunk

namespace Schema

theorem finish_append_terminated (schema : Schema) (debug : Bool) (chunks : List Chunk)
    (rest : List Text) :
    schema.finish debug (chunks ++ Chunk.terminated rest) =
      (schema.finish debug chunks).map (·.addPositionals rest) := by
  simp only [finish, Chunk.bindAll_append_terminated, Chunk.positionals_append_terminated,
    Chunk.asksHelp_append_terminated, Chunk.asksHidden_append_terminated]
  split
  · rfl
  · cases schema.checkGroups (Chunk.bindAll chunks) schema.groups with
    | error error => rfl
    | ok checked => rfl

/-- Words behind the terminator are added to the positional words of a parse, and nothing
else comes of them: help is shown and groups are judged as without them. -/
theorem parse_append_terminator {schema : Schema} {words : List Text} {chunks : List Chunk}
    (h : Chunk.readAll schema words = .ok chunks) (hopen : .terminator ∉ chunks)
    (debug : Bool) (rest : List Text) :
    schema.parse debug (words ++ ("--" : Text) :: rest) =
      (schema.parse debug words).map (·.addPositionals rest) := by
  rw [parse_of_readAll h, parse_of_readAll (Chunk.readAll_append_terminator rest h hopen)]
  exact schema.finish_append_terminated debug chunks rest

theorem parse_append_terminator_value :
    ∃ bindings, mixed.parse false ["-s", "--", "x", "--", "-n", "--", "-help"] =
        .ok (.bound bindings) ∧
      bindings.value? "s" = some (.str "--") ∧
        bindings.positionals = [("x" : Text), "-n", "--", "-help"] := by
  have hread : Chunk.readAll mixed ["-s", "--", "x"] =
      .ok [.option Mixed.label (some "--") (.word "--"), .positional "x"] := by
    cbv
  have hparse := parse_append_terminator hread (by decide) false ["-n", "--", "-help"]
  rw [parse_of_readAll hread] at hparse
  exact ⟨_, hparse, rfl, rfl⟩

end Schema

end CommandFrame
