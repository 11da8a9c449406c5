import CommandFrame.Proofs.Arguments.WellTyped

/-!
# Words that are refused

Reading stops at the first word that is refused, before help is shown and before the groups
are judged.  An error about words that were read stays whatever words come behind them; a
value that is missing is the next word to come.
-/

namespace CommandFrame

namespace ParseError

/-- The error is about words that were read. -/
def isRefusal : ParseError → Bool
  | invalidOption _ | invalidValue _ _ => true
  | missingValue _ | groupExclusivity _ | groupRequirement _ => false

/-- The error is about what all the words come to. -/
def isJudgement : ParseError → Bool
  | groupExclusivity _ | groupRequirement _ => true
  | invalidOption _ | missingValue _ | invalidValue _ _ => false

theorem isJudgement_of_isRefusal {error : ParseError} (h : error.isRefusal = true) :
    error.isJudgement = false := by
  cases error with
  | invalidOption | invalidValue => rfl
  | missingValue | groupExclusivity | groupRequirement => contradiction

end ParseError

namespace Chunk

variable {schema : Schema} {words : List Text} {error : ParseError}

theorem Effect.isJudgement_eq_false {word : Text} {rest : List Text}
    (h : Effect schema word rest (.error error)) : error.isJudgement = false := by
  cases h <;> rfl

theorem Effect.append {word : Text} {rest : List Text}
    (h : Effect schema word rest (.error error)) (hrefusal : error.isRefusal = true)
    (behind : List Text) : Effect schema word (rest ++ behind) (.error error) := by
  cases h with
  | missingValue => contradiction
  | invalidValue rest hlists htakes hread => exact .invalidValue _ hlists htakes hread
  | invalidOption rest hhelp hterminator hhidden hoption =>
      exact .invalidOption _ hhelp hterminator hhidden hoption

/-- The chunks that are read before the word at which reading stops. -/
structure StopsAfter (schema : Schema) (words : List Text) (error : ParseError)
    (chunks : List Chunk) (word : Text) (rest : List Text) : Prop where
  words_eq : words = chunks.flatMap Chunk.words ++ word :: rest
  readable : ∀ chunk ∈ chunks, Readable schema chunk
  isOpen : .terminator ∉ chunks
  effect : Effect schema word rest (.error error)

theorem exists_stopsAfter (h : readAll schema words = .error error) :
    ∃ chunks word rest, StopsAfter schema words error chunks word rest := by
  induction words using reading_induction schema with
  | nil =>
      rw [readAll] at h
      contradiction
  | terminator rest =>
      rw [readAll_terminator] at h
      contradiction
  | chunk word rest chunk after heffect hchunk ih =>
      obtain ⟨own, hwords, rfl, hagain⟩ := heffect.words_eq
      rw [heffect.readAll_eq_map hchunk] at h
      have hafter : readAll schema after = .error error := by
        cases hread : readAll schema after with
        | error failure =>
            rw [hread] at h
            exact congrArg _ (Except.error.inj h)
        | ok chunks =>
            rw [hread] at h
            contradiction
      obtain ⟨chunks, refused, rest, hstops⟩ := ih hafter
      refine ⟨chunk :: chunks, refused, rest, ?_, ?_, ?_, hstops.effect⟩
      · rw [hstops.words_eq, List.flatMap_cons, hwords]
        simp
      · exact List.forall_mem_cons.2 ⟨⟨word, own, hwords, hagain⟩, hstops.readable⟩
      · simp [Ne.symm hchunk, hstops.isOpen]
  | error word rest failure heffect =>
      obtain rfl := Except.error.inj (heffect.readAll_eq_error.symm.trans h)
      exact ⟨[], word, rest, rfl, by simp, by simp, heffect⟩

namespace StopsAfter

variable {chunks : List Chunk} {word : Text} {rest : List Text}

theorem readAll_append (h : StopsAfter schema words error chunks word rest)
    (behind : List Text) :
    readAll schema (words ++ behind) =
      (readAll schema (word :: (rest ++ behind))).map (chunks ++ ·) := by
  rw [h.words_eq, List.append_assoc, Chunk.readAll_append h.readable h.isOpen]
  rfl

theorem readAll_chunks (h : StopsAfter schema words error chunks word rest) :
    readAll schema (chunks.flatMap Chunk.words) = .ok chunks := by
  have hread := Chunk.readAll_append h.readable h.isOpen []
  rw [readAll, List.append_nil] at hread
  exact hread.trans (congrArg _ (List.append_nil chunks))

end StopsAfter

theorem readAll_append_of_refusal (h : readAll schema words = .error error)
    (hrefusal : error.isRefusal = true) (behind : List Text) :
    readAll schema (words ++ behind) = .error error := by
  obtain ⟨chunks, word, rest, hstops⟩ := exists_stopsAfter h
  rw [hstops.readAll_append, (hstops.effect.append hrefusal behind).readAll_eq_error]
  rfl

theorem readAll_append_of_missingValue {name : Text}
    (h : readAll schema words = .error (.missingValue name)) :
    ∃ chunks argument, StopsAfter schema words (.missingValue name) chunks ('-' :: name) [] ∧
      schema.option? name = some argument ∧ argument.type.takesValue = true ∧
      ∀ value behind, readAll schema (words ++ value :: behind) =
        match argument.read? value with
        | none => .error (.invalidValue name value)
        | some given =>
            (readAll schema behind).map (chunks ++ .option argument (some value) given :: ·) := by
  obtain ⟨chunks, word, rest, hstops⟩ := exists_stopsAfter h
  have heffect := hstops.effect
  generalize herror : ParseError.missingValue name = error at heffect
  cases heffect with
  | @missingValue argument hlists htakes =>
      obtain rfl := ParseError.missingValue.inj herror
      refine ⟨chunks, argument, hstops, hlists.option?_eq, htakes, fun value behind => ?_⟩
      rw [hstops.readAll_append, List.nil_append]
      split
      · rename_i hread
        rw [(Effect.invalidValue behind hlists htakes hread).readAll_eq_error]
        rfl
      · rename_i given hread
        rw [(Effect.valued behind hlists htakes hread).readAll_eq_map (by simp)]
        cases readAll schema behind <;> rfl
  | invalidValue | invalidOption => contradiction

end Chunk

namespace Schema

variable {schema : Schema} {words : List Text} {error : ParseError}

theorem isJudgement_of_checkGroups {values : NameMap Value} {groups : List Group}
    (h : schema.checkGroups values groups = .error error) : error.isJudgement = true := by
  induction groups with
  | nil => contradiction
  | cons group groups ih =>
      simp only [checkGroups] at h
      split at h
      · cases h
        rfl
      split at h
      · cases h
        rfl
      · exact ih h

theorem isJudgement_of_finish {debug : Bool} {chunks : List Chunk}
    (h : schema.finish debug chunks = .error error) : error.isJudgement = true := by
  simp only [finish] at h
  split at h
  · contradiction
  · cases hgroups : schema.checkGroups (Chunk.bindAll chunks) schema.groups with
    | error failure =>
        rw [hgroups] at h
        cases h
        exact isJudgement_of_checkGroups hgroups
    | ok checked =>
        rw [hgroups] at h
        contradiction

theorem parse_eq_error_iff {debug : Bool} (herror : error.isJudgement = false) :
    schema.parse debug words = .error error ↔ Chunk.readAll schema words = .error error := by
  unfold parse
  cases hread : Chunk.readAll schema words with
  | error failure => simp
  | ok chunks =>
      constructor
      · intro h
        rw [isJudgement_of_finish h] at herror
        contradiction
      · intro h
        contradiction

theorem parse_of_readAll_eq_error (h : Chunk.readAll schema words = .error error)
    (debug : Bool) : schema.parse debug words = .error error := by
  rw [parse, h]

theorem exists_chunks_of_help {debug : Bool} {usage : Text}
    (h : schema.parse debug words = .ok (.help usage)) :
    ∃ chunks, Chunk.readAll schema words = .ok chunks ∧ .help ∈ chunks := by
  unfold parse at h
  split at h
  · contradiction
  · rename_i chunks hread
    refine ⟨chunks, hread, ?_⟩
    by_cases hasks : Chunk.asksHelp chunks = true
    · simpa [Chunk.asksHelp] using hasks
    · simp only [finish, if_neg hasks] at h
      cases hgroups : schema.checkGroups (Chunk.bindAll chunks) schema.groups <;>
        simp [hgroups, Except.map] at h

theorem exists_chunks_of_isJudgement {debug : Bool} (hjudgement : error.isJudgement = true)
    (h : schema.parse debug words = .error error) :
    ∃ chunks, Chunk.readAll schema words = .ok chunks := by
  unfold parse at h
  split at h
  · rename_i failure hread
    obtain rfl := Except.error.inj h
    obtain ⟨chunks, word, rest, hstops⟩ := Chunk.exists_stopsAfter hread
    rw [hstops.effect.isJudgement_eq_false] at hjudgement
    contradiction
  · rename_i chunks hread
    exact ⟨chunks, hread⟩

/-- A word that is refused decides a parse, whatever words follow it.  A missing value is the
next word, so an option that waits for one gets any word that follows.  Help is shown and
groups are judged only when all words can be read. -/
theorem first_error_decides (schema : Schema) (debug : Bool) (words : List Text) :
    (∀ error, error.isRefusal = true → schema.parse debug words = .error error →
      ∀ debug behind, schema.parse debug (words ++ behind) = .error error) ∧
    (∀ name, schema.parse debug words = .error (.missingValue name) →
      ∃ chunks argument, words = chunks.flatMap Chunk.words ++ [('-' :: name)] ∧
        Chunk.readAll schema (chunks.flatMap Chunk.words) = .ok chunks ∧
        .terminator ∉ chunks ∧ schema.option? name = some argument ∧
        argument.type.takesValue = true ∧
        ∀ value behind,
          Chunk.readAll schema (words ++ value :: behind) =
            (match argument.read? value with
            | none => .error (.invalidValue name value)
            | some given =>
                (Chunk.readAll schema behind).map
                  (chunks ++ .option argument (some value) given :: ·)) ∧
          ∀ debug other,
            schema.parse debug (words ++ value :: behind) = .error (.missingValue other) →
              schema.parse debug behind = .error (.missingValue other)) ∧
    (∀ usage, schema.parse debug words = .ok (.help usage) →
      ∃ chunks, Chunk.readAll schema words = .ok chunks ∧ .help ∈ chunks) ∧
    ∀ error, error.isJudgement = true → schema.parse debug words = .error error →
      ∃ chunks, Chunk.readAll schema words = .ok chunks := by
  refine ⟨?_, ?_, fun usage => exists_chunks_of_help, fun error => exists_chunks_of_isJudgement⟩
  · intro error hrefusal h debug behind
    have hread : Chunk.readAll schema words = .error error :=
      (parse_eq_error_iff (ParseError.isJudgement_of_isRefusal hrefusal)).1 h
    exact parse_of_readAll_eq_error (Chunk.readAll_append_of_refusal hread hrefusal behind) debug
  · intro name h
    obtain ⟨chunks, argument, hstops, hoption, htakes, hnext⟩ :=
      Chunk.readAll_append_of_missingValue ((parse_eq_error_iff rfl).1 h)
    refine ⟨chunks, argument, hstops.words_eq, hstops.readAll_chunks, hstops.isOpen, hoption,
      htakes, fun value behind => ⟨hnext value behind, ?_⟩⟩
    intro debug other hother
    have hread := (parse_eq_error_iff rfl).1 hother
    rw [hnext value behind] at hread
    split at hread
    · cases hread
    · refine (parse_eq_error_iff rfl).2 ?_
      cases hbehind : Chunk.readAll schema behind with
      | error error =>
          rw [hbehind] at hread
          exact hread
      | ok others =>
          rw [hbehind] at hread
          contradiction

theorem first_error_decides_choice :
    (∀ behind, Choice.schema.parse true ((["-help", "-x"] : List Text) ++ behind) =
      .error (.invalidOption "x")) ∧
    Chunk.readAll Choice.schema ["-b", "-b", "-help"] =
      .ok [.option Choice.letter (some "-b") (.word "-b"), .help] ∧
    (∃ chunks, Chunk.readAll Choice.schema ["-help"] = .ok chunks ∧ .help ∈ chunks) ∧
    ∃ chunks, Chunk.readAll Choice.schema ["x"] = .ok chunks := by
  obtain ⟨hrefused, -⟩ := first_error_decides Choice.schema false ["-help", "-x"]
  obtain ⟨-, hmissing, -⟩ := first_error_decides Choice.schema false ["-b"]
  obtain ⟨-, -, hhelp, -⟩ := first_error_decides Choice.schema false ["-help"]
  obtain ⟨-, -, -, hjudged⟩ := first_error_decides Choice.schema false ["x"]
  refine ⟨hrefused (.invalidOption "x") rfl (by cbv) true, ?_, hhelp _ (by cbv),
    hjudged (.groupRequirement ["a", "b", "file"]) rfl (by cbv)⟩
  obtain ⟨chunks, argument, hwords, hread, -, hoption, -, hnext⟩ := hmissing "b" (by cbv)
  obtain rfl : Choice.letter = argument := Option.some.inj hoption
  have hfirst : chunks.flatMap Chunk.words = [] :=
    List.append_cancel_right (hwords.symm.trans (List.nil_append _).symm)
  have hnone : Chunk.readAll Choice.schema [] = .ok [] := by rw [Chunk.readAll]
  rw [hfirst, hnone] at hread
  obtain rfl := Except.ok.inj hread
  have hhelp : Chunk.readAll Choice.schema ["-help"] = .ok [.help] := by cbv
  refine (hnext "-b" ["-help"]).1.trans ?_
  rw [hhelp]
  rfl

end Schema

end CommandFrame
