import CommandFrame.Builtin.All
import CommandFrame.Proofs.Arguments.Occurrences
import CommandFrame.Proofs.FileTree.Canonical

/-!
# What builtin commands do to a session

Of the commands that every frame has, only two change a session when they
succeed: one goes to a directory, the other sets named data.
-/

namespace CommandFrame

namespace Registry

theorem get?_foldl_register {commands : List Command} {registry : Registry} {name : Text}
    {command : Command} (h : (commands.foldl register registry).get? name = some command) :
    command ∈ commands ∧ command.name = name ∨ registry.get? name = some command := by
  induction commands generalizing registry with
  | nil => exact .inr h
  | cons first commands ih =>
      rcases ih h with ⟨hlater, hname⟩ | hbefore
      · exact .inl ⟨List.mem_cons_of_mem _ hlater, hname⟩
      · rw [register, NameMap.get?_insert] at hbefore
        split at hbefore
        · rename_i hname
          cases hbefore
          exact .inl ⟨List.mem_cons_self, hname⟩
        · exact .inr hbefore

theorem mem_of_get?_builtins {name : Text} {command : Command}
    (h : builtins.get? name = some command) : command ∈ Builtin.all ∧ command.name = name := by
  rcases get?_foldl_register h with hcommand | hempty
  · exact hcommand
  · rw [NameMap.get?_empty] at hempty
    contradiction

end Registry

namespace Builtin

/-- What a successful command makes of a session. -/
inductive Effect (tree : FileTree) (bindings : Bindings) (session : Session) :
    Command → Session → Prop
  | keeps {command : Command} (hcd : command.name ≠ "cd") (hset : command.name ≠ "set_data") :
      Effect tree bindings session command session
  | goes {location : Location} (hlocation : tree.IsCanonical location) :
      Effect tree bindings session cd { session with cwd := Path.ofLocation location }
  | sets (hname : bindings.has "name" = true) (hvalue : bindings.has "value" = true) :
      Effect tree bindings session setData
        { session with
          data := session.data.insert (bindings.strOr "name" []) (bindings.strOr "value" []) }

variable {surroundings : Surroundings} {session after : Session} {bindings : Bindings}
  {text : Text}

theorem effect_cd (h : cd.run surroundings session bindings = .ok (after, text)) :
    Effect surroundings.host.tree bindings session cd after := by
  simp only [cd] at h
  split at h
  · contradiction
  · rename_i location hseek
    cases h
    exact .goes (FileTree.isCanonical_of_seek hseek)
  · contradiction

theorem effect_setData (h : setData.run surroundings session bindings = .ok (after, text)) :
    Effect surroundings.host.tree bindings session setData after := by
  simp only [setData] at h
  split at h
  · contradiction
  split at h
  · contradiction
  rename_i hname hvalue
  cases h
  exact .sets (by simpa using hname) (by simpa using hvalue)

theorem session_of_complete (h : complete.run surroundings session bindings = .ok (after, text)) :
    after = session := by
  simp only [complete] at h
  split at h
  · contradiction
  split at h
  · contradiction
  · cases h
    rfl
  · cases h
    rfl

theorem session_of_getData (h : getData.run surroundings session bindings = .ok (after, text)) :
    after = session := by
  simp only [getData] at h
  split at h
  · cases h
    rfl
  · contradiction

theorem session_of_help (h : help.run surroundings session bindings = .ok (after, text)) :
    after = session := by
  simp only [help] at h
  split at h
  · contradiction
  · cases h
    rfl

theorem session_of_view {kind : ViewKind}
    (h : (view kind).run surroundings session bindings = .ok (after, text)) :
    after = session := by
  simp only [view] at h
  split at h
  · cases h
    rfl
  · generalize kind.load _ _ _ = content at h
    cases content with
    | error error => contradiction
    | ok content =>
        cases h
        rfl

theorem effect_of_run {command : Command} (hcommand : command ∈ all)
    (h : command.run surroundings session bindings = .ok (after, text)) :
    Effect surroundings.host.tree bindings session command after := by
  have hkeeps (hcd : command.name ≠ "cd") (hset : command.name ≠ "set_data")
      (hafter : after = session) :
      Effect surroundings.host.tree bindings session command after :=
    hafter ▸ .keeps hcd hset
  simp only [all, ViewKind.all, List.map_cons, List.map_nil, List.cons_append, List.nil_append,
    List.mem_cons, List.not_mem_nil, or_false] at hcommand
  rcases hcommand with rfl | rfl | rfl | rfl | rfl | rfl | rfl | hview
  · exact effect_cd h
  · exact hkeeps (by decide) (by decide) (session_of_complete h)
  · exact effect_setData h
  · exact hkeeps (by decide) (by decide) (session_of_getData h)
  · cases h
    exact .keeps (by decide) (by decide)
  · exact hkeeps (by decide) (by decide) (session_of_help h)
  · cases h
    exact .keeps (by decide) (by decide)
  · obtain ⟨kind, rfl⟩ : ∃ kind, command = view kind := by
      rcases hview with rfl | rfl | rfl | rfl | rfl
      all_goals exact ⟨_, rfl⟩
    exact hkeeps (by cases kind <;> decide) (by cases kind <;> decide) (session_of_view h)

/-! ## Named data -/

/-- The value first given to an option among the words after a command's name. -/
def firstGiven? (schema : Schema) (words : List Text) (name : Text) : Option Text :=
  (Chunk.readAll schema words).toOption.bind fun chunks =>
    ((Chunk.valuesOf name chunks).filterMap id).head?

def setting? (words : List Text) : Option (Text × Text) :=
  if words.head? = some ("set_data" : Text) then
    (firstGiven? setData.schema words.tail "name").bind fun name =>
      (firstGiven? setData.schema words.tail "value").map fun value => (name, value)
  else none

theorem firstGiven?_of_parse {schema : Schema} {debug : Bool} {words : List Text} {name : Text}
    {argument : Argument} (h : schema.parse debug words = .ok (.bound bindings))
    (hoption : schema.option? name = some argument) (htype : argument.type = .string)
    (hmultiple : argument.multiple = false) (hhas : bindings.has name = true) :
    firstGiven? schema words name = some (bindings.strOr name []) := by
  obtain ⟨chunks, hread, hvalues, -⟩ := Schema.bindings_of_parse h
  have hvalue : bindings.value? name = argument.valueOf? (Chunk.valuesOf name chunks) := by
    rw [Bindings.value?, hvalues, Chunk.get?_bindAll (Chunk.ofSchema_of_readAll hread), hoption,
      Option.bind_some]
  have hsome : (bindings.value? name).isSome = true := hhas
  simp only [firstGiven?, hread, Except.toOption, Option.bind_some, Bindings.strOr]
  simp only [Argument.valueOf?, htype, hmultiple, Bool.false_eq_true, ↓reduceIte] at hvalue
  rw [hvalue] at hsome ⊢
  cases htexts : (Chunk.valuesOf name chunks).filterMap id with
  | nil =>
      rw [htexts] at hsome
      contradiction
  | cons first rest => cases rest <;> rfl

theorem setting?_of_parse {debug : Bool} {words : List Text}
    (h : setData.schema.parse debug words = .ok (.bound bindings))
    (hname : bindings.has "name" = true) (hvalue : bindings.has "value" = true) :
    setting? ("set_data" :: words) =
      some (bindings.strOr "name" [], bindings.strOr "value" []) := by
  have hfirstName := firstGiven?_of_parse h rfl rfl rfl hname
  have hfirstValue := firstGiven?_of_parse h rfl rfl rfl hvalue
  simp only [setting?, List.head?_cons, ↓reduceIte, List.tail_cons, hfirstName, hfirstValue,
    Option.bind_some, Option.map_some]

theorem head?_of_setting? {words : List Text} {entry : Text × Text}
    (h : setting? words = some entry) : words.head? = some ("set_data" : Text) := by
  unfold setting? at h
  split at h
  · assumption
  · contradiction

theorem parse_getData (debug : Bool) (name : Text) :
    ∃ bindings, getData.schema.parse debug ["-name", name] = .ok (.bound bindings) ∧
      bindings.strOr "name" [] = name := by
  obtain ⟨argument, hoption, htype, hmultiple⟩ : ∃ argument,
      getData.schema.option? "name" = some argument ∧ argument.type = .string ∧
        argument.multiple = false := ⟨_, rfl, rfl, rfl⟩
  have hname := Schema.name_of_option? hoption
  have hlists : Chunk.Lists getData.schema argument :=
    ⟨hname ▸ by decide, hname ▸ by decide, hname ▸ hoption⟩
  have hread : argument.read? name = some (.word name) := by
    simp [Argument.read?, htype, hmultiple]
  have heffect := Chunk.Effect.valued [] hlists (by rw [htype]; rfl) hread
  have hchunks := heffect.readAll_eq_map (by simp)
  rw [Chunk.readAll, hname] at hchunks
  have hparse := Schema.parse_of_readAll hchunks debug
  cases debug
  all_goals
    refine ⟨_, hparse, ?_⟩
    simp [Bindings.strOr, Bindings.value?, Chunk.bindAll, Chunk.bind, Chunk.accumulate, hname]

end Builtin

end CommandFrame
