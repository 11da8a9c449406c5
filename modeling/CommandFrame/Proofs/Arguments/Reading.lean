import CommandFrame.Arguments.Parse

/-!
# Reading argument words

What the reading of a chunk can come to is said once, by `Chunk.Effect`: which
words each outcome stands for, and what the schema has to do with it.
-/

namespace CommandFrame

theorem Schema.name_of_option? {schema : Schema} {name : Text}
    {argument : Argument} (h : schema.option? name = some argument) : argument.name = name := by
  have hfound := List.find?_some h
  simp only [Bool.and_eq_true, decide_eq_true_eq] at hfound
  exact hfound.2

namespace Chunk

structure Lists (schema : Schema) (argument : Argument) : Prop where
  ne_help : argument.name ≠ "help"
  ne_terminator : argument.name ≠ "-"
  option?_eq : schema.option? argument.name = some argument

/-- What comes of reading `word` when other words follow it. -/
inductive Effect (schema : Schema) :
    Text → List Text → Except ParseError (Chunk × List Text) → Prop
  | positional {word : Text} (rest : List Text) (hword : word.head? ≠ some '-') :
      Effect schema word rest (.ok (.positional word, rest))
  | help (rest : List Text) : Effect schema "-help" rest (.ok (.help, rest))
  | terminator (rest : List Text) : Effect schema "--" rest (.ok (.terminator, rest))
  | hidden (rest : List Text) (hname : schema.option? "hidden" = none) :
      Effect schema "-hidden" rest (.ok (.hidden, rest))
  | flag {argument : Argument} (rest : List Text) (hlists : Lists schema argument)
      (htakes : argument.type.takesValue = false) :
      Effect schema ('-' :: argument.name) rest
        (.ok (.option argument none (if argument.type = .boolean then .flag else .nothing), rest))
  | valued {argument : Argument} {value : Text} {given : Given} (rest : List Text)
      (hlists : Lists schema argument) (htakes : argument.type.takesValue = true)
      (hread : argument.read? value = some given) :
      Effect schema ('-' :: argument.name) (value :: rest)
        (.ok (.option argument (some value) given, rest))
  | missingValue {argument : Argument} (hlists : Lists schema argument)
      (htakes : argument.type.takesValue = true) :
      Effect schema ('-' :: argument.name) [] (.error (.missingValue argument.name))
  | invalidValue {argument : Argument} {value : Text} (rest : List Text)
      (hlists : Lists schema argument) (htakes : argument.type.takesValue = true)
      (hread : argument.read? value = none) :
      Effect schema ('-' :: argument.name) (value :: rest)
        (.error (.invalidValue argument.name value))
  | invalidOption {name : Text} (rest : List Text) (hhelp : name ≠ "help")
      (hterminator : name ≠ "-") (hhidden : name ≠ "hidden")
      (hoption : schema.option? name = none) :
      Effect schema ('-' :: name) rest (.error (.invalidOption name))

theorem effect_read (schema : Schema) (word : Text) (rest : List Text) :
    Effect schema word rest (read schema word rest) := by
  unfold read
  split
  · rename_i name
    split
    · rename_i hhelp
      subst hhelp
      exact .help rest
    split
    · rename_i hterminator
      subst hterminator
      exact .terminator rest
    rename_i hhelp hterminator
    split
    · rename_i argument hoption
      obtain rfl := Schema.name_of_option? hoption
      have hlists : Lists schema argument := ⟨hhelp, hterminator, hoption⟩
      unfold ofOption
      split
      · rename_i htakes
        split
        · exact .missingValue hlists htakes
        · split
          · rename_i hread
            exact .invalidValue _ hlists htakes hread
          · rename_i hread
            exact .valued _ hlists htakes hread
      · rename_i htakes
        exact .flag rest hlists (by simpa using htakes)
    · rename_i hoption
      split
      · rename_i hhidden
        subst hhidden
        exact .hidden rest hoption
      · rename_i hhidden
        exact .invalidOption rest hhelp hterminator hhidden hoption
  · rename_i hword
    refine .positional rest ?_
    intro hhead
    obtain ⟨name, rfl⟩ := List.head?_eq_some_iff.1 hhead
    exact hword name rfl

theorem Lists.read_eq {schema : Schema} {argument : Argument} (h : Lists schema argument)
    (rest : List Text) : read schema ('-' :: argument.name) rest = ofOption argument rest := by
  simp only [read, if_neg h.ne_help, if_neg h.ne_terminator, h.option?_eq]

theorem read_of_option?_eq_none {schema : Schema} {name : Text} (hhelp : name ≠ "help")
    (hterminator : name ≠ "-") (h : schema.option? name = none) (rest : List Text) :
    read schema ('-' :: name) rest =
      if name = "hidden" then .ok (.hidden, rest) else .error (.invalidOption name) := by
  simp only [read, if_neg hhelp, if_neg hterminator, h]

namespace Effect

variable {schema : Schema} {word : Text} {rest after : List Text} {chunk : Chunk}
  {outcome : Except ParseError (Chunk × List Text)} {error : ParseError}

theorem read_eq (h : Effect schema word rest outcome) : read schema word rest = outcome := by
  cases h with
  | positional rest hword =>
      unfold read
      split
      · exact absurd rfl hword
      · rfl
  | help | terminator => rfl
  | hidden rest hname =>
      exact read_of_option?_eq_none (by decide) (by decide) hname rest
  | flag rest hlists htakes =>
      rw [hlists.read_eq]
      simp [ofOption, htakes]
  | valued rest hlists htakes hread =>
      rw [hlists.read_eq]
      simp [ofOption, htakes, hread]
  | missingValue hlists htakes =>
      rw [hlists.read_eq]
      simp [ofOption, htakes]
  | invalidValue rest hlists htakes hread =>
      rw [hlists.read_eq]
      simp [ofOption, htakes, hread]
  | invalidOption rest hhelp hterminator hhidden hoption =>
      rw [read_of_option?_eq_none hhelp hterminator hoption]
      exact if_neg hhidden

theorem words_eq (h : Effect schema word rest (.ok (chunk, after))) :
    ∃ own, chunk.words = word :: own ∧ rest = own ++ after ∧
      ∀ behind, Effect schema word (own ++ behind) (.ok (chunk, behind)) := by
  cases h with
  | positional rest hword => exact ⟨[], rfl, rfl, fun behind => .positional behind hword⟩
  | help => exact ⟨[], rfl, rfl, fun behind => .help behind⟩
  | terminator => exact ⟨[], rfl, rfl, fun behind => .terminator behind⟩
  | hidden rest hname => exact ⟨[], rfl, rfl, fun behind => .hidden behind hname⟩
  | flag rest hlists htakes => exact ⟨[], rfl, rfl, fun behind => .flag behind hlists htakes⟩
  | valued rest hlists htakes hread =>
      exact ⟨[_], rfl, rfl, fun behind => .valued behind hlists htakes hread⟩

theorem readAll_eq_error (h : Effect schema word rest (.error error)) :
    readAll schema (word :: rest) = .error error := by
  have hread := h.read_eq
  rw [readAll]
  split
  · rename_i herror
    rw [← Except.error.inj (hread.symm.trans herror)]
  · rename_i hok
    exact absurd (hread.symm.trans hok) (by simp)
  · rename_i hok
    exact absurd (hread.symm.trans hok) (by simp)

theorem readAll_eq_map (h : Effect schema word rest (.ok (chunk, after)))
    (hchunk : chunk ≠ .terminator) :
    readAll schema (word :: rest) = (readAll schema after).map (chunk :: ·) := by
  have hread := h.read_eq
  rw [readAll]
  split
  · rename_i herror
    exact absurd (hread.symm.trans herror) (by simp)
  · rename_i hok
    have hsame := Except.ok.inj (hread.symm.trans hok)
    exact absurd (congrArg Prod.fst hsame) hchunk
  · rename_i hok
    cases Except.ok.inj (hread.symm.trans hok)
    rfl

end Effect

theorem readAll_terminator (schema : Schema) (rest : List Text) :
    readAll schema ("--" :: rest) = .ok (.terminator :: rest.map .positional) := by
  rw [readAll]
  rfl

theorem reading_induction (schema : Schema) {motive : List Text → Prop} (nil : motive [])
    (terminator : ∀ rest, motive ("--" :: rest))
    (chunk : ∀ word rest chunk after, Effect schema word rest (.ok (chunk, after)) →
      chunk ≠ .terminator → motive after → motive (word :: rest))
    (error : ∀ word rest error, Effect schema word rest (.error error) → motive (word :: rest))
    (words : List Text) : motive words := by
  fun_induction readAll schema words with
  | case1 => exact nil
  | case2 word rest failure hread => exact error word rest failure (hread ▸ effect_read ..)
  | case3 word rest after hread =>
      have heffect := effect_read schema word rest
      rw [hread] at heffect
      cases heffect
      exact terminator rest
  | case4 word rest first after hne hread ih =>
      exact chunk word rest first after (hread ▸ effect_read ..) hne ih

end Chunk

namespace Schema

variable {schema : Schema} {debug : Bool} {bindings : Bindings}

theorem bound_of_finish {chunks : List Chunk}
    (h : schema.finish debug chunks = .ok (.bound bindings)) :
    schema.checkGroups (Chunk.bindAll chunks) schema.groups = .ok () ∧
      bindings.values = Chunk.bindAll chunks ∧
        bindings.positionals = Chunk.positionals chunks := by
  simp only [finish] at h
  generalize (if Chunk.asksHelp chunks = true then
    some (schema.usage (Chunk.asksHidden chunks) false) else none) = help at h
  split at h
  · cases h
  · cases hgroups : schema.checkGroups (Chunk.bindAll chunks) schema.groups with
    | error error =>
        rw [hgroups] at h
        cases h
    | ok checked =>
        rw [hgroups] at h
        cases h
        exact ⟨rfl, rfl, rfl⟩

theorem bindings_of_finish {chunks : List Chunk}
    (h : schema.finish debug chunks = .ok (.bound bindings)) :
    bindings.values = Chunk.bindAll chunks ∧
      bindings.positionals = Chunk.positionals chunks :=
  (bound_of_finish h).2

theorem bound_of_parse {words : List Text}
    (h : schema.parse debug words = .ok (.bound bindings)) :
    ∃ chunks, Chunk.readAll schema words = .ok chunks ∧
      schema.checkGroups (Chunk.bindAll chunks) schema.groups = .ok () ∧
        bindings.values = Chunk.bindAll chunks ∧
          bindings.positionals = Chunk.positionals chunks := by
  unfold parse at h
  split at h
  · contradiction
  · rename_i chunks hread
    exact ⟨chunks, hread, bound_of_finish h⟩

theorem bindings_of_parse {words : List Text}
    (h : schema.parse debug words = .ok (.bound bindings)) :
    ∃ chunks, Chunk.readAll schema words = .ok chunks ∧
      bindings.values = Chunk.bindAll chunks ∧
        bindings.positionals = Chunk.positionals chunks := by
  obtain ⟨chunks, hread, -, hbindings⟩ := bound_of_parse h
  exact ⟨chunks, hread, hbindings⟩

end Schema

end CommandFrame
