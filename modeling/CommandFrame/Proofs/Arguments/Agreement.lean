import CommandFrame.Arguments.Parse
import CommandFrame.Catalog
import CommandFrame.Proofs.Arguments.Reading
import CommandFrame.Proofs.Line.Slots

/-!
# Scanner and parser agree

The scanner tells options, values and positionals apart by the arity that the
catalog gives, word for word; the parser reads chunks by the schema.  They come
to the same, up to the first word that the parser refuses.
-/

namespace CommandFrame

open Line (Invocation Slot Token TokenKind)

/-! ## What words are to the parser -/

def Chunk.roles : Chunk → List (TokenKind × Text)
  | positional word => [(.positional, word)]
  | help => [(.option, "-help")]
  | hidden => [(.option, "-hidden")]
  | terminator => [(.option, "--")]
  | option argument value _ => (.option, '-' :: argument.name) :: value.toList.map (.value, ·)

/-- The words that an error is about, from the option that cannot be read on. -/
def ParseError.roles : ParseError → List (TokenKind × Text)
  | invalidOption name | missingValue name => [(.option, '-' :: name)]
  | invalidValue name value => [(.option, '-' :: name), (.value, value)]
  | groupExclusivity _ | groupRequirement _ => []

def Chunk.value? : Chunk → Option Text
  | option _ value _ => value
  | _ => none

theorem Chunk.map_snd_roles (chunk : Chunk) : chunk.roles.map Prod.snd = chunk.words := by
  cases chunk with
  | option argument value given => cases value <;> rfl
  | _ => rfl

theorem Chunk.filterMap_eq_roles {take? : Chunk → Option Text} {kind : TokenKind}
    (h : ∀ chunk : Chunk,
      (take? chunk).toList = (chunk.roles.filter (·.1 = kind)).map Prod.snd)
    (chunks : List Chunk) :
    chunks.filterMap take? =
      ((chunks.flatMap Chunk.roles).filter (·.1 = kind)).map Prod.snd := by
  induction chunks with
  | nil => rfl
  | cons chunk chunks ih =>
      rw [List.flatMap_cons, List.filter_append, List.map_append, ← ih, ← h chunk,
        List.filterMap_cons]
      cases take? chunk <;> rfl

theorem Chunk.positionals_eq (chunks : List Chunk) :
    Chunk.positionals chunks =
      ((chunks.flatMap Chunk.roles).filter (·.1 = .positional)).map Prod.snd := by
  apply Chunk.filterMap_eq_roles
  intro chunk
  cases chunk with
  | option argument value given => cases value <;> rfl
  | _ => rfl

theorem Chunk.filterMap_value? (chunks : List Chunk) :
    chunks.filterMap Chunk.value? =
      ((chunks.flatMap Chunk.roles).filter (·.1 = .value)).map Prod.snd := by
  apply Chunk.filterMap_eq_roles
  intro chunk
  cases chunk with
  | option argument value given => cases value <;> rfl
  | _ => rfl

/-! ## What words are to the scanner -/

theorem Catalog.arity_eq {catalog : Catalog} {name : Text} {entry : Entry}
    (h : catalog.get? name = some entry) (option : Text) :
    catalog.arity name option =
      some ((entry.schema.option? option).any (·.type.takesValue)) := by
  cases hoption : entry.schema.option? option with
  | none => simp [arity, h, hoption]
  | some argument => simp [arity, h, hoption]

theorem Catalog.arity_of_lists {catalog : Catalog} {name : Text} {entry : Entry}
    {argument : Argument} (h : catalog.get? name = some entry)
    (hlists : Chunk.Lists entry.schema argument) :
    catalog.arity name argument.name = some argument.type.takesValue := by
  rw [arity_eq h, hlists.option?_eq]
  rfl

namespace Line.Invocation

variable {arity : Arity} {number : Nat} {name : Text}

theorem takeWord_positional {word : Text} (h : word.head? ≠ some '-') :
    ({ number, command := some name } : Invocation).takeWord arity word =
      (.positional, { number, command := some name }) := by
  simp only [takeWord, Bool.false_eq_true, ↓reduceIte]
  split
  · exact absurd rfl h
  · rfl

theorem classify_option {option : Text} (h : option ≠ "-") {takes : Bool}
    (harity : arity name option = some takes) (slots : List Slot) :
    ({ number, command := some name } : Invocation).classify arity
        (.word ('-' :: option) :: slots) =
      (.option, '-' :: option) ::
        ({ number, command := some name, awaitsValue := takes } : Invocation).classify arity
          slots := by
  have htake : ({ number, command := some name } : Invocation).takeWord arity ('-' :: option) =
      (.option, { number, command := some name, awaitsValue := takes }) := by
    simp only [takeWord, harity]
    exact if_neg h
  rw [classify, htake]

theorem classify_value (value : Text) (slots : List Slot) :
    ({ number, command := some name, awaitsValue := true } : Invocation).classify arity
        (.word value :: slots) =
      (.value, value) :: ({ number, command := some name } : Invocation).classify arity slots :=
  rfl

theorem classify_optionsDone (words : List Text) :
    ({ number, command := some name, optionsDone := true } : Invocation).classify arity
      (words.map .word) = words.map (.positional, ·) := by
  induction words with
  | nil => rfl
  | cons word words ih =>
      rw [List.map_cons, List.map_cons, ← ih]
      rfl

end Line.Invocation

/-! ## Agreement -/

section

variable {catalog : Catalog} {name : Text} {entry : Entry} {number : Nat}

theorem Chunk.Effect.classify_eq (hentry : catalog.get? name = some entry)
    (hhelp : (entry.schema.option? "help").any (·.type.takesValue) = false)
    {word : Text} {rest after : List Text} {chunk : Chunk}
    (h : Chunk.Effect entry.schema word rest (.ok (chunk, after))) (hchunk : chunk ≠ .terminator) :
    ({ number, command := some name } : Invocation).classify catalog.arity
        ((word :: rest).map .word) =
      chunk.roles ++ ({ number, command := some name } : Invocation).classify catalog.arity
        (after.map .word) := by
  cases h with
  | positional rest hword =>
      rw [List.map_cons, Invocation.classify, Invocation.takeWord_positional hword]
      rfl
  | help rest =>
      have harity := Catalog.arity_eq hentry "help"
      rw [hhelp] at harity
      exact Invocation.classify_option (by decide) harity _
  | terminator rest => exact absurd rfl hchunk
  | hidden rest hname =>
      have harity := Catalog.arity_eq hentry "hidden"
      rw [hname] at harity
      exact Invocation.classify_option (by decide) harity _
  | flag rest hlists htakes =>
      have harity := Catalog.arity_of_lists hentry hlists
      rw [htakes] at harity
      exact Invocation.classify_option hlists.ne_terminator harity _
  | valued rest hlists htakes hread =>
      have harity := Catalog.arity_of_lists hentry hlists
      rw [htakes] at harity
      rw [List.map_cons, Invocation.classify_option hlists.ne_terminator harity, List.map_cons,
        Invocation.classify_value]
      rfl

theorem Chunk.Effect.exists_classify_eq (number : Nat) (hentry : catalog.get? name = some entry)
    {word : Text} {rest : List Text} {error : ParseError}
    (h : Chunk.Effect entry.schema word rest (.error error)) :
    ∃ unread, ({ number, command := some name } : Invocation).classify catalog.arity
      ((word :: rest).map .word) = error.roles ++ unread := by
  cases h with
  | missingValue hlists htakes =>
      have harity := Catalog.arity_of_lists hentry hlists
      rw [htakes] at harity
      exact ⟨_, Invocation.classify_option hlists.ne_terminator harity _⟩
  | invalidValue rest hlists htakes hread =>
      have harity := Catalog.arity_of_lists hentry hlists
      rw [htakes] at harity
      rw [List.map_cons, Invocation.classify_option hlists.ne_terminator harity, List.map_cons,
        Invocation.classify_value]
      exact ⟨_, rfl⟩
  | @invalidOption name rest hhelp hterminator hhidden hoption =>
      have harity := Catalog.arity_eq hentry name
      rw [hoption] at harity
      exact ⟨_, Invocation.classify_option hterminator harity _⟩

theorem Chunk.exists_chunks (number : Nat) (hentry : catalog.get? name = some entry)
    (hhelp : (entry.schema.option? "help").any (·.type.takesValue) = false) (words : List Text) :
    ∃ chunks refused unread,
      ({ number, command := some name } : Invocation).classify catalog.arity (words.map .word) =
        chunks.flatMap Chunk.roles ++ refused ++ unread ∧
      Chunk.readAll entry.schema ((chunks.flatMap Chunk.roles).map Prod.snd) = .ok chunks ∧
      ((refused = [] ∧ unread = []) ∨
        ∃ error, Chunk.readAll entry.schema words = .error error ∧ refused = error.roles ∧
          refused ≠ []) := by
  -- The induction is the one of the parser: by chunks, and not by words.
  induction words using Chunk.reading_induction entry.schema with
  | nil => exact ⟨[], [], [], rfl, by rw [List.flatMap_nil, List.map_nil, Chunk.readAll], .inl ⟨rfl, rfl⟩⟩
  | terminator rest =>
      have hroles : (rest.map Chunk.positional).flatMap Chunk.roles = rest.map (.positional, ·) := by
        rw [List.flatMap_map]
        exact List.map_eq_flatMap.symm
      refine ⟨.terminator :: rest.map .positional, [], [], ?_, ?_, .inl ⟨rfl, rfl⟩⟩
      · rw [List.flatMap_cons, hroles, ← Invocation.classify_optionsDone]
        simp only [List.append_nil]
        rfl
      · rw [List.flatMap_cons, hroles]
        have hwords : (rest.map (TokenKind.positional, ·)).map Prod.snd = rest := by
          rw [List.map_map]
          exact List.map_id rest
        rw [List.map_append, hwords]
        exact Chunk.readAll_terminator entry.schema rest
  | chunk word rest chunk after heffect hchunk ih =>
      obtain ⟨chunks, refused, unread, hclassify, hread, hrest⟩ := ih
      refine ⟨chunk :: chunks, refused, unread, ?_, ?_, ?_⟩
      · rw [heffect.classify_eq hentry hhelp hchunk, hclassify]
        simp
      · obtain ⟨own, hwords, -, hagain⟩ := heffect.words_eq
        rw [List.flatMap_cons, List.map_append, Chunk.map_snd_roles, hwords, List.cons_append,
          (hagain _).readAll_eq_map hchunk, hread]
        rfl
      · rcases hrest with hnone | ⟨error, herror, hrefused⟩
        · exact .inl hnone
        · refine .inr ⟨error, ?_, hrefused⟩
          rw [heffect.readAll_eq_map hchunk, herror]
          rfl
  | error word rest error heffect =>
      obtain ⟨unread, hunread⟩ := heffect.exists_classify_eq number hentry
      refine ⟨[], error.roles, unread, hunread, ?_, .inr ⟨error, heffect.readAll_eq_error, rfl, ?_⟩⟩
      · rw [List.flatMap_nil, List.map_nil, Chunk.readAll]
      · cases heffect <;> simp [ParseError.roles]

end

def Line.Token.role (token : Token) : TokenKind × Text := (token.kind, token.value)

theorem Line.map_value_filter (kind : TokenKind) (tokens : List Token) :
    (tokens.filter (·.kind = kind)).map Token.value =
      ((tokens.map Token.role).filter (·.1 = kind)).map Prod.snd := by
  rw [List.filter_map, List.map_map]
  rfl

theorem Line.map_role_eq {arity : Line.Arity} {line : Text}
    (hsteps : ∀ step ∈ Line.steps arity true line, step.lexeme ≠ .opening)
    (hvalue : ∀ token ∈ Line.tokens arity line, token.text = token.value)
    {number : Nat} {command : Token} {words : List Token}
    (hwords : (Line.tokens arity line).filter (·.invocation = number) = command :: words) :
    command.kind = .command ∧
      words.map Token.role = ({ number, command := some command.value } : Invocation).classify
        arity ((words.map Token.value).map .word) := by
  have hclassify := Line.classify_words hsteps number
  have hplain : ∀ token ∈ command :: words, token.text = token.value := by
    intro token htoken
    rw [← hwords] at htoken
    exact hvalue token (List.mem_filter.1 htoken).1
  rw [List.forall_mem_cons] at hplain
  rw [hwords, List.map_cons, List.map_cons, Invocation.classify, hplain.1] at hclassify
  obtain ⟨hcommand, hothers⟩ := List.cons.inj hclassify
  have hroles : words.map (fun token => (token.kind, token.text)) = words.map Token.role := by
    apply List.map_congr_left
    intro token htoken
    rw [hplain.2 token htoken]
    rfl
  have htexts : (words.map fun token => Slot.word token.text) =
      (words.map Token.value).map Slot.word := by
    rw [List.map_map]
    apply List.map_congr_left
    intro token htoken
    rw [hplain.2 token htoken]
    rfl
  rw [hroles, htexts] at hothers
  exact ⟨congrArg Prod.fst hcommand, hothers⟩

/-- In a line without substitutions and escapes, the words of a known command are
to the parser what they are to the scanner, up to those that the parser refuses. -/
theorem Catalog.exists_read_words {catalog : Catalog} {line : Text}
    (hsteps : ∀ step ∈ Line.steps catalog.arity true line, step.lexeme ≠ .opening)
    (hvalue : ∀ token ∈ Line.tokens catalog.arity line, token.text = token.value)
    {number : Nat} {command : Token} {words : List Token}
    (hwords : (Line.tokens catalog.arity line).filter (·.invocation = number) = command :: words)
    {entry : Entry} (hentry : catalog.get? command.value = some entry)
    (hhelp : (entry.schema.option? "help").any (·.type.takesValue) = false) :
    command.kind = .command ∧
      ∃ read refused unread chunks,
        words = read ++ refused ++ unread ∧
        Chunk.readAll entry.schema (read.map Token.value) = .ok chunks ∧
        read.map Token.role = chunks.flatMap Chunk.roles ∧
        (read.filter (·.kind = .positional)).map Token.value = Chunk.positionals chunks ∧
        (read.filter (·.kind = .value)).map Token.value = chunks.filterMap Chunk.value? ∧
        (∀ debug bindings,
          entry.schema.parse debug (words.map Token.value) = .ok (.bound bindings) →
            bindings.positionals = (words.filter (·.kind = .positional)).map Token.value) ∧
        ((refused = [] ∧ unread = []) ∨
          ∃ error, Chunk.readAll entry.schema (words.map Token.value) = .error error ∧
            refused.map Token.role = error.roles ∧ refused ≠ []) := by
  obtain ⟨hcommand, hclassify⟩ := Line.map_role_eq hsteps hvalue hwords
  refine ⟨hcommand, ?_⟩
  obtain ⟨chunks, refused, unread, hchunks, hread, hrest⟩ :=
    Chunk.exists_chunks number hentry hhelp (words.map Token.value)
  have hall := hclassify.trans hchunks
  obtain ⟨front, behind, rfl, hfront, rfl⟩ := List.map_eq_append_iff.1 hall
  obtain ⟨passed, halted, rfl, hpassed, rfl⟩ := List.map_eq_append_iff.1 hfront
  have hvalues : passed.map Token.value = (chunks.flatMap Chunk.roles).map Prod.snd := by
    rw [← hpassed, List.map_map]
    rfl
  have hpositionals : (passed.filter (·.kind = .positional)).map Token.value =
      Chunk.positionals chunks := by
    rw [Line.map_value_filter, hpassed, Chunk.positionals_eq]
  refine ⟨passed, halted, behind, chunks, rfl, hvalues ▸ hread, hpassed, hpositionals, ?_, ?_, ?_⟩
  · rw [Line.map_value_filter, hpassed, Chunk.filterMap_value?]
  · intro debug bindings hparse
    obtain ⟨others, hothers, -, hbound⟩ := Schema.bindings_of_parse hparse
    rcases hrest with ⟨hhalted, hbehind⟩ | ⟨error, herror, -⟩
    · obtain rfl := List.map_eq_nil_iff.1 hhalted
      obtain rfl := List.map_eq_nil_iff.1 hbehind
      simp only [List.append_nil] at hothers ⊢
      rw [hvalues, hread] at hothers
      rw [hbound, hpositionals, Except.ok.inj hothers]
    · rw [herror] at hothers
      contradiction
  · rcases hrest with ⟨hhalted, hbehind⟩ | ⟨error, herror, hhalted, hne⟩
    · exact .inl ⟨List.map_eq_nil_iff.1 hhalted, List.map_eq_nil_iff.1 hbehind⟩
    · exact .inr ⟨error, herror, hhalted, fun hnil => hne (List.map_eq_nil_iff.2 hnil)⟩

def Schema.counting : Schema :=
  ⟨"t", [⟨1, "n", true, .integer, "n", "", false, false, false, false, none, []⟩], []⟩

def Catalog.counting : Catalog := NameMap.empty.insert "t" ⟨.counting, fun _ _ _ _ => none⟩

theorem Catalog.exists_read_words_counting :
    ∃ (command : Token) (words : List Token) (chunks : List Chunk),
      (Line.tokens Catalog.counting.arity "t -n -5 x -- -n").filter (·.invocation = 0) =
        command :: words ∧
      words.map Token.role = ([(.option, "-n"), (.value, "-5"), (.positional, "x"),
        (.option, "--"), (.positional, "-n")] : List (TokenKind × Text)) ∧
      Chunk.readAll Schema.counting (words.map Token.value) = .ok chunks ∧
      words.map Token.role = chunks.flatMap Chunk.roles := by
  have hwords : (Line.tokens Catalog.counting.arity "t -n -5 x -- -n").filter (·.invocation = 0) =
      ⟨.command, "t", 0, 1, .bare, 0⟩ :: [⟨.option, "-n", 2, 4, .bare, 0⟩,
        ⟨.value, "-5", 5, 7, .bare, 0⟩, ⟨.positional, "x", 8, 9, .bare, 0⟩,
        ⟨.option, "--", 10, 12, .bare, 0⟩, ⟨.positional, "-n", 13, 15, .bare, 0⟩] := by
    decide +kernel
  obtain ⟨-, read, refused, unread, chunks, hsplit, hread, hroles, -, -, -, hrest⟩ :=
    Catalog.exists_read_words (by decide +kernel) (by decide +kernel) hwords
      (show Catalog.counting.get? "t" = some ⟨.counting, fun _ _ _ _ => none⟩ from rfl) rfl
  refine ⟨_, _, chunks, hwords, rfl, ?_⟩
  rcases hrest with ⟨rfl, rfl⟩ | ⟨error, herror, -⟩
  · rw [List.append_nil, List.append_nil] at hsplit
    rw [hsplit]
    exact ⟨hread, hroles⟩
  · have hok : (Chunk.readAll Schema.counting ["-n", "-5", "x", "--", "-n"]).isOk = true := by
      decide +kernel
    have hfailed : Chunk.readAll Schema.counting ["-n", "-5", "x", "--", "-n"] = .error error :=
      herror
    rw [hfailed] at hok
    contradiction

end CommandFrame
