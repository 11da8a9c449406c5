import CommandFrame.Proofs.Completion.Query
import CommandFrame.Proofs.Schema.Hidden
import CommandFrame.Proofs.Schema.Usage

/-!
# Hidden options in completion

A line is read with what is known of the options that it writes.  So as long as it writes no
hidden option, whatever it types of one, its options are completed as if the command had
none.
-/

namespace CommandFrame

/-! ## Options that a line writes -/

namespace Line

theorem Invocation.takeWord_congr {arity arity' : Arity} {invocation : Invocation} {text : Text}
    (h : ∀ command option, invocation.command = some command →
      (invocation.takeWord arity text).1 = .option → text = '-' :: option →
        arity' command option = arity command option) :
    invocation.takeWord arity' text = invocation.takeWord arity text := by
  unfold takeWord
  cases hcommand : invocation.command with
  | none => rfl
  | some name =>
      simp only
      split
      · rfl
      split
      · rfl
      split
      · rename_i hawaits hdone option
        split
        · rfl
        · have hkind : (invocation.takeWord arity ('-' :: option)).1 = .option := by
            simp [takeWord, *]
          rw [h name option hcommand hkind rfl]
      · rfl

def Step.WritesOption (arity : Arity) (step : Step) (command option : Text) : Prop :=
  step.state.current.command = some command ∧
    ∃ token, step.token? arity = some token ∧ token.kind = .option ∧ token.text = '-' :: option

/-- The line has a word that is an option of the command. -/
def WritesOption (arity : Arity) (line command option : Text) : Prop :=
  ∃ step ∈ steps arity true line, step.WritesOption arity command option

theorem WritesOption.exists_token {arity : Arity} {line command option : Text}
    (h : WritesOption arity line command option) :
    ∃ token ∈ tokens arity line, token.kind = .option ∧ token.text = '-' :: option := by
  obtain ⟨step, hstep, -, token, htoken, hword⟩ := h
  refine ⟨token, ?_, hword⟩
  rw [tokens_eq_steps]
  exact List.mem_filterMap.2 ⟨step, hstep, htoken⟩

theorem State.advance_congr {arity arity' : Arity} {state : State} {offset : Nat}
    {lexeme : Lexeme}
    (h : ∀ command option, Step.WritesOption arity ⟨state, offset, lexeme⟩ command option →
      arity' command option = arity command option) :
    state.advance arity' offset lexeme = state.advance arity offset lexeme := by
  cases lexeme with
  | word quote text closed =>
      have hword : state.current.takeWord arity' text = state.current.takeWord arity text :=
        Invocation.takeWord_congr fun command option hcommand hkind htext =>
          h command option ⟨hcommand, _, rfl, hkind, htext⟩
      simp only [advance, hword]
  | _ => rfl

theorem scanFrom_congr {arity arity' : Arity} {brackets : Bool} {state : State} {offset : Nat}
    {text : Text}
    (h : ∀ step ∈ stepsFrom arity brackets state offset text, ∀ command option,
      step.WritesOption arity command option → arity' command option = arity command option) :
    scanFrom arity' brackets state offset text = scanFrom arity brackets state offset text := by
  induction state, offset, text using scan_induction arity brackets with
  | nil state offset => simp
  | step state offset text lexeme rest hread ih =>
      rw [stepsFrom_of_reads hread, List.forall_mem_cons] at h
      have hadvance := State.advance_congr h.1
      have hrest := ih h.2
      rw [scanFrom_of_reads hread, scanFrom_of_reads hread]
      simp only [Step.next, Step.token?] at hrest ⊢
      rw [hadvance, hrest]

end Line

/-! ## Two schemas of a command -/

def Catalog.withSchema (catalog : Catalog) (schema : Schema) (values : ValueSource) : Catalog :=
  catalog.insert schema.name ⟨schema, values⟩

section

variable {catalog : Catalog} {schema : Schema} {values : ValueSource}

theorem Catalog.get?_withSchema (command : Text) :
    (catalog.withSchema schema values).get? command =
      if schema.name = command then some ⟨schema, values⟩ else catalog.get? command :=
  NameMap.get?_insert ..

theorem Catalog.optionNames_visible (command : Text) :
    ((catalog.withSchema schema.visible values).get? command).map (·.schema.optionNames false) =
      ((catalog.withSchema schema values).get? command).map (·.schema.optionNames false) := by
  rw [get?_withSchema, get?_withSchema, Schema.name_visible]
  split
  · exact congrArg some (schema.optionNames_visible false)
  · rfl

theorem Catalog.arity_visible {command option : Text}
    (h : schema.name = command → ¬schema.Hides option) :
    (catalog.withSchema schema.visible values).arity command option =
      (catalog.withSchema schema values).arity command option := by
  by_cases hcommand : schema.name = command
  · simp [arity, get?_withSchema, hcommand, Schema.option?_visible (h hcommand)]
  · simp [arity, get?_withSchema, hcommand]

theorem Focus.optionTarget?_eq (focus : Focus) (catalog : Catalog) :
    focus.optionTarget? catalog = do
      let command ← focus.command?
      let names ← (catalog.get? command).map (·.schema.optionNames false)
      return ⟨names, true⟩ := by
  rw [optionTarget?]
  cases focus.command? with
  | none => rfl
  | some command =>
      cases hentry : catalog.get? command <;> simp [hentry]

theorem Focus.optionTarget?_visible (focus : Focus) :
    focus.optionTarget? (catalog.withSchema schema.visible values) =
      focus.optionTarget? (catalog.withSchema schema values) := by
  simp only [optionTarget?_eq, Catalog.optionNames_visible]

theorem CompletionQuery.answer_visible {query : CompletionQuery} {option : Text}
    (hoption : query.option = some option) (hvalue : query.value = none) (host : Host)
    (session : Session) :
    query.answer (catalog.withSchema schema.visible values) host session =
      query.answer (catalog.withSchema schema values) host session := by
  by_cases hcommand : schema.name = query.command
  · simp [answer, hoption, hvalue, Catalog.get?_withSchema, hcommand, answerOption,
      Schema.optionNames_visible]
  · simp [answer, hoption, hvalue, Catalog.get?_withSchema, hcommand]

theorem Focus.find?_congr {arity arity' : Line.Arity} {line : Text} {cursor : Nat} {focus : Focus}
    (hfocus : find? arity line cursor = some focus) (hkind : focus.token.kind = .option)
    (h : ∀ command option, Line.WritesOption arity line command option →
      arity' command option = arity command option) :
    find? arity' line cursor = some focus := by
  have htokens : Line.tokens arity' line = Line.tokens arity line :=
    congrArg Line.Scan.tokens <| Line.scanFrom_congr fun step hstep command option hwrites =>
      h command option ⟨step, hstep, hwrites⟩
  unfold find? at hfocus ⊢
  simp only [htokens] at hfocus ⊢
  split at hfocus
  · exact hfocus
  · exact absurd hkind (kind_ne_option_of_onNewWord hfocus)

theorem Catalog.complete_visible {line : Text} {cursor : Nat} {focus : Focus}
    (hfocus : Focus.find? (catalog.withSchema schema values).arity line cursor = some focus)
    (hkind : focus.token.kind = .option)
    (hwrites : ∀ option, schema.Hides option →
      ¬Line.WritesOption (catalog.withSchema schema values).arity line schema.name option)
    (host : Host) (session : Session) :
    (catalog.withSchema schema.visible values).complete host session line cursor =
      (catalog.withSchema schema values).complete host session line cursor := by
  have hagain : Focus.find? (catalog.withSchema schema.visible values).arity line cursor =
      some focus :=
    Focus.find?_congr hfocus hkind fun command option hoption => arity_visible <| by
      rintro rfl hhides
      exact hwrites option hhides hoption
  simp only [complete, hfocus, hagain, Focus.target?, hkind, Focus.optionTarget?_visible]

end

/-- Unless they are asked for by their names, hidden arguments make no difference: the
usage, the names of the options, the answers to queries for such a name and the completion
of an option word are those of the schema without them. -/
theorem Schema.hidden_arguments_leave_no_trace (schema : Schema) (catalog : Catalog)
    (values : ValueSource) :
    (∀ verbose, schema.usage false verbose = schema.visible.usage true verbose) ∧
    schema.optionNames false = schema.visible.optionNames true ∧
    (∀ (query : CompletionQuery) (option : Text),
      query.option = some option → query.value = none → ∀ host session,
        query.answer (catalog.withSchema schema values) host session =
          query.answer (catalog.withSchema schema.visible values) host session) ∧
    ∀ line cursor focus,
      Focus.find? (catalog.withSchema schema values).arity line cursor = some focus →
      focus.token.kind = .option →
      (∀ option, schema.Hides option →
        ¬Line.WritesOption (catalog.withSchema schema values).arity line schema.name option) →
      ∀ host session,
        (catalog.withSchema schema values).complete host session line cursor =
          (catalog.withSchema schema.visible values).complete host session line cursor := by
  refine ⟨?_, ?_, ?_, ?_⟩
  · exact fun verbose => (schema.usage_visible verbose).symm
  · exact (schema.optionNames_visible true).symm
  · intro query option hoption hvalue host session
    exact (CompletionQuery.answer_visible hoption hvalue host session).symm
  · intro line cursor focus hfocus hkind hwrites host session
    exact (Catalog.complete_visible hfocus hkind hwrites host session).symm

namespace HiddenPrefix

open Schema.Interleaved (schema)

def values : ValueSource := fun _ _ _ _ => none

def catalog (schema : Schema) : Catalog := Catalog.withSchema .empty schema values

def line : Text := "seek -count 1 -al"

def focus : Focus :=
  ⟨[⟨.command, "seek", 0, 4, .bare, 0⟩, ⟨.option, "-count", 5, 11, .bare, 0⟩,
    ⟨.value, "1", 12, 13, .bare, 0⟩], ⟨.option, "-al", 14, 17, .bare, 0⟩, [], "-al"⟩

def asked : CompletionQuery where
  command := "seek"
  option := some "e"

theorem not_writesOption (option : Text) (hhides : schema.Hides option) :
    ¬Line.WritesOption (catalog schema).arity line "seek" option := by
  intro hwrites
  obtain ⟨token, htoken, hkind, htext⟩ := hwrites.exists_token
  have htokens : Line.tokens (catalog schema).arity line = focus.before ++ [focus.token] := by
    decide +kernel
  have hwritten : ∀ token ∈ focus.before ++ [focus.token], token.kind = .option →
      ∀ argument ∈ schema.arguments, argument.hidden = true →
        token.text ≠ '-' :: argument.name := by decide +kernel
  obtain ⟨argument, hargument, -, hhidden, rfl⟩ := hhides
  exact hwritten token (htokens ▸ htoken) hkind argument hargument hhidden htext

end HiddenPrefix

section

open HiddenPrefix

theorem Schema.hidden_arguments_leave_no_trace_prefix :
    Focus.find? (catalog Interleaved.schema).arity line 17 = some focus ∧
      (∀ host session, asked.answer (catalog Interleaved.schema) host session =
        asked.answer (catalog Interleaved.schema.visible) host session) ∧
      ∀ host session, (catalog Interleaved.schema).complete host session line 17 =
        (catalog Interleaved.schema.visible).complete host session line 17 := by
  have hfocus : Focus.find? (catalog Interleaved.schema).arity line 17 = some focus := by
    decide +kernel
  obtain ⟨-, -, hanswer, hcomplete⟩ :=
    hidden_arguments_leave_no_trace Interleaved.schema .empty values
  exact ⟨hfocus, hanswer asked "e" rfl rfl, hcomplete line 17 focus hfocus rfl not_writesOption⟩

end

end CommandFrame
