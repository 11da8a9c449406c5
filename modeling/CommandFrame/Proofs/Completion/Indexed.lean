import CommandFrame.Proofs.Completion.Query
import CommandFrame.Proofs.Line.Indexed

/-!
# Completion by byte offsets

Completion once more, with the cursor and the tokens' places as byte offsets that the
line is cut at, and with the dash of an option cut off.  A cut that is out of place has
no result.  There always is one, and it is the completion.
-/

namespace CommandFrame.Indexed

open Line (Token TokenKind)

def tokens (arity : Line.Arity) (line : Text) : Option (List Token) :=
  (Line.Indexed.scan line arity true).map Line.Scan.tokens

/-- The focus on a line with the cursor at any byte offset. -/
def focus (arity : Line.Arity) (line : Text) (cursor : Nat) : Option (Option Focus) := do
  let cursor ← line.boundaryUpTo? (min cursor (Text.byteLength line))
  match Focus.onToken? (← tokens arity line) cursor with
  | some focus => return some focus
  | none =>
      let start ← line.upTo? cursor
      let rest ← line.from? cursor
      let probed ← tokens arity (start ++ Focus.probe :: rest)
      return (Focus.splitAt? (·.start = cursor) probed).map fun (before, token, after) =>
        { before, token := { token with text := [], stop := cursor }, after, typed := [] }

/-! ## Options of the invocation -/

def take (given : Focus.Given) (kind : TokenKind) (word : Text) : Option Focus.Given := do
  if kind = .option ∧ word ≠ "--" then
    let name ← word.from? 1
    return ⟨given.values.insert name [], some name⟩
  else return given.take kind word

def takeTokens (invocation : Nat) (given : Focus.Given) (tokens : List Token) :
    Option Focus.Given :=
  (tokens.filter (·.invocation = invocation)).foldlM
    (fun given token => take given token.kind token.value) given

def given (focus : Focus) : Option NameValues := do
  let before ← takeTokens focus.token.invocation .none focus.before
  let here ← take before focus.token.kind focus.typed
  let all ← takeTokens focus.token.invocation here focus.after
  match focus.token.kind, before.last with
  | .value, some option => return all.values.insert option focus.typed
  | _, _ => return all.values

def option (focus : Focus) : Option (Option Text) :=
  match focus.previous? .option with
  | none => some none
  | some token => (token.value.from? 1).map some

/-! ## The target -/

def valueArgument (focus : Focus) (given : NameValues) (schema : Schema) :
    Option (Option (Argument × NameValues)) := do
  if focus.token.kind = .value then
    match ← option focus with
    | none => return none
    | some name => return (schema.option? name).map fun argument => (argument, given)
  else
    return (schema.positionals.find? (·.type = .string)).map fun argument =>
      (argument, given.insert argument.name focus.typed)

def valueTarget (focus : Focus) (catalog : Catalog) (host : Host) (session : Session) :
    Option (Option CompletionTarget) :=
  match focus.command? with
  | none => some none
  | some command =>
      match catalog.get? command with
      | none => some none
      | some entry => do
          match ← valueArgument focus (← given focus) entry.schema with
          | none => return none
          | some (argument, given) =>
              return some {
                candidates := catalog.candidates host session command argument given
                exactSpace := !argument.path || session.config.pathExactSpace }

def target (focus : Focus) (catalog : Catalog) (host : Host) (session : Session) :
    Option (Option CompletionTarget) :=
  match focus.token.kind with
  | .command => some (some ⟨catalog.keys, true⟩)
  | .option => some (focus.optionTarget? catalog)
  | .value | .positional => valueTarget focus catalog host session

/-! ## The replacement -/

def replace (focus : Focus) (line word : Text) (spaceAfter : Bool) : Option Completion := do
  let rest ← line.from? focus.token.stop
  let written := (← line.upTo? focus.token.start) ++ focus.token.quote.escape word
  let spaceAfter := spaceAfter && focus.token.quote = .bare
  let hasSpace := rest.head? = some ' ' || rest.head? = some '\t'
  let completed := written ++ (if spaceAfter && !hasSpace then [' '] else []) ++ rest
  let cursor := Text.byteLength written + if spaceAfter then 1 else 0
  if completed = line ∧ cursor = focus.token.stop then return .unchanged
  else return .replaced completed cursor

def reduce (focus : Focus) (line : Text) (target : CompletionTarget) : Option Completion :=
  let found := Text.candidatesFor focus.typed target.candidates
  let common := Text.commonStart found
  if found = [] then some .unchanged
  else if !Text.isExact found && Text.byteLength common ≤ Text.byteLength focus.typed then
    some (.candidates found)
  else replace focus line common (Text.isExact found && target.exactSpace)

def complete (catalog : Catalog) (host : Host) (session : Session) (line : Text) (cursor : Nat) :
    Option Completion := do
  match ← focus catalog.arity line cursor with
  | none => return .unchanged
  | some focus =>
      match ← target focus catalog host session with
      | none => return .unchanged
      | some target => reduce focus line target

/-! ## The focus -/

theorem tokens_eq (arity : Line.Arity) (line : Text) :
    tokens arity line = some (Line.tokens arity line) := by
  rw [tokens, Line.Indexed.scan_eq]
  rfl

theorem focus_eq (arity : Line.Arity) (line : Text) (cursor : Nat) :
    focus arity line cursor = some (Focus.find? arity line cursor) := by
  have hline := Text.splitBytes_append cursor line
  unfold focus Focus.find?
  rw [Text.boundaryUpTo?_min]
  generalize Text.splitBytes cursor line = cut at hline ⊢
  have hstart : line.upTo? (Text.byteLength cut.1) = some cut.1 :=
    Text.upTo?_eq_some_iff.2 ⟨cut.2, hline.symm, rfl⟩
  have hrest : line.from? (Text.byteLength cut.1) = some cut.2 :=
    Text.from?_eq_some_iff.2 ⟨cut.1, hline.symm, rfl⟩
  simp only [Option.bind_eq_bind, Option.bind_some, tokens_eq]
  cases Focus.onToken? (Line.tokens arity line) (Text.byteLength cut.1) with
  | some focus => rfl
  | none =>
      simp only [hstart, hrest, Option.bind_some]
      rfl

/-! ## Dashes -/

def HasDash (kind : TokenKind) (word : Text) : Prop := kind = .option → word.head? = some '-'

theorem from?_one {word : Text} (h : word.head? = some '-') :
    word.from? 1 = some (word.drop 1) := by
  obtain ⟨name, rfl⟩ := List.head?_eq_some_iff.1 h
  exact Text.from?_append ['-'] name

theorem take_eq {kind : TokenKind} {word : Text} (h : HasDash kind word) (given : Focus.Given) :
    take given kind word = some (given.take kind word) := by
  unfold take
  by_cases hoption : kind = .option ∧ word ≠ "--"
  · obtain ⟨rfl, hend⟩ := hoption
    rw [if_pos ⟨rfl, hend⟩, from?_one (h rfl)]
    simp only [Focus.Given.take, if_neg hend]
    rfl
  · rw [if_neg hoption]
    rfl

theorem takeTokens_eq {tokens : List Token} (h : ∀ token ∈ tokens, HasDash token.kind token.value)
    (invocation : Nat) (given : Focus.Given) :
    takeTokens invocation given tokens = some (given.takeTokens invocation tokens) := by
  unfold takeTokens Focus.Given.takeTokens
  have hfilter : ∀ token ∈ tokens.filter (·.invocation = invocation),
      HasDash token.kind token.value := fun token htoken => h token (List.mem_filter.1 htoken).1
  generalize tokens.filter (·.invocation = invocation) = own at hfilter
  induction own generalizing given with
  | nil => rfl
  | cons token own ih =>
      rw [List.forall_mem_cons] at hfilter
      rw [List.foldlM_cons, take_eq hfilter.1]
      exact ih _ hfilter.2

structure Dashed (focus : Focus) : Prop where
  before : ∀ token ∈ focus.before, HasDash token.kind token.value
  typed : HasDash focus.token.kind focus.typed
  after : ∀ token ∈ focus.after, HasDash token.kind token.value

theorem hasDash_of_mem_tokens {arity : Line.Arity} {line : Text} {token : Token}
    (h : token ∈ Line.tokens arity line) : HasDash token.kind token.value :=
  fun hkind => Line.Quote.head?_read (Line.head?_of_option h hkind)

theorem dashed_of_find {arity : Line.Arity} {line : Text} {cursor : Nat} {focus : Focus}
    (h : Focus.find? arity line cursor = some focus) : Dashed focus := by
  obtain ⟨text, other, htokens, -⟩ := Focus.exists_tokens_of_find h
  have hmem : ∀ token ∈ focus.before ++ other :: focus.after,
      HasDash token.kind token.value := by
    rw [← htokens]
    exact fun token => hasDash_of_mem_tokens
  constructor
  · exact fun token htoken => hmem token (List.mem_append_left _ htoken)
  · intro hkind
    rw [← Focus.typed_of_option h hkind]
    rfl
  · exact fun token htoken => hmem token (by simp [htoken])

variable {focus : Focus}

theorem given_eq (h : Dashed focus) : given focus = some focus.given := by
  unfold given Focus.given
  rw [takeTokens_eq h.before]
  simp only [Option.bind_eq_bind, Option.bind_some, take_eq h.typed, takeTokens_eq h.after]
  generalize Focus.Given.takeTokens _ _ focus.before = before
  generalize Focus.Given.takeTokens _ _ focus.after = all
  obtain ⟨_, last⟩ := before
  cases focus.token.kind <;> cases last <;> rfl

theorem option_eq (h : Dashed focus) : option focus = some focus.option? := by
  unfold option Focus.option?
  cases hprevious : focus.previous? .option with
  | none => rfl
  | some token =>
      have hmem : token ∈ focus.before := List.mem_reverse.1 (List.mem_of_find?_eq_some hprevious)
      have hkind : token.kind = .option := by
        have hfound := List.find?_some hprevious
        simp only [Bool.and_eq_true, decide_eq_true_eq] at hfound
        exact hfound.2
      simp [from?_one (h.before token hmem hkind)]

theorem valueArgument_eq (h : Dashed focus) (schema : Schema) :
    valueArgument focus focus.given schema = some (focus.valueArgument? schema) := by
  unfold valueArgument Focus.valueArgument?
  split
  · rw [option_eq h]
    cases focus.option? with
    | none => rfl
    | some name =>
        simp only [Option.bind_eq_bind, Option.bind_some]
        cases schema.option? name <;> rfl
  · simp only [Option.bind_eq_bind]
    cases schema.positionals.find? (·.type = .string) <;> rfl

theorem valueTarget_eq (h : Dashed focus) (catalog : Catalog) (host : Host) (session : Session) :
    valueTarget focus catalog host session = some (focus.valueTarget? catalog host session) := by
  unfold valueTarget Focus.valueTarget?
  cases focus.command? with
  | none => rfl
  | some command =>
      simp only [Option.bind_eq_bind, Option.bind_some]
      cases catalog.get? command with
      | none => rfl
      | some entry =>
          simp only [given_eq h, valueArgument_eq h, Option.bind_some]
          cases focus.valueArgument? entry.schema with
          | none => rfl
          | some argument => rfl

theorem target_eq (h : Dashed focus) (catalog : Catalog) (host : Host) (session : Session) :
    target focus catalog host session = some (focus.target? catalog host session) := by
  unfold target Focus.target?
  cases focus.token.kind with
  | command | option => rfl
  | value | positional => exact valueTarget_eq h catalog host session

/-! ## The line -/

theorem replace_eq {arity : Line.Arity} {line passed tail : Text} {reached : Line.State}
    (h : focus.StandsIn arity line passed tail reached) (word : Text) (spaceAfter : Bool) :
    replace focus line word spaceAfter = some (focus.replace line word spaceAfter) := by
  have hstart : line.upTo? focus.token.start = some (passed ++ focus.token.quote.opening) := by
    rw [Text.upTo?_eq_some_iff]
    exact ⟨focus.token.text ++ tail, by simp [h.line_eq], h.start_eq.symm⟩
  have hstop : line.from? focus.token.stop = some tail := by
    rw [Text.from?_eq_some_iff]
    refine ⟨passed ++ focus.token.quote.opening ++ focus.token.text, h.line_eq, ?_⟩
    rw [h.stop_eq, h.start_eq, Text.byteLength_append _ focus.token.text]
  unfold replace Focus.replace
  rw [hstop, hstart, Text.fst_splitBytes hstart, Text.snd_splitBytes hstop]
  exact (apply_ite some ..).symm

theorem reduce_eq {arity : Line.Arity} {line passed tail : Text} {reached : Line.State}
    (h : focus.StandsIn arity line passed tail reached) (target : CompletionTarget) :
    reduce focus line target = some (focus.reduce line target) := by
  simp only [reduce, Focus.reduce, replace_eq h]
  split
  · rfl
  · split <;> rfl

theorem complete_eq (catalog : Catalog) (host : Host) (session : Session) (line : Text)
    (cursor : Nat) :
    complete catalog host session line cursor =
      some (catalog.complete host session line cursor) := by
  unfold complete Catalog.complete
  rw [focus_eq]
  cases hfocus : Focus.find? catalog.arity line cursor with
  | none => rfl
  | some focus =>
      obtain ⟨⟨passed, tail, reached, hstands⟩, -⟩ := Focus.standsIn_of_find hfocus
      simp only [Option.bind_eq_bind, Option.bind_some, target_eq (dashed_of_find hfocus)]
      cases focus.target? catalog host session with
      | none => rfl
      | some target => exact reduce_eq hstands target

/-- Scanning and completing by byte offsets always have a result, whatever the line and
the cursor are: no cut is out of place, no dash is cut off a word that has none, no step
back goes below the start, and no loop takes more rounds than it has fuel for. -/
theorem scan_and_complete_eq_some :
    (∀ (arity : Line.Arity) (brackets : Bool) (line : Text),
      Line.Indexed.scan line arity brackets = some (Line.scan arity brackets line)) ∧
    ∀ (catalog : Catalog) (host : Host) (session : Session) (line : Text) (cursor : Nat),
      complete catalog host session line cursor =
        some (catalog.complete host session line cursor) :=
  ⟨Line.Indexed.scan_eq, complete_eq⟩

end CommandFrame.Indexed
