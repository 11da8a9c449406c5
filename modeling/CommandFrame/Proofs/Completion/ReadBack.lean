import CommandFrame.Completion.Interactive
import CommandFrame.Proofs.Completion.Place

/-!
# Reading back a completed word

A completion leaves the words before the focus alone.  The word that it writes
is read back exactly if it fits its place: most words do, and which do not is
what `Quote.Fits` says.
-/

namespace CommandFrame

open Line (Token Quote)

namespace Line

theorem exists_token_at_iff {arity : Arity} {brackets : Bool} {state : State} {offset : Nat}
    {quote : Quote} {body word : Text} :
    (∃ token ∈ (scanFrom arity brackets state offset (quote.opening ++ body)).tokens,
      token.start = offset + Text.byteLength quote.opening ∧ token.quote = quote ∧
        token.value = word) ↔
      ∃ text closed after, Reads (state.context brackets) (quote.opening ++ body)
        (.word quote text closed) after ∧ quote.read text = word := by
  constructor
  · rintro ⟨token, htoken, hstart, rfl, rfl⟩
    have hne : token.quote.opening ++ body ≠ [] := by
      intro hnil
      rw [hnil] at htoken
      simp at htoken
    obtain ⟨c, others, htext⟩ := List.exists_cons_of_ne_nil hne
    obtain ⟨lexeme, rest, hread⟩ := exists_reads (state.context brackets) c others
    rw [← htext] at hread
    rcases (mem_tokens_of_reads hread).1 htoken with hword | hrest
    · obtain ⟨quote, text, closed, rfl, rfl⟩ := Step.token?_eq_some hword
      exact ⟨text, closed, rest, hread, rfl⟩
    · obtain ⟨before, after, -, hlater, -⟩ := span_of_mem_tokens hrest
      have hsource := Text.byteLength_pos hread.source_ne_nil
      rw [hstart, Step.stop_mk, Text.byteLength_append] at hlater
      omega
  · rintro ⟨text, closed, after, hread, rfl⟩
    refine ⟨state.wordToken arity offset quote text, ?_, rfl, rfl, rfl⟩
    exact (mem_tokens_of_reads hread).2 (.inl (Step.token?_word ..))

end Line

namespace CompletionTarget

/-- What the candidates that start with the typed text share. -/
def shared (target : CompletionTarget) (typed : Text) : Text :=
  Text.commonStart (Text.candidatesFor typed target.candidates)

def endsWord (target : CompletionTarget) (typed : Text) : Bool :=
  Text.isExact (Text.candidatesFor typed target.candidates) && target.exactSpace

end CompletionTarget

namespace Focus

def behind (focus : Focus) (line : Text) (spaceAfter : Bool) : Text :=
  let rest := (Text.splitBytes focus.token.stop line).2
  let hasSpace := rest.head? = some ' ' || rest.head? = some '\t'
  (if (spaceAfter && focus.token.quote = .bare) && !hasSpace then [' '] else []) ++ rest

/-- The line up to a word that is put in the place of the focus, and the word. -/
def written (focus : Focus) (line word : Text) : Text :=
  (Text.splitBytes focus.token.start line).1 ++ focus.token.quote.escape word

def landing (focus : Focus) (line word : Text) (spaceAfter : Bool) : Nat :=
  Text.byteLength (focus.written line word) +
    if spaceAfter && focus.token.quote = .bare then 1 else 0

def context (arity : Line.Arity) (line : Text) (focus : Focus) : Line.Context where
  brackets := true
  nested := !(Line.scan arity true (Text.splitBytes focus.token.start line).1).complete
  fresh := focus.token.kind = .command

/-! ## What a completion does -/

theorem replace_eq (focus : Focus) (line word : Text) (spaceAfter : Bool) :
    focus.replace line word spaceAfter =
      if focus.written line word ++ focus.behind line spaceAfter = line ∧
          focus.landing line word spaceAfter = focus.token.stop then .unchanged
      else .replaced (focus.written line word ++ focus.behind line spaceAfter)
        (focus.landing line word spaceAfter) := by
  simp only [replace, written, behind, landing, List.append_assoc]

theorem reduce_replaced {focus : Focus} {line completed : Text} {target : CompletionTarget}
    {cursor : Nat} (h : focus.reduce line target = .replaced completed cursor) :
    Text.candidatesFor focus.typed target.candidates ≠ [] ∧
      (Text.isExact (Text.candidatesFor focus.typed target.candidates) = true ∨
        Text.byteLength focus.typed < Text.byteLength (target.shared focus.typed)) ∧
      completed = focus.written line (target.shared focus.typed) ++
        focus.behind line (target.endsWord focus.typed) ∧
      cursor = focus.landing line (target.shared focus.typed) (target.endsWord focus.typed) := by
  unfold reduce at h
  simp only at h
  split at h
  · contradiction
  split at h
  · contradiction
  rename_i hfound hchoice
  rw [replace_eq] at h
  split at h
  · contradiction
  · cases h
    refine ⟨hfound, ?_, rfl, rfl⟩
    cases hexact : Text.isExact (Text.candidatesFor focus.typed target.candidates) with
    | true => exact .inl rfl
    | false => exact .inr (by simpa [hexact, CompletionTarget.shared] using hchoice)

theorem reduce_eq_replaced {focus : Focus} {line completed : Text} {target : CompletionTarget}
    {cursor : Nat} (h : focus.reduce line target = .replaced completed cursor) :
    completed = focus.written line (target.shared focus.typed) ++
      focus.behind line (target.endsWord focus.typed) :=
  (reduce_replaced h).2.2.1

/-! ## What a place is good for -/

namespace StandsIn

variable {arity : Line.Arity} {line passed tail : Text} {focus : Focus} {reached : Line.State}

theorem splitBytes_start (h : focus.StandsIn arity line passed tail reached) :
    (Text.splitBytes focus.token.start line).1 = passed ++ focus.token.quote.opening := by
  have hline : line = (passed ++ focus.token.quote.opening) ++ (focus.token.text ++ tail) := by
    simp [h.line_eq]
  rw [h.start_eq, hline, Text.splitBytes_byteLength_append]

theorem splitBytes_stop (h : focus.StandsIn arity line passed tail reached) :
    (Text.splitBytes focus.token.stop line).2 = tail := by
  rw [h.stop_eq, h.start_eq, ← Text.byteLength_append, h.line_eq,
    Text.splitBytes_byteLength_append]

theorem behind_eq (h : focus.StandsIn arity line passed tail reached)
    (hquote : focus.token.quote ≠ .bare) (spaceAfter : Bool) :
    focus.behind line spaceAfter = tail := by
  simp [behind, h.splitBytes_stop, hquote]

theorem behind_brace (h : focus.StandsIn arity line passed tail reached) (spaceAfter : Bool)
    (hquote : focus.token.quote = .brace) :
    (focus.behind line spaceAfter).head?.all (· = '}') = true := by
  rw [h.behind_eq (by simp [hquote])]
  exact h.tail_brace hquote

theorem behind_double (h : focus.StandsIn arity line passed tail reached) (spaceAfter : Bool)
    (hquote : focus.token.quote = .double) :
    (focus.behind line spaceAfter).head?.all (· = '"') = true := by
  rw [h.behind_eq (by simp [hquote])]
  exact h.tail_double hquote

theorem behind_false (h : focus.StandsIn arity line passed tail reached) :
    focus.behind line false = tail := by
  simp [behind, h.splitBytes_stop]

theorem tokens_eq (h : focus.StandsIn arity line passed tail reached) (rest : Text) :
    Line.tokens arity (passed ++ focus.token.quote.opening ++ rest) =
      focus.before ++ (Line.scanFrom arity true reached (0 + Text.byteLength passed)
        (focus.token.quote.opening ++ rest)).tokens := by
  rw [h.before_eq, List.append_assoc]
  exact h.passes.goesOn _

theorem start_lt_of_mem_before (h : focus.StandsIn arity line passed tail reached) {token : Token}
    (htoken : token ∈ focus.before) : token.start < focus.token.start := by
  have hlt := h.before_lt token htoken
  rw [h.before_eq] at htoken
  have hle := (Line.isSpanOf_of_mem_tokens htoken).start_le_stop
  omega

theorem start_eq_add (h : focus.StandsIn arity line passed tail reached) :
    focus.token.start =
      0 + Text.byteLength passed + Text.byteLength focus.token.quote.opening := by
  rw [h.start_eq, Text.byteLength_append, Nat.zero_add]

theorem filter_tokens (h : focus.StandsIn arity line passed tail reached) (rest : Text) :
    (Line.tokens arity (passed ++ focus.token.quote.opening ++ rest)).filter
      (·.start < focus.token.start) = focus.before := by
  rw [h.tokens_eq, List.filter_append, List.filter_eq_self.2, List.filter_eq_nil_iff.2,
    List.append_nil]
  · intro token htoken
    have hle := le_start_of_delimiter focus.token.quote htoken
    rw [← h.start_eq_add] at hle
    simpa using hle
  · intro token htoken
    simpa using h.start_lt_of_mem_before htoken

theorem fits_context_iff (h : focus.StandsIn arity line passed tail reached) (word rest : Text) :
    focus.token.quote.Fits (focus.context arity line) word rest ↔
      focus.token.quote.Fits (reached.context true) word rest := by
  cases hquote : focus.token.quote with
  | brace => exact Iff.rfl
  | double => exact Iff.rfl
  | bare =>
      have hopening : focus.token.quote.opening = [] := by rw [hquote]; rfl
      have hfresh : decide (focus.token.kind = .command) = reached.current.command.isNone := by
        rw [Bool.eq_iff_iff, decide_eq_true_iff, h.kind_iff, Option.isNone_iff_eq_none]
      have hcontext : focus.context arity line = reached.context true := by
        rw [context, h.splitBytes_start, hopening, List.append_nil]
        change Line.Context.mk true (!(Line.scanFrom arity true _ 0 passed).complete) _ = _
        rw [h.passes.complete]
        simp [Line.State.context, hfresh]
      rw [hcontext]

theorem exists_token_iff (h : focus.StandsIn arity line passed tail reached) (word : Text)
    (spaceAfter : Bool) :
    (∃ token ∈ Line.tokens arity (focus.written line word ++ focus.behind line spaceAfter),
      token.start = focus.token.start ∧ token.quote = focus.token.quote ∧ token.value = word) ↔
      focus.token.quote.Fits (focus.context arity line) word (focus.behind line spaceAfter) := by
  rw [h.fits_context_iff, ← Line.readsBack_iff_fits _ word (h.behind_brace spaceAfter)
    (h.behind_double spaceAfter), Line.Quote.ReadsBack, List.append_assoc,
    ← Line.exists_token_at_iff, ← h.start_eq_add, written, h.splitBytes_start,
    List.append_assoc, h.tokens_eq]
  constructor
  · rintro ⟨token, htoken, hstart, hrest⟩
    rcases List.mem_append.1 htoken with hbefore | hhere
    · exact absurd hstart (Nat.ne_of_lt (h.start_lt_of_mem_before hbefore))
    · exact ⟨token, hhere, hstart, hrest⟩
  · rintro ⟨token, htoken, hrest⟩
    exact ⟨token, List.mem_append_right _ htoken, hrest⟩

end StandsIn

end Focus

theorem Catalog.complete_eq_replaced {catalog : Catalog} {host : Host} {session : Session}
    {line completed : Text} {cursor after : Nat}
    (h : catalog.complete host session line cursor = .replaced completed after) :
    ∃ focus target, Focus.find? catalog.arity line cursor = some focus ∧
      focus.target? catalog host session = some target ∧
      focus.reduce line target = .replaced completed after := by
  unfold complete at h
  split at h
  · contradiction
  · rename_i focus hfocus
    split at h
    · contradiction
    · rename_i target htarget
      exact ⟨focus, target, hfocus, htarget, h⟩

/-- A completion that changes the line keeps the words before the focus, and a
new word is bare.  In the place of the focus stands a word that means what the
candidates share exactly if that fits there. -/
theorem Catalog.complete_reads_back_iff {catalog : Catalog} {host : Host} {session : Session}
    {line completed : Text} {cursor after : Nat}
    (h : catalog.complete host session line cursor = .replaced completed after) :
    ∃ focus target, Focus.find? catalog.arity line cursor = some focus ∧
      focus.target? catalog host session = some target ∧
      (Line.tokens catalog.arity completed).filter (·.start < focus.token.start) =
        (Line.tokens catalog.arity line).filter (·.start < focus.token.start) ∧
      (Line.indexAt? (Line.tokens catalog.arity line)
        (Text.byteLength (Text.splitBytes cursor line).1) = none → focus.token.quote = .bare) ∧
      ((∃ token ∈ Line.tokens catalog.arity completed, token.start = focus.token.start ∧
          token.quote = focus.token.quote ∧ token.value = target.shared focus.typed) ↔
        focus.token.quote.Fits (focus.context catalog.arity line) (target.shared focus.typed)
          (focus.behind line (target.endsWord focus.typed))) := by
  obtain ⟨focus, target, hfocus, htarget, hreduce⟩ := complete_eq_replaced h
  obtain ⟨⟨passed, tail, reached, hplace⟩, hnew⟩ := Focus.standsIn_of_find hfocus
  refine ⟨focus, target, hfocus, htarget, ?_, ?_, ?_⟩
  · rw [Focus.reduce_eq_replaced hreduce, Focus.written, hplace.splitBytes_start,
      List.append_assoc, hplace.filter_tokens, hplace.line_eq, List.append_assoc,
      hplace.filter_tokens]
  · exact fun hindex => hnew (Focus.onToken?_eq_none_of_indexAt? hindex)
  · rw [Focus.reduce_eq_replaced hreduce]
    exact hplace.exists_token_iff _ _

def Catalog.offering (words : List Text) : Catalog :=
  NameMap.empty.insert "t" {
    schema := ⟨"t", [⟨1, "word", false, .string, "word", "", false, false, false, false, none, []⟩], []⟩
    values := fun _ _ _ _ => some words }

def Session.bare : Session := ⟨{}, "/", .new 100, .empty, none⟩

def Host.bare : Host := { tree := ⟨[]⟩, homes := [] }

theorem Catalog.complete_reads_back_blank :
    (Catalog.offering ["a b"]).complete .bare .bare "t a" 3 = .replaced "t a\\ b " 7 ∧
      ∃ token ∈ Line.tokens (Catalog.offering ["a b"]).arity "t a\\ b ",
        token.start = 2 ∧ token.quote = .bare ∧ token.value = "a b" := by
  have hcomplete : (Catalog.offering ["a b"]).complete .bare .bare "t a" 3 =
      .replaced "t a\\ b " 7 := by decide +kernel
  refine ⟨hcomplete, ?_⟩
  obtain ⟨focus, target, hfocus, htarget, -, -, hiff⟩ := Catalog.complete_reads_back_iff hcomplete
  have hplace : Focus.find? (Catalog.offering ["a b"]).arity "t a" 3 =
      some ⟨[⟨.command, "t", 0, 1, .bare, 0⟩], ⟨.positional, "a", 2, 3, .bare, 0⟩, [], "a"⟩ := by
    decide +kernel
  obtain rfl := Option.some.inj (hplace.symm.trans hfocus)
  obtain rfl : (⟨["a b"], true⟩ : CompletionTarget) = target :=
    Option.some.inj (Eq.trans (by decide +kernel) htarget)
  exact hiff.2 (by decide +kernel)

/-- A carriage return in a candidate is written as it is, and ends the word. -/
theorem Catalog.complete_not_always_read_back :
    ¬∀ (catalog : Catalog) (host : Host) (session : Session) (line : Text) (cursor : Nat)
        (completed : Text) (after : Nat) (focus : Focus) (target : CompletionTarget),
      catalog.complete host session line cursor = .replaced completed after →
      Focus.find? catalog.arity line cursor = some focus →
      focus.target? catalog host session = some target →
      ∃ token ∈ Line.tokens catalog.arity completed, token.start = focus.token.start ∧
        token.quote = focus.token.quote ∧ token.value = target.shared focus.typed := by
  intro h
  have hlost := h (Catalog.offering ["a\rb"]) .bare .bare "t a" 3 "t a\rb " 6
    ⟨[⟨.command, "t", 0, 1, .bare, 0⟩], ⟨.positional, "a", 2, 3, .bare, 0⟩, [], "a"⟩
    ⟨["a\rb"], true⟩ (by decide +kernel) (by decide +kernel) (by decide +kernel)
  revert hlost
  decide +kernel

end CommandFrame
