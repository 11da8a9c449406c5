import CommandFrame.Completion.Focus
import CommandFrame.Proofs.Completion.Written
import CommandFrame.Proofs.Line.Passage

/-!
# Where the word under the cursor stands

The line before the focus is passed word for word, whatever the focus becomes:
this holds for a token of the line and for a word that a probe has begun.
-/

namespace CommandFrame

open Line (Token Passes Quote State Arity)

namespace Focus

/-! ## Splitting tokens -/

theorem splitAt?_eq_some {test : Token → Bool} {tokens before after : List Token} {token : Token}
    (h : splitAt? test tokens = some (before, token, after)) :
    tokens = before ++ token :: after ∧ test token = true := by
  induction tokens generalizing before with
  | nil => simp [splitAt?] at h
  | cons first tokens ih =>
      unfold splitAt? at h
      split at h
      · rename_i htest
        cases h
        exact ⟨rfl, htest⟩
      · obtain ⟨⟨others, found, rest⟩, hfound, heq⟩ := Option.map_eq_some_iff.1 h
        cases heq
        obtain ⟨rfl, htest⟩ := ih hfound
        exact ⟨rfl, htest⟩

theorem splitAt?_eq_none {test : Token → Bool} {tokens : List Token}
    (h : splitAt? test tokens = none) : ∀ token ∈ tokens, test token = false := by
  induction tokens with
  | nil => simp
  | cons first tokens ih =>
      unfold splitAt? at h
      split at h
      · contradiction
      · rename_i htest
        intro token htoken
        rcases List.mem_cons.1 htoken with rfl | htoken
        · simpa using htest
        · exact ih (by simpa using h) token htoken

theorem onToken?_eq_none_of_indexAt? {tokens : List Token} {offset : Nat}
    (h : Line.indexAt? tokens offset = none) : onToken? tokens offset = none := by
  cases hfocus : onToken? tokens offset with
  | none => rfl
  | some focus =>
      obtain ⟨⟨before, token, after⟩, hsplit, -⟩ := Option.map_eq_some_iff.1 hfocus
      obtain ⟨rfl, hcontains⟩ := splitAt?_eq_some hsplit
      rw [Line.indexAt?, List.findIdx?_eq_none_iff] at h
      have hnot := h token (by simp)
      exact absurd (hcontains.symm.trans hnot) (by decide)

/-! ## Places -/

/-- The focus stands between `passed`, with the opening delimiter of its quoting
behind it, and `tail`. -/
structure StandsIn (arity : Arity) (line : Text) (focus : Focus) (passed tail : Text)
    (reached : State) : Prop where
  line_eq : line = passed ++ focus.token.quote.opening ++ focus.token.text ++ tail
  passes : Passes arity true State.start 0 passed reached
  before_eq : focus.before = Line.tokens arity passed
  before_lt : ∀ token ∈ focus.before, token.stop < focus.token.start
  start_eq : focus.token.start = Text.byteLength (passed ++ focus.token.quote.opening)
  stop_eq : focus.token.stop = focus.token.start + Text.byteLength focus.token.text
  kind_eq : ∃ text, focus.token.kind = (reached.current.takeWord arity text).1
  invocation_eq : focus.token.invocation = reached.current.number
  tail_bare : focus.token.quote = .bare → ∀ text closed rest,
    ¬Line.Reads (reached.context true) tail (.word .bare text closed) rest
  tail_brace : focus.token.quote = .brace → tail.head?.all (· = '}') = true
  tail_double : focus.token.quote = .double → tail.head?.all (· = '"') = true

theorem StandsIn.kind_iff {arity : Arity} {line passed tail : Text} {focus : Focus}
    {reached : State} (h : focus.StandsIn arity line passed tail reached) :
    focus.token.kind = .command ↔ reached.current.command = none := by
  obtain ⟨text, hkind⟩ := h.kind_eq
  rw [hkind]
  exact Line.Invocation.takeWord_eq_command_iff ..

theorem before_lt_of_tokens {arity : Arity} {line : Text} {before after : List Token}
    {token : Token} (h : Line.tokens arity line = before ++ token :: after) :
    ∀ earlier ∈ before, earlier.stop < token.start := by
  intro earlier hearlier
  have hpairwise := Line.pairwise_tokens arity true State.start 0 line
  rw [show (Line.scanFrom arity true State.start 0 line).tokens = _ from h] at hpairwise
  exact (List.pairwise_append.1 hpairwise).2.2 earlier hearlier token List.mem_cons_self

theorem exists_tail_of_reads {context : Line.Context} {source word rest : Text} {quote : Quote}
    {closed : Bool} (h : Line.Reads context source (.word quote word closed) rest) :
    ∃ tail, source = quote.opening ++ word ++ tail ∧
      (quote = .bare → ∀ text closed rest, ¬Line.Reads context tail (.word .bare text closed) rest) ∧
      (quote = .brace → tail.head?.all (· = '}') = true) ∧
      (quote = .double → tail.head?.all (· = '"') = true) := by
  obtain ⟨rfl, -, hends⟩ := Line.reads_iff.1 h
  refine ⟨(bif closed then quote.closing else []) ++ rest, ?_, ?_, ?_, ?_⟩
  · simp [Line.Lexeme.source_word]
  · rintro rfl text closed' rest' hread
    obtain ⟨c, after, htail, hgoesOn⟩ := hread.head?_word
    cases closed with
    | true =>
        obtain rfl : rest = c :: after := htail
        have hc : Line.endsBare context.nested c = true := hends
        exact absurd (hc.symm.trans hgoesOn) (by decide)
    | false =>
        obtain rfl : rest = [] := hends
        contradiction
  · rintro rfl
    cases closed with
    | true => rfl
    | false =>
        obtain rfl : rest = [] := hends
        rfl
  · rintro rfl
    cases closed with
    | true => rfl
    | false =>
        obtain rfl : rest = [] := hends
        rfl

theorem standsIn_of_onToken {arity : Arity} {line : Text} {offset : Nat} {focus : Focus}
    (h : onToken? (Line.tokens arity line) offset = some focus) :
    (∃ passed tail reached, focus.StandsIn arity line passed tail reached) ∧
      focus.token.contains offset = true := by
  obtain ⟨⟨before, token, after⟩, hsplit, rfl⟩ := Option.map_eq_some_iff.1 h
  obtain ⟨htokens, hcontains⟩ := splitAt?_eq_some hsplit
  refine ⟨?_, hcontains⟩
  obtain ⟨passed, reached, source, rfl, hpasses, hbefore, ⟨closed, rest, hreads⟩, htoken⟩ :=
    Line.exists_standsAfter htokens
  obtain ⟨tail, hsource, hbare, hbrace, hdouble⟩ := exists_tail_of_reads hreads
  refine ⟨passed, tail, reached, ?_⟩
  have hstart := congrArg Token.start htoken
  have hstop := congrArg Token.stop htoken
  have hkind := congrArg Token.kind htoken
  simp only [State.wordToken, Nat.zero_add] at hstart hstop hkind
  constructor
  · simp [hsource]
  · exact hpasses
  · exact hbefore.symm
  · exact before_lt_of_tokens htokens
  · rw [Text.byteLength_append]
    exact hstart
  · rw [hstart]
    exact hstop
  · exact ⟨token.text, hkind⟩
  · exact congrArg Token.invocation htoken
  · exact hbare
  · exact hbrace
  · exact hdouble

theorem exists_contains_of_reads {arity : Arity} {passed : Text} {reached : State}
    (h : Passes arity true State.start 0 passed reached) {quote : Quote} {text word rest : Text}
    {closed : Bool} (hread : Line.Reads (reached.context true) text (.word quote word closed) rest) :
    ∃ token ∈ Line.tokens arity (passed ++ text),
      token.contains (Text.byteLength (passed ++ quote.opening)) = true := by
  refine ⟨reached.wordToken arity (0 + Text.byteLength passed) quote word, ?_, ?_⟩
  · rw [Line.tokens, Line.scan, h.goesOn]
    refine List.mem_append_right _ ((Line.mem_tokens_of_reads hread).2 (.inl ?_))
    exact Line.Step.token?_word ..
  · simp [Token.contains, State.wordToken]

theorem standsIn_of_onNewWord {arity : Arity} {start rest : Text} {focus : Focus}
    (hnone : onToken? (Line.tokens arity (start ++ rest)) (Text.byteLength start) = none)
    (h : onNewWord? arity start rest = some focus) :
    (∃ passed tail reached, focus.StandsIn arity (start ++ rest) passed tail reached) ∧
      focus.token.quote = .bare := by
  obtain ⟨⟨before, token, after⟩, hsplit, rfl⟩ := Option.map_eq_some_iff.1 h
  obtain ⟨htokens, hstart⟩ := splitAt?_eq_some hsplit
  obtain ⟨passed, reached, source, htext, hpasses, hbefore, ⟨closed, behind, hreads⟩, htoken⟩ :=
    Line.exists_standsAfter htokens
  obtain ⟨tail, rfl, -, -, -⟩ := exists_tail_of_reads hreads
  have hplace := congrArg Token.start htoken
  have hkind := congrArg Token.kind htoken
  simp only [State.wordToken, Nat.zero_add] at hplace hkind
  have hlength : Text.byteLength start = Text.byteLength (passed ++ token.quote.opening) := by
    rw [Text.byteLength_append, ← hplace]
    simpa [eq_comm] using hstart
  have hparts : start ++ probe :: rest =
      (passed ++ token.quote.opening) ++ (token.text ++ tail) := by
    simpa using htext
  obtain ⟨rfl, -⟩ := Text.append_inj_of_byteLength hparts hlength
  have hnothing : splitAt? (·.contains (Text.byteLength (passed ++ token.quote.opening)))
      (Line.tokens arity (passed ++ (token.quote.opening ++ rest))) = none := by
    simpa [onToken?] using hnone
  have hnoWord {word after : Text} {closed : Bool} :
      ¬Line.Reads (reached.context true) (token.quote.opening ++ rest)
        (.word token.quote word closed) after := by
    intro hread
    obtain ⟨inside, hmem, hcontains⟩ := exists_contains_of_reads hpasses hread
    exact absurd (hcontains.symm.trans (splitAt?_eq_none hnothing inside hmem)) (by decide)
  have hbare : token.quote = .bare := by
    by_cases hquote : token.quote = .bare
    · exact hquote
    · obtain ⟨word, closed, after, hread⟩ :=
        Line.exists_reads_of_delimiter (reached.context true) hquote rest
      exact absurd hread hnoWord
  have hopening : token.quote.opening = [] := by rw [hbare]; rfl
  have hlt := before_lt_of_tokens htokens
  refine ⟨⟨passed ++ token.quote.opening, rest, reached, ?_⟩, hbare⟩
  constructor
  · simp [hopening]
  · simpa [hopening] using hpasses
  · change before = (Line.scanFrom arity true State.start 0 (passed ++ _)).tokens
    rw [hopening, List.append_nil]
    exact hbefore.symm
  · exact hlt
  · simpa [hopening] using hplace
  · change _ = token.start + 0
    rw [hplace, Text.byteLength_append]
    rfl
  · exact ⟨token.text, hkind⟩
  · exact congrArg Token.invocation htoken
  · intro _ text closed after hread
    rw [hopening, hbare] at hnoWord
    exact hnoWord hread
  · intro hquote
    exact absurd (hbare.symm.trans hquote) (by decide)
  · intro hquote
    exact absurd (hbare.symm.trans hquote) (by decide)

theorem standsIn_of_find {arity : Arity} {line : Text} {cursor : Nat} {focus : Focus}
    (h : find? arity line cursor = some focus) :
    (∃ passed tail reached, focus.StandsIn arity line passed tail reached) ∧
      (onToken? (Line.tokens arity line) (Text.byteLength (Text.splitBytes cursor line).1) = none →
        focus.token.quote = .bare) := by
  have hline := Text.splitBytes_append cursor line
  unfold find? at h
  simp only at h
  split at h
  · rename_i found hfound
    cases h
    exact ⟨(standsIn_of_onToken hfound).1, fun hnone => by simp [hfound] at hnone⟩
  · rename_i hnone
    rw [← hline] at hnone
    have hplace := standsIn_of_onNewWord (by simpa [hline] using hnone) h
    rw [hline] at hplace
    exact ⟨hplace.1, fun _ => hplace.2⟩

theorem le_start_of_delimiter {arity : Arity} {state : State} {offset : Nat} (quote : Quote)
    {rest : Text} {token : Token}
    (h : token ∈ (Line.scanFrom arity true state offset (quote.opening ++ rest)).tokens) :
    offset + Text.byteLength quote.opening ≤ token.start := by
  by_cases hquote : quote = .bare
  · subst hquote
    exact Line.start_le_of_mem_tokens h
  · obtain ⟨word, closed, after, hread⟩ :=
      Line.exists_reads_of_delimiter (state.context true) hquote rest
    rcases (Line.mem_tokens_of_reads hread).1 h with hword | hrest
    · cases hword
      exact Nat.le_refl _
    · have hle := Line.start_le_of_mem_tokens hrest
      rw [Line.Step.stop_mk, Line.Lexeme.source_word] at hle
      simp only [Text.byteLength_append] at hle
      omega

end Focus

end CommandFrame
