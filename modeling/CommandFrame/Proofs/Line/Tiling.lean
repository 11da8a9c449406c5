import CommandFrame.Proofs.Line.Trace
import CommandFrame.Proofs.Text.Offset

/-!
# The tokens tile the line

The lexemes of a line make it up, and a token is what stands between the
delimiters of a word.  So tokens keep their order and never touch, and what lies
outside them is known from the lexeme that it belongs to.
-/

namespace CommandFrame.Line

/-- The token is the part of the line between its offsets. -/
structure Token.IsSpanOf (line : Text) (token : Token) : Prop where
  start_le_stop : token.start ≤ token.stop
  stop_le : token.stop ≤ Text.byteLength line
  start_boundary : Text.IsBoundary line token.start
  stop_boundary : Text.IsBoundary line token.stop
  text_eq : token.text = Text.slice line token.start token.stop

def Token.covers (token : Token) (offset : Nat) : Prop :=
  token.start ≤ offset ∧ offset < token.stop

/-! ## Places -/

theorem span_of_mem_tokens {arity : Arity} {brackets : Bool} {state : State} {offset : Nat}
    {text : Text} {token : Token} (h : token ∈ (scanFrom arity brackets state offset text).tokens) :
    ∃ before after, text = before ++ token.quote.opening ++ token.text ++ after ∧
      token.start = offset + Text.byteLength (before ++ token.quote.opening) ∧
      token.stop = token.start + Text.byteLength token.text := by
  induction state, offset, text using scan_induction arity brackets with
  | nil state offset => simp at h
  | step state offset text lexeme rest hread ih =>
      rcases (mem_tokens_of_reads hread).1 h with hword | hrest
      · obtain ⟨quote, word, closed, rfl, rfl⟩ := Step.token?_eq_some hword
        refine ⟨[], (bif closed then quote.closing else []) ++ rest, ?_, rfl, rfl⟩
        rw [hread.source, Lexeme.source_word]
        simp [State.wordToken]
      · obtain ⟨before, after, rfl, hstart, hstop⟩ := ih hrest
        refine ⟨lexeme.source ++ before, after, ?_, ?_, hstop⟩
        · rw [hread.source]
          simp
        · rw [hstart, Step.stop_mk]
          simp only [Text.byteLength_append]
          omega

theorem start_le_of_mem_tokens {arity : Arity} {brackets : Bool} {state : State} {offset : Nat}
    {text : Text} {token : Token} (h : token ∈ (scanFrom arity brackets state offset text).tokens) :
    offset ≤ token.start := by
  obtain ⟨before, after, -, hstart, -⟩ := span_of_mem_tokens h
  omega

/-! ## Separation -/

theorem Reads.head?_word {context : Context} {text word rest : Text} {quote : Quote} {closed : Bool}
    (h : Reads context text (.word quote word closed) rest) :
    ∃ c after, text = c :: after ∧ endsBare context.nested c = false := by
  obtain ⟨hsource, hvalid, -⟩ := reads_iff.1 h
  cases quote with
  | bare =>
      obtain ⟨⟨c, after, rfl, hbegins, -⟩, -⟩ := hvalid
      refine ⟨c, after ++ rest, ?_, hbegins.goesOn⟩
      cases closed <;> simpa [Lexeme.source_word, Quote.opening, Quote.closing] using hsource
  | brace =>
      refine ⟨'{', _, hsource, ?_⟩
      cases context.nested <;> decide
  | double =>
      refine ⟨'"', _, hsource, ?_⟩
      cases context.nested <;> decide

theorem token?_of_ends {arity : Arity} {brackets : Bool} {state : State} {offset : Nat}
    {text rest : Text} {lexeme : Lexeme} (hread : Reads (state.context brackets) text lexeme rest)
    (hends : text.head?.all (endsBare (state.context brackets).nested) = true) :
    Step.token? arity ⟨state, offset, lexeme⟩ = none := by
  cases htoken : Step.token? arity ⟨state, offset, lexeme⟩ with
  | none => rfl
  | some token =>
      obtain ⟨quote, word, closed, rfl, rfl⟩ := Step.token?_eq_some htoken
      obtain ⟨c, after, rfl, hgoesOn⟩ := hread.head?_word
      simp [hgoesOn] at hends

theorem lt_start_of_ends {arity : Arity} {brackets : Bool} (state : State) {offset : Nat}
    {text : Text} (hends : text.head?.all (endsBare (state.context brackets).nested) = true)
    {token : Token} (h : token ∈ (scanFrom arity brackets state offset text).tokens) :
    offset < token.start := by
  cases text with
  | nil => simp at h
  | cons c after =>
      obtain ⟨lexeme, rest, hread⟩ := exists_reads (state.context brackets) c after
      rcases (mem_tokens_of_reads hread).1 h with hword | hrest
      · simp [token?_of_ends hread hends] at hword
      · have hstart := start_le_of_mem_tokens hrest
        have hsource := Text.byteLength_pos hread.source_ne_nil
        rw [Step.stop_mk] at hstart
        omega

theorem stop_lt_start_of_word {arity : Arity} {brackets : Bool} {state : State} {offset : Nat}
    {text rest : Text} {lexeme : Lexeme} (hread : Reads (state.context brackets) text lexeme rest)
    {first second : Token} (hfirst : Step.token? arity ⟨state, offset, lexeme⟩ = some first)
    (hsecond : second ∈ (scanFrom arity brackets (Step.next arity ⟨state, offset, lexeme⟩)
      (Step.stop ⟨state, offset, lexeme⟩) rest).tokens) : first.stop < second.start := by
  obtain ⟨quote, word, closed, rfl, rfl⟩ := Step.token?_eq_some hfirst
  have hends := (reads_iff.1 hread).2.2
  have hle := start_le_of_mem_tokens hsecond
  rw [Step.stop_mk, Lexeme.source_word, Text.byteLength_append, Text.byteLength_append] at hle
  simp only [State.wordToken]
  cases closed with
  | false =>
      obtain rfl : rest = [] := hends
      simp at hsecond
  | true =>
      cases quote with
      | bare =>
          have hlt := lt_start_of_ends (Step.next arity ⟨state, offset, .word .bare word true⟩)
            hends hsecond
          rw [Step.stop_mk, Lexeme.source_word, Text.byteLength_append,
            Text.byteLength_append] at hlt
          omega
      | brace =>
          have hclosing : Text.byteLength (bif true then Quote.brace.closing else []) = 1 := rfl
          omega
      | double =>
          have hclosing : Text.byteLength (bif true then Quote.double.closing else []) = 1 := rfl
          omega

theorem pairwise_tokens (arity : Arity) (brackets : Bool) (state : State) (offset : Nat)
    (text : Text) :
    (scanFrom arity brackets state offset text).tokens.Pairwise
      fun first second => first.stop < second.start := by
  induction state, offset, text using scan_induction arity brackets with
  | nil state offset => simp
  | step state offset text lexeme rest hread ih =>
      rw [scanFrom_of_reads hread]
      cases hword : Step.token? arity ⟨state, offset, lexeme⟩ with
      | none => exact ih
      | some first =>
          refine List.pairwise_cons.2 ⟨?_, ih⟩
          intro second hsecond
          exact stop_lt_start_of_word hread hword hsecond

theorem indexAt?_eq_some_iff {tokens : List Token}
    (h : tokens.Pairwise fun first second => first.stop < second.start) (offset index : Nat) :
    indexAt? tokens offset = some index ↔
      ∃ token, tokens[index]? = some token ∧ token.contains offset = true := by
  rw [indexAt?, List.findIdx?_eq_some_iff_getElem]
  constructor
  · rintro ⟨hindex, hcontains, -⟩
    exact ⟨tokens[index], List.getElem?_eq_getElem hindex, hcontains⟩
  · rintro ⟨token, htoken, hcontains⟩
    obtain ⟨hindex, rfl⟩ := List.getElem?_eq_some_iff.1 htoken
    refine ⟨hindex, hcontains, ?_⟩
    intro earlier hearlier hboth
    have hlt := List.pairwise_iff_getElem.1 h earlier index (by omega) hindex hearlier
    simp only [Token.contains, Bool.and_eq_true, decide_eq_true_eq] at hcontains hboth
    omega

/-! ## Outside the tokens -/

/-- What a character that belongs to no token's text is there for. -/
inductive Gap (arity : Arity) (line : Text) (before : Text) (c : Char) (after : Text) : Prop
  | blank (h : isBlank c = true)
  | separator (h : isSeparator c = true)
  | continuation (h : c = '\\') (hnewline : after.head? = some '\n')
  | openingDelimiter (token : Token) (h : token ∈ tokens arity line)
      (hc : token.quote.opening = [c]) (hplace : token.start = Text.byteLength before + 1)
  | closingDelimiter (token : Token) (h : token ∈ tokens arity line)
      (hc : token.quote.closing = [c]) (hplace : token.stop = Text.byteLength before)
  | openingBracket (step : Step) (h : step ∈ steps arity true line) (hc : c = '[')
      (hlexeme : step.lexeme = .opening) (hplace : step.offset = Text.byteLength before)
  | closingBracket (step : Step) (h : step ∈ steps arity true line) (hc : c = ']')
      (hlexeme : step.lexeme = .closing) (hplace : step.offset = Text.byteLength before)
      (hnested : step.state.outer ≠ [])
  | comment (step : Step) (h : step ∈ steps arity true line) (body : Text)
      (hlexeme : step.lexeme = .comment ('#' :: body)) (hline : '\n' ∉ body)
      (hfresh : step.state.current.command = none)
      (hstart : step.offset ≤ Text.byteLength before) (hstop : Text.byteLength before < step.stop)

theorem split_append {first second before after : Text} {c : Char}
    (h : first ++ second = before ++ c :: after) :
    (∃ middle, first = before ++ c :: middle) ∨
      ∃ middle, before = first ++ middle ∧ second = middle ++ c :: after := by
  rcases List.append_eq_append_iff.1 h with ⟨middle, hbefore, hsecond⟩ | ⟨middle, hfirst, hafter⟩
  · exact .inr ⟨middle, hbefore, hsecond⟩
  · cases middle with
    | nil => exact .inr ⟨[], by simpa using hfirst.symm, by simpa using hafter.symm⟩
    | cons d middle =>
        obtain ⟨rfl, -⟩ := List.cons.inj hafter
        exact .inl ⟨middle, hfirst⟩

theorem eq_nil_of_singleton {c d : Char} {before after : Text} (h : [d] = before ++ c :: after) :
    before = [] ∧ c = d ∧ after = [] := by
  cases before with
  | nil => simpa [eq_comm] using h
  | cons e before => simp at h

theorem gap_of_word {arity : Arity} {line before inside after : Text} {c : Char} {token : Token}
    {closed : Bool} {offset : Nat} (htoken : token ∈ tokens arity line)
    (hsource : (Lexeme.word token.quote token.text closed).source = inside ++ c :: after)
    (hstart : token.start = offset + Text.byteLength token.quote.opening)
    (hstop : token.stop = token.start + Text.byteLength token.text)
    (hbefore : Text.byteLength before = offset + Text.byteLength inside)
    (houtside : ¬token.covers (Text.byteLength before)) (rest : Text) :
    Gap arity line before c rest := by
  rw [Lexeme.source_word, List.append_assoc] at hsource
  rcases split_append hsource with ⟨middle, hopening⟩ | ⟨middle, hinside, hbody⟩
  · obtain ⟨hnil, hc⟩ : inside = [] ∧ token.quote.opening = [c] := by
      cases hquote : token.quote <;> simp only [hquote, Quote.opening] at hopening
      · simp at hopening
      all_goals
        obtain ⟨rfl, rfl, -⟩ := eq_nil_of_singleton hopening
        exact ⟨rfl, rfl⟩
    have hsize : Text.byteLength token.quote.opening = 1 := by
      cases hquote : token.quote <;> simp_all [Quote.opening] <;> rfl
    refine .openingDelimiter token htoken hc ?_
    rw [hstart, hsize, hbefore, hnil]
    rfl
  rcases split_append hbody with ⟨last, htext⟩ | ⟨last, hmiddle, hend⟩
  · refine absurd ?_ houtside
    have hsize := c.utf8Size_pos
    have hlength := congrArg Text.byteLength htext
    simp only [hinside, Text.byteLength_append, Text.byteLength_cons] at hlength hbefore
    exact ⟨by omega, by omega⟩
  · obtain ⟨hnil, hc⟩ : last = [] ∧ token.quote.closing = [c] := by
      cases closed with
      | false => simp at hend
      | true =>
          cases hquote : token.quote <;> simp only [hquote, Quote.closing, cond_true] at hend
          · simp at hend
          all_goals
            obtain ⟨rfl, rfl, -⟩ := eq_nil_of_singleton hend
            exact ⟨rfl, rfl⟩
    refine .closingDelimiter token htoken hc ?_
    rw [hbefore, hinside, hmiddle, hnil, hstop, hstart]
    simp only [Text.byteLength_append, Text.byteLength_nil]
    omega

theorem gap_of_lexeme {arity : Arity} {line before inside after : Text} {c : Char}
    {state : State} {offset : Nat} {lexeme : Lexeme}
    (hstep : ⟨state, offset, lexeme⟩ ∈ steps arity true line)
    (hvalid : lexeme.Valid (state.context true)) (hsource : lexeme.source = inside ++ c :: after)
    (hbefore : Text.byteLength before = offset + Text.byteLength inside)
    (houtside : ∀ token ∈ tokens arity line, ¬token.covers (Text.byteLength before))
    (rest : Text) : Gap arity line before c (after ++ rest) := by
  cases lexeme with
  | blank d =>
      obtain ⟨-, rfl, -⟩ := eq_nil_of_singleton hsource
      exact .blank hvalid
  | separator d =>
      obtain ⟨-, rfl, -⟩ := eq_nil_of_singleton hsource
      exact .separator hvalid
  | continuation =>
      cases inside with
      | nil =>
          obtain ⟨rfl, rfl⟩ := List.cons.inj hsource
          exact .continuation rfl rfl
      | cons d inside =>
          obtain ⟨-, rfl, -⟩ := eq_nil_of_singleton (List.cons.inj hsource).2
          exact .separator (by decide)
  | comment text =>
      obtain ⟨hfresh, body, rfl, hbody⟩ := hvalid
      have hsize := c.utf8Size_pos
      have hlength := congrArg Text.byteLength hsource
      simp only [Text.byteLength_append, Text.byteLength_cons] at hlength
      refine .comment _ hstep body rfl hbody ?_ ?_ ?_
      · simpa [State.context] using hfresh
      · simp only [hbefore]
        omega
      · rw [Step.stop_mk, hbefore]
        omega
  | opening =>
      obtain ⟨rfl, rfl, -⟩ := eq_nil_of_singleton hsource
      exact .openingBracket _ hstep rfl rfl (by simp [hbefore])
  | closing =>
      obtain ⟨rfl, rfl, -⟩ := eq_nil_of_singleton hsource
      refine .closingBracket _ hstep rfl rfl (by simp [hbefore]) ?_
      simpa [Lexeme.Valid, State.context] using hvalid
  | word quote text closed =>
      have hmem : state.wordToken arity offset quote text ∈ tokens arity line := by
        rw [tokens_eq_steps]
        exact List.mem_filterMap.2 ⟨_, hstep, Step.token?_word ..⟩
      exact gap_of_word hmem hsource rfl rfl hbefore (houtside _ hmem) _

theorem gap_of_stepsFrom {arity : Arity} {line : Text} (state : State) (offset : Nat) (text : Text)
    (hsteps : ∀ step ∈ stepsFrom arity true state offset text, step ∈ steps arity true line)
    (passed : Text) {before after : Text} {c : Char} (hpassed : offset = Text.byteLength passed)
    (htext : text = before ++ c :: after)
    (houtside : ∀ token ∈ tokens arity line,
      ¬token.covers (Text.byteLength (passed ++ before))) :
    Gap arity line (passed ++ before) c after := by
  induction state, offset, text using scan_induction arity true generalizing passed before with
  | nil state offset => simp at htext
  | step state offset text lexeme rest hread ih =>
      rw [stepsFrom_of_reads hread] at hsteps
      obtain ⟨hsource, hvalid, -⟩ := reads_iff.1 hread
      rw [hsource] at htext
      rcases split_append htext with ⟨last, hinside⟩ | ⟨middle, rfl, hrest⟩
      · have hafter : after = last ++ rest := by
          simpa [hinside] using htext.symm
        rw [hafter]
        refine gap_of_lexeme (hsteps _ List.mem_cons_self) hvalid hinside ?_ houtside rest
        rw [Text.byteLength_append, hpassed]
      · rw [← List.append_assoc] at houtside ⊢
        refine ih (fun step hstep => hsteps step (List.mem_cons_of_mem _ hstep)) _ ?_ hrest houtside
        rw [Step.stop_mk, hpassed, Text.byteLength_append]

theorem isSpanOf_of_mem_tokens {arity : Arity} {line : Text} {token : Token}
    (h : token ∈ tokens arity line) : token.IsSpanOf line := by
  obtain ⟨before, after, rfl, hstart, hstop⟩ := span_of_mem_tokens h
  rw [Nat.zero_add] at hstart
  constructor
  · omega
  · simp only [Text.byteLength_append] at hstart ⊢
    omega
  · exact ⟨before ++ token.quote.opening, token.text ++ after, by simp, hstart.symm⟩
  · refine ⟨before ++ token.quote.opening ++ token.text, after, rfl, ?_⟩
    rw [Text.byteLength_append, hstop, hstart]
  · rw [hstop, hstart]
    exact (Text.slice_append (before ++ token.quote.opening) token.text after).symm

/-- Tokens are parts of the line, in order and apart, so that an offset lies in
one of them at most; and what belongs to none has one of the uses of a `Gap`. -/
theorem tokens_tile (arity : Arity) (line : Text) :
    (∀ token ∈ tokens arity line, token.IsSpanOf line) ∧
      (tokens arity line).Pairwise (fun first second => first.stop < second.start) ∧
      (∀ offset index, indexAt? (tokens arity line) offset = some index ↔
        ∃ token, (tokens arity line)[index]? = some token ∧ token.contains offset = true) ∧
      (∀ before c after, line = before ++ c :: after →
        (∀ token ∈ tokens arity line, ¬token.covers (Text.byteLength before)) →
        Gap arity line before c after) := by
  have hpairwise := pairwise_tokens arity true State.start 0 line
  refine ⟨fun token => isSpanOf_of_mem_tokens, hpairwise, indexAt?_eq_some_iff hpairwise, ?_⟩
  intro before c after hline houtside
  exact gap_of_stepsFrom State.start 0 line (fun step hstep => hstep) [] rfl hline houtside

end CommandFrame.Line
