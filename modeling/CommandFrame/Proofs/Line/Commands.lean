import Mathlib.Data.List.SplitBy
import CommandFrame.Proofs.Line.Joined
import CommandFrame.Proofs.Line.Open

/-!
# Commands of joined lines

Whether a line is complete is told with its substitutions read, and its commands
are split without them.  So a complete line can still be open to the splitting:
its commands stand by themselves exactly if that leaves nothing open either.
-/

namespace CommandFrame.Line

/-! ## Closed lines -/

theorem splitBy_loop_map {α β : Type} (f : α → β) (r : β → β → Bool) (rest : List α) (a : α)
    (run : List α) (runs : List (List α)) :
    List.splitBy.loop r (rest.map f) (f a) (run.map f) (runs.map (·.map f)) =
      (List.splitBy.loop (fun first second => r (f first) (f second)) rest a run runs).map
        (·.map f) := by
  induction rest generalizing a run runs with
  | nil => simp [List.splitBy.loop]
  | cons b rest ih =>
      rw [List.map_cons, List.splitBy.loop, List.splitBy.loop]
      split
      · exact ih b (a :: run) runs
      · have hrun : ((f a :: run.map f).reverse :: runs.map (·.map f)) =
            ((a :: run).reverse :: runs).map (·.map f) := by simp
        rw [hrun]
        exact ih b [] _

theorem splitBy_map {α β : Type} (f : α → β) (r : β → β → Bool) (items : List α) :
    (items.map f).splitBy r =
      (items.splitBy fun first second => r (f first) (f second)).map (·.map f) := by
  cases items with
  | nil => rfl
  | cons a items => exact splitBy_loop_map f r items a [] []

theorem splitCommands_eq_append {whole line rest : Text} {offset count : Nat}
    (hlt : ∀ token ∈ (scan unknownArity false line).tokens, token.invocation < count)
    (htokens : (scan unknownArity false whole).tokens =
      (scan unknownArity false line).tokens ++
        (scan unknownArity false rest).tokens.map (Token.shift offset count)) :
    splitCommands whole = splitCommands line ++ splitCommands rest := by
  have happart : ∀ last ∈ (scan unknownArity false line).tokens.getLast?,
      ∀ first ∈ ((scan unknownArity false rest).tokens.map (Token.shift offset count)).head?,
        (last.invocation == first.invocation) = false := by
    intro last hlast first hfirst
    have hbefore := hlt last (List.mem_of_getLast? hlast)
    obtain ⟨token, -, rfl⟩ := List.mem_map.1 (List.mem_of_head? hfirst)
    simp only [Token.shift, beq_eq_false_iff_ne]
    omega
  have hshifted (first second : Token) :
      ((first.shift offset count).invocation == (second.shift offset count).invocation) =
        (first.invocation == second.invocation) := by
    simp [Token.shift]
  have hvalues (words : List Token) :
      (words.map (Token.shift offset count)).map Token.value = words.map Token.value := by
    rw [List.map_map]
    rfl
  simp only [splitCommands, htokens, List.splitBy_append happart, splitBy_map, hshifted,
    List.map_append, List.map_map, Function.comp_def, hvalues]

theorem splitCommands_of_complete {line : Text}
    (hcomplete : (scan unknownArity false line).complete = true) (rest : Text) :
    splitCommands (line ++ '\n' :: rest) = splitCommands line ++ splitCommands rest := by
  obtain ⟨count, hlt, htokens⟩ := exists_tokens_newline unknownArity false hcomplete
  exact splitCommands_eq_append hlt (htokens rest)

theorem flatten_splitCommands (line : Text) :
    (splitCommands line).flatten = (scan unknownArity false line).tokens.map Token.value := by
  simp only [splitCommands]
  rw [← List.map_flatten, List.flatten_splitBy]

/-! ## Open lines -/

theorem unescape_newline_ne (text : Text) :
    Text.unescape (text ++ ['\n']) ≠ Text.unescape text := by
  fun_induction Text.unescape text with
  | case1 d rest ih => simpa using ih
  | case2 d rest hpair ih =>
      by_cases hd : d = '\\'
      · subst hd
        cases rest with
        | nil => decide
        | cons e rest => exact absurd rfl (hpair e rest rfl)
      · simpa [Text.unescape_cons hd] using ih
  | case3 => decide

theorem read_newline_ne (quote : Quote) (word : Text) :
    quote.read (word ++ ['\n']) ≠ quote.read word := by
  cases quote with
  | brace => simp [Quote.read]
  | bare => exact unescape_newline_ne word
  | double => exact unescape_newline_ne word

section

variable {arity : Arity} {state : State} {offset : Nat}

theorem values_of_open {quote : Quote} {text word : Text}
    (h : Reads (state.context false) text (.word quote word false) []) :
    (scanFrom arity false state offset text).tokens.map Token.value = [quote.read word] := by
  rw [scanFrom_of_reads h]
  simp [Token.value, State.wordToken]

theorem values_ne_of_longer {quote : Quote} {text word rest : Text} {closed : Bool}
    (h : Reads (state.context false) text (.word quote (word ++ ['\n']) closed) rest) :
    (scanFrom arity false state offset text).tokens.map Token.value ≠ [quote.read word] := by
  rw [scanFrom_of_reads h]
  intro heq
  exact read_newline_ne quote word (List.cons.inj heq).1

theorem values_newline_ne_of_word {quote : Quote} {text word : Text}
    (h : Reads (state.context false) text (.word quote word false) []) :
    (scanFrom arity false state offset (text ++ ['\n'])).tokens.map Token.value ≠
      (scanFrom arity false state offset text).tokens.map Token.value := by
  rw [values_of_open h]
  cases quote with
  | brace =>
      obtain ⟨left, hread⟩ := h.exists_brace_newline
      have hlonger := hread []
      simp only [braceBody] at hlonger
      exact values_ne_of_longer hlonger
  | double =>
      have hlonger := h.double_newline []
      simp only [doubleBody] at hlonger
      exact values_ne_of_longer hlonger
  | bare =>
      rcases h.bare_newline [] with hcontinues | hlonger
      · rw [scanFrom_of_reads hcontinues]
        simp [Step.token?, State.advance]
      · simp only [bareBody] at hlonger
        exact values_ne_of_longer hlonger

end

theorem outer_next_of_reads (arity : Arity) {state : State} (offset : Nat) {text rest : Text}
    {lexeme : Lexeme} (h : Reads (state.context false) text lexeme rest)
    (houter : state.outer = []) :
    (Step.next arity ⟨state, offset, lexeme⟩).outer = [] := by
  have hvalid := h.valid.1
  rw [← List.length_eq_zero_iff, Step.length_outer_next]
  cases lexeme with
  | opening => simp [Lexeme.Valid, State.context] at hvalid
  | _ => simp [houter]

theorem values_newline_ne (arity : Arity) {state : State} {offset : Nat} {text : Text}
    (houter : state.outer = [])
    (hopen : (scanFrom arity false state offset text).complete = false) :
    (scanFrom arity false state offset (text ++ ['\n'])).tokens.map Token.value ≠
      (scanFrom arity false state offset text).tokens.map Token.value := by
  induction state, offset, text using scan_induction arity false with
  | nil state offset => simp [houter] at hopen
  | step state offset text lexeme rest hread ih =>
      have hnext := outer_next_of_reads arity offset hread houter
      cases hclosed : lexeme.isClosed with
      | false =>
          cases lexeme with
          | word quote word closed =>
              obtain rfl : closed = false := hclosed
              obtain rfl : rest = [] := hread.valid.2
              exact values_newline_ne_of_word hread
          | _ => contradiction
      | true =>
          rw [scanFrom_of_reads hread, hclosed, Bool.true_and] at hopen
          cases rest with
          | nil => simp [hnext] at hopen
          | cons c rest =>
              rw [scanFrom_of_reads hread, scanFrom_of_reads (hread.append_newline hclosed []),
                List.map_append, List.map_append, ne_eq, List.append_cancel_left_eq]
              exact ih hnext hopen

theorem splitCommands_append_iff (line : Text) :
    (∀ rest, splitCommands (line ++ '\n' :: rest) = splitCommands line ++ splitCommands rest) ↔
      (scan unknownArity false line).complete = true := by
  constructor
  · intro h
    by_contra hopen
    have hvalues := congrArg List.flatten (h [])
    have hnothing : splitCommands [] = [] := by decide +kernel
    rw [hnothing, List.append_nil, flatten_splitCommands, flatten_splitCommands] at hvalues
    exact values_newline_ne unknownArity rfl (by rwa [Bool.not_eq_true] at hopen) hvalues
  · exact splitCommands_of_complete

/-! ## Lines without substitutions -/

theorem Reads.without_brackets {state : State} {text rest : Text} {lexeme : Lexeme}
    (h : Reads (state.context true) text lexeme rest) (hlexeme : lexeme ≠ .opening) :
    Reads (state.context false) text lexeme rest := by
  obtain ⟨hsource, hvalid, hends⟩ := reads_iff.1 h
  refine reads_iff.2 ⟨hsource, ?_, hends⟩
  cases lexeme with
  | opening => exact absurd rfl hlexeme
  | word quote word closed =>
      cases quote with
      | bare =>
          obtain ⟨⟨c, after, htext, hbegins, hcontinues⟩, hbody⟩ := hvalid
          have hbegins' : (state.context false).BeginsBare c :=
            { hbegins with noOpening := by simp [State.context] }
          exact ⟨⟨c, after, htext, hbegins', hcontinues⟩, hbody⟩
      | brace => exact hvalid
      | double => exact hvalid
  | _ => exact hvalid

theorem scanFrom_of_noOpening {arity : Arity} {state : State} {offset : Nat} {text : Text}
    (houter : state.outer = [])
    (hsteps : ∀ step ∈ stepsFrom arity true state offset text, step.lexeme ≠ .opening) :
    scanFrom arity false state offset text = scanFrom arity true state offset text := by
  induction state, offset, text using scan_induction arity true with
  | nil state offset => simp
  | step state offset text lexeme rest hread ih =>
      rw [stepsFrom_of_reads hread, List.forall_mem_cons] at hsteps
      have hplain := hread.without_brackets hsteps.1
      rw [scanFrom_of_reads hread, scanFrom_of_reads hplain,
        ih (outer_next_of_reads arity offset hplain houter) hsteps.2]

/-! ## Complete lines -/

/-- The commands of a complete line stand by themselves if splitting leaves nothing
open, as it does when the line has no substitutions, and otherwise they do not. -/
theorem splitCommands_append_newline_iff {line : Text} (h : isComplete line = true) :
    ((∀ rest, splitCommands (line ++ '\n' :: rest) =
        splitCommands line ++ splitCommands rest) ↔
      (scan unknownArity false line).complete = true) ∧
    ((∀ step ∈ steps unknownArity true line, step.lexeme ≠ .opening) →
      (scan unknownArity false line).complete = true) := by
  refine ⟨splitCommands_append_iff line, fun hsteps => ?_⟩
  have hsame : scan unknownArity false line = scan unknownArity true line :=
    scanFrom_of_noOpening rfl hsteps
  rw [hsame]
  exact complete_of_isComplete unknownArity h

theorem splitCommands_append_newline_substitution :
    isComplete "t [u \"a;b\"]" = true ∧
      ∀ rest, splitCommands ("t [u \"a;b\"]" ++ '\n' :: rest) =
        splitCommands "t [u \"a;b\"]" ++ splitCommands rest := by
  have hcomplete : isComplete "t [u \"a;b\"]" = true := by decide +kernel
  exact ⟨hcomplete, (splitCommands_append_newline_iff hcomplete).1.2 (by decide +kernel)⟩

/-- A quote in a bracket is closed where the bracket opens a substitution, and it
is open where the bracket begins a bare word. -/
theorem splitCommands_not_always_append :
    ¬∀ line rest : Text, isComplete line = true →
      splitCommands (line ++ '\n' :: rest) = splitCommands line ++ splitCommands rest := by
  intro h
  have hquote := h "t [\" \"]" "u" (by decide +kernel)
  revert hquote
  decide +kernel

end CommandFrame.Line
