import CommandFrame.Proofs.Line.Commands

/-!
# Lines of quoted words

Between double quotes every word can be written, and a line reads it back as the
word that it is.  So a line whose words are all quoted has the commands that it
was written for, and it leaves nothing open.
-/

namespace CommandFrame.Line

/-- A word with its delimiters and with the escapes of its quoting. -/
def Quote.write (quote : Quote) (word : Text) : Text :=
  quote.opening ++ quote.escape word ++ quote.closing

def writeWords (words : List Text) : Text := Text.join " " (words.map Quote.double.write)

/-- Commands of quoted words, with a separator behind each but the last. -/
def writeCommands (separator : Nat → Char) : List (List Text) → Text
  | [] => []
  | [words] => writeWords words
  | words :: next :: commands =>
      writeWords words ++
        separator 0 :: writeCommands (fun i => separator (i + 1)) (next :: commands)

theorem writeWords_cons (word next : Text) (words : List Text) :
    writeWords (word :: next :: words) =
      writeWords [word] ++ ([' '] ++ writeWords (next :: words)) := by
  simp [writeWords, Text.join]

/-! ## Texts that do not look at what follows -/

def ReadsAs (arity : Arity) (brackets : Bool) (state : State) (offset : Nat) (passed : Text)
    (tokens : List Token) (reached : State) : Prop :=
  ∀ rest, scanFrom arity brackets state offset (passed ++ rest) =
    ⟨tokens ++
        (scanFrom arity brackets reached (offset + Text.byteLength passed) rest).tokens,
      (scanFrom arity brackets reached (offset + Text.byteLength passed) rest).complete⟩

section

variable {arity : Arity} {brackets : Bool} {state middle reached : State} {offset : Nat}

theorem ReadsAs.append {first second : Text} {before after : List Token}
    (hfirst : ReadsAs arity brackets state offset first before middle)
    (hsecond : ReadsAs arity brackets middle (offset + Text.byteLength first) second after
      reached) :
    ReadsAs arity brackets state offset (first ++ second) (before ++ after) reached := by
  intro rest
  rw [List.append_assoc, hfirst, hsecond, Text.byteLength_append, Nat.add_assoc]
  simp

theorem ReadsAs.scan_eq {passed : Text} {tokens : List Token}
    (h : ReadsAs arity brackets state offset passed tokens reached) :
    scanFrom arity brackets state offset passed = ⟨tokens, reached.outer.isEmpty⟩ := by
  simpa using h []

end

theorem readsAs_lexeme (arity : Arity) {brackets : Bool} {state : State} (offset : Nat)
    (lexeme : Lexeme) (hvalid : lexeme.Valid (state.context brackets))
    (hclosed : lexeme.isClosed = true)
    (hends : ∀ rest, lexeme.EndsBefore (state.context brackets).nested rest) :
    ReadsAs arity brackets state offset lexeme.source
      (Step.token? arity ⟨state, offset, lexeme⟩).toList
      (Step.next arity ⟨state, offset, lexeme⟩) := by
  intro rest
  rw [scanFrom_of_reads (reads_of_valid hvalid (hends rest)), hclosed, Bool.true_and]
  rfl

/-! ## Quoted words -/

theorem valid_escape (context : Context) (word : Text) :
    (Lexeme.word .double (Quote.double.escape word) true).Valid context := by
  simp [Lexeme.Valid, doubleBody_escape, doubleBody, Body.push]

structure TakesWords (arity : Arity) (brackets : Bool) (state : State) (offset : Nat)
    (words : List Text) (tokens : List Token) (reached : State) : Prop where
  reads : ReadsAs arity brackets state offset (writeWords words) tokens reached
  values_eq : tokens.map Token.value = words
  invocation_eq : ∀ token ∈ tokens, token.invocation = state.current.number
  number_eq : reached.current.number = state.current.number
  outer_eq : reached.outer = state.outer
  numbered_eq : reached.numbered = state.numbered
  hasCommand : reached.current.command ≠ none

theorem takesWords_singleton (arity : Arity) (brackets : Bool) (state : State) (offset : Nat)
    (word : Text) :
    TakesWords arity brackets state offset [word]
      [state.wordToken arity offset .double (Quote.double.escape word)]
      (Step.next arity ⟨state, offset, .word .double (Quote.double.escape word) true⟩) := by
  obtain ⟨name, hname⟩ :=
    state.exists_command_word arity offset .double (Quote.double.escape word) true
  constructor
  · exact readsAs_lexeme arity offset _ (valid_escape _ word) rfl fun _ => trivial
  · simp [Token.value, State.wordToken, Quote.read_escape]
  · simp [State.wordToken]
  · exact Invocation.number_takeWord ..
  · rfl
  · rfl
  · simp [hname]

theorem TakesWords.cons {arity : Arity} {brackets : Bool} {state middle reached : State}
    {offset : Nat} {word next : Text} {words : List Text} {before after : List Token}
    (hfirst : TakesWords arity brackets state offset [word] before middle)
    (hrest : TakesWords arity brackets middle
      (offset + Text.byteLength (writeWords [word]) + Text.byteLength [' ']) (next :: words) after
      reached) :
    TakesWords arity brackets state offset (word :: next :: words) (before ++ after) reached := by
  have hblank : ReadsAs arity brackets middle (offset + Text.byteLength (writeWords [word])) [' ']
      [] middle :=
    readsAs_lexeme arity _ (.blank ' ') (by decide : isBlank ' ' = true) rfl fun _ => trivial
  constructor
  · rw [writeWords_cons]
    exact hfirst.reads.append (hblank.append hrest.reads)
  · rw [List.map_append, hfirst.values_eq, hrest.values_eq, List.singleton_append]
  · intro token htoken
    rcases List.mem_append.1 htoken with hbefore | hafter
    · exact hfirst.invocation_eq token hbefore
    · exact (hrest.invocation_eq token hafter).trans hfirst.number_eq
  · exact hrest.number_eq.trans hfirst.number_eq
  · exact hrest.outer_eq.trans hfirst.outer_eq
  · exact hrest.numbered_eq.trans hfirst.numbered_eq
  · exact hrest.hasCommand

theorem exists_takesWords (arity : Arity) (brackets : Bool) (state : State) (offset : Nat)
    {words : List Text} (hwords : words ≠ []) :
    ∃ tokens reached, TakesWords arity brackets state offset words tokens reached := by
  induction words generalizing state offset with
  | nil => exact absurd rfl hwords
  | cons word words ih =>
      have hfirst := takesWords_singleton arity brackets state offset word
      cases words with
      | nil => exact ⟨_, _, hfirst⟩
      | cons next words =>
          obtain ⟨tokens, reached, hrest⟩ := ih _ _ (List.cons_ne_nil next words)
          exact ⟨_, reached, hfirst.cons hrest⟩

/-! ## Commands of quoted words -/

theorem scan_renumber (arity : Arity) (brackets : Bool) (further number : Nat) (text : Text) :
    scanFrom arity brackets (State.start.renumber number) further text =
      ⟨(scan arity brackets text).tokens.map (Token.shift further number),
        (scan arity brackets text).complete⟩ :=
  State.scanFrom_rename arity brackets (number + ·) further text (Nat.le_refl 0) fun _ _ => rfl

section

variable (arity : Arity) (brackets : Bool) {words : List Text} (hwords : words ≠ [])
include hwords

theorem exists_scan_writeWords :
    ∃ tokens, scan arity brackets (writeWords words) = ⟨tokens, true⟩ ∧
      tokens.map Token.value = words ∧ ∀ token ∈ tokens, token.invocation = 0 := by
  obtain ⟨tokens, reached, h⟩ := exists_takesWords arity brackets State.start 0 hwords
  refine ⟨tokens, ?_, h.values_eq, h.invocation_eq⟩
  rw [scan, h.reads.scan_eq, h.outer_eq]
  rfl

theorem scan_writeWords_append {c : Char} (hc : isSeparator c = true) (rest : Text) :
    scan arity brackets (writeWords words ++ c :: rest) =
      ⟨(scan arity brackets (writeWords words)).tokens ++
          (scan arity brackets rest).tokens.map
            (Token.shift (Text.byteLength (writeWords words ++ [c])) 1),
        (scan arity brackets rest).complete⟩ := by
  obtain ⟨tokens, reached, h⟩ := exists_takesWords arity brackets State.start 0 hwords
  obtain ⟨name, hname⟩ := Option.ne_none_iff_exists'.1 h.hasCommand
  have hseparator : reached.advance arity (0 + Text.byteLength (writeWords words)) (.separator c) =
      (State.start.renumber 1, none) := by
    simp only [State.advance, hname, h.numbered_eq, h.outer_eq]
    rfl
  have hbehind : ReadsAs arity brackets reached (0 + Text.byteLength (writeWords words)) [c]
      (reached.advance arity (0 + Text.byteLength (writeWords words)) (.separator c)).2.toList
      (reached.advance arity (0 + Text.byteLength (writeWords words)) (.separator c)).1 :=
    readsAs_lexeme arity _ (.separator c) hc rfl fun _ => trivial
  rw [hseparator] at hbehind
  have hline := h.reads.append hbehind rest
  rw [scan_renumber, Nat.zero_add, List.append_assoc, Option.toList_none, List.append_nil] at hline
  rw [scan, scan, h.reads.scan_eq]
  exact hline

theorem splitCommands_writeWords : splitCommands (writeWords words) = [words] := by
  obtain ⟨tokens, hscan, hvalues, hinvocation⟩ :=
    exists_scan_writeWords unknownArity false hwords
  have hne : tokens ≠ [] := by
    rintro rfl
    exact hwords hvalues.symm
  have htogether : tokens.IsChain fun first second =>
      (first.invocation == second.invocation) = true := by
    refine (List.pairwise_of_forall_mem_list fun first hfirst second hsecond => ?_).isChain
    simp [hinvocation first hfirst, hinvocation second hsecond]
  rw [splitCommands, hscan]
  simp [List.splitBy_of_isChain hne htogether, hvalues]

theorem splitCommands_writeWords_append {c : Char} (hc : isSeparator c = true) (rest : Text) :
    splitCommands (writeWords words ++ c :: rest) = words :: splitCommands rest := by
  obtain ⟨tokens, hscan, -, hinvocation⟩ := exists_scan_writeWords unknownArity false hwords
  have happart : ∀ token ∈ (scan unknownArity false (writeWords words)).tokens,
      token.invocation < 1 := by
    intro token htoken
    rw [hscan] at htoken
    simp [hinvocation token htoken]
  have htokens := congrArg Scan.tokens (scan_writeWords_append unknownArity false hwords hc rest)
  rw [splitCommands_eq_append happart htokens, splitCommands_writeWords hwords,
    List.singleton_append]

theorem getLast?_writeWords : (writeWords words).getLast? = some '"' := by
  induction words with
  | nil => exact absurd rfl hwords
  | cons word words ih =>
      cases words with
      | nil => simp [writeWords, Text.join, Quote.write, Quote.closing]
      | cons next words =>
          rw [writeWords_cons, List.getLast?_append, List.getLast?_append,
            ih (List.cons_ne_nil next words)]
          rfl

end

theorem getLast?_writeCommands (separator : Nat → Char) {commands : List (List Text)}
    (hne : commands ≠ []) (hcommands : ∀ words ∈ commands, words ≠ []) :
    (writeCommands separator commands).getLast? = some '"' := by
  fun_induction writeCommands separator commands with
  | case1 => exact absurd rfl hne
  | case2 separator words => exact getLast?_writeWords (hcommands words List.mem_cons_self)
  | case3 separator words next commands ih =>
      have htail := ih (List.cons_ne_nil next commands) (List.forall_mem_cons.1 hcommands).2
      rw [List.getLast?_append, List.getLast?_cons, htail]
      rfl

theorem complete_writeCommands (arity : Arity) (brackets : Bool) {separator : Nat → Char}
    {commands : List (List Text)} (hseparator : ∀ i, isSeparator (separator i) = true)
    (hcommands : ∀ words ∈ commands, words ≠ []) :
    (scan arity brackets (writeCommands separator commands)).complete = true := by
  fun_induction writeCommands separator commands with
  | case1 => simp [scan, State.start]
  | case2 separator words =>
      obtain ⟨tokens, hscan, -⟩ :=
        exists_scan_writeWords arity brackets (hcommands words List.mem_cons_self)
      rw [hscan]
  | case3 separator words next commands ih =>
      obtain ⟨hwords, hrest⟩ := List.forall_mem_cons.1 hcommands
      rw [scan_writeWords_append arity brackets hwords (hseparator 0)]
      exact ih (fun i => hseparator (i + 1)) hrest

theorem isComplete_writeCommands {separator : Nat → Char} {commands : List (List Text)}
    (hseparator : ∀ i, isSeparator (separator i) = true)
    (hcommands : ∀ words ∈ commands, words ≠ []) :
    isComplete (writeCommands separator commands) = true := by
  have hending : Text.endsWith "\\\n" (writeCommands separator commands) = false := by
    rw [Bool.eq_false_iff]
    intro hends
    have hlast := Text.getLast?_of_endsWith hends (by decide)
    by_cases hne : commands = []
    · subst hne
      cases hlast
    · rw [getLast?_writeCommands separator hne hcommands] at hlast
      contradiction
  rw [isComplete, complete_writeCommands unknownArity true hseparator hcommands, hending]
  rfl

/-- Whatever the words are, and whichever of the separators stands between two commands,
a line of quoted words has the commands that it was written for, and it is complete. -/
theorem splitCommands_writeCommands {separator : Nat → Char} {commands : List (List Text)}
    (hseparator : ∀ i, isSeparator (separator i) = true)
    (hcommands : ∀ words ∈ commands, words ≠ []) :
    splitCommands (writeCommands separator commands) = commands ∧
      isComplete (writeCommands separator commands) = true := by
  refine ⟨?_, isComplete_writeCommands hseparator hcommands⟩
  fun_induction writeCommands separator commands with
  | case1 => decide +kernel
  | case2 separator words =>
      exact splitCommands_writeWords (hcommands words List.mem_cons_self)
  | case3 separator words next commands ih =>
      obtain ⟨hwords, hrest⟩ := List.forall_mem_cons.1 hcommands
      rw [splitCommands_writeWords_append hwords (hseparator 0),
        ih (fun i => hseparator (i + 1)) hrest]

theorem splitCommands_writeCommands_special :
    writeCommands (fun i => if i = 0 then ';' else '\n')
        [["", "#"], ["-x"], ["[u]", "a\nb\\", "\"\x7b"]] =
      "\"\" \"#\";\"-x\"\n\"\\[u]\" \"a\nb\\\\\" \"\\\"\x7b\"" ∧
    splitCommands "\"\" \"#\";\"-x\"\n\"\\[u]\" \"a\nb\\\\\" \"\\\"\x7b\"" =
      ([["", "#"], ["-x"], ["[u]", "a\nb\\", "\"\x7b"]] : List (List Text)) ∧
    isComplete "\"\" \"#\";\"-x\"\n\"\\[u]\" \"a\nb\\\\\" \"\\\"\x7b\"" = true := by
  have hseparator (i : Nat) : isSeparator (if i = 0 then ';' else '\n') = true := by
    split <;> decide
  have hcommands : ∀ words ∈ ([["", "#"], ["-x"], ["[u]", "a\nb\\", "\"\x7b"]] :
      List (List Text)), words ≠ [] := by decide
  exact ⟨by decide +kernel, splitCommands_writeCommands hseparator hcommands⟩

end CommandFrame.Line
