import CommandFrame.Completion.Query
import CommandFrame.Proofs.Completion.ReadBack
import CommandFrame.Proofs.Text.Candidates

/-!
# Completion and queries

A query for the word under the cursor answers what completion puts in the place
of the word.  The two tell apart a single candidate, several, and none by tests
of their own, which come to the same.
-/

namespace CommandFrame

open Line (Token Quote)

namespace Focus

end Focus

/-! ## The word of an option -/

namespace Line

theorem head?_of_option {arity : Arity} {brackets : Bool} {state : State} {offset : Nat}
    {text : Text} {token : Token} (h : token ∈ (scanFrom arity brackets state offset text).tokens)
    (hkind : token.kind = .option) : token.text.head? = some '-' := by
  induction state, offset, text using scan_induction arity brackets with
  | nil state offset => simp at h
  | step state offset text lexeme rest hread ih =>
      rcases (mem_tokens_of_reads hread).1 h with hhere | hlater
      · obtain ⟨quote, word, closed, -, rfl⟩ := Step.token?_eq_some hhere
        exact Invocation.head?_of_option hkind
      · exact ih hlater

theorem Quote.head?_read {quote : Quote} {text : Text} (h : text.head? = some '-') :
    (quote.read text).head? = some '-' := by
  obtain ⟨rest, rfl⟩ := List.head?_eq_some_iff.1 h
  cases quote with
  | brace => rfl
  | bare | double => rw [read, Text.unescape_cons (by decide)]; rfl

end Line

namespace Focus

theorem kind_ne_option_of_onNewWord {arity : Line.Arity} {start rest : Text} {focus : Focus}
    (h : onNewWord? arity start rest = some focus) : focus.token.kind ≠ .option := by
  obtain ⟨⟨before, token, after⟩, hsplit, rfl⟩ := Option.map_eq_some_iff.1 h
  obtain ⟨htokens, hstart⟩ := splitAt?_eq_some hsplit
  intro hkind
  have hmem : token ∈ Line.tokens arity (start ++ probe :: rest) := by
    rw [htokens]
    exact List.mem_append_right _ List.mem_cons_self
  obtain ⟨others, hword⟩ := List.head?_eq_some_iff.1 (Line.head?_of_option hmem hkind)
  obtain ⟨passed, behind, hline, hplace, -⟩ := Line.span_of_mem_tokens hmem
  have hlength : Text.byteLength start = Text.byteLength (passed ++ token.quote.opening) := by
    have hoffset : token.start = Text.byteLength start := by simpa using hstart
    omega
  rw [hword, List.append_assoc (passed ++ _)] at hline
  have hprobe := (Text.append_inj_of_byteLength hline hlength).2
  exact absurd (List.cons.inj hprobe).1 (by decide)

theorem exists_tokens_of_find {arity : Line.Arity} {line : Text} {cursor : Nat} {focus : Focus}
    (h : find? arity line cursor = some focus) :
    ∃ text token, Line.tokens arity text = focus.before ++ token :: focus.after ∧
      token.kind = focus.token.kind ∧ token.invocation = focus.token.invocation ∧
        (focus.token.kind = .option → token = focus.token) := by
  unfold find? at h
  simp only at h
  split at h
  · rename_i found hfound
    cases h
    obtain ⟨⟨before, token, after⟩, hsplit, rfl⟩ := Option.map_eq_some_iff.1 hfound
    exact ⟨line, token, (splitAt?_eq_some hsplit).1, rfl, rfl, fun _ => rfl⟩
  · have hkind := kind_ne_option_of_onNewWord h
    obtain ⟨⟨before, token, after⟩, hsplit, rfl⟩ := Option.map_eq_some_iff.1 h
    exact ⟨_, token, (splitAt?_eq_some hsplit).1, rfl, rfl, fun hoption => absurd hoption hkind⟩

theorem typed_of_option {arity : Line.Arity} {line : Text} {cursor : Nat} {focus : Focus}
    (h : find? arity line cursor = some focus) (hkind : focus.token.kind = .option) :
    '-' :: focus.typed.drop 1 = focus.typed := by
  have hdash : focus.typed.head? = some '-' := by
    unfold find? at h
    simp only at h
    split at h
    · rename_i found hfound
      cases h
      obtain ⟨⟨before, token, after⟩, hsplit, rfl⟩ := Option.map_eq_some_iff.1 hfound
      have hmem : token ∈ Line.tokens arity line := by
        rw [(splitAt?_eq_some hsplit).1]
        exact List.mem_append_right _ List.mem_cons_self
      exact Line.Quote.head?_read (Line.head?_of_option hmem hkind)
    · exact absurd hkind (kind_ne_option_of_onNewWord h)
  obtain ⟨name, hname⟩ := List.head?_eq_some_iff.1 hdash
  rw [hname]
  rfl

end Focus

/-! ## The same target -/

namespace CompletionTarget

/-- Different candidates start with the typed text. -/
def HasChoice (target : CompletionTarget) (typed : Text) : Prop :=
  ∃ first ∈ target.candidates, ∃ second ∈ target.candidates,
    typed <+: first ∧ typed <+: second ∧ first ≠ second

variable {target : CompletionTarget} {typed : Text}

theorem isExact_eq_false_iff (hfound : Text.candidatesFor typed target.candidates ≠ []) :
    Text.isExact (Text.candidatesFor typed target.candidates) = false ↔ target.HasChoice typed := by
  rw [Bool.eq_false_iff, ne_eq, Text.isExact_iff, HasChoice]
  simp only [hfound, ne_eq, not_false_eq_true, true_and, Classical.not_forall, exists_prop,
    Text.mem_candidatesFor]
  constructor
  · rintro ⟨first, ⟨hfirst, htyped⟩, second, ⟨hsecond, htyped'⟩, hne⟩
    exact ⟨first, hfirst, second, hsecond, htyped, htyped', hne⟩
  · rintro ⟨first, hfirst, second, hsecond, htyped, htyped', hne⟩
    exact ⟨first, ⟨hfirst, htyped⟩, second, ⟨hsecond, htyped'⟩, hne⟩

/-- The answer to a query for the typed text. -/
def answer (target : CompletionTarget) (typed : Text) (otherwise : QueryResult) : QueryResult :=
  match longestExtension? typed (Text.candidatesFor typed target.candidates) target.exactSpace with
  | some text => .best text
  | none => otherwise

end CompletionTarget

namespace Focus

variable {catalog : Catalog} {session : Session} {line : Text} {cursor : Nat} {focus : Focus}
  {query : CompletionQuery}

theorem cursor_le_stop {arity : Line.Arity} (h : find? arity line cursor = some focus) :
    Text.byteLength (Text.splitBytes cursor line).1 ≤ focus.token.stop := by
  unfold find? at h
  simp only at h
  split at h
  · rename_i found hfound
    cases h
    have hcontains := (standsIn_of_onToken hfound).2
    simp only [Token.contains, Bool.and_eq_true, decide_eq_true_eq] at hcontains
    exact hcontains.2
  · obtain ⟨⟨before, token, after⟩, -, rfl⟩ := Option.map_eq_some_iff.1 h
    exact Nat.le_refl _

theorem exists_replace {arity : Line.Arity} (hfocus : find? arity line cursor = some focus)
    (word : Text) (spaceAfter : Bool) :
    ∃ before after, line = before ++ focus.token.text ++ after ∧
      Text.byteLength before = focus.token.start ∧
        let ends := spaceAfter && focus.token.quote = .bare
        let hasSpace := after.head? = some ' ' || after.head? = some '\t'
        let written := before ++ focus.token.quote.escape word
        let completed := written ++ (if ends && !hasSpace then [' '] else []) ++ after
        let landing := Text.byteLength written + if ends then 1 else 0
        focus.replace line word spaceAfter =
            (if completed = line ∧ landing = focus.token.stop then .unchanged
            else .replaced completed landing) ∧
          (completed = line → landing = Text.byteLength (Text.splitBytes cursor line).1 →
            focus.replace line word spaceAfter = .unchanged) := by
  obtain ⟨⟨passed, tail, reached, hplace⟩, -⟩ := standsIn_of_find hfocus
  refine ⟨passed ++ focus.token.quote.opening, tail, hplace.line_eq, hplace.start_eq.symm, ?_⟩
  intro ends hasSpace written completed landing
  have hreplace : focus.replace line word spaceAfter =
      if completed = line ∧ landing = focus.token.stop then .unchanged
      else .replaced completed landing := by
    rw [replace, hplace.splitBytes_start, hplace.splitBytes_stop]
  rw [hreplace]
  refine ⟨rfl, fun hsame hcursor => if_pos ⟨hsame, ?_⟩⟩
  have hadded : ∀ ends hasSpace : Bool,
      Text.byteLength (if ends && !hasSpace then [' '] else []) ≤ if ends then 1 else 0 := by
    decide
  have hspaces := hadded ends hasSpace
  have hbound := cursor_le_stop hfocus
  have hlength := congrArg Text.byteLength (hsame.trans hplace.line_eq)
  have hstop := hplace.stop_eq
  have hstart := hplace.start_eq
  simp only [completed, landing, written, Text.byteLength_append] at hlength hstart hcursor ⊢
  omega

theorem reduce_of_found {target : CompletionTarget} (line : Text)
    (hfound : Text.candidatesFor focus.typed target.candidates ≠ []) :
    (target.shared focus.typed = focus.typed ∧ target.HasChoice focus.typed →
      focus.reduce line target =
        .candidates (Text.candidatesFor focus.typed target.candidates)) ∧
    (¬(target.shared focus.typed = focus.typed ∧ target.HasChoice focus.typed) →
      focus.reduce line target =
        focus.replace line (target.shared focus.typed) (target.endsWord focus.typed)) := by
  have hlonger := Text.prefix_commonStart_candidatesFor hfound
  have hadds : Text.byteLength (target.shared focus.typed) ≤ Text.byteLength focus.typed ↔
      target.shared focus.typed = focus.typed :=
    ⟨Text.eq_of_prefix_of_byteLength_le hlonger, fun heq => Nat.le_of_eq (congrArg Text.byteLength heq)⟩
  have htest : (!Text.isExact (Text.candidatesFor focus.typed target.candidates) &&
      decide (Text.byteLength (target.shared focus.typed) ≤ Text.byteLength focus.typed)) = true ↔
      target.shared focus.typed = focus.typed ∧ target.HasChoice focus.typed := by
    rw [Bool.and_eq_true, Bool.not_eq_true', CompletionTarget.isExact_eq_false_iff hfound,
      decide_eq_true_eq, hadds, and_comm]
  constructor
  · intro hchoice
    simp only [reduce, if_neg hfound]
    exact if_pos (htest.2 hchoice)
  · intro hchoice
    simp only [reduce, if_neg hfound]
    exact if_neg (mt htest.1 hchoice)

end Focus

namespace Query

def option : Argument :=
  ⟨1, "w", true, .string, "word", "", false, false, false, false, none, []⟩

def catalog : Catalog :=
  NameMap.empty.insert "t" ⟨⟨"t", [option], []⟩, fun _ _ _ _ => some ["a b c", "a b d", "x"]⟩

def focus : Focus :=
  ⟨[⟨.command, "t", 0, 1, .bare, 0⟩, ⟨.option, "-w", 2, 4, .bare, 0⟩],
    ⟨.value, "a", 5, 6, .bare, 0⟩, [], "a"⟩

def asked : CompletionQuery where
  command := "t"
  option := some "w"
  value := some "a"
  given := focus.given
  exactSpace := true

end Query

end CommandFrame
