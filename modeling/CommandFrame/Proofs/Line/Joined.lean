import CommandFrame.Proofs.Line.Moved
import CommandFrame.Proofs.Line.Passage

/-!
# Lines joined by newlines

After a line that leaves nothing open, a newline begins the scan anew.  What
follows has the words that it has by itself, further on in the text and with
later numbers.
-/

namespace CommandFrame.Line

/-! ## What a step does to the context -/

theorem Step.isNone_command_next (arity : Arity) (state : State) (offset : Nat)
    (lexeme : Lexeme) :
    (Step.next arity ⟨state, offset, lexeme⟩).current.command.isNone =
      match lexeme with
      | .separator _ | .opening => true
      | .word .. => false
      | .closing => state.current.command.isNone && state.outer.isEmpty
      | .blank _ | .continuation | .comment _ => state.current.command.isNone := by
  cases lexeme with
  | separator c =>
      cases hcommand : state.current.command <;> simp [next, State.advance, hcommand]
  | closing =>
      cases houter : state.outer <;>
        simp [next, State.advance, houter, Invocation.takeSubstitution]
  | word quote text closed =>
      exact Option.isNone_eq_false_iff.2 (Option.isSome_iff_ne_none.2
        (state.current.command_takeWord_ne_none arity text))
  | _ => rfl

theorem Step.length_outer_next (arity : Arity) (state : State) (offset : Nat)
    (lexeme : Lexeme) :
    (Step.next arity ⟨state, offset, lexeme⟩).outer.length =
      match lexeme with
      | .opening => state.outer.length + 1
      | .closing => state.outer.length - 1
      | _ => state.outer.length := by
  cases lexeme with
  | separator c =>
      cases hcommand : state.current.command <;> simp [next, State.advance, hcommand]
  | closing => cases houter : state.outer <;> simp [next, State.advance, houter]
  | _ => rfl

structure State.Alike (first second : State) : Prop where
  fresh_eq : first.current.command.isNone = second.current.command.isNone
  depth_eq : first.outer.length = second.outer.length

namespace State.Alike

variable {first second : State}

theorem isEmpty_eq (h : first.Alike second) : first.outer.isEmpty = second.outer.isEmpty := by
  rw [Bool.eq_iff_iff, List.isEmpty_iff_length_eq_zero, List.isEmpty_iff_length_eq_zero,
    h.depth_eq]

theorem context_eq (h : first.Alike second) (brackets : Bool) :
    first.context brackets = second.context brackets := by
  rw [context, context, h.fresh_eq, h.isEmpty_eq]

theorem next (h : first.Alike second) (arity arity' : Arity) (offset offset' : Nat)
    (lexeme : Lexeme) :
    (Step.next arity ⟨first, offset, lexeme⟩).Alike
      (Step.next arity' ⟨second, offset', lexeme⟩) := by
  constructor
  · rw [Step.isNone_command_next, Step.isNone_command_next, h.fresh_eq, h.isEmpty_eq]
  · rw [Step.length_outer_next, Step.length_outer_next, h.depth_eq]

end State.Alike

theorem State.Alike.complete_eq {first second : State} (h : first.Alike second)
    (arity arity' : Arity) (brackets : Bool) (offset offset' : Nat) (text : Text) :
    (scanFrom arity brackets first offset text).complete =
      (scanFrom arity' brackets second offset' text).complete := by
  induction first, offset, text using scan_induction arity brackets
    generalizing second offset' with
  | nil first offset => simpa using h.isEmpty_eq
  | step first offset text lexeme rest hread ih =>
      have hagain := hread
      rw [h.context_eq] at hagain
      rw [scanFrom_of_reads hread, scanFrom_of_reads hagain]
      simp only [ih (h.next arity arity' offset offset' lexeme) (Step.stop ⟨second, offset', lexeme⟩)]

/-! ## Moving a scan -/

/-- The token further on in a text, and in a later invocation. -/
def Token.shift (offset number : Nat) (token : Token) : Token :=
  { token with
    start := offset + token.start
    stop := offset + token.stop
    invocation := number + token.invocation }

def Invocation.renumber (number : Nat) (invocation : Invocation) : Invocation :=
  { invocation with number := number + invocation.number }

def State.renumber (number : Nat) (state : State) : State where
  current := state.current.renumber number
  outer := state.outer.map (·.renumber number)
  numbered := number + state.numbered

namespace State

theorem tokens_renumber (arity : Arity) (brackets : Bool) (further number : Nat) (state : State)
    (offset : Nat) (text : Text) :
    (scanFrom arity brackets (state.renumber number) (further + offset) text).tokens =
      (scanFrom arity brackets state offset text).tokens.map (Token.shift further number) :=
  congrArg Scan.tokens
    (scanFrom_rename arity brackets (number + ·) further text (Nat.zero_le offset) fun _ _ => rfl)

/-! ## Numbers of the words -/

def Latest (state : State) : Prop :=
  state.current.command = none →
    state.current = { number := state.current.number } ∧
      state.numbered = state.current.number + 1

/-- How many invocations have begun, without one that has no command yet. -/
def used (state : State) : Nat :=
  if state.current.command = none then state.current.number else state.numbered

theorem Latest.start : start.Latest := fun _ => ⟨rfl, rfl⟩

theorem used_of_none {state : State} (h : state.current.command = none) :
    state.used = state.current.number := if_pos h

theorem used_of_some {state : State} {name : Text} (h : state.current.command = some name) :
    state.used = state.numbered := if_neg (by simp [h])

theorem exists_command_word (arity : Arity) (state : State) (offset : Nat) (quote : Quote)
    (text : Text) (closed : Bool) :
    ∃ name, (Step.next arity ⟨state, offset, .word quote text closed⟩).current.command =
      some name := by
  have hword := Step.isNone_command_next arity state offset (.word quote text closed)
  rwa [← Option.isSome_iff_exists, ← Option.isNone_eq_false_iff]

section

variable {state : State} (arity : Arity) (offset : Nat) (lexeme : Lexeme)

theorem Latest.next (h : state.Latest) : (Step.next arity ⟨state, offset, lexeme⟩).Latest := by
  intro hcommand
  cases lexeme with
  | separator c =>
      cases hbefore : state.current.command with
      | none => simpa [Step.next, advance, hbefore] using h hbefore
      | some name => simp [Step.next, advance, hbefore]
  | opening => exact ⟨rfl, rfl⟩
  | closing =>
      cases houter : state.outer with
      | nil =>
          simp only [Step.next, advance, houter] at hcommand ⊢
          exact h hcommand
      | cons parent outer =>
          simp [Step.next, advance, houter, Invocation.takeSubstitution] at hcommand
  | word quote text closed =>
      obtain ⟨name, hname⟩ := exists_command_word arity state offset quote text closed
      simp [hcommand] at hname
  | _ => exact h hcommand

theorem Numbered.used_le (h : state.Numbered) : state.used ≤ state.numbered := by
  have hlt := h.lt state.current.number List.mem_cons_self
  unfold used
  split <;> omega

theorem Numbered.used_le_next (h : state.Numbered) :
    state.used ≤ (Step.next arity ⟨state, offset, lexeme⟩).used := by
  have hle := h.used_le
  cases lexeme with
  | separator c =>
      cases hcommand : state.current.command with
      | none => simp [Step.next, advance, hcommand]
      | some name =>
          simp only [Step.next, advance, hcommand]
          exact hle
  | opening => exact hle
  | closing =>
      cases houter : state.outer with
      | nil => simp [Step.next, advance, houter]
      | cons parent outer =>
          simpa [Step.next, advance, houter, used, Invocation.takeSubstitution] using hle
  | word quote text closed =>
      obtain ⟨name, hname⟩ := exists_command_word arity state offset quote text closed
      rw [used_of_some hname]
      exact hle
  | _ => exact Nat.le_refl _

theorem Numbered.invocation_lt_used (h : state.Numbered) {token : Token}
    (htoken : Step.token? arity ⟨state, offset, lexeme⟩ = some token) :
    token.invocation < (Step.next arity ⟨state, offset, lexeme⟩).used := by
  obtain ⟨quote, text, closed, rfl, rfl⟩ := Step.token?_eq_some htoken
  obtain ⟨name, hname⟩ := exists_command_word arity state offset quote text closed
  rw [used_of_some hname]
  exact h.lt state.current.number List.mem_cons_self

end

theorem Latest.next_newline {state : State} (h : state.Latest) (houter : state.outer = [])
    (arity : Arity) (offset : Nat) :
    Step.next arity ⟨state, offset, .separator '\n'⟩ = State.start.renumber state.used := by
  obtain ⟨current, outer, numbered⟩ := state
  obtain rfl : outer = [] := houter
  cases hcommand : current.command with
  | none =>
      obtain ⟨hcurrent, hnumbered⟩ := h hcommand
      have hused : used ⟨current, [], numbered⟩ = current.number := used_of_none hcommand
      simp only at hcurrent hnumbered
      rw [hused, hnumbered]
      simp only [Step.next, advance, hcommand]
      rw [hcurrent]
      rfl
  | some name =>
      have hused : used ⟨current, [], numbered⟩ = numbered := used_of_some hcommand
      rw [hused]
      simp only [Step.next, advance, hcommand]
      rfl

end State

/-! ## After a complete line -/

theorem Lexeme.endsBefore_newline {nested : Bool} {lexeme : Lexeme}
    (h : lexeme.isClosed = true) (rest : Text) : lexeme.EndsBefore nested ('\n' :: rest) := by
  cases lexeme with
  | comment text => rfl
  | word quote text closed =>
      obtain rfl : closed = true := h
      cases quote with
      | bare =>
          change endsBare nested '\n' = true
          cases nested <;> decide
      | brace => trivial
      | double => trivial
  | _ => trivial

section

variable {context : Context} {text rest : Text} {lexeme : Lexeme}

theorem Reads.endsBefore_append_newline (h : Reads context text lexeme rest)
    (hclosed : lexeme.isClosed = true) (behind : Text) :
    lexeme.EndsBefore context.nested (rest ++ '\n' :: behind) := by
  cases rest with
  | nil => exact Lexeme.endsBefore_newline hclosed behind
  | cons c rest => exact h.valid.2.of_head _

theorem Reads.append_newline (h : Reads context text lexeme rest)
    (hclosed : lexeme.isClosed = true) (behind : Text) :
    Reads context (text ++ '\n' :: behind) lexeme (rest ++ '\n' :: behind) := by
  rw [h.source, List.append_assoc]
  exact reads_of_valid h.valid.1 (h.endsBefore_append_newline hclosed behind)

end

theorem exists_passes_newline (arity : Arity) (brackets : Bool) {state : State} (offset : Nat)
    {text : Text} (hlatest : state.Latest) (hnumbered : state.Numbered)
    (hcomplete : (scanFrom arity brackets state offset text).complete = true) :
    ∃ count, Passes arity brackets state offset (text ++ ['\n']) (State.start.renumber count) ∧
      (scanFrom arity brackets state offset (text ++ ['\n'])).tokens =
        (scanFrom arity brackets state offset text).tokens ∧
      state.used ≤ count ∧
      ∀ token ∈ (scanFrom arity brackets state offset text).tokens, token.invocation < count := by
  -- The newline is read behind the last lexeme.  The numbers only grow on the way there, so the
  -- bound can be carried back.
  induction state, offset, text using scan_induction arity brackets with
  | nil state offset =>
      have houter : state.outer = [] := by simpa using hcomplete
      have hread := reads_newline (state.context brackets) []
      have hpasses := (Passes.nil arity brackets (Step.next arity ⟨state, offset, .separator '\n'⟩)
        (Step.stop ⟨state, offset, .separator '\n'⟩)).cons_of_reads hread fun _ => trivial
      rw [hlatest.next_newline houter] at hpasses
      refine ⟨state.used, hpasses, ?_, Nat.le_refl _, by simp⟩
      rw [List.nil_append, scanFrom_of_reads hread]
      cases hcommand : state.current.command <;> simp [Step.token?, State.advance, hcommand]
  | step state offset text lexeme rest hread ih =>
      rw [scanFrom_of_reads hread, Bool.and_eq_true] at hcomplete
      obtain ⟨hclosed, hrest⟩ := hcomplete
      obtain ⟨count, hpasses, htokens, hused, hlt⟩ :=
        ih (hlatest.next arity offset lexeme) hnumbered.next hrest
      have hends (behind : Text) : lexeme.EndsBefore (state.context brackets).nested
          (rest ++ ['\n'] ++ behind) := by
        rw [List.append_assoc]
        exact hread.endsBefore_append_newline hclosed behind
      refine ⟨count, ?_, ?_, Nat.le_trans (hnumbered.used_le_next arity offset lexeme) hused, ?_⟩
      · rw [hread.source, List.append_assoc]
        exact hpasses.cons_of_reads hread hends
      · rw [scanFrom_of_reads hread, scanFrom_of_reads (hread.append_newline hclosed []), htokens]
      · intro token htoken
        rcases (mem_tokens_of_reads hread).1 htoken with hfirst | hlater
        · have hown := hnumbered.invocation_lt_used arity offset lexeme hfirst
          omega
        · exact hlt token hlater

theorem exists_tokens_newline (arity : Arity) (brackets : Bool) {line : Text}
    (hcomplete : (scan arity brackets line).complete = true) :
    ∃ count, (∀ token ∈ (scan arity brackets line).tokens, token.invocation < count) ∧
      ∀ rest, (scan arity brackets (line ++ '\n' :: rest)).tokens =
        (scan arity brackets line).tokens ++
          (scan arity brackets rest).tokens.map
            (Token.shift (Text.byteLength line + 1) count) := by
  obtain ⟨count, hpasses, htokens, -, hlt⟩ :=
    exists_passes_newline arity brackets 0 .start .start hcomplete
  refine ⟨count, hlt, fun rest => ?_⟩
  have hplace : 0 + Text.byteLength (line ++ ['\n']) = Text.byteLength line + 1 + 0 := by
    rw [Text.byteLength_append, Nat.zero_add]
    rfl
  have hgoesOn := hpasses.goesOn rest
  rw [htokens, hplace, State.tokens_renumber, List.append_assoc] at hgoesOn
  exact hgoesOn

theorem complete_of_isComplete (arity : Arity) {line : Text} (h : isComplete line = true) :
    (scan arity true line).complete = true := by
  rw [isComplete, Bool.and_eq_true] at h
  exact (State.Alike.complete_eq ⟨rfl, rfl⟩ ..).trans h.1

/-- A complete line and what follows it on the next lines have the words that they
have by themselves, in invocations of their own. -/
theorem tokens_append_newline (arity : Arity) {line : Text} (h : isComplete line = true) :
    ∃ count, (∀ token ∈ tokens arity line, token.invocation < count) ∧
      ∀ rest, tokens arity (line ++ '\n' :: rest) =
        tokens arity line ++
          (tokens arity rest).map (Token.shift (Text.byteLength line + 1) count) :=
  exists_tokens_newline arity true (complete_of_isComplete arity h)

theorem tokens_append_newline_comment :
    isComplete "t [u -n \x7ba b\x7d]; # \\" = true ∧
      ∃ count, (∀ token ∈ tokens unknownArity "t [u -n \x7ba b\x7d]; # \\",
          token.invocation < count) ∧
        tokens unknownArity ("t [u -n \x7ba b\x7d]; # \\" ++ '\n' :: "-v [w] x") =
          tokens unknownArity "t [u -n \x7ba b\x7d]; # \\" ++
            (tokens unknownArity "-v [w] x").map (Token.shift 20 count) := by
  have hcomplete : isComplete "t [u -n \x7ba b\x7d]; # \\" = true := by decide +kernel
  obtain ⟨count, hlt, htokens⟩ := tokens_append_newline unknownArity hcomplete
  exact ⟨hcomplete, count, hlt, htokens "-v [w] x"⟩

end CommandFrame.Line
