import CommandFrame.Line.Commands
import CommandFrame.Proofs.Line.Reading

/-!
# The trace of a scan

A scan takes a step for each lexeme.  The steps are kept here with the state
and the offset they start from, so that the words of a line can be related to
what stands around them.
-/

namespace CommandFrame.Line

/-! ## Taking a word -/

namespace Invocation

inductive Takes (arity : Arity) (invocation : Invocation) (text : Text) :
    TokenKind × Invocation → Prop
  | command (h : invocation.command = none) :
      Takes arity invocation text (.command, { invocation with command := some text })
  | value {name : Text} (h : invocation.command = some name)
      (hawaits : invocation.awaitsValue = true) :
      Takes arity invocation text (.value, { invocation with awaitsValue := false })
  | afterOptions {name : Text} (h : invocation.command = some name)
      (hawaits : invocation.awaitsValue = false) (hdone : invocation.optionsDone = true) :
      Takes arity invocation text (.positional, invocation)
  | endOfOptions {name : Text} (h : invocation.command = some name)
      (hawaits : invocation.awaitsValue = false) (hdone : invocation.optionsDone = false)
      (htext : text = ['-', '-']) :
      Takes arity invocation text (.option, { invocation with optionsDone := true })
  | option {name : Text} (h : invocation.command = some name)
      (hawaits : invocation.awaitsValue = false) (hdone : invocation.optionsDone = false)
      (hhead : text.head? = some '-') (htext : text ≠ ['-', '-']) :
      Takes arity invocation text
        (.option, { invocation with awaitsValue := (arity name (text.drop 1)).getD true })
  | positional {name : Text} (h : invocation.command = some name)
      (hawaits : invocation.awaitsValue = false) (hdone : invocation.optionsDone = false)
      (hhead : text.head? ≠ some '-') : Takes arity invocation text (.positional, invocation)

variable (arity : Arity) (invocation : Invocation) (text : Text)

theorem takes_takeWord : Takes arity invocation text (invocation.takeWord arity text) := by
  unfold takeWord
  split
  · exact .command ‹_›
  rename_i name hcommand
  split
  · exact .value hcommand ‹_›
  rename_i hawaits
  rw [Bool.not_eq_true] at hawaits
  split
  · exact .afterOptions hcommand hawaits ‹_›
  rename_i hdone
  rw [Bool.not_eq_true] at hdone
  split
  · rename_i text option
    split
    · rename_i hoption
      exact .endOfOptions hcommand hawaits hdone (by simp [hoption])
    · rename_i hoption
      exact .option hcommand hawaits hdone rfl (by simpa using hoption)
  · rename_i hhead
    refine .positional hcommand hawaits hdone ?_
    rw [ne_eq, List.head?_eq_some_iff]
    rintro ⟨option, rfl⟩
    exact hhead option rfl

theorem number_takeWord : (invocation.takeWord arity text).2.number = invocation.number := by
  have htakes := takes_takeWord arity invocation text
  generalize invocation.takeWord arity text = taken at *
  cases htakes <;> rfl

theorem takeWord_eq_command_iff :
    (invocation.takeWord arity text).1 = .command ↔ invocation.command = none := by
  have htakes := takes_takeWord arity invocation text
  generalize invocation.takeWord arity text = taken at *
  cases htakes <;> simp [*]

theorem command_takeWord_ne_none : (invocation.takeWord arity text).2.command ≠ none := by
  have htakes := takes_takeWord arity invocation text
  generalize invocation.takeWord arity text = taken at *
  cases htakes <;> simp [*]

variable {arity invocation text}

theorem head?_of_option (h : (invocation.takeWord arity text).1 = .option) :
    text.head? = some '-' := by
  have htakes := takes_takeWord arity invocation text
  generalize invocation.takeWord arity text = taken at *
  cases htakes with
  | endOfOptions _ _ _ htext => rw [htext]; rfl
  | option _ _ _ hhead => exact hhead
  | _ => contradiction

theorem takeWord_eq_of_name
    (hname : (invocation.takeWord arity text).1 = .command ∨
      (invocation.takeWord arity text).1 = .option) {other : Text}
    (hother : (invocation.takeWord arity text).1 = .option → other.head? = some '-') :
    (invocation.takeWord arity other).1 = (invocation.takeWord arity text).1 := by
  rcases hname with hkind | hkind
  · rw [hkind, takeWord_eq_command_iff, ← takeWord_eq_command_iff arity invocation text, hkind]
  · have hdash := hother hkind
    have htakes := takes_takeWord arity invocation text
    have htakes' := takes_takeWord arity invocation other
    generalize invocation.takeWord arity text = taken at *
    generalize invocation.takeWord arity other = taken' at *
    cases htakes with
    | endOfOptions | option => cases htakes' <;> simp_all
    | _ => contradiction

end Invocation

/-! ## Steps -/

/-- A lexeme, the byte offset where it stands, and the state it is read in. -/
structure Step where
  state : State
  offset : Nat
  lexeme : Lexeme
  deriving DecidableEq, Repr

namespace Step

def next (arity : Arity) (step : Step) : State :=
  (step.state.advance arity step.offset step.lexeme).1

def token? (arity : Arity) (step : Step) : Option Token :=
  (step.state.advance arity step.offset step.lexeme).2

def stop (step : Step) : Nat := step.offset + Text.byteLength step.lexeme.source

@[simp] theorem stop_mk (state : State) (offset : Nat) (lexeme : Lexeme) :
    stop ⟨state, offset, lexeme⟩ = offset + Text.byteLength lexeme.source := rfl

end Step

def State.wordToken (arity : Arity) (state : State) (offset : Nat) (quote : Quote)
    (text : Text) : Token where
  kind := (state.current.takeWord arity text).1
  text := text
  start := offset + Text.byteLength quote.opening
  stop := offset + Text.byteLength quote.opening + Text.byteLength text
  quote := quote
  invocation := state.current.number

@[simp] theorem Step.token?_word (arity : Arity) (state : State) (offset : Nat) (quote : Quote)
    (text : Text) (closed : Bool) :
    token? arity ⟨state, offset, .word quote text closed⟩ =
      some (state.wordToken arity offset quote text) := rfl

theorem Step.token?_eq_some {arity : Arity} {state : State} {offset : Nat} {lexeme : Lexeme}
    {token : Token} (h : token? arity ⟨state, offset, lexeme⟩ = some token) :
    ∃ quote text closed, lexeme = .word quote text closed ∧
      token = state.wordToken arity offset quote text := by
  cases lexeme with
  | word quote text closed =>
      cases h
      exact ⟨quote, text, closed, rfl, rfl⟩
  | separator c =>
      simp only [token?, State.advance] at h
      split at h <;> contradiction
  | closing =>
      simp only [token?, State.advance] at h
      split at h <;> contradiction
  | _ => contradiction

theorem Lexeme.source_word (quote : Quote) (text : Text) (closed : Bool) :
    (Lexeme.word quote text closed).source =
      quote.opening ++ text ++ bif closed then quote.closing else [] := rfl

/-- The steps of a scan of what follows in a line from the byte offset
`offset` on. -/
def stepsFrom (arity : Arity) (brackets : Bool) (state : State) (offset : Nat) :
    Text → List Step
  | [] => []
  | c :: rest =>
      let read := readLexeme (state.context brackets) c rest
      let step : Step := ⟨state, offset, read.1⟩
      step :: stepsFrom arity brackets (step.next arity) step.stop read.2
termination_by text => text.length
decreasing_by exact length_readLexeme_lt ..

def steps (arity : Arity) (brackets : Bool) (line : Text) : List Step :=
  stepsFrom arity brackets State.start 0 line

@[simp] theorem stepsFrom_nil (arity : Arity) (brackets : Bool) (state : State) (offset : Nat) :
    stepsFrom arity brackets state offset [] = [] := by
  rw [stepsFrom]

@[simp] theorem scanFrom_nil (arity : Arity) (brackets : Bool) (state : State) (offset : Nat) :
    scanFrom arity brackets state offset [] = ⟨[], state.outer.isEmpty⟩ := by
  rw [scanFrom]

theorem stepsFrom_of_reads {arity : Arity} {brackets : Bool} {state : State} {offset : Nat}
    {text rest : Text} {lexeme : Lexeme} (h : Reads (state.context brackets) text lexeme rest) :
    stepsFrom arity brackets state offset text =
      ⟨state, offset, lexeme⟩ ::
        stepsFrom arity brackets (Step.next arity ⟨state, offset, lexeme⟩)
          (Step.stop ⟨state, offset, lexeme⟩) rest := by
  obtain ⟨c, after, rfl, hread⟩ := h
  rw [stepsFrom]
  simp only [hread]

theorem scan_induction (arity : Arity) (brackets : Bool) {motive : State → Nat → Text → Prop}
    (nil : ∀ state offset, motive state offset [])
    (step : ∀ state offset text lexeme rest, Reads (state.context brackets) text lexeme rest →
      motive (Step.next arity ⟨state, offset, lexeme⟩) (Step.stop ⟨state, offset, lexeme⟩) rest →
      motive state offset text)
    (state : State) (offset : Nat) (text : Text) : motive state offset text := by
  fun_induction stepsFrom arity brackets state offset text with
  | case1 state offset => exact nil state offset
  | case2 state offset c after read current ih =>
      exact step state offset (c :: after) read.1 read.2 ⟨c, after, rfl, rfl⟩ ih

theorem scanFrom_of_reads {arity : Arity} {brackets : Bool} {state : State} {offset : Nat}
    {text rest : Text} {lexeme : Lexeme} (h : Reads (state.context brackets) text lexeme rest) :
    scanFrom arity brackets state offset text =
      ⟨(Step.token? arity ⟨state, offset, lexeme⟩).toList ++
          (scanFrom arity brackets (Step.next arity ⟨state, offset, lexeme⟩)
            (Step.stop ⟨state, offset, lexeme⟩) rest).tokens,
        lexeme.isClosed &&
          (scanFrom arity brackets (Step.next arity ⟨state, offset, lexeme⟩)
            (Step.stop ⟨state, offset, lexeme⟩) rest).complete⟩ := by
  obtain ⟨c, after, rfl, hread⟩ := h
  rw [scanFrom]
  simp only [hread]
  rfl

theorem tokens_scanFrom (arity : Arity) (brackets : Bool) (state : State) (offset : Nat)
    (text : Text) :
    (scanFrom arity brackets state offset text).tokens =
      (stepsFrom arity brackets state offset text).filterMap (Step.token? arity) := by
  induction state, offset, text using scan_induction arity brackets with
  | nil state offset => simp
  | step state offset text lexeme rest hread ih =>
      rw [scanFrom_of_reads hread, stepsFrom_of_reads hread, List.filterMap_cons, ih]
      cases Step.token? arity ⟨state, offset, lexeme⟩ <;> rfl

theorem mem_tokens_of_reads {arity : Arity} {brackets : Bool} {state : State} {offset : Nat}
    {text rest : Text} {lexeme : Lexeme} (h : Reads (state.context brackets) text lexeme rest)
    {token : Token} :
    token ∈ (scanFrom arity brackets state offset text).tokens ↔
      Step.token? arity ⟨state, offset, lexeme⟩ = some token ∨
        token ∈ (scanFrom arity brackets (Step.next arity ⟨state, offset, lexeme⟩)
          (Step.stop ⟨state, offset, lexeme⟩) rest).tokens := by
  rw [scanFrom_of_reads h]
  simp

theorem tokens_eq_steps (arity : Arity) (line : Text) :
    tokens arity line = (steps arity true line).filterMap (Step.token? arity) :=
  tokens_scanFrom arity true State.start 0 line

end CommandFrame.Line
