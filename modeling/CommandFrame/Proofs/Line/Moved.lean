import CommandFrame.Proofs.Line.Slots

/-!
# Moving a scan

A text has the same words wherever it stands and however the invocations around
it are numbered.  Only the places of the words and the numbers of their
invocations change, and these change together.
-/

namespace CommandFrame.Line

def Token.move (place place' : Nat) (number : Nat → Nat) (token : Token) : Token :=
  { token with
    start := place' + (token.start - place)
    stop := place' + (token.stop - place)
    invocation := number token.invocation }

def Invocation.rename (number : Nat → Nat) (invocation : Invocation) : Invocation :=
  { invocation with number := number invocation.number }

def State.rename (number : Nat → Nat) (state : State) : State where
  current := state.current.rename number
  outer := state.outer.map (·.rename number)
  numbered := number state.numbered

theorem Invocation.takeWord_rename (arity : Arity) (number : Nat → Nat) (invocation : Invocation)
    (text : Text) :
    (invocation.rename number).takeWord arity text =
      ((invocation.takeWord arity text).1, (invocation.takeWord arity text).2.rename number) := by
  obtain ⟨own, command, awaits, done⟩ := invocation
  cases command with
  | none => rfl
  | some name =>
      unfold takeWord rename
      simp only
      split
      · rfl
      split
      · rfl
      split
      · split <;> rfl
      · rfl

namespace State

theorem context_rename (number : Nat → Nat) (state : State) (brackets : Bool) :
    (state.rename number).context brackets = state.context brackets := by
  simp [context, rename, Invocation.rename]

theorem numbered_le_next (arity : Arity) (state : State) (offset : Nat) (lexeme : Lexeme) :
    state.numbered ≤ (Step.next arity ⟨state, offset, lexeme⟩).numbered := by
  obtain ⟨kept, -, ⟨-, hnumbered⟩ | ⟨-, hnumbered⟩⟩ := numbers_next arity state offset lexeme
  · omega
  · omega

section

variable {number : Nat → Nat} {state : State} {place offset : Nat}

theorem next_rename (hnext : number (state.numbered + 1) = number state.numbered + 1)
    (arity : Arity) (offset offset' : Nat) (lexeme : Lexeme) :
    Step.next arity ⟨state.rename number, offset', lexeme⟩ =
      (Step.next arity ⟨state, offset, lexeme⟩).rename number := by
  cases lexeme with
  | separator c =>
      cases hcommand : state.current.command <;>
        simp [Step.next, advance, rename, Invocation.rename, hcommand, hnext]
  | closing =>
      cases houter : state.outer <;>
        simp [Step.next, advance, rename, Invocation.rename, Invocation.takeSubstitution, houter]
  | opening => simp [Step.next, advance, rename, Invocation.rename, hnext]
  | word quote text closed => simp [Step.next, advance, rename, Invocation.takeWord_rename]
  | _ => rfl

theorem token?_rename (hplace : place ≤ offset) (arity : Arity) (place' : Nat)
    (lexeme : Lexeme) :
    Step.token? arity ⟨state.rename number, place' + (offset - place), lexeme⟩ =
      (Step.token? arity ⟨state, offset, lexeme⟩).map (Token.move place place' number) := by
  cases lexeme with
  | word quote text closed =>
      have hnumber : (state.current.rename number).number = number state.current.number := rfl
      simp [wordToken, rename, Invocation.takeWord_rename, Token.move, hnumber]
      omega
  | separator c =>
      cases hcommand : state.current.command <;>
        simp [Step.token?, advance, rename, Invocation.rename, hcommand]
  | closing => cases houter : state.outer <;> simp [Step.token?, advance, rename, houter]
  | _ => rfl

end

/-- A scan of a text at another place, in invocations of other numbers, has the same
words.  Numbers that are still to be given out have to stay in a row. -/
theorem scanFrom_rename (arity : Arity) (brackets : Bool) (number : Nat → Nat) {place : Nat}
    (place' : Nat) {state : State} {offset : Nat} (text : Text) (hplace : place ≤ offset)
    (hrow : ∀ n, state.numbered ≤ n → number (n + 1) = number n + 1) :
    scanFrom arity brackets (state.rename number) (place' + (offset - place)) text =
      ⟨(scanFrom arity brackets state offset text).tokens.map (Token.move place place' number),
        (scanFrom arity brackets state offset text).complete⟩ := by
  induction state, offset, text using scan_induction arity brackets with
  | nil state offset => simp [rename]
  | step state offset text lexeme rest hread ih =>
      have hagain := hread
      rw [← context_rename number] at hagain
      have hstop : Step.stop ⟨state.rename number, place' + (offset - place), lexeme⟩ =
          place' + (Step.stop ⟨state, offset, lexeme⟩ - place) := by
        simp only [Step.stop_mk]
        omega
      have hlater := ih (Nat.le_trans hplace (Nat.le_add_right ..)) fun n hn =>
        hrow n (Nat.le_trans (numbered_le_next arity state offset lexeme) hn)
      rw [scanFrom_of_reads hread, scanFrom_of_reads hagain, hstop, token?_rename hplace,
        next_rename (hrow _ (Nat.le_refl _)) arity offset, hlater, List.map_append]
      cases Step.token? arity ⟨state, offset, lexeme⟩ <;> rfl

end State

end CommandFrame.Line
