import CommandFrame.Proofs.Line.Trace

/-!
# The words of an invocation

What an invocation makes of its words depends on them and on the places that
substitutions take among them, whatever else stands in the line.
-/

namespace CommandFrame.Line

inductive Slot
  | word (text : Text)
  | substitution
  deriving DecidableEq, Repr

def Slot.text? : Slot → Option Text
  | .word text => some text
  | .substitution => none

theorem Slot.map_word_text? {slots : List Slot} (h : .substitution ∉ slots) :
    (slots.filterMap text?).map word = slots := by
  induction slots with
  | nil => rfl
  | cons slot slots ih =>
      rw [List.mem_cons, not_or] at h
      cases slot with
      | word text => simp [text?, ih h.2]
      | substitution => exact absurd rfl h.1

/-- The kinds and texts of the words that an invocation takes. -/
def Invocation.classify (arity : Arity) : Invocation → List Slot → List (TokenKind × Text)
  | _, [] => []
  | invocation, .word text :: slots =>
      ((invocation.takeWord arity text).1, text) ::
        classify arity (invocation.takeWord arity text).2 slots
  | invocation, .substitution :: slots => classify arity invocation.takeSubstitution slots

def Step.slotOf? (number : Nat) (step : Step) : Option Slot :=
  match step.lexeme, step.state.outer with
  | .word _ text _, _ => if step.state.current.number = number then some (.word text) else none
  | .closing, parent :: _ => if parent.number = number then some .substitution else none
  | _, _ => none

def slots (number : Nat) (steps : List Step) : List Slot :=
  steps.filterMap (Step.slotOf? number)

theorem slots_cons (number : Nat) (step : Step) (steps : List Step) :
    slots number (step :: steps) = (step.slotOf? number).toList ++ slots number steps := by
  rw [slots, List.filterMap_cons]
  cases step.slotOf? number <;> rfl

namespace State

/-! ## Open invocations -/

def numbers (state : State) : List Nat :=
  state.current.number :: state.outer.map (·.number)

structure Numbered (state : State) : Prop where
  distinct : state.numbers.Nodup
  lt : ∀ number ∈ state.numbers, number < state.numbered

theorem Numbered.start : State.start.Numbered := by
  constructor <;> simp [numbers, State.start]

/-- The invocation of a number, as it is or as it will begin. -/
def invocation (state : State) (number : Nat) : Invocation :=
  ((state.current :: state.outer).find? (·.number = number)).getD { number }

structure Ended (state : State) (number : Nat) : Prop where
  lt : number < state.numbered
  notMem : number ∉ state.numbers

variable {arity : Arity} {state : State} {offset : Nat} {lexeme : Lexeme}

theorem numbers_next (arity : Arity) (state : State) (offset : Nat) (lexeme : Lexeme) :
    ∃ kept, kept.Sublist state.numbers ∧
      ((Step.next arity ⟨state, offset, lexeme⟩).numbers = kept ∧
          (Step.next arity ⟨state, offset, lexeme⟩).numbered = state.numbered ∨
        (Step.next arity ⟨state, offset, lexeme⟩).numbers = state.numbered :: kept ∧
          (Step.next arity ⟨state, offset, lexeme⟩).numbered = state.numbered + 1) := by
  cases lexeme with
  | separator c =>
      simp only [Step.next, advance]
      split
      · exact ⟨_, List.Sublist.refl _, .inl ⟨rfl, rfl⟩⟩
      · exact ⟨_, List.sublist_cons_self .., .inr ⟨rfl, rfl⟩⟩
  | opening => exact ⟨_, List.Sublist.refl _, .inr ⟨rfl, rfl⟩⟩
  | closing =>
      simp only [Step.next, advance]
      split
      · exact ⟨_, List.Sublist.refl _, .inl ⟨rfl, rfl⟩⟩
      · rename_i parent outer houter
        refine ⟨_, ?_, .inl ⟨rfl, rfl⟩⟩
        simp [numbers, houter, Invocation.takeSubstitution]
  | word quote text closed =>
      refine ⟨_, List.Sublist.refl _, .inl ⟨?_, rfl⟩⟩
      simp [numbers, Step.next, advance, Invocation.number_takeWord]
  | _ => exact ⟨_, List.Sublist.refl _, .inl ⟨rfl, rfl⟩⟩

theorem Numbered.next (h : state.Numbered) :
    (Step.next arity ⟨state, offset, lexeme⟩).Numbered := by
  obtain ⟨kept, hkept, ⟨hnumbers, hnumbered⟩ | ⟨hnumbers, hnumbered⟩⟩ :=
    numbers_next arity state offset lexeme
  · constructor
    · rw [hnumbers]
      exact hkept.nodup h.distinct
    · rw [hnumbers, hnumbered]
      exact fun number hmem => h.lt number (hkept.subset hmem)
  · have hlt : ∀ number ∈ kept, number < state.numbered :=
      fun number hmem => h.lt number (hkept.subset hmem)
    constructor
    · rw [hnumbers, List.nodup_cons]
      exact ⟨fun hmem => Nat.lt_irrefl _ (hlt _ hmem), hkept.nodup h.distinct⟩
    · rw [hnumbers, hnumbered, List.forall_mem_cons]
      exact ⟨Nat.lt_succ_self _, fun number hmem => Nat.lt_succ_of_lt (hlt number hmem)⟩

theorem Ended.next {number : Nat} (h : state.Ended number) :
    (Step.next arity ⟨state, offset, lexeme⟩).Ended number := by
  obtain ⟨kept, hkept, ⟨hnumbers, hnumbered⟩ | ⟨hnumbers, hnumbered⟩⟩ :=
    numbers_next arity state offset lexeme
  · constructor
    · rw [hnumbered]
      exact h.lt
    · rw [hnumbers]
      exact fun hmem => h.notMem (hkept.subset hmem)
  · constructor
    · rw [hnumbered]
      exact Nat.lt_succ_of_lt h.lt
    · rw [hnumbers, List.mem_cons, not_or]
      exact ⟨Nat.ne_of_lt h.lt, fun hmem => h.notMem (hkept.subset hmem)⟩

theorem Ended.slotOf?_eq_none {number : Nat} (h : state.Ended number) :
    Step.slotOf? number ⟨state, offset, lexeme⟩ = none := by
  have hnot := h.notMem
  unfold Step.slotOf?
  split
  · refine if_neg fun hnumber => hnot ?_
    exact hnumber ▸ List.mem_cons_self
  · rename_i parent outer hlexeme houter
    simp only at houter
    refine if_neg fun hnumber => hnot ?_
    simp [numbers, houter, hnumber]
  · rfl

theorem Ended.slots_stepsFrom (arity : Arity) (brackets : Bool) {state : State} (offset : Nat)
    {number : Nat} (h : state.Ended number) (text : Text) :
    slots number (stepsFrom arity brackets state offset text) = [] := by
  induction state, offset, text using scan_induction arity brackets with
  | nil state offset => simp [slots]
  | step state offset text lexeme rest hread ih =>
      rw [stepsFrom_of_reads hread, slots_cons, h.slotOf?_eq_none, ih h.next]
      rfl

/-! ## What a step does to an invocation -/

theorem invocation_of_eq {number : Nat} (h : state.current.number = number) :
    state.invocation number = state.current := by
  simp [invocation, h]

theorem invocation_of_ne {number : Nat} (h : state.current.number ≠ number) :
    state.invocation number = (state.outer.find? (·.number = number)).getD { number } := by
  simp [invocation, h]

theorem Numbered.find?_numbered (h : state.Numbered) :
    state.outer.find? (·.number = state.numbered) = none := by
  rw [List.find?_eq_none]
  intro invocation hmem
  have hlt := h.lt invocation.number (List.mem_cons_of_mem _ (List.mem_map_of_mem hmem))
  simp only [decide_eq_true_eq]
  omega

theorem Numbered.invocation_numbered (h : state.Numbered) :
    state.invocation state.numbered = { number := state.numbered } := by
  have hlt := h.lt state.current.number List.mem_cons_self
  rw [invocation_of_ne (Nat.ne_of_lt hlt), h.find?_numbered]
  rfl

theorem invocation_begun (h : state.Numbered) {number : Nat} {outer : List Invocation}
    (houter : outer = state.outer ∧ state.current.number ≠ number ∨
      outer = state.current :: state.outer) :
    invocation ⟨{ number := state.numbered }, outer, state.numbered + 1⟩ number =
      state.invocation number := by
  by_cases hfresh : state.numbered = number
  · subst hfresh
    rw [h.invocation_numbered, invocation_of_eq rfl]
  · rw [invocation_of_ne hfresh]
    rcases houter with ⟨rfl, hcurrent⟩ | rfl
    · rw [invocation_of_ne hcurrent]
    · rfl

theorem classify_begun (h : state.Numbered) {number : Nat} {later : List Slot}
    (hlater : Ended ⟨{ number := state.numbered }, state.outer, state.numbered + 1⟩ number →
      later = []) :
    (state.invocation number).classify arity later =
      (invocation ⟨{ number := state.numbered }, state.outer, state.numbered + 1⟩
        number).classify arity later := by
  by_cases hnumber : state.current.number = number
  · have hended : Ended ⟨{ number := state.numbered }, state.outer, state.numbered + 1⟩
        number := by
      have hcurrent := h.lt state.current.number List.mem_cons_self
      have hdistinct := (List.nodup_cons.1 h.distinct).1
      subst hnumber
      refine ⟨Nat.lt_succ_of_lt hcurrent, ?_⟩
      rw [numbers, List.mem_cons, not_or]
      exact ⟨Nat.ne_of_lt hcurrent, hdistinct⟩
    rw [hlater hended]
    rfl
  · rw [invocation_begun h (.inl ⟨rfl, hnumber⟩)]

theorem classify_filled (h : state.Numbered) {parent : Invocation} {outer : List Invocation}
    (houter : state.outer = parent :: outer) {number : Nat} {later : List Slot}
    (hlater : Ended ⟨parent.takeSubstitution, outer, state.numbered⟩ number → later = []) :
    (state.invocation number).classify arity
        ((if parent.number = number then some Slot.substitution else none).toList ++ later) =
      (invocation ⟨parent.takeSubstitution, outer, state.numbered⟩ number).classify arity
        later := by
  have hdistinct := h.distinct
  rw [numbers, houter] at hdistinct
  simp only [List.map_cons, List.nodup_cons, List.mem_cons, not_or] at hdistinct
  obtain ⟨⟨hne, hnot⟩, -, -⟩ := hdistinct
  by_cases hparent : parent.number = number
  · have hfilled : invocation ⟨parent.takeSubstitution, outer, state.numbered⟩ number =
        parent.takeSubstitution := invocation_of_eq hparent
    subst hparent
    rw [invocation_of_ne hne, houter, hfilled]
    simp [Invocation.classify]
  by_cases hnumber : state.current.number = number
  · have hended : Ended ⟨parent.takeSubstitution, outer, state.numbered⟩ number := by
      subst hnumber
      refine ⟨h.lt state.current.number List.mem_cons_self, ?_⟩
      rw [numbers, List.mem_cons, not_or]
      exact ⟨hne, hnot⟩
    rw [hlater hended]
    simp [Invocation.classify, hparent]
  · have hother : invocation ⟨parent.takeSubstitution, outer, state.numbered⟩ number =
        (outer.find? (·.number = number)).getD { number } := invocation_of_ne hparent
    rw [invocation_of_ne hnumber, houter, hother]
    simp [hparent]

theorem classify_invocation (arity : Arity) {state : State} (offset : Nat) (lexeme : Lexeme)
    (h : state.Numbered) (number : Nat) {later : List Slot}
    (hlater : (Step.next arity ⟨state, offset, lexeme⟩).Ended number → later = []) :
    (state.invocation number).classify arity
        ((Step.slotOf? number ⟨state, offset, lexeme⟩).toList ++ later) =
      ((Step.token? arity ⟨state, offset, lexeme⟩).toList.filter
          (·.invocation = number)).map (fun token => (token.kind, token.text)) ++
        ((Step.next arity ⟨state, offset, lexeme⟩).invocation number).classify arity later := by
  cases lexeme with
  | word quote text closed =>
      by_cases hnumber : state.current.number = number
      · simp [invocation, Step.slotOf?, Step.next, advance, wordToken, hnumber,
          Invocation.number_takeWord, Invocation.classify]
      · simp [invocation, Step.slotOf?, Step.next, advance, wordToken, hnumber,
          Invocation.number_takeWord]
  | separator c =>
      cases hcommand : state.current.command with
      | none => simp [Step.slotOf?, Step.token?, Step.next, advance, hcommand]
      | some name =>
          simp only [Step.next, advance, hcommand] at hlater
          simp only [Step.slotOf?, Step.token?, Step.next, advance, hcommand, Option.toList_none,
            List.filter_nil, List.map_nil, List.nil_append]
          exact classify_begun h hlater
  | opening =>
      change _ = [] ++ (invocation ⟨{ number := state.numbered }, state.current :: state.outer,
        state.numbered + 1⟩ number).classify arity later
      rw [invocation_begun h (.inr rfl)]
      rfl
  | closing =>
      cases houter : state.outer with
      | nil => simp [Step.slotOf?, Step.token?, Step.next, advance, houter]
      | cons parent outer =>
          simp only [Step.next, advance, houter] at hlater
          simp only [Step.slotOf?, Step.token?, Step.next, advance, houter, Option.toList_none,
            List.filter_nil, List.map_nil, List.nil_append]
          exact classify_filled h houter hlater
  | _ => rfl

theorem classify_stepsFrom (arity : Arity) (brackets : Bool) {state : State} (offset : Nat)
    (h : state.Numbered) (number : Nat) (text : Text) :
    (state.invocation number).classify arity
        (slots number (stepsFrom arity brackets state offset text)) =
      ((scanFrom arity brackets state offset text).tokens.filter
        (·.invocation = number)).map fun token => (token.kind, token.text) := by
  induction state, offset, text using scan_induction arity brackets with
  | nil state offset => simp [slots, Invocation.classify]
  | step state offset text lexeme rest hread ih =>
      have hstep := classify_invocation arity offset lexeme h number
        fun hended =>
          hended.slots_stepsFrom arity brackets (Step.stop ⟨state, offset, lexeme⟩) rest
      rw [stepsFrom_of_reads hread, slots_cons, hstep, ih h.next, scanFrom_of_reads hread,
        List.filter_append, List.map_append]

end State

theorem tokens_of_invocation (arity : Arity) (line : Text) (number : Nat) :
    ((tokens arity line).filter (·.invocation = number)).map
        (fun token => (token.kind, token.text)) =
      Invocation.classify arity { number } (slots number (steps arity true line)) := by
  have hstart : State.start.invocation number = { number } := by
    by_cases hnumber : State.start.current.number = number
    · rw [State.invocation_of_eq hnumber, ← hnumber]
      rfl
    · rw [State.invocation_of_ne hnumber]
      rfl
  rw [steps, ← hstart]
  exact (State.classify_stepsFrom arity true 0 State.Numbered.start number line).symm

/-! ## What fills a slot -/

def Step.EndsSubstitution (number : Nat) (step : Step) : Prop :=
  step.lexeme = .closing ∧ ∃ parent, step.state.outer.head? = some parent ∧ parent.number = number

theorem Step.slotOf?_eq_substitution_iff {number : Nat} {step : Step} :
    step.slotOf? number = some .substitution ↔ step.EndsSubstitution number := by
  obtain ⟨state, offset, lexeme⟩ := step
  cases lexeme <;> cases houter : state.outer <;> simp [slotOf?, EndsSubstitution, houter]

theorem Step.text?_slotOf? (arity : Arity) (number : Nat) (step : Step) :
    (step.slotOf? number).bind Slot.text? =
      ((step.token? arity).filter (·.invocation = number)).map (·.text) := by
  obtain ⟨state, offset, lexeme⟩ := step
  cases lexeme with
  | word quote text closed =>
      by_cases hnumber : state.current.number = number
      · simp [slotOf?, Slot.text?, State.wordToken, hnumber, Option.filter]
      · simp [slotOf?, State.wordToken, hnumber, Option.filter]
  | separator c =>
      cases hcommand : state.current.command <;>
        simp [slotOf?, token?, State.advance, hcommand]
  | closing =>
      cases houter : state.outer with
      | nil => simp [slotOf?, token?, State.advance, houter]
      | cons parent outer =>
        by_cases hnumber : parent.number = number <;>
          simp [slotOf?, token?, State.advance, houter, hnumber, Slot.text?]
  | _ => rfl

theorem filterMap_text?_slots (arity : Arity) (number : Nat) (past : List Step) :
    (slots number past).filterMap Slot.text? =
      ((past.filterMap (Step.token? arity)).filter (·.invocation = number)).map (·.text) := by
  have hstep := funext (Step.text?_slotOf? arity number)
  rw [slots, List.filterMap_filterMap, hstep, List.filter_filterMap, List.map_filterMap]

/-! ## Lines without substitutions -/

section

variable {arity : Arity} {brackets : Bool} {state : State} {offset : Nat} {text : Text}
  (houter : state.outer = [])
  (hsteps : ∀ step ∈ stepsFrom arity brackets state offset text, step.lexeme ≠ .opening)
include houter hsteps

theorem substitution_notMem_slots (number : Nat) :
    .substitution ∉ slots number (stepsFrom arity brackets state offset text) := by
  induction state, offset, text using scan_induction arity brackets with
  | nil state offset => simp [slots]
  | step state offset text lexeme rest hread ih =>
      rw [stepsFrom_of_reads hread, List.forall_mem_cons] at hsteps
      have hnext : (Step.next arity ⟨state, offset, lexeme⟩).outer = [] := by
        cases lexeme with
        | separator c =>
            simp only [Step.next, State.advance]
            split <;> exact houter
        | opening => exact absurd rfl hsteps.1
        | closing => simp [Step.next, State.advance, houter]
        | _ => exact houter
      rw [stepsFrom_of_reads hread, slots_cons, List.mem_append, not_or]
      refine ⟨?_, ih hnext hsteps.2⟩
      rw [Option.mem_toList, Step.slotOf?_eq_substitution_iff]
      rintro ⟨-, parent, hparent, -⟩
      simp [houter] at hparent

theorem slots_stepsFrom_of_noOpening (number : Nat) :
    slots number (stepsFrom arity brackets state offset text) =
      ((scanFrom arity brackets state offset text).tokens.filter
        (·.invocation = number)).map fun token => .word token.text := by
  have hnot := substitution_notMem_slots houter hsteps number
  have htexts := filterMap_text?_slots arity number (stepsFrom arity brackets state offset text)
  rw [← Slot.map_word_text? hnot, htexts, ← tokens_scanFrom, List.map_map]
  rfl

end

theorem classify_words {arity : Arity} {line : Text}
    (hsteps : ∀ step ∈ steps arity true line, step.lexeme ≠ .opening) (number : Nat) :
    ((tokens arity line).filter (·.invocation = number)).map
        (fun token => (token.kind, token.text)) =
      Invocation.classify arity { number }
        (((tokens arity line).filter (·.invocation = number)).map fun token =>
          .word token.text) := by
  rw [tokens_of_invocation, steps, slots_stepsFrom_of_noOpening rfl hsteps]
  rfl

end CommandFrame.Line
