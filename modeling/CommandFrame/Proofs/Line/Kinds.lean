import Mathlib.Data.List.Induction
import CommandFrame.Proofs.Line.Slots
import CommandFrame.Proofs.Line.Tiling

/-!
# Kinds of words

The kind of a word depends on the words before it in its invocation, and on the
substitutions that stand among them.  Words of other invocations, around it or
nested in it, make no difference.
-/

namespace CommandFrame.Line

/-! ## What an invocation has taken -/

def Token.spelling (token : Token) : TokenKind × Text := (token.kind, token.text)

/-- The text of the command among some words of an invocation.  A substitution in its
place has none. -/
def commandText (words : List (TokenKind × Text)) : Text :=
  ((words.find? (·.1 = .command)).map (·.2)).getD []

/-- The word is an option, and as far as is known it takes a value. -/
def TakesValue (arity : Arity) (command : Text) (word : TokenKind × Text) : Prop :=
  word.1 = .option ∧ word.2 ≠ ['-', '-'] ∧ arity command (word.2.drop 1) ≠ some false

namespace Invocation

variable {arity : Arity}

def fill (arity : Arity) (invocation : Invocation) : Slot → Invocation
  | .word text => (invocation.takeWord arity text).2
  | .substitution => invocation.takeSubstitution

theorem classify_append (invocation : Invocation) (first second : List Slot) :
    invocation.classify arity (first ++ second) =
      invocation.classify arity first ++
        (first.foldl (fill arity) invocation).classify arity second := by
  induction first generalizing invocation with
  | nil => rfl
  | cons slot first ih => cases slot <;> simp [classify, fill, ih]

structure Follows (arity : Arity) (invocation : Invocation) (slots : List Slot)
    (words : List (TokenKind × Text)) : Prop where
  fresh_iff : invocation.command = none ↔ slots = []
  name_eq : invocation.command.getD [] = commandText words
  awaits_iff : invocation.awaitsValue = true ↔
    slots.getLast? ≠ some .substitution ∧
      ∃ word, words.getLast? = some word ∧ TakesValue arity (commandText words) word
  done_iff : invocation.optionsDone = true ↔ (.option, ['-', '-']) ∈ words
  exclusive : invocation.optionsDone = true → invocation.awaitsValue = false
  words_eq_nil : slots = [] → words = []

namespace Follows

variable {invocation reached : Invocation} {slots : List Slot} {words : List (TokenKind × Text)}

theorem substitution (h : Follows arity invocation slots words) :
    Follows arity invocation.takeSubstitution (slots ++ [.substitution]) words := by
  constructor
  · simp [takeSubstitution]
  · simpa [takeSubstitution] using h.name_eq
  · simp [takeSubstitution]
  · exact h.done_iff
  · exact fun _ => rfl
  · simp

theorem command (h : Follows arity invocation slots words) (hcommand : invocation.command = none)
    (text : Text) :
    Follows arity { invocation with command := some text } (slots ++ [.word text])
      (words ++ [(.command, text)]) := by
  obtain rfl := h.words_eq_nil (h.fresh_iff.1 hcommand)
  have hawaits := h.awaits_iff
  have hdone := h.done_iff
  constructor
  · simp
  · simp [commandText]
  · simpa [TakesValue] using hawaits
  · simpa using hdone
  · exact h.exclusive
  · simp

theorem concat (h : Follows arity invocation slots words) {name text : Text} {kind : TokenKind}
    (hcommand : invocation.command = some name) (hkind : kind ≠ .command)
    (hkept : reached.command = invocation.command)
    (hawaits : reached.awaitsValue = true ↔ TakesValue arity name (kind, text))
    (hdone : reached.optionsDone = true ↔
      invocation.optionsDone = true ∨ (.option, ['-', '-']) = (kind, text))
    (hexclusive : reached.optionsDone = true → reached.awaitsValue = false) :
    Follows arity reached (slots ++ [.word text]) (words ++ [(kind, text)]) := by
  have hname : commandText (words ++ [(kind, text)]) = commandText words := by
    simp [commandText, hkind]
  have hbefore := h.name_eq
  rw [hcommand, Option.getD_some] at hbefore
  constructor
  · simp [hkept, hcommand]
  · rw [hkept, hname]
    exact h.name_eq
  · rw [hname, ← hbefore, hawaits]
    simp
  · rw [hdone, h.done_iff, List.mem_append, List.mem_singleton]
  · exact hexclusive
  · simp

theorem word (h : Follows arity invocation slots words) (text : Text) :
    Follows arity (invocation.takeWord arity text).2 (slots ++ [.word text])
      (words ++ [((invocation.takeWord arity text).1, text)]) := by
  have htakes := takes_takeWord arity invocation text
  generalize invocation.takeWord arity text = taken at *
  cases htakes with
  | command hcommand => exact h.command hcommand text
  | value hcommand hawaits =>
      exact h.concat hcommand (by simp) rfl (by simp [TakesValue]) (by simp) fun _ => rfl
  | afterOptions hcommand hawaits hdone =>
      exact h.concat hcommand (by simp) rfl (by simp [TakesValue, hawaits]) (by simp) h.exclusive
  | endOfOptions hcommand hawaits hdone htext =>
      exact h.concat hcommand (by simp) rfl (by simp [TakesValue, hawaits, htext])
        (by simp [htext]) fun _ => hawaits
  | option hcommand hawaits hdone hhead htext =>
      have hknown (known : Option Bool) : known.getD true = true ↔ known ≠ some false := by
        rcases known with _ | _ | _ <;> decide
      exact h.concat hcommand (by simp) rfl (by simp [TakesValue, htext, hknown])
        (by simp [Ne.symm htext]) fun h => absurd (hdone.symm.trans h) (by decide)
  | positional hcommand hawaits hdone hhead =>
      exact h.concat hcommand (by simp) rfl (by simp [TakesValue, hawaits]) (by simp) h.exclusive

theorem kind_spec (h : Follows arity invocation slots words) (text : Text) :
    ((invocation.takeWord arity text).1 = .command ↔ slots = []) ∧
      ((invocation.takeWord arity text).1 = .value ↔ invocation.awaitsValue = true) ∧
      ((.option, ['-', '-']) ∈ words → (invocation.takeWord arity text).1 = .positional) ∧
      ((.option, ['-', '-']) ∉ words → (invocation.takeWord arity text).1 ≠ .command →
        (invocation.takeWord arity text).1 ≠ .value →
          ((invocation.takeWord arity text).1 = .option ↔ text.head? = some '-')) := by
  have htakes := takes_takeWord arity invocation text
  rw [← h.fresh_iff, ← h.done_iff]
  generalize invocation.takeWord arity text = taken at *
  cases htakes with
  | command hcommand =>
      obtain rfl := h.words_eq_nil (h.fresh_iff.1 hcommand)
      simp [hcommand, h.awaits_iff, h.done_iff]
  | value hcommand hawaits =>
      have hdone := mt h.exclusive (by simp [hawaits])
      simp [hcommand, hawaits, hdone]
  | afterOptions hcommand hawaits hdone => simp [hcommand, hawaits, hdone]
  | endOfOptions hcommand hawaits hdone htext => simp [hcommand, hawaits, hdone, htext]
  | option hcommand hawaits hdone hhead htext => simp [hcommand, hawaits, hdone, hhead]
  | positional hcommand hawaits hdone hhead => simp [hcommand, hawaits, hdone, hhead]

end Follows

theorem follows (arity : Arity) (number : Nat) (slots : List Slot) :
    Follows arity (slots.foldl (fill arity) { number }) slots
      (classify arity { number } slots) := by
  induction slots using List.reverseRecOn with
  | nil => constructor <;> simp [classify, commandText]
  | append_singleton slots slot ih =>
      rw [List.foldl_append, classify_append]
      cases slot with
      | word text => exact ih.word text
      | substitution =>
          simp only [classify, List.append_nil]
          exact ih.substitution

theorem map_snd_classify (arity : Arity) (invocation : Invocation) (slots : List Slot) :
    (invocation.classify arity slots).map (·.2) = slots.filterMap Slot.text? := by
  induction slots generalizing invocation with
  | nil => rfl
  | cons slot slots ih =>
      rw [List.filterMap_cons]
      cases slot with
      | word text => exact congrArg (text :: ·) (ih _)
      | substitution => exact ih _

end Invocation

/-! ## Places in a line -/

/-- A substitution in the invocation of a number ends between two byte offsets of the line. -/
def SubstitutionBetween (arity : Arity) (line : Text) (number start stop : Nat) : Prop :=
  ∃ step ∈ steps arity true line,
    step.EndsSubstitution number ∧ start ≤ step.offset ∧ step.offset < stop

theorem Step.EndsSubstitution.stop_eq {number : Nat} {step : Step}
    (h : step.EndsSubstitution number) : step.stop = step.offset + 1 := by
  rw [Step.stop, h.1]
  rfl

theorem Step.EndsSubstitution.token?_eq_none {number : Nat} {step : Step}
    (h : step.EndsSubstitution number) (arity : Arity) : step.token? arity = none := by
  cases htoken : step.token? arity with
  | none => rfl
  | some token =>
      obtain ⟨quote, text, closed, hlexeme, -⟩ := Step.token?_eq_some htoken
      exact absurd (h.1.symm.trans hlexeme) (by simp)

theorem Step.bounds_of_token? {arity : Arity} {step : Step} {token : Token}
    (h : step.token? arity = some token) :
    step.offset ≤ token.start ∧ token.start ≤ token.stop ∧ token.stop ≤ step.stop := by
  obtain ⟨state, offset, lexeme⟩ := step
  obtain ⟨quote, text, closed, rfl, rfl⟩ := Step.token?_eq_some h
  simp only [State.wordToken, Step.stop_mk, Lexeme.source_word, Text.byteLength_append]
  omega

theorem pairwise_stepsFrom (arity : Arity) (brackets : Bool) (state : State) (offset : Nat)
    (text : Text) :
    (stepsFrom arity brackets state offset text).Pairwise
        (fun first second => first.stop ≤ second.offset) ∧
      ∀ step ∈ stepsFrom arity brackets state offset text, offset ≤ step.offset := by
  induction state, offset, text using scan_induction arity brackets with
  | nil state offset => simp
  | step state offset text lexeme rest hread ih =>
      obtain ⟨hpairwise, hle⟩ := ih
      rw [stepsFrom_of_reads hread, List.pairwise_cons, List.forall_mem_cons]
      refine ⟨⟨hle, hpairwise⟩, Nat.le_refl _, fun step hstep => ?_⟩
      have hstop : offset ≤ Step.stop ⟨state, offset, lexeme⟩ := Nat.le_add_right ..
      exact Nat.le_trans hstop (hle step hstep)

structure ComesAfter (arity : Arity) (line : Text) (past : List Step) (step : Step)
    (future : List Step) (token : Token) : Prop where
  steps_eq : steps arity true line = past ++ step :: future
  token_eq : step.token? arity = some token

section

variable {arity : Arity} {line : Text} {past future : List Step} {step : Step} {token : Token}

theorem exists_comesAfter {before after : List Token}
    (h : tokens arity line = before ++ token :: after) :
    ∃ past step future, ComesAfter arity line past step future token ∧
      past.filterMap (Step.token? arity) = before := by
  rw [tokens_eq_steps, List.filterMap_eq_append_iff] at h
  obtain ⟨first, second, hsteps, hfirst, hsecond⟩ := h
  rw [List.filterMap_eq_cons_iff] at hsecond
  obtain ⟨between, step, future, rfl, hnone, htoken, -⟩ := hsecond
  refine ⟨first ++ between, step, future, ⟨by simp [hsteps], htoken⟩, ?_⟩
  rw [List.filterMap_append, hfirst, List.filterMap_eq_nil_iff.2 hnone, List.append_nil]

theorem Step.slotOf?_of_token? {arity : Arity} {step : Step} {token : Token}
    (h : step.token? arity = some token) :
    step.slotOf? token.invocation = some (.word token.text) := by
  obtain ⟨state, offset, lexeme⟩ := step
  obtain ⟨quote, text, closed, rfl, rfl⟩ := Step.token?_eq_some h
  exact if_pos rfl

theorem ComesAfter.classify_eq (h : ComesAfter arity line past step future token) :
    ((past.filterMap (Step.token? arity)).filter (·.invocation = token.invocation)).map
        Token.spelling =
      Invocation.classify arity { number := token.invocation } (slots token.invocation past) ∧
    token.kind = (((slots token.invocation past).foldl (Invocation.fill arity)
      { number := token.invocation }).takeWord arity token.text).1 := by
  have hwords := tokens_of_invocation arity line token.invocation
  have hslots : slots token.invocation (steps arity true line) =
      slots token.invocation past ++ .word token.text :: slots token.invocation future := by
    simp [h.steps_eq, slots, Step.slotOf?_of_token? h.token_eq]
  rw [hslots, Invocation.classify_append, tokens_eq_steps, h.steps_eq, List.filterMap_append,
    List.filterMap_cons, h.token_eq, List.filter_append, List.map_append] at hwords
  have hlength : (((past.filterMap (Step.token? arity)).filter
      (·.invocation = token.invocation)).map Token.spelling).length =
      (Invocation.classify arity { number := token.invocation }
        (slots token.invocation past)).length := by
    have htexts := filterMap_text?_slots arity token.invocation past
    rw [← Invocation.map_snd_classify arity { number := token.invocation }] at htexts
    simpa using (congrArg List.length htexts).symm
  obtain ⟨hbefore, hrest⟩ := List.append_inj hwords hlength
  refine ⟨hbefore, ?_⟩
  simp [Invocation.classify] at hrest
  exact hrest.1

namespace ComesAfter

theorem past_le (h : ComesAfter arity line past step future token) :
    ∀ earlier ∈ past, earlier.stop ≤ step.offset := by
  have hpairwise := (pairwise_stepsFrom arity true State.start 0 line).1
  rw [← steps, h.steps_eq, List.pairwise_append] at hpairwise
  exact fun earlier hearlier => hpairwise.2.2 earlier hearlier step List.mem_cons_self

theorem le_future (h : ComesAfter arity line past step future token) :
    ∀ later ∈ future, step.stop ≤ later.offset := by
  have hpairwise := (pairwise_stepsFrom arity true State.start 0 line).1
  rw [← steps, h.steps_eq, List.pairwise_append, List.pairwise_cons] at hpairwise
  exact hpairwise.2.1.1

theorem substitutionBetween_iff (h : ComesAfter arity line past step future token)
    (number start : Nat) :
    SubstitutionBetween arity line number start token.start ↔
      ∃ earlier ∈ past, earlier.EndsSubstitution number ∧ start ≤ earlier.offset := by
  obtain ⟨hbegin, hinside, hend⟩ := Step.bounds_of_token? h.token_eq
  rw [SubstitutionBetween, h.steps_eq]
  constructor
  · rintro ⟨ending, hmem, hends, hstart, hstop⟩
    refine ⟨ending, ?_, hends, hstart⟩
    rcases List.mem_append.1 hmem with hmem | hmem
    · exact hmem
    rcases List.mem_cons.1 hmem with rfl | hmem
    · exact absurd h.token_eq (by simp [hends.token?_eq_none])
    · have hle := h.le_future ending hmem
      omega
  · rintro ⟨ending, hmem, hends, hstart⟩
    refine ⟨ending, List.mem_append_left _ hmem, hends, hstart, ?_⟩
    have hle := h.past_le ending hmem
    rw [hends.stop_eq] at hle
    omega

theorem exists_last (h : ComesAfter arity line past step future token) {number : Nat}
    {last : Token}
    (hlast : ((past.filterMap (Step.token? arity)).filter (·.invocation = number)).getLast? =
      some last) :
    ∃ earlier own later, past = earlier ++ own :: later ∧
      ComesAfter arity line earlier own (later ++ step :: future) last ∧
      last.invocation = number ∧ ∀ slot ∈ slots number later, slot = .substitution := by
  obtain ⟨init, hwords⟩ := List.getLast?_eq_some_iff.1 hlast
  rw [List.filter_filterMap, List.filterMap_eq_append_iff] at hwords
  obtain ⟨first, second, rfl, -, hsecond⟩ := hwords
  obtain ⟨between, own, later, rfl, -, hown, hnone⟩ := List.filterMap_eq_cons_iff.1 hsecond
  obtain ⟨htoken, hnumber⟩ := Option.filter_eq_some_iff.1 hown
  refine ⟨first ++ between, own, later, by simp, ⟨by simp [h.steps_eq], htoken⟩,
    by simpa using hnumber, ?_⟩
  have htexts := filterMap_text?_slots arity number later
  rw [List.filter_filterMap, hnone, List.map_nil, List.filterMap_eq_nil_iff] at htexts
  intro slot hslot
  cases slot with
  | word text => exact absurd (htexts _ hslot) (by simp [Slot.text?])
  | substitution => rfl

theorem slots_eq_nil_iff (h : ComesAfter arity line past step future token) (number : Nat) :
    slots number past = [] ↔
      (past.filterMap (Step.token? arity)).filter (·.invocation = number) = [] ∧
        ¬SubstitutionBetween arity line number 0 token.start := by
  have hwords : (past.filterMap (Step.token? arity)).filter (·.invocation = number) = [] ↔
      ∀ slot ∈ slots number past, slot.text? = none := by
    rw [← List.filterMap_eq_nil_iff, filterMap_text?_slots arity, List.map_eq_nil_iff]
  have hsubstitution : SubstitutionBetween arity line number 0 token.start ↔
      .substitution ∈ slots number past := by
    simp [h.substitutionBetween_iff, slots, List.mem_filterMap, Step.slotOf?_eq_substitution_iff]
  rw [hwords, hsubstitution]
  constructor
  · intro hnil
    simp [hnil]
  · rintro ⟨hnone, hnot⟩
    rw [List.eq_nil_iff_forall_not_mem]
    intro slot hslot
    cases slot with
    | word text => exact absurd (hnone _ hslot) (by simp [Slot.text?])
    | substitution => exact hnot hslot

theorem getLast?_slots_iff (h : ComesAfter arity line past step future token) (number : Nat)
    (last : Token)
    (hlast : ((past.filterMap (Step.token? arity)).filter (·.invocation = number)).getLast? =
      some last) :
    (slots number past).getLast? = some .substitution ↔
      SubstitutionBetween arity line number last.stop token.start := by
  obtain ⟨earlier, own, later, rfl, hown, rfl, hlater⟩ := h.exists_last hlast
  obtain ⟨hbegin, hinside, hend⟩ := Step.bounds_of_token? hown.token_eq
  have hbehind : SubstitutionBetween arity line last.invocation last.stop token.start ↔
      ∃ ending ∈ later, ending.EndsSubstitution last.invocation := by
    rw [h.substitutionBetween_iff]
    constructor
    · rintro ⟨ending, hmem, hends, hstart⟩
      refine ⟨ending, ?_, hends⟩
      rcases List.mem_append.1 hmem with hmem | hmem
      · have hle := hown.past_le ending hmem
        rw [hends.stop_eq] at hle
        omega
      rcases List.mem_cons.1 hmem with rfl | hmem
      · exact absurd hown.token_eq (by simp [hends.token?_eq_none])
      · exact hmem
    · rintro ⟨ending, hmem, hends⟩
      have hle := hown.le_future ending (List.mem_append_left _ hmem)
      exact ⟨ending, by simp [hmem], hends, Nat.le_trans hend hle⟩
  have hslots : slots last.invocation (earlier ++ own :: later) =
      slots last.invocation earlier ++ .word last.text :: slots last.invocation later := by
    simp [slots, Step.slotOf?_of_token? hown.token_eq]
  have hmem : (∃ ending ∈ later, ending.EndsSubstitution last.invocation) ↔
      .substitution ∈ slots last.invocation later := by
    simp [slots, List.mem_filterMap, Step.slotOf?_eq_substitution_iff]
  rw [hbehind, hmem, hslots, List.getLast?_append, List.getLast?_cons, Option.some_or,
    Option.some.injEq]
  cases hlast : (slots last.invocation later).getLast? with
  | none => simp [List.getLast?_eq_none_iff.1 hlast]
  | some slot =>
      have hslot := List.mem_of_getLast? hlast
      obtain rfl := hlater slot hslot
      exact iff_of_true rfl hslot

end ComesAfter

end

/-! ## Kinds -/

/-- What the kind of a word says of the words before it in its invocation. -/
structure KindFits (arity : Arity) (line : Text) (before : List Token) (token : Token) : Prop where
  command_iff : token.kind = .command ↔
    before = [] ∧ ¬SubstitutionBetween arity line token.invocation 0 token.start
  value_iff : token.kind = .value ↔
    ∃ option, before.getLast? = some option ∧
      TakesValue arity (commandText (before.map Token.spelling)) option.spelling ∧
      ¬SubstitutionBetween arity line token.invocation option.stop token.start
  positional_of_ended : (∃ earlier ∈ before, earlier.spelling = (.option, ['-', '-'])) →
    token.kind = .positional
  option_iff : (∀ earlier ∈ before, earlier.spelling ≠ (.option, ['-', '-'])) →
    token.kind ≠ .command → token.kind ≠ .value →
      (token.kind = .option ↔ token.text.head? = some '-')

theorem kindFits_of_tokens {arity : Arity} {line : Text} {before after : List Token}
    {token : Token} (h : tokens arity line = before ++ token :: after) :
    KindFits arity line (before.filter (·.invocation = token.invocation)) token := by
  obtain ⟨past, step, future, hcomes, rfl⟩ := exists_comesAfter h
  obtain ⟨hwords, hkind⟩ := hcomes.classify_eq
  have hfollows := Invocation.follows arity token.invocation (slots token.invocation past)
  rw [← hwords] at hfollows
  have hempty := hcomes.slots_eq_nil_iff token.invocation
  have hbehind := hcomes.getLast?_slots_iff token.invocation
  obtain ⟨hcommand, hvalue, hended, hoption⟩ := hfollows.kind_spec token.text
  rw [← hkind] at hcommand hvalue hended hoption
  generalize (past.filterMap (Step.token? arity)).filter (·.invocation = token.invocation) =
    earlier at *
  constructor
  · rw [hcommand, hempty]
  · rw [hvalue, hfollows.awaits_iff, List.getLast?_map]
    constructor
    · rintro ⟨hopen, word, hword, htakes⟩
      obtain ⟨option, hlast, rfl⟩ := Option.map_eq_some_iff.1 hword
      exact ⟨option, hlast, htakes, mt (hbehind option hlast).2 hopen⟩
    · rintro ⟨option, hlast, htakes, hopen⟩
      exact ⟨mt (hbehind option hlast).1 hopen, option.spelling, by rw [hlast]; rfl, htakes⟩
  · rintro ⟨word, hword, hends⟩
    exact hended (hends ▸ List.mem_map_of_mem hword)
  · intro hnone
    refine hoption fun hmem => ?_
    obtain ⟨word, hword, hends⟩ := List.mem_map.1 hmem
    exact hnone word hword hends

theorem kindFits_of_tokens_substitution :
    KindFits (fun command _ => some command.isEmpty) "[w] -x [u -n 1] -y a"
      [⟨.option, "-x", 4, 6, .bare, 0⟩, ⟨.option, "-y", 16, 18, .bare, 0⟩]
      ⟨.value, "a", 19, 20, .bare, 0⟩ := by
  have htokens : tokens (fun command _ => some command.isEmpty) "[w] -x [u -n 1] -y a" =
      [⟨.command, "w", 1, 2, .bare, 1⟩, ⟨.option, "-x", 4, 6, .bare, 0⟩,
        ⟨.command, "u", 8, 9, .bare, 2⟩, ⟨.option, "-n", 10, 12, .bare, 2⟩,
        ⟨.positional, "1", 13, 14, .bare, 2⟩, ⟨.option, "-y", 16, 18, .bare, 0⟩] ++
      ⟨.value, "a", 19, 20, .bare, 0⟩ :: [] := by decide +kernel
  exact kindFits_of_tokens htokens

end CommandFrame.Line
