import CommandFrame.Proofs.Line.Tiling

/-!
# The start of a line before a word

What stands before a word is scanned the same way whatever takes the place of
the word and of what follows it.
-/

namespace CommandFrame.Line

/-- Any line that goes on after `passed` is scanned on from the state `reached`. -/
structure Passes (arity : Arity) (brackets : Bool) (state : State) (offset : Nat) (passed : Text)
    (reached : State) : Prop where
  complete : (scanFrom arity brackets state offset passed).complete = reached.outer.isEmpty
  goesOn (rest : Text) : (scanFrom arity brackets state offset (passed ++ rest)).tokens =
    (scanFrom arity brackets state offset passed).tokens ++
      (scanFrom arity brackets reached (offset + Text.byteLength passed) rest).tokens

theorem Passes.nil (arity : Arity) (brackets : Bool) (state : State) (offset : Nat) :
    Passes arity brackets state offset [] state := by
  constructor
  · simp
  · simp

theorem Reads.endsBefore_any (arity : Arity) {brackets : Bool} {state : State} (offset : Nat)
    {text after : Text} {lexeme : Lexeme} {c : Char}
    (hread : Reads (state.context brackets) text lexeme (c :: after))
    (hgoesOn : endsBare ((Step.next arity ⟨state, offset, lexeme⟩).context brackets).nested c =
      false) (rest : Text) : lexeme.EndsBefore (state.context brackets).nested rest := by
  have hends := (reads_iff.1 hread).2.2
  cases lexeme with
  | comment text =>
      have hc : c = '\n' := by simpa [Lexeme.EndsBefore] using hends
      subst hc
      simp [endsBare, isSeparator] at hgoesOn
  | word quote text closed =>
      cases closed with
      | false => simp [Lexeme.EndsBefore] at hends
      | true =>
          cases quote with
          | bare =>
              have hc : endsBare (state.context brackets).nested c = true := by
                simpa [Lexeme.EndsBefore] using hends
              exact absurd (hc.symm.trans hgoesOn) (by decide)
          | brace => trivial
          | double => trivial
  | _ => trivial

theorem Lexeme.EndsBefore.of_head {nested : Bool} {lexeme : Lexeme} {c : Char} {rest : Text}
    (h : lexeme.EndsBefore nested (c :: rest)) (rest' : Text) :
    lexeme.EndsBefore nested (c :: rest') := by
  cases lexeme with
  | comment text => simpa [EndsBefore] using h
  | word quote text closed =>
      cases closed <;> cases quote <;> simp_all [EndsBefore]
  | _ => trivial

theorem Lexeme.isClosed_of_endsBefore {nested : Bool} {lexeme : Lexeme} {rest : Text}
    (h : lexeme.EndsBefore nested rest) (hrest : rest ≠ []) : lexeme.isClosed = true := by
  cases lexeme with
  | word quote text closed =>
      cases closed with
      | true => rfl
      | false => exact absurd h hrest
  | _ => rfl

theorem Passes.cons_of_reads {arity : Arity} {brackets : Bool} {state reached : State} {offset : Nat}
    {text rest passed : Text} {lexeme : Lexeme}
    (h : Passes arity brackets (Step.next arity ⟨state, offset, lexeme⟩)
      (Step.stop ⟨state, offset, lexeme⟩) passed reached)
    (hread : Reads (state.context brackets) text lexeme rest)
    (hends : ∀ rest', lexeme.EndsBefore (state.context brackets).nested (passed ++ rest')) :
    Passes arity brackets state offset (lexeme.source ++ passed) reached := by
  have hvalid := (reads_iff.1 hread).2.1
  have hagain (rest' : Text) : Reads (state.context brackets)
      (lexeme.source ++ (passed ++ rest')) lexeme (passed ++ rest') :=
    reads_of_valid hvalid (hends rest')
  have halone : Reads (state.context brackets) (lexeme.source ++ passed) lexeme passed := by
    simpa using hagain []
  have hclosed := Lexeme.isClosed_of_endsBefore (hends ['x']) (by simp)
  constructor
  · rw [scanFrom_of_reads halone, hclosed]
    exact h.complete
  · intro rest'
    rw [List.append_assoc, scanFrom_of_reads (hagain rest'), scanFrom_of_reads halone]
    simp only [h.goesOn rest', List.append_assoc]
    congr 4
    rw [Step.stop_mk, Text.byteLength_append]
    omega

structure StandsAfter (arity : Arity) (brackets : Bool) (state : State) (offset : Nat)
    (passed : Text) (before : List Token) (reached : State) (source : Text) (token : Token) :
    Prop where
  passes : Passes arity brackets state offset passed reached
  tokens_eq : (scanFrom arity brackets state offset passed).tokens = before
  reads : ∃ closed rest,
    Reads (reached.context brackets) source (.word token.quote token.text closed) rest
  token_eq :
    token = reached.wordToken arity (offset + Text.byteLength passed) token.quote token.text

theorem StandsAfter.cons_of_reads {arity : Arity} {brackets : Bool} {state reached : State}
    {offset : Nat} {text passed source : Text} {lexeme : Lexeme} {before : List Token}
    {token : Token}
    (h : StandsAfter arity brackets (Step.next arity ⟨state, offset, lexeme⟩)
      (Step.stop ⟨state, offset, lexeme⟩) passed before reached source token)
    (hread : Reads (state.context brackets) text lexeme (passed ++ source)) :
    StandsAfter arity brackets state offset (lexeme.source ++ passed)
      ((Step.token? arity ⟨state, offset, lexeme⟩).toList ++ before) reached source token := by
  obtain ⟨hpasses, htokens, ⟨closed, behind, hword⟩, htoken⟩ := h
  obtain ⟨-, hvalid, hstops⟩ := reads_iff.1 hread
  have hends : ∀ rest, lexeme.EndsBefore (state.context brackets).nested (passed ++ rest) := by
    intro rest
    cases passed with
    | nil =>
        obtain ⟨c, others, rfl, hgoesOn⟩ := hword.head?_word
        have hnested := hpasses.complete
        simp only [scanFrom_nil] at hnested
        refine hread.endsBefore_any arity offset ?_ rest
        simpa [State.context, hnested] using hgoesOn
    | cons c passed => exact hstops.of_head (passed ++ rest)
  have halone : Reads (state.context brackets) (lexeme.source ++ passed) lexeme passed :=
    reads_of_valid hvalid (by simpa using hends [])
  refine ⟨hpasses.cons_of_reads hread hends, ?_, ⟨closed, behind, hword⟩, ?_⟩
  · rw [scanFrom_of_reads halone, htokens]
  · rw [Text.byteLength_append, ← Nat.add_assoc]
    exact htoken

theorem exists_standsAfter {arity : Arity} {brackets : Bool} {state : State} {offset : Nat}
    {text : Text} {before after : List Token} {token : Token}
    (h : (scanFrom arity brackets state offset text).tokens = before ++ token :: after) :
    ∃ passed reached source, text = passed ++ source ∧
      StandsAfter arity brackets state offset passed before reached source token := by
  induction state, offset, text using scan_induction arity brackets generalizing before with
  | nil state offset => simp at h
  | step state offset text lexeme rest hread ih =>
      rw [scanFrom_of_reads hread] at h
      have hlater : ∀ others, before = (Step.token? arity ⟨state, offset, lexeme⟩).toList ++ others →
          ∃ passed reached source, text = passed ++ source ∧
            StandsAfter arity brackets state offset passed before reached source token := by
        rintro others rfl
        simp only [List.append_assoc, List.append_cancel_left_eq] at h
        obtain ⟨passed, reached, source, rfl, hstands⟩ := ih h
        exact ⟨_, _, _, by simp [hread.source], hstands.cons_of_reads hread⟩
      cases hfirst : Step.token? arity ⟨state, offset, lexeme⟩ with
      | none => exact hlater before (by simp [hfirst])
      | some first =>
          cases before with
          | nil =>
              obtain ⟨quote, word, closed, rfl, rfl⟩ := Step.token?_eq_some hfirst
              simp only [hfirst] at h
              obtain ⟨rfl, -⟩ := List.cons.inj h
              exact ⟨[], state, text, rfl, Passes.nil .., by simp, ⟨closed, rest, hread⟩, rfl⟩
          | cons other others =>
              simp only [hfirst] at h
              obtain ⟨rfl, -⟩ := List.cons.inj h
              exact hlater others (by simp [hfirst])

end CommandFrame.Line
