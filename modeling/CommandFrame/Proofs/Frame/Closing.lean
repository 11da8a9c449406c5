import CommandFrame.Proofs.Line.Joined
import CommandFrame.Proofs.Line.Open
import CommandFrame.Frame

/-!
# Closing what a buffer leaves open

One more line always makes a buffer complete.  Its first characters end the open
word, the brackets behind them end the nested invocations, and a blank at the end
keeps a backslash from being last.
-/

namespace CommandFrame.Line

/-! ## Open words -/

theorem braceBody_closing (left : Nat) (rest : Text) :
    braceBody left (List.replicate (left + 1) '}' ++ rest) =
      ⟨List.replicate left '}', rest, true⟩ := by
  induction left with
  | zero => rfl
  | succ left ih =>
      rw [List.replicate_succ, List.cons_append, braceBody, ih]
      rfl

def Lexeme.KeepsDepth : Lexeme → Prop
  | .opening | .closing => False
  | _ => True

theorem Reads.exists_closers {context : Context} {quote : Quote} {text word : Text}
    (h : Reads context text (.word quote word false) []) :
    ∃ closers : Text, (∀ c ∈ closers, c = '}' ∨ c = '"') ∧
      ∀ rest, rest.head?.all (endsBare context.nested) = true →
        ∃ lexeme, Reads context (text ++ '\n' :: (closers ++ rest)) lexeme rest ∧
          lexeme.isClosed = true ∧ lexeme.KeepsDepth := by
  cases quote with
  | brace =>
      obtain ⟨left, hread⟩ := h.exists_brace_newline
      refine ⟨List.replicate (left + 1) '}', ?_, fun rest _ => ?_⟩
      · intro c hc
        exact .inl (List.eq_of_mem_replicate hc)
      · have hclosed := hread (List.replicate (left + 1) '}' ++ rest)
        rw [braceBody_closing] at hclosed
        exact ⟨_, hclosed, rfl, trivial⟩
  | double =>
      refine ⟨['"'], by simp, fun rest _ => ?_⟩
      exact ⟨_, h.double_newline ('"' :: rest), rfl, trivial⟩
  | bare =>
      refine ⟨[], by simp, fun rest hends => ?_⟩
      rcases h.bare_newline rest with hcontinues | hword
      · exact ⟨_, hcontinues, rfl, trivial⟩
      · rw [bareBody_of_ends hends] at hword
        exact ⟨_, hword, rfl, trivial⟩

/-! ## Open invocations -/

def closeBrackets (state : State) : Text := List.replicate state.outer.length ']' ++ [' ']

theorem head?_closeBrackets (state : State) (brackets : Bool) :
    (closeBrackets state).head?.all (endsBare (state.context brackets).nested) = true := by
  cases houter : state.outer with
  | nil => simp [closeBrackets, houter, State.context, endsBare, isBlank]
  | cons parent outer =>
      simp [closeBrackets, houter, State.context, endsBare, List.replicate_succ]

theorem Lexeme.KeepsDepth.closeBrackets_next {lexeme : Lexeme} (h : lexeme.KeepsDepth)
    (arity : Arity) (state : State) (offset : Nat) :
    closeBrackets (Step.next arity ⟨state, offset, lexeme⟩) = closeBrackets state := by
  rw [closeBrackets, closeBrackets, Step.length_outer_next]
  cases lexeme with
  | opening | closing => exact absurd h id
  | _ => rfl

theorem complete_closeBrackets (arity : Arity) (brackets : Bool) (state : State) (offset : Nat) :
    (scanFrom arity brackets state offset (closeBrackets state)).complete = true := by
  induction hdepth : state.outer.length generalizing state offset with
  | zero =>
      have houter : state.outer = [] := List.length_eq_zero_iff.1 hdepth
      rw [closeBrackets, hdepth, List.replicate_zero, List.nil_append,
        scanFrom_of_reads (reads_blank rfl [])]
      simp [Lexeme.isClosed, Step.next, State.advance, houter]
  | succ depth ih =>
      have hnested : (state.context brackets).nested = true := by
        simpa [State.context] using List.ne_nil_of_length_eq_add_one hdepth
      have hnext : (Step.next arity ⟨state, offset, .closing⟩).outer.length = depth := by
        rw [Step.length_outer_next]
        simp [hdepth]
      have hrest := ih (Step.next arity ⟨state, offset, .closing⟩)
        (Step.stop ⟨state, offset, .closing⟩) hnext
      rw [closeBrackets, hnext] at hrest
      rw [closeBrackets, hdepth, List.replicate_succ, List.cons_append,
        scanFrom_of_reads (reads_closing hnested _), hrest]
      rfl

theorem Reads.complete_closeBrackets {arity : Arity} {brackets : Bool} {state : State}
    {offset : Nat} {text : Text} {lexeme : Lexeme}
    (h : Reads (state.context brackets) text lexeme (closeBrackets state))
    (hclosed : lexeme.isClosed = true) (hkeeps : lexeme.KeepsDepth) :
    (scanFrom arity brackets state offset text).complete = true := by
  have hrest := Line.complete_closeBrackets arity brackets
    (Step.next arity ⟨state, offset, lexeme⟩) (Step.stop ⟨state, offset, lexeme⟩)
  rw [hkeeps.closeBrackets_next] at hrest
  rw [scanFrom_of_reads h, hclosed, hrest]
  rfl

/-! ## Lines -/

theorem exists_closers_complete (arity : Arity) (brackets : Bool) (state : State) (offset : Nat)
    (text : Text) :
    ∃ closers : Text, (∀ c ∈ closers, c = '}' ∨ c = '"' ∨ c = ']') ∧
      (scanFrom arity brackets state offset (text ++ '\n' :: (closers ++ [' ']))).complete =
        true := by
  -- All but the last lexeme of the text is read as before, and so the closers for what
  -- follows a closed lexeme will do.
  induction state, offset, text using scan_induction arity brackets with
  | nil state offset =>
      refine ⟨List.replicate state.outer.length ']', ?_, ?_⟩
      · intro c hc
        exact .inr (.inr (List.eq_of_mem_replicate hc))
      · have hread := reads_newline (state.context brackets) (closeBrackets state)
        exact hread.complete_closeBrackets rfl trivial
  | step state offset text lexeme rest hread ih =>
      cases hclosed : lexeme.isClosed with
      | true =>
          obtain ⟨closers, hclosers, hrest⟩ := ih
          refine ⟨closers, hclosers, ?_⟩
          rw [scanFrom_of_reads (hread.append_newline hclosed _), hclosed, hrest]
          rfl
      | false =>
          cases lexeme with
          | word quote word closed =>
              obtain rfl : closed = false := hclosed
              obtain rfl : rest = [] := hread.valid.2
              obtain ⟨closers, hclosers, hends⟩ := hread.exists_closers
              obtain ⟨lexeme, hagain, hclosed, hkeeps⟩ :=
                hends (closeBrackets state) (head?_closeBrackets state brackets)
              refine ⟨closers ++ List.replicate state.outer.length ']', ?_, ?_⟩
              · intro c hc
                rcases List.mem_append.1 hc with hc | hc
                · exact (hclosers c hc).imp_right .inl
                · exact .inr (.inr (List.eq_of_mem_replicate hc))
              · rw [List.append_assoc]
                exact hagain.complete_closeBrackets hclosed hkeeps
          | _ => contradiction

end CommandFrame.Line

namespace CommandFrame

/-! ## Buffers -/

theorem Text.endsWith_concat_eq_false {ending : Text} {c d : Char}
    (hlast : ending.getLast? = some d) (hne : d ≠ c) (text : Text) :
    endsWith ending (text ++ [c]) = false := by
  rw [Bool.eq_false_iff]
  intro hends
  have hc := getLast?_of_endsWith hends (by rintro rfl; cases hlast)
  rw [hlast, List.getLast?_concat] at hc
  exact hne (Option.some.inj hc).symm

theorem Frame.isComplete_concat_blank {text : Text}
    (h : (Line.scan Line.unknownArity true (text ++ [' '])).complete = true) :
    isComplete (text ++ [' ']) = true := by
  unfold isComplete
  split
  · have hslash : Text.endsWith "\\" (text ++ [' ']) = false :=
      Text.endsWith_concat_eq_false rfl (by decide) text
    simpa using hslash
  · rw [Line.isComplete, h, Text.endsWith_concat_eq_false rfl (by decide)]
    rfl

theorem Frame.exists_closers_isComplete (buffer : Text) :
    ∃ closers : Text, (∀ c ∈ closers, c = '}' ∨ c = '"' ∨ c = ']') ∧
      isComplete (buffer ++ '\n' :: (closers ++ [' '])) = true := by
  obtain ⟨closers, hclosers, hcomplete⟩ :=
    Line.exists_closers_complete Line.unknownArity true .start 0 buffer
  refine ⟨closers, hclosers, ?_⟩
  have happend : buffer ++ '\n' :: (closers ++ [' ']) = buffer ++ '\n' :: closers ++ [' '] := by
    simp
  rw [happend] at hcomplete ⊢
  exact isComplete_concat_blank hcomplete

theorem newline_not_mem_closers {closers : Text}
    (h : ∀ c ∈ closers, c = '}' ∨ c = '"' ∨ c = ']') : '\n' ∉ closers ++ [' '] := by
  intro hnewline
  rcases List.mem_append.1 hnewline with hmem | hmem
  · exact absurd (h _ hmem) (by decide)
  · exact absurd hmem (by decide)

/-- Whatever a buffer leaves open, one more line makes it complete. -/
theorem Frame.exists_closing_line (buffer : Text) :
    ∃ line, '\n' ∉ line ∧ isComplete (buffer ++ '\n' :: line) = true := by
  obtain ⟨closers, hclosers, hcomplete⟩ := exists_closers_isComplete buffer
  exact ⟨closers ++ [' '], newline_not_mem_closers hclosers, hcomplete⟩

end CommandFrame
