import CommandFrame.Proofs.Line.Joined

/-!
# Lines that go on

What follows a complete line on the next lines is open or not by itself.  But
the test for a continuation looks at the last two characters only: it takes the
backslash of a comment or of an escape for one that hides the newline.
-/

namespace CommandFrame.Line

theorem complete_append_newline {arity : Arity} {brackets : Bool} {state : State} {offset : Nat}
    {text : Text} (h : (scanFrom arity brackets state offset text).complete = true) (rest : Text) :
    (scanFrom arity brackets state offset (text ++ '\n' :: rest)).complete =
      (scan arity brackets rest).complete := by
  -- What is read before the newline is closed, and behind it the scan is as at the start but for
  -- its number and its place.
  induction state, offset, text using scan_induction arity brackets with
  | nil state offset =>
      have houter : state.outer = [] := by simpa using h
      have halike : (Step.next arity ⟨state, offset, .separator '\n'⟩).Alike .start := by
        constructor
        · rw [Step.isNone_command_next]
          rfl
        · rw [Step.length_outer_next, houter]
          rfl
      rw [List.nil_append, scanFrom_of_reads (reads_newline _ rest)]
      exact halike.complete_eq ..
  | step state offset text lexeme behind hread ih =>
      rw [scanFrom_of_reads hread, Bool.and_eq_true] at h
      obtain ⟨hclosed, hbehind⟩ := h
      rw [scanFrom_of_reads (hread.append_newline hclosed rest), hclosed, Bool.true_and]
      exact ih hbehind

theorem endsWith_append_newline (line rest : Text) :
    Text.endsWith "\\\n" (line ++ '\n' :: rest) =
      (decide (rest = [] ∧ line.getLast? = some '\\') || Text.endsWith "\\\n" rest) := by
  have hsuffix (text : Text) :
      Text.endsWith "\\\n" text = true ↔ ['\n', '\\'] <+: text.reverse := by
    rw [← List.reverse_suffix, List.reverse_reverse]
    exact List.isSuffixOf_iff_suffix
  rw [Bool.eq_iff_iff, Bool.or_eq_true, decide_eq_true_iff, hsuffix, hsuffix,
    ← List.reverse_eq_nil_iff, ← List.head?_reverse, List.reverse_append, List.reverse_cons]
  rcases rest.reverse with _ | ⟨c, _ | ⟨d, before⟩⟩
  · cases line.reverse with
    | nil => simp
    | cons c before => simpa using eq_comm
  · simp
  · simp

theorem isComplete_append_newline {line : Text} (h : isComplete line = true) (rest : Text) :
    isComplete (line ++ '\n' :: rest) =
      (isComplete rest && !decide (rest = [] ∧ line.getLast? = some '\\')) := by
  have hline := complete_append_newline (complete_of_isComplete unknownArity h) rest
  rw [isComplete, isComplete, scan, hline, endsWith_append_newline, Bool.not_or, Bool.and_assoc,
    Bool.and_comm (!decide _)]

/-- What follows a complete line decides by itself whether more is needed, except
that a newline alone does not end a line whose last character is a backslash. -/
theorem isComplete_append_newline_iff {line : Text} (h : isComplete line = true) (rest : Text) :
    isComplete (line ++ '\n' :: rest) = isComplete rest ↔
      ¬(rest = [] ∧ line.getLast? = some '\\') := by
  rw [isComplete_append_newline h]
  constructor
  · rintro heq ⟨rfl, hlast⟩
    revert heq
    rw [hlast]
    decide +kernel
  · intro hnot
    simp [hnot]

theorem isComplete_append_newline_escape :
    isComplete "t \\\\" = true ∧
      isComplete ("t \\\\" ++ '\n' :: "[u") = isComplete "[u" := by
  have hcomplete : isComplete "t \\\\" = true := by decide +kernel
  exact ⟨hcomplete, (isComplete_append_newline_iff hcomplete "[u").2 (by decide)⟩

/-- The backslash of a comment hides no newline, and still the line counts as one
that goes on. -/
theorem isComplete_not_always_append :
    ¬∀ line rest : Text, isComplete line = true →
      isComplete (line ++ '\n' :: rest) = isComplete rest := by
  intro h
  have hcomment := h "# \\" [] (by decide +kernel)
  revert hcomment
  decide +kernel

end CommandFrame.Line
