import CommandFrame.Proofs.Completion.Written

/-!
# Words that a text leaves open

An open word goes on behind a newline: in braces and quotes the newline belongs
to it, and in a bare word the backslash at its end hides the newline.  Only a
backslash by itself is no word any more then, but a continuation.
-/

namespace CommandFrame.Line

/-! ## Bodies -/

theorem doubleBody_append_of_open {text : Text} (h : (doubleBody text).closed = false) {c : Char}
    (hc : c ∉ ['\\', '"']) (rest : Text) :
    doubleBody (text ++ c :: rest) = (doubleBody rest).push (text ++ [c]) := by
  fun_induction doubleBody text with
  | case1 => simp [doubleBody_cons hc]
  | case2 d text ih => simp_all [doubleBody]
  | case3 => simp at h
  | case4 d text hpair hclose ih =>
      by_cases hd : d = '\\'
      · subst hd
        cases text with
        | nil => simp [doubleBody]
        | cons e text => exact absurd rfl (hpair e text rfl)
      · have htail := ih (by simpa using h)
        have hplain : d ∉ ['\\', '"'] := by
          simp only [List.mem_cons, List.not_mem_nil, or_false, not_or]
          exact ⟨hd, hclose⟩
        simp [doubleBody_cons hplain, htail]

theorem exists_braceBody_append_of_open {depth : Nat} {text : Text}
    (h : (braceBody depth text).closed = false) {c : Char} (hc : c ∉ ['\\', '{', '}']) :
    ∃ left, ∀ rest,
      braceBody depth (text ++ c :: rest) = (braceBody left rest).push (text ++ [c]) := by
  cases hend : braceEnd depth text with
  | closed =>
      have hlength := length_braceBody_of_closed hend []
      simp [braceBody_of_open h] at hlength
  | hides left => exact ⟨left, fun rest => (braceBody_of_hides hend c rest).1⟩
  | within left =>
      refine ⟨left, fun rest => ?_⟩
      rw [braceBody_of_within hend, braceBody_cons left hc, Body.push_push]

theorem bareBody_append_of_open {nested : Bool} {text : Text}
    (h : (bareBody nested text).closed = false) (c : Char) (rest : Text) :
    bareBody nested (text ++ c :: rest) = (bareBody nested rest).push (text ++ [c]) := by
  fun_induction bareBody nested text with
  | case1 => simp at h
  | case2 => simp [bareBody]
  | case3 d text ih => simp_all [bareBody]
  | case4 => simp at h
  | case5 d text hlast hpair hends ih =>
      have hd : d ≠ '\\' := by
        rintro rfl
        cases text with
        | nil => exact hlast rfl rfl
        | cons e text => exact hpair e text rfl rfl
      have htail := ih (by simpa using h)
      simp [bareBody_cons hd (by simpa using hends), htail]

/-! ## Behind a newline -/

section

variable {context : Context} {text word : Text}

theorem Reads.source_of_open {quote : Quote}
    (h : Reads context text (.word quote word false) []) : text = quote.opening ++ word := by
  simpa [Lexeme.source] using h.source

theorem Reads.exists_brace_newline (h : Reads context text (.word .brace word false) []) :
    ∃ left, ∀ rest, Reads context (text ++ '\n' :: rest)
      (.word .brace (word ++ '\n' :: (braceBody left rest).text) (braceBody left rest).closed)
      (braceBody left rest).rest := by
  obtain rfl := h.source_of_open
  have hopen : (braceBody 0 word).closed = false := by
    simpa using congrArg Body.closed h.valid.1
  obtain ⟨left, hbody⟩ := exists_braceBody_append_of_open hopen (by decide : '\n' ∉ _)
  refine ⟨left, fun rest => ?_⟩
  simpa [hbody, Quote.opening] using reads_brace context (word ++ '\n' :: rest)

theorem Reads.double_newline (h : Reads context text (.word .double word false) [])
    (rest : Text) : Reads context (text ++ '\n' :: rest)
      (.word .double (word ++ '\n' :: (doubleBody rest).text) (doubleBody rest).closed)
      (doubleBody rest).rest := by
  obtain rfl := h.source_of_open
  have hopen : (doubleBody word).closed = false := by
    simpa using congrArg Body.closed h.valid.1
  simpa [doubleBody_append_of_open hopen (by decide : '\n' ∉ _), Quote.opening] using
    reads_double context (word ++ '\n' :: rest)

theorem Reads.bare_newline (h : Reads context text (.word .bare word false) []) (rest : Text) :
    Reads context (text ++ '\n' :: rest) .continuation rest ∨
      Reads context (text ++ '\n' :: rest)
        (.word .bare (word ++ '\n' :: (bareBody context.nested rest).text)
          (bareBody context.nested rest).closed)
        (bareBody context.nested rest).rest := by
  obtain rfl := h.source_of_open
  obtain ⟨⟨c, after, rfl, hbegins, hcontinues⟩, hbody⟩ := h.valid.1
  have hopen := congrArg Body.closed hbody
  cases after with
  | nil =>
      have hc : c = '\\' := by
        refine Decidable.byContradiction fun hc => ?_
        simp [bareBody_cons hc hbegins.goesOn, bareBody] at hopen
      subst hc
      exact .inl ⟨'\\', '\n' :: rest, rfl, by simp [readLexeme, isBlank]⟩
  | cons d after =>
      have hstays : ¬(c = '\\' ∧ (d :: after ++ '\n' :: rest).head? = some '\n') := by
        simpa using hcontinues
      have hread := readLexeme_of_beginsBare hbegins hstays
      rw [← List.cons_append, bareBody_append_of_open hopen] at hread
      exact .inr ⟨c, _, rfl, by simpa [Body.toWord] using hread⟩

end

end CommandFrame.Line
