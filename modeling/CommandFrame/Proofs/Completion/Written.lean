import CommandFrame.Completion.Escape
import CommandFrame.Proofs.Line.Reading

/-!
# Reading back a written word

A word that is written for its quoting is read back, except that braces know no
escapes, that the escapes of bare words leave out the carriage return, and that
a bare word can be carried on by what follows it.
-/

namespace CommandFrame.Line

@[simp] theorem Body.push_push (first second : Text) (body : Body) :
    (body.push second).push first = body.push (first ++ second) := by
  simp [Body.push]

/-! ## Braces -/

/-- How a text leaves the braced word that it begins. -/
inductive BraceEnd
  | closed
  | hides (depth : Nat)
  | within (depth : Nat)
  deriving DecidableEq, Repr

def braceEnd : Nat → Text → BraceEnd
  | depth, [] => .within depth
  | depth, c :: rest =>
      if c = '\\' then
        match rest with
        | [] => .hides depth
        | _ :: rest => braceEnd depth rest
      else if c = '{' then braceEnd (depth + 1) rest
      else if c = '}' then
        match depth with
        | 0 => .closed
        | depth + 1 => braceEnd depth rest
      else braceEnd depth rest

theorem braceBody_of_within {depth left : Nat} {word : Text} (h : braceEnd depth word = .within left)
    (rest : Text) : braceBody depth (word ++ rest) = (braceBody left rest).push word := by
  fun_induction braceEnd depth word with
  | case1 depth =>
      cases h
      rfl
  | case2 | case5 => contradiction
  | case3 depth c word ih => simp [braceBody, ih h]
  | case4 depth word hbackslash ih => simp [braceBody, ih h]
  | case6 word depth hbackslash hopen ih => simp [braceBody, ih h]
  | case7 depth c word hbackslash hopen hclose ih =>
      have hc : c ∉ ['\\', '{', '}'] := by simp [hbackslash, hopen, hclose]
      simp [braceBody_cons depth hc, ih h]

theorem braceBody_of_hides {depth left : Nat} {word : Text} (h : braceEnd depth word = .hides left)
    (c : Char) (rest : Text) :
    braceBody depth (word ++ c :: rest) = (braceBody left rest).push (word ++ [c]) ∧
      braceBody depth word = ⟨word, [], false⟩ := by
  fun_induction braceEnd depth word with
  | case1 | case5 => contradiction
  | case2 depth =>
      cases h
      exact ⟨rfl, by simp [braceBody, Body.push]⟩
  | case3 depth d word ih =>
      obtain ⟨happend, halone⟩ := ih h
      simp [braceBody, happend, halone, Body.push]
  | case4 depth word hbackslash ih =>
      obtain ⟨happend, halone⟩ := ih h
      simp [braceBody, happend, halone, Body.push]
  | case6 word depth hbackslash hopen ih =>
      obtain ⟨happend, halone⟩ := ih h
      simp [braceBody, happend, halone, Body.push]
  | case7 depth d word hbackslash hopen hclose ih =>
      have hd : d ∉ ['\\', '{', '}'] := by simp [hbackslash, hopen, hclose]
      obtain ⟨happend, halone⟩ := ih h
      simp [braceBody_cons depth hd, happend, halone, Body.push]

theorem length_braceBody_of_closed {depth : Nat} {word : Text} (h : braceEnd depth word = .closed)
    (rest : Text) : (braceBody depth (word ++ rest)).text.length < word.length := by
  fun_induction braceEnd depth word with
  | case1 | case2 => contradiction
  | case3 depth d word ih => simpa [braceBody] using ih h
  | case4 depth word hbackslash ih => simpa [braceBody] using ih h
  | case5 word => simp [braceBody]
  | case6 word depth hbackslash hopen ih => simpa [braceBody] using ih h
  | case7 depth d word hbackslash hopen hclose ih =>
      have hd : d ∉ ['\\', '{', '}'] := by simp [hbackslash, hopen, hclose]
      simpa [braceBody_cons depth hd] using ih h

theorem braceBody_eq_closed_iff (word rest : Text) :
    (braceBody 0 (word ++ '}' :: rest)).text = word ↔ braceEnd 0 word = .within 0 := by
  cases hend : braceEnd 0 word with
  | closed =>
      have hlength := length_braceBody_of_closed hend ('}' :: rest)
      refine iff_of_false ?_ (by simp)
      intro htext
      simp [htext] at hlength
  | hides left =>
      have htext := (braceBody_of_hides hend '}' rest).1
      refine iff_of_false ?_ (by simp)
      intro heq
      have hlength := congrArg List.length (htext ▸ heq)
      simp at hlength
  | within left =>
      rw [braceBody_of_within hend]
      cases left with
      | zero => simp [braceBody]
      | succ left => simp [braceBody]

theorem braceBody_eq_open_iff (word : Text) :
    (braceBody 0 word).text = word ↔ braceEnd 0 word ≠ .closed := by
  cases hend : braceEnd 0 word with
  | closed =>
      have hlength := length_braceBody_of_closed hend []
      refine iff_of_false ?_ (by simp)
      intro htext
      simp [htext] at hlength
  | hides left => simp [(braceBody_of_hides hend 'x' []).2]
  | within left =>
      have htext := braceBody_of_within hend []
      simp only [List.append_nil] at htext
      simp [htext, braceBody]

/-! ## Escapes -/

namespace Quote

theorem escape_cons (quote : Quote) (c : Char) (word : Text) :
    quote.escape (c :: word) =
      (if quote.special.contains c then ['\\', c] else [c]) ++ quote.escape word := rfl

theorem escape_append (quote : Quote) (first second : Text) :
    quote.escape (first ++ second) = quote.escape first ++ quote.escape second :=
  List.flatMap_append

theorem escape_brace (word : Text) : brace.escape word = word := by
  induction word with
  | nil => rfl
  | cons c word ih =>
      rw [escape_cons, ih]
      rfl

theorem unescape_escape_append {quote : Quote} (hquote : quote ≠ brace) (word rest : Text) :
    Text.unescape (quote.escape word ++ rest) = word ++ Text.unescape rest := by
  induction word with
  | nil => rfl
  | cons c word ih =>
      rw [escape_cons]
      split
      · rename_i hspecial
        have hn : c ≠ 'n' := by rintro rfl; revert hspecial; cases quote <;> decide
        have ht : c ≠ 't' := by rintro rfl; revert hspecial; cases quote <;> decide
        simp [ih, Text.escaped, hn, ht]
      · rename_i hplain
        have hc : c ≠ '\\' := by
          rintro rfl
          cases quote
          · exact hplain (by decide)
          · exact hquote rfl
          · exact hplain (by decide)
        simp [Text.unescape_cons hc, ih]

theorem unescape_escape {quote : Quote} (hquote : quote ≠ brace) (word : Text) :
    Text.unescape (quote.escape word) = word := by
  simpa using unescape_escape_append hquote word []

theorem read_escape (quote : Quote) (word : Text) : quote.read (quote.escape word) = word := by
  cases quote with
  | brace => exact escape_brace word
  | bare => exact unescape_escape (by decide) word
  | double => exact unescape_escape (by decide) word

end Quote

theorem doubleBody_escape (word rest : Text) :
    doubleBody (Quote.double.escape word ++ rest) =
      (doubleBody rest).push (Quote.double.escape word) := by
  induction word with
  | nil => rfl
  | cons c word ih =>
      rw [Quote.escape_cons]
      split
      · simp [doubleBody, ih]
      · rename_i hplain
        have hc : c ∉ ['\\', '"'] := by
          rintro hmem
          simp only [List.mem_cons, List.not_mem_nil, or_false] at hmem
          rcases hmem with rfl | rfl <;> exact hplain (by decide)
        simp [doubleBody_cons hc, ih]

theorem endsBare_of_plain {nested : Bool} {c : Char} (hplain : Quote.bare.special.contains c = false)
    (hreturn : c ≠ '\r') : endsBare nested c = false := by
  cases hends : endsBare nested c with
  | false => rfl
  | true =>
      simp only [endsBare, isBlank, isSeparator, Bool.or_eq_true, Bool.and_eq_true,
        decide_eq_true_eq] at hends
      rcases hends with (((rfl | rfl) | rfl) | (rfl | rfl)) | ⟨-, rfl⟩
      · exact absurd hplain (by decide)
      · exact absurd hplain (by decide)
      · exact absurd rfl hreturn
      all_goals exact absurd hplain (by decide)

theorem bareBody_escape (nested : Bool) {word : Text} (hreturn : '\r' ∉ word) (rest : Text) :
    bareBody nested (Quote.bare.escape word ++ rest) =
      (bareBody nested rest).push (Quote.bare.escape word) := by
  induction word with
  | nil => rfl
  | cons c word ih =>
      obtain ⟨hc, hword⟩ : '\r' ≠ c ∧ '\r' ∉ word := by simpa using hreturn
      rw [Quote.escape_cons]
      split
      · simp [bareBody, ih hword]
      · rename_i hplain
        have hne : c ≠ '\\' := by
          rintro rfl
          exact hplain (by decide)
        have hends : endsBare nested c = false :=
          endsBare_of_plain (by simpa using hplain) (Ne.symm hc)
        simp [bareBody_cons hne hends, ih hword]

theorem unescape_eq_nil {text : Text} (h : Text.unescape text = []) : text = [] := by
  cases text with
  | nil => rfl
  | cons c rest =>
      by_cases hc : c = '\\'
      · subst hc
        cases rest with
        | nil => contradiction
        | cons d rest => simp at h
      · simp [Text.unescape_cons hc] at h

theorem text_bareBody_eq_nil_iff {nested : Bool} {rest : Text} :
    (bareBody nested rest).text = [] ↔ rest.head?.all (endsBare nested) = true := by
  constructor
  · intro h
    cases rest with
    | nil => rfl
    | cons c rest =>
        cases hends : endsBare nested c with
        | true => simpa using hends
        | false => exact absurd h (bareBody_text_ne_nil hends rest)
  · intro h
    rw [bareBody_of_ends h]

theorem unescape_bareBody_eq_iff (nested : Bool) (word rest : Text) :
    Text.unescape (bareBody nested (Quote.bare.escape word ++ rest)).text = word ↔
      '\r' ∉ word ∧ rest.head?.all (endsBare nested) = true := by
  by_cases hreturn : '\r' ∈ word
  · obtain ⟨start, others, rfl, hstart⟩ := List.eq_append_cons_of_mem hreturn
    have hescape : Quote.bare.escape (start ++ '\r' :: others) ++ rest =
        Quote.bare.escape start ++ '\r' :: (Quote.bare.escape others ++ rest) := by
      rw [Quote.escape_append, Quote.escape_cons, if_neg (by decide)]
      simp
    have hends : bareBody nested ('\r' :: (Quote.bare.escape others ++ rest)) =
        ⟨[], '\r' :: (Quote.bare.escape others ++ rest), true⟩ :=
      bareBody_of_ends (by simp [endsBare, isBlank])
    rw [hescape, bareBody_escape nested hstart, hends]
    have hread : Text.unescape (Quote.bare.escape start) = start :=
      Quote.unescape_escape (by decide) start
    simp [hread]
  · rw [bareBody_escape nested hreturn, Body.text_push,
      Quote.unescape_escape_append (by decide), ← text_bareBody_eq_nil_iff]
    simp only [List.append_right_eq_self, hreturn, not_false_eq_true, true_and]
    constructor
    · exact unescape_eq_nil
    · intro h
      rw [h]
      rfl

/-! ## Written words -/

/-- Whether a word that is written for its quoting is read back in front of `rest`:
always between double quotes, in braces if its own braces match, and in a bare
word if nothing ends it, hides it or carries it on. -/
def Quote.Fits (context : Context) (word rest : Text) : Quote → Prop
  | .double => True
  | .brace => if rest = [] then braceEnd 0 word ≠ .closed else braceEnd 0 word = .within 0
  | .bare =>
      word ≠ [] ∧ '\r' ∉ word ∧ word.head? ≠ some '\n' ∧
        ¬(context.fresh = true ∧ word.head? = some '#') ∧
        rest.head?.all (endsBare context.nested) = true

instance (context : Context) (word rest : Text) :
    (quote : Quote) → Decidable (quote.Fits context word rest)
  | .double => inferInstanceAs (Decidable True)
  | .brace => inferInstanceAs (Decidable (if rest = [] then _ else _))
  | .bare => inferInstanceAs (Decidable (_ ∧ _ ∧ _ ∧ ¬(_ ∧ _) ∧ _))

def Quote.ReadsBack (context : Context) (word rest : Text) (quote : Quote) : Prop :=
  ∃ text closed after,
    Reads context (quote.opening ++ quote.escape word ++ rest) (.word quote text closed) after ∧
      quote.read text = word

theorem reads_brace (context : Context) (rest : Text) :
    Reads context ('{' :: rest)
      (.word .brace (braceBody 0 rest).text (braceBody 0 rest).closed) (braceBody 0 rest).rest :=
  ⟨'{', rest, rfl, by simp [readLexeme, isBlank, isSeparator, readWord, Body.toWord]⟩

theorem reads_double (context : Context) (rest : Text) :
    Reads context ('"' :: rest)
      (.word .double (doubleBody rest).text (doubleBody rest).closed) (doubleBody rest).rest :=
  ⟨'"', rest, rfl, by simp [readLexeme, isBlank, isSeparator, readWord, Body.toWord]⟩

theorem exists_reads_of_delimiter (context : Context) {quote : Quote} (hquote : quote ≠ .bare)
    (rest : Text) : ∃ word closed after,
      Reads context (quote.opening ++ rest) (.word quote word closed) after := by
  cases quote with
  | bare => exact absurd rfl hquote
  | brace => exact ⟨_, _, _, reads_brace context rest⟩
  | double => exact ⟨_, _, _, reads_double context rest⟩

theorem readsBack_iff_of_reads {context : Context} {word rest text after : Text} {quote : Quote}
    {closed : Bool}
    (h : Reads context (quote.opening ++ quote.escape word ++ rest) (.word quote text closed)
      after) : quote.ReadsBack context word rest ↔ quote.read text = word := by
  constructor
  · rintro ⟨text', closed', after', hreads, hread⟩
    obtain ⟨hlexeme, -⟩ := hreads.unique h
    cases hlexeme
    exact hread
  · intro hread
    exact ⟨text, closed, after, h, hread⟩

theorem not_readsBack_of_reads {context : Context} {word rest after : Text} {quote : Quote}
    {lexeme : Lexeme} (h : Reads context (quote.opening ++ quote.escape word ++ rest) lexeme after)
    (hlexeme : ∀ text closed, lexeme ≠ .word quote text closed) :
    ¬quote.ReadsBack context word rest := by
  rintro ⟨text, closed, after', hreads, -⟩
  exact hlexeme text closed (h.unique hreads).1

theorem readsBack_brace_iff (context : Context) (word : Text) {rest : Text}
    (hrest : rest.head?.all (· = '}') = true) :
    Quote.brace.ReadsBack context word rest ↔ Quote.brace.Fits context word rest := by
  have hread := reads_brace context (word ++ rest)
  have htext : '{' :: (word ++ rest) =
      Quote.brace.opening ++ Quote.brace.escape word ++ rest := by
    rw [Quote.escape_brace]
    rfl
  rw [htext] at hread
  rw [readsBack_iff_of_reads hread]
  cases rest with
  | nil => simpa [Quote.Fits, Quote.read] using braceBody_eq_open_iff word
  | cons c rest =>
      obtain rfl : c = '}' := by simpa using hrest
      simpa [Quote.Fits, Quote.read] using braceBody_eq_closed_iff word rest

theorem readsBack_double (context : Context) (word : Text) {rest : Text}
    (hrest : rest.head?.all (· = '"') = true) : Quote.double.ReadsBack context word rest := by
  have hread := reads_double context (Quote.double.escape word ++ rest)
  have hbody : (doubleBody rest).text = [] := by
    cases rest with
    | nil => rfl
    | cons c rest =>
        obtain rfl : c = '"' := by simpa using hrest
        simp [doubleBody]
  have htext : '"' :: (Quote.double.escape word ++ rest) =
      Quote.double.opening ++ Quote.double.escape word ++ rest := rfl
  rw [htext] at hread
  rw [readsBack_iff_of_reads hread, doubleBody_escape, Body.text_push, hbody, List.append_nil]
  exact Quote.read_escape .double word

theorem readsBack_bare_iff_of_beginsBare {context : Context} {word rest after : Text} {c : Char}
    (hc : context.BeginsBare c) (htext : Quote.bare.escape word ++ rest = c :: after)
    (hcontinues : ¬(c = '\\' ∧ after.head? = some '\n')) :
    Quote.bare.ReadsBack context word rest ↔
      '\r' ∉ word ∧ rest.head?.all (endsBare context.nested) = true := by
  have hlexeme := readLexeme_of_beginsBare hc hcontinues
  rw [← htext] at hlexeme
  have hread : Reads context (Quote.bare.opening ++ Quote.bare.escape word ++ rest)
      (.word .bare (bareBody context.nested (Quote.bare.escape word ++ rest)).text
        (bareBody context.nested (Quote.bare.escape word ++ rest)).closed)
      (bareBody context.nested (Quote.bare.escape word ++ rest)).rest :=
    ⟨c, after, htext, hlexeme⟩
  rw [readsBack_iff_of_reads hread]
  exact unescape_bareBody_eq_iff context.nested word rest

theorem readsBack_bare_iff_of_special (context : Context) {c : Char} (word rest : Text)
    (hspecial : Quote.bare.special.contains c = true) :
    Quote.bare.ReadsBack context (c :: word) rest ↔ Quote.bare.Fits context (c :: word) rest := by
  have htext : Quote.bare.escape (c :: word) ++ rest =
      '\\' :: c :: (Quote.bare.escape word ++ rest) := by
    rw [Quote.escape_cons, if_pos hspecial]
    rfl
  have hcomment : c ≠ '#' := by
    rintro rfl
    revert hspecial
    decide
  by_cases hnewline : c = '\n'
  · subst hnewline
    refine iff_of_false ?_ (by simp [Quote.Fits])
    have hread : Reads context (Quote.bare.escape ('\n' :: word) ++ rest) .continuation
        (Quote.bare.escape word ++ rest) := by
      rw [htext]
      change Reads context (Lexeme.continuation.source ++ _) _ _
      exact reads_of_valid trivial trivial
    exact not_readsBack_of_reads hread (by simp)
  · have hbegins : context.BeginsBare '\\' := by
      constructor <;> simp [endsBare, isBlank, isSeparator]
    rw [readsBack_bare_iff_of_beginsBare hbegins htext (by simpa using hnewline)]
    simp [Quote.Fits, hnewline, hcomment]

theorem not_readsBack_bare_return (context : Context) (word rest : Text) :
    ¬Quote.bare.ReadsBack context ('\r' :: word) rest := by
  have hread : Reads context (Quote.bare.escape ('\r' :: word) ++ rest) (.blank '\r')
      (Quote.bare.escape word ++ rest) := by
    change Reads context ((Lexeme.blank '\r').source ++ _) _ _
    exact reads_of_valid (by decide : isBlank '\r' = true) trivial
  exact not_readsBack_of_reads hread (by simp)

theorem not_readsBack_bare_comment {context : Context} (hfresh : context.fresh = true)
    (word rest : Text) : ¬Quote.bare.ReadsBack context ('#' :: word) rest := by
  obtain ⟨lexeme, after, hread⟩ := exists_reads context '#' (Quote.bare.escape word ++ rest)
  have hlexeme : ∀ text closed, lexeme ≠ .word .bare text closed := by
    rintro text closed rfl
    obtain ⟨hsource, ⟨⟨c, others, rfl, hbegins, -⟩, -⟩, -⟩ := reads_iff.1 hread
    obtain rfl : '#' = c := (List.cons.inj hsource).1
    exact hbegins.noComment ⟨rfl, hfresh⟩
  have htext : '#' :: (Quote.bare.escape word ++ rest) =
      Quote.bare.opening ++ Quote.bare.escape ('#' :: word) ++ rest := rfl
  rw [htext] at hread
  exact not_readsBack_of_reads hread hlexeme

theorem readsBack_bare_iff_of_plain (context : Context) {c : Char} (word rest : Text)
    (hplain : Quote.bare.special.contains c = false) :
    Quote.bare.ReadsBack context (c :: word) rest ↔ Quote.bare.Fits context (c :: word) rest := by
  have htext : Quote.bare.escape (c :: word) ++ rest =
      c :: (Quote.bare.escape word ++ rest) := by
    rw [Quote.escape_cons, if_neg (by rw [hplain]; decide)]
    rfl
  have hne : ∀ d ∈ Quote.bare.special, c ≠ d := by
    rintro d hd rfl
    rw [List.contains_iff_mem.2 hd] at hplain
    contradiction
  by_cases hreturn : c = '\r'
  · subst hreturn
    exact iff_of_false (not_readsBack_bare_return context word rest) (by simp [Quote.Fits])
  by_cases hcomment : c = '#' ∧ context.fresh = true
  · obtain ⟨rfl, hfresh⟩ := hcomment
    refine iff_of_false (not_readsBack_bare_comment hfresh word rest) ?_
    simp [Quote.Fits, hfresh]
  have hbegins : context.BeginsBare c := by
    refine ⟨endsBare_of_plain hplain hreturn, hcomment, ?_, hne '{' (by decide),
      hne '"' (by decide)⟩
    rintro ⟨rfl, -⟩
    exact hne '[' (by decide) rfl
  have hcontinues : ¬(c = '\\' ∧ (Quote.bare.escape word ++ rest).head? = some '\n') := by
    rintro ⟨rfl, -⟩
    exact hne '\\' (by decide) rfl
  have hnewline : c ≠ '\n' := hne '\n' (by decide)
  have hfresh : ¬(context.fresh = true ∧ c = '#') := fun h => hcomment h.symm
  rw [readsBack_bare_iff_of_beginsBare hbegins htext hcontinues]
  simp [Quote.Fits, hnewline, hfresh]

theorem readsBack_bare_iff (context : Context) (word rest : Text) :
    Quote.bare.ReadsBack context word rest ↔ Quote.bare.Fits context word rest := by
  cases word with
  | nil =>
      refine iff_of_false ?_ (by simp [Quote.Fits])
      rintro ⟨text, closed, after, hreads, hread⟩
      obtain rfl : text = [] := unescape_eq_nil hread
      obtain ⟨⟨c, others, hnil, -⟩, -⟩ := hreads.valid.1
      simp at hnil
  | cons c word =>
      cases hspecial : Quote.bare.special.contains c with
      | true => exact readsBack_bare_iff_of_special context word rest hspecial
      | false => exact readsBack_bare_iff_of_plain context word rest hspecial

theorem readsBack_iff_fits (context : Context) (word : Text) {rest : Text} {quote : Quote}
    (hbrace : quote = .brace → rest.head?.all (· = '}') = true)
    (hdouble : quote = .double → rest.head?.all (· = '"') = true) :
    quote.ReadsBack context word rest ↔ quote.Fits context word rest := by
  cases quote with
  | bare => exact readsBack_bare_iff context word rest
  | brace => exact readsBack_brace_iff context word (hbrace rfl)
  | double => exact iff_of_true (readsBack_double context word (hdouble rfl)) trivial

end CommandFrame.Line
