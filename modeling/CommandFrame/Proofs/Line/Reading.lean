import CommandFrame.Line.Lexeme

/-!
# What reading a lexeme means

A lexeme is read exactly where its source stands, if it can stand by itself and
what follows does not carry it on.  Only bare words and comments look at what
follows, and only an open word needs the end of the line.
-/

namespace CommandFrame.Line

/-! ## Bodies of words -/

theorem braceBody_cons (depth : Nat) {c : Char} (hc : c ∉ ['\\', '{', '}']) (rest : Text) :
    braceBody depth (c :: rest) = (braceBody depth rest).push [c] := by
  simp only [List.mem_cons, List.not_mem_nil, or_false, not_or] at hc
  rw [braceBody] <;> simp_all

theorem doubleBody_cons {c : Char} (hc : c ∉ ['\\', '"']) (rest : Text) :
    doubleBody (c :: rest) = (doubleBody rest).push [c] := by
  simp only [List.mem_cons, List.not_mem_nil, or_false, not_or] at hc
  rw [doubleBody] <;> simp_all

theorem bareBody_cons {nested : Bool} {c : Char} (hc : c ≠ '\\')
    (hends : endsBare nested c = false) (rest : Text) :
    bareBody nested (c :: rest) = (bareBody nested rest).push [c] := by
  rw [bareBody] <;> simp_all

theorem bareBody_of_ends {nested : Bool} {rest : Text}
    (h : rest.head?.all (endsBare nested) = true) : bareBody nested rest = ⟨[], rest, true⟩ := by
  cases rest with
  | nil => rfl
  | cons c rest =>
      have hends : endsBare nested c = true := by simpa using h
      have hc : c ≠ '\\' := by rintro rfl; cases nested <;> revert hends <;> decide
      rw [bareBody] <;> simp_all

theorem braceBody_of_closed {depth : Nat} {text : Text}
    (h : (braceBody depth text).closed = true) (rest : Text) :
    braceBody depth ((braceBody depth text).text ++ '}' :: rest) =
      ⟨(braceBody depth text).text, rest, true⟩ := by
  fun_induction braceBody depth text with
  | case1 => simp at h
  | case2 depth c text ih => simp_all [braceBody, Body.push]
  | case3 => simp [braceBody]
  | case4 depth text ih => simp_all [braceBody, Body.push]
  | case5 depth text ih => simp_all [braceBody, Body.push]
  | case6 depth c text hpair hzero hsucc hopen ih =>
      have hc : c ∉ ['\\', '{', '}'] := by
        simp only [List.mem_cons, List.not_mem_nil, or_false, not_or]
        refine ⟨?_, hopen, ?_⟩
        · rintro rfl
          cases text with
          | nil => simp [braceBody] at h
          | cons next text => exact hpair next text rfl rfl
        · rintro rfl
          cases depth with
          | zero => exact hzero rfl rfl
          | succ depth => exact hsucc depth rfl rfl
      have htail := ih (by simpa using h)
      simp [braceBody_cons depth hc, htail, Body.push]

theorem braceBody_of_open {depth : Nat} {text : Text}
    (h : (braceBody depth text).closed = false) :
    braceBody depth text = ⟨text, [], false⟩ := by
  fun_induction braceBody depth text <;> simp_all [Body.push]

theorem doubleBody_of_closed {text : Text} (h : (doubleBody text).closed = true) (rest : Text) :
    doubleBody ((doubleBody text).text ++ '"' :: rest) = ⟨(doubleBody text).text, rest, true⟩ := by
  fun_induction doubleBody text with
  | case1 => simp at h
  | case2 c text ih => simp_all [doubleBody, Body.push]
  | case3 => simp [doubleBody]
  | case4 c text hpair hclose ih =>
      have hc : c ∉ ['\\', '"'] := by
        simp only [List.mem_cons, List.not_mem_nil, or_false, not_or]
        refine ⟨?_, hclose⟩
        rintro rfl
        cases text with
        | nil => simp [doubleBody] at h
        | cons next text => exact hpair next text rfl rfl
      have htail := ih (by simpa using h)
      simp [doubleBody_cons hc, htail, Body.push]

theorem doubleBody_of_open {text : Text} (h : (doubleBody text).closed = false) :
    doubleBody text = ⟨text, [], false⟩ := by
  fun_induction doubleBody text <;> simp_all [Body.push]

theorem bareBody_of_closed {nested : Bool} {text : Text}
    (h : (bareBody nested text).closed = true) (rest : Text)
    (hrest : rest.head?.all (endsBare nested) = true) :
    bareBody nested ((bareBody nested text).text ++ rest) =
      ⟨(bareBody nested text).text, rest, true⟩ := by
  fun_induction bareBody nested text with
  | case1 => simpa using bareBody_of_ends hrest
  | case2 => simp at h
  | case3 c text ih => simp_all [bareBody, Body.push]
  | case4 => simpa using bareBody_of_ends hrest
  | case5 c text hlast hpair hends ih =>
      have hc : c ≠ '\\' := by
        rintro rfl
        cases text with
        | nil => exact hlast rfl rfl
        | cons next text => exact hpair next text rfl rfl
      have htail := ih (by simpa using h)
      simp [bareBody_cons hc (by simpa using hends), htail, Body.push]

theorem bareBody_of_open {nested : Bool} {text : Text}
    (h : (bareBody nested text).closed = false) :
    bareBody nested text = ⟨text, [], false⟩ := by
  fun_induction bareBody nested text <;> simp_all [Body.push]

theorem bareBody_ends {nested : Bool} {text : Text} :
    (bareBody nested text).rest.head?.all (endsBare nested) = true := by
  fun_induction bareBody nested text <;> simp_all

/-! A word that is read to its end by itself is read where it stands. -/

theorem braceBody_append {depth : Nat} {text rest : Text} {closed : Bool}
    (hbody : braceBody depth (text ++ bif closed then ['}'] else []) = ⟨text, [], closed⟩)
    (hrest : closed = false → rest = []) :
    braceBody depth (text ++ (bif closed then ['}'] else []) ++ rest) = ⟨text, rest, closed⟩ := by
  cases closed with
  | true =>
      have hextend := braceBody_of_closed (congrArg Body.closed hbody) rest
      rw [hbody] at hextend
      simpa using hextend
  | false =>
      obtain rfl := hrest rfl
      simpa using hbody

theorem doubleBody_append {text rest : Text} {closed : Bool}
    (hbody : doubleBody (text ++ bif closed then ['"'] else []) = ⟨text, [], closed⟩)
    (hrest : closed = false → rest = []) :
    doubleBody (text ++ (bif closed then ['"'] else []) ++ rest) = ⟨text, rest, closed⟩ := by
  cases closed with
  | true =>
      have hextend := doubleBody_of_closed (congrArg Body.closed hbody) rest
      rw [hbody] at hextend
      simpa using hextend
  | false =>
      obtain rfl := hrest rfl
      simpa using hbody

theorem bareBody_append {nested : Bool} {text rest : Text} {closed : Bool}
    (hbody : bareBody nested text = ⟨text, [], closed⟩)
    (hends : rest.head?.all (endsBare nested) = true) (hrest : closed = false → rest = []) :
    bareBody nested (text ++ rest) = ⟨text, rest, closed⟩ := by
  cases closed with
  | true =>
      have hextend := bareBody_of_closed (congrArg Body.closed hbody) rest hends
      rw [hbody] at hextend
      exact hextend
  | false =>
      obtain rfl := hrest rfl
      simpa using hbody

/-! ## Lexemes -/

structure Context.BeginsBare (context : Context) (c : Char) : Prop where
  goesOn : endsBare context.nested c = false
  noComment : ¬(c = '#' ∧ context.fresh = true)
  noOpening : ¬(c = '[' ∧ context.brackets = true)
  noBrace : c ≠ '{'
  noQuote : c ≠ '"'

def Lexeme.Valid (context : Context) : Lexeme → Prop
  | .blank c => isBlank c = true
  | .continuation => True
  | .separator c => isSeparator c = true
  | .comment text => context.fresh = true ∧ ∃ body, text = '#' :: body ∧ '\n' ∉ body
  | .opening => context.brackets = true
  | .closing => context.nested = true
  | .word .brace text closed =>
      braceBody 0 (text ++ bif closed then ['}'] else []) = ⟨text, [], closed⟩
  | .word .double text closed =>
      doubleBody (text ++ bif closed then ['"'] else []) = ⟨text, [], closed⟩
  | .word .bare text closed =>
      (∃ c rest, text = c :: rest ∧ context.BeginsBare c ∧
        ¬(c = '\\' ∧ rest.head? = some '\n')) ∧
      bareBody context.nested text = ⟨text, [], closed⟩

/-- Whether the lexeme ends before the rest of the line. -/
def Lexeme.EndsBefore (nested : Bool) (rest : Text) : Lexeme → Prop
  | .blank _ | .continuation | .separator _ | .opening | .closing => True
  | .comment _ => rest.head?.all (· = '\n') = true
  | .word _ _ false => rest = []
  | .word .bare _ true => rest.head?.all (endsBare nested) = true
  | .word .brace _ true | .word .double _ true => True

/-- The text begins with the lexeme, and `rest` follows it. -/
def Reads (context : Context) (text : Text) (lexeme : Lexeme) (rest : Text) : Prop :=
  ∃ c after, text = c :: after ∧ readLexeme context c after = (lexeme, rest)

theorem exists_reads (context : Context) (c : Char) (after : Text) :
    ∃ lexeme rest, Reads context (c :: after) lexeme rest :=
  ⟨_, _, c, after, rfl, rfl⟩

theorem Reads.source {context : Context} {text rest : Text} {lexeme : Lexeme}
    (h : Reads context text lexeme rest) : text = lexeme.source ++ rest := by
  obtain ⟨c, after, rfl, hread⟩ := h
  have hsource := source_readLexeme context c after
  rw [hread] at hsource
  exact hsource.symm

theorem Reads.source_ne_nil {context : Context} {text rest : Text} {lexeme : Lexeme}
    (h : Reads context text lexeme rest) : lexeme.source ≠ [] := by
  obtain ⟨c, after, rfl, hread⟩ := h
  have hne := source_readLexeme_ne_nil context c after
  rwa [hread] at hne

theorem Body.toWord_eq {quote : Quote} {body : Body} {lexeme : Lexeme} {rest : Text}
    (h : body.toWord quote = (lexeme, rest)) :
    lexeme = .word quote body.text body.closed ∧ rest = body.rest := by
  cases h
  exact ⟨rfl, rfl⟩

theorem valid_of_readWord {context : Context} {c : Char} {after rest : Text} {lexeme : Lexeme}
    (hends : endsBare context.nested c = false) (hcomment : ¬(c = '#' ∧ context.fresh = true))
    (hopening : ¬(c = '[' ∧ context.brackets = true))
    (hcontinues : ¬(c = '\\' ∧ after.head? = some '\n'))
    (h : readWord context.nested c after = (lexeme, rest)) :
    lexeme.Valid context ∧ lexeme.EndsBefore context.nested rest := by
  unfold readWord at h
  split at h
  · obtain ⟨rfl, rfl⟩ := Body.toWord_eq h
    cases hclosed : (braceBody 0 after).closed with
    | true => exact ⟨braceBody_of_closed hclosed [], trivial⟩
    | false => simp [Lexeme.Valid, Lexeme.EndsBefore, braceBody_of_open hclosed]
  split at h
  · obtain ⟨rfl, rfl⟩ := Body.toWord_eq h
    cases hclosed : (doubleBody after).closed with
    | true => exact ⟨doubleBody_of_closed hclosed [], trivial⟩
    | false => simp [Lexeme.Valid, Lexeme.EndsBefore, doubleBody_of_open hclosed]
  · rename_i hbrace hquote
    obtain ⟨rfl, rfl⟩ := Body.toWord_eq h
    have hsource := bareBody_source context.nested (c :: after)
    obtain ⟨first, text, htext⟩ := List.exists_cons_of_ne_nil (bareBody_text_ne_nil hends after)
    obtain ⟨rfl, hafter⟩ : first = c ∧ text ++ (bareBody context.nested (c :: after)).rest = after := by
      simpa [htext] using hsource
    have hbody : bareBody context.nested (bareBody context.nested (first :: after)).text =
        ⟨(bareBody context.nested (first :: after)).text, [],
          (bareBody context.nested (first :: after)).closed⟩ := by
      cases hclosed : (bareBody context.nested (first :: after)).closed with
      | true => simpa using bareBody_of_closed hclosed [] rfl
      | false => simp [bareBody_of_open hclosed]
    refine ⟨⟨⟨first, text, htext, ⟨hends, hcomment, hopening, hbrace, hquote⟩, ?_⟩, hbody⟩, ?_⟩
    · rintro ⟨rfl, hnewline⟩
      refine hcontinues ⟨rfl, ?_⟩
      rw [← hafter, List.head?_append, hnewline]
      rfl
    · cases hclosed : (bareBody context.nested (first :: after)).closed with
      | true => exact bareBody_ends
      | false => simp [Lexeme.EndsBefore, bareBody_of_open hclosed]

theorem Reads.valid {context : Context} {text rest : Text} {lexeme : Lexeme}
    (h : Reads context text lexeme rest) :
    lexeme.Valid context ∧ lexeme.EndsBefore context.nested rest := by
  obtain ⟨c, after, -, hread⟩ := h
  unfold readLexeme at hread
  split at hread
  · cases hread
    exact ⟨‹_›, trivial⟩
  split at hread
  · cases hread
    exact ⟨trivial, trivial⟩
  split at hread
  · cases hread
    exact ⟨‹_›, trivial⟩
  split at hread
  · rename_i hclosing
    cases hread
    exact ⟨hclosing.2, trivial⟩
  split at hread
  · rename_i hcomment
    cases hread
    refine ⟨⟨hcomment.2, _, by rw [hcomment.1], ?_⟩, ?_⟩
    · intro hmem
      have hall := List.all_takeWhile (p := (· ≠ '\n')) (l := after)
      simpa using List.all_eq_true.1 hall _ hmem
    · have hhead := List.head?_dropWhile_not (· ≠ '\n') after
      change (after.dropWhile (· ≠ '\n')).head?.all (· = '\n') = true
      cases hrest : (after.dropWhile (· ≠ '\n')).head? with
      | none => rfl
      | some d =>
          rw [hrest] at hhead
          simpa using hhead
  split at hread
  · rename_i hopening
    cases hread
    exact ⟨hopening.2, trivial⟩
  · rename_i hblank hcontinues hseparator hclosing hcomment hopening
    refine valid_of_readWord ?_ hcomment hopening hcontinues hread
    cases hnested : context.nested <;> simp_all [endsBare]

theorem readLexeme_of_beginsBare {context : Context} {c : Char} (hc : context.BeginsBare c)
    {after : Text} (hcontinues : ¬(c = '\\' ∧ after.head? = some '\n')) :
    readLexeme context c after = (bareBody context.nested (c :: after)).toWord .bare := by
  obtain ⟨hgoesOn, hcomment, hopening, hbrace, hquote⟩ := hc
  have hblank : isBlank c = false := by
    cases h : isBlank c <;> simp_all [endsBare]
  have hseparator : isSeparator c = false := by
    cases h : isSeparator c <;> simp_all [endsBare]
  have hclosing : ¬(c = ']' ∧ context.nested = true) := by
    rintro ⟨rfl, hnested⟩
    simp [endsBare, hnested] at hgoesOn
  rw [readLexeme, if_neg (by simp [hblank]), if_neg hcontinues, if_neg (by simp [hseparator]),
    if_neg hclosing, if_neg hcomment, if_neg hopening, readWord, if_neg hbrace, if_neg hquote]

theorem readLexeme_comment {context : Context} (hfresh : context.fresh = true) {body rest : Text}
    (hbody : '\n' ∉ body) (hrest : rest.head?.all (· = '\n') = true) :
    readLexeme context '#' (body ++ rest) = (.comment ('#' :: body), rest) := by
  have hpos : ∀ c ∈ body, decide (c ≠ '\n') = true := by
    intro c hc
    have hne : c ≠ '\n' := ne_of_mem_of_not_mem hc hbody
    simpa using hne
  have htake : (body ++ rest).takeWhile (· ≠ '\n') = body := by
    rw [List.takeWhile_append_of_pos hpos]
    cases rest with
    | nil => simp
    | cons c rest => simp_all
  have hdrop : (body ++ rest).dropWhile (· ≠ '\n') = rest := by
    rw [List.dropWhile_append_of_pos hpos]
    cases rest with
    | nil => rfl
    | cons c rest => simp_all
  have hskip : readLexeme context '#' (body ++ rest) =
      (.comment ('#' :: (body ++ rest).takeWhile (· ≠ '\n')),
        (body ++ rest).dropWhile (· ≠ '\n')) := by
    simp [readLexeme, isBlank, isSeparator, hfresh]
  rw [hskip, htake, hdrop]

theorem reads_of_valid {context : Context} {lexeme : Lexeme} {rest : Text}
    (hvalid : lexeme.Valid context) (hends : lexeme.EndsBefore context.nested rest) :
    Reads context (lexeme.source ++ rest) lexeme rest := by
  cases lexeme with
  | blank c =>
      have hblank : isBlank c = true := hvalid
      exact ⟨c, rest, rfl, by simp [readLexeme, hblank]⟩
  | continuation =>
      exact ⟨'\\', '\n' :: rest, rfl, by simp [readLexeme, isBlank]⟩
  | separator c =>
      have hseparator : isSeparator c = true := hvalid
      have hc : c = '\n' ∨ c = ';' := by simpa [isSeparator] using hseparator
      refine ⟨c, rest, rfl, ?_⟩
      rcases hc with rfl | rfl <;> simp [readLexeme, isBlank, isSeparator]
  | comment text =>
      obtain ⟨hfresh, body, rfl, hbody⟩ := hvalid
      exact ⟨'#', body ++ rest, rfl, readLexeme_comment hfresh hbody hends⟩
  | opening =>
      have hbrackets : context.brackets = true := hvalid
      exact ⟨'[', rest, rfl, by simp [readLexeme, isBlank, isSeparator, hbrackets]⟩
  | closing =>
      have hnested : context.nested = true := hvalid
      exact ⟨']', rest, rfl, by simp [readLexeme, isBlank, isSeparator, hnested]⟩
  | word quote text closed =>
      cases quote with
      | bare =>
          obtain ⟨⟨c, after, rfl, hc, hcontinues⟩, hbody⟩ := hvalid
          have hstop : rest.head?.all (endsBare context.nested) = true ∧
              (closed = false → rest = []) := by
            cases closed <;> simp_all [Lexeme.EndsBefore]
          have hread := bareBody_append hbody hstop.1 hstop.2
          have hstays : ¬(c = '\\' ∧ (after ++ rest).head? = some '\n') := by
            rintro ⟨rfl, hnewline⟩
            cases after with
            | nil =>
                have hclosed : closed = false := by simpa [bareBody, eq_comm] using hbody
                simp [hstop.2 hclosed] at hnewline
            | cons next after => exact hcontinues ⟨rfl, hnewline⟩
          refine ⟨c, after ++ rest, ?_, ?_⟩
          · cases closed <;> simp [Lexeme.source, Quote.opening, Quote.closing]
          · rw [readLexeme_of_beginsBare hc hstays, ← List.cons_append, hread]
            rfl
      | brace =>
          have hstop : closed = false → rest = [] := by
            rintro rfl
            exact hends
          have hread := braceBody_append hvalid hstop
          refine ⟨'{', text ++ (bif closed then ['}'] else []) ++ rest, rfl, ?_⟩
          simp only [readLexeme, readWord, hread]
          simp [isBlank, isSeparator, Body.toWord]
      | double =>
          have hstop : closed = false → rest = [] := by
            rintro rfl
            exact hends
          have hread := doubleBody_append hvalid hstop
          refine ⟨'"', text ++ (bif closed then ['"'] else []) ++ rest, rfl, ?_⟩
          simp only [readLexeme, readWord, hread]
          simp [isBlank, isSeparator, Body.toWord]

theorem reads_iff {context : Context} {text rest : Text} {lexeme : Lexeme} :
    Reads context text lexeme rest ↔
      text = lexeme.source ++ rest ∧ lexeme.Valid context ∧
        lexeme.EndsBefore context.nested rest := by
  constructor
  · intro h
    exact ⟨h.source, h.valid⟩
  · rintro ⟨rfl, hvalid, hends⟩
    exact reads_of_valid hvalid hends

theorem Reads.unique {context : Context} {text rest rest' : Text} {lexeme lexeme' : Lexeme}
    (h : Reads context text lexeme rest) (h' : Reads context text lexeme' rest') :
    lexeme = lexeme' ∧ rest = rest' := by
  obtain ⟨c, after, rfl, hread⟩ := h
  obtain ⟨c', after', heq, hread'⟩ := h'
  cases heq
  exact Prod.mk.inj (hread.symm.trans hread')

/-! ## Single characters -/

theorem reads_blank {context : Context} {c : Char} (h : isBlank c = true) (rest : Text) :
    Reads context (c :: rest) (.blank c) rest := by
  change Reads context ((Lexeme.blank c).source ++ rest) _ rest
  exact reads_of_valid h trivial

theorem reads_newline (context : Context) (rest : Text) :
    Reads context ('\n' :: rest) (.separator '\n') rest := by
  change Reads context ((Lexeme.separator '\n').source ++ rest) _ rest
  exact reads_of_valid (by decide : isSeparator '\n' = true) trivial

theorem reads_opening {context : Context} (h : context.brackets = true) (rest : Text) :
    Reads context ('[' :: rest) .opening rest := by
  change Reads context (Lexeme.opening.source ++ rest) .opening rest
  exact reads_of_valid h trivial

theorem reads_closing {context : Context} (h : context.nested = true) (rest : Text) :
    Reads context (']' :: rest) .closing rest := by
  change Reads context (Lexeme.closing.source ++ rest) .closing rest
  exact reads_of_valid h trivial

end CommandFrame.Line
