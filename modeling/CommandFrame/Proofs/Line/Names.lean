import CommandFrame.Proofs.Completion.Written

/-!
# Names as words

A plain name is written as it is, and is read as the word that it is, or as the
start of a bare word.  What carries on a bare word without beginning one is no
part of a name.
-/

namespace CommandFrame

namespace Text

def isNameChar (c : Char) : Bool := c.isAlphanum || c = '_' || c = '-'

structure IsName (text : Text) : Prop where
  ne_nil : text ≠ []
  all : ∀ c ∈ text, isNameChar c = true

theorem IsName.cons {c : Char} {text : Text} (hc : isNameChar c = true) (h : IsName text) :
    IsName (c :: text) := ⟨by simp, List.forall_mem_cons.2 ⟨hc, h.all⟩⟩

theorem IsName.of_prefix {start text : Text} (h : IsName text) (hstart : start <+: text)
    (hne : start ≠ []) : IsName start := ⟨hne, fun c hc => h.all c (hstart.subset hc)⟩

theorem ne_of_isNameChar {c d : Char} (hc : isNameChar c = true) (hd : isNameChar d = false) :
    c ≠ d := by
  rintro rfl
  rw [hc] at hd
  contradiction

end Text

namespace Line

open Text (isNameChar IsName ne_of_isNameChar)

theorem special_of_isNameChar {c : Char} (hc : isNameChar c = true) (quote : Quote) :
    quote.special.contains c = false := by
  rw [← Bool.not_eq_true, List.contains_iff_mem]
  intro hmem
  have hspecial : quote.special.all (!isNameChar ·) = true := by cases quote <;> decide
  have hforeign := List.all_eq_true.1 hspecial c hmem
  rw [hc] at hforeign
  contradiction

theorem Quote.escape_name {word : Text} (h : ∀ c ∈ word, isNameChar c = true) (quote : Quote) :
    quote.escape word = word := by
  induction word with
  | nil => rfl
  | cons c word ih =>
      rw [List.forall_mem_cons] at h
      rw [escape_cons, if_neg (by rw [special_of_isNameChar h.1]; decide), ih h.2]
      rfl

theorem beginsBare_of_isNameChar {c : Char} (hc : isNameChar c = true) (context : Context) :
    context.BeginsBare c where
  goesOn := endsBare_of_plain (special_of_isNameChar hc .bare) (ne_of_isNameChar hc (by decide))
  noComment h := ne_of_isNameChar hc (by decide) h.1
  noOpening h := ne_of_isNameChar hc (by decide) h.1
  noBrace := ne_of_isNameChar hc (by decide)
  noQuote := ne_of_isNameChar hc (by decide)

theorem braceEnd_name {word : Text} (h : ∀ c ∈ word, isNameChar c = true) (depth : Nat) :
    braceEnd depth word = .within depth := by
  induction word with
  | nil => rfl
  | cons c word ih =>
      rw [List.forall_mem_cons] at h
      have hbackslash : c ≠ '\\' := ne_of_isNameChar h.1 (by decide)
      have hopen : c ≠ '{' := ne_of_isNameChar h.1 (by decide)
      have hclose : c ≠ '}' := ne_of_isNameChar h.1 (by decide)
      unfold braceEnd
      simp [hbackslash, hopen, hclose, ih h.2]

theorem reads_name {word : Text} (h : IsName word) (context : Context) {quote : Quote}
    {rest : Text} (hbrace : quote = .brace → rest.head?.all (· = '}') = true)
    (hdouble : quote = .double → rest.head?.all (· = '"') = true) :
    ∃ more closed after,
      Reads context (quote.opening ++ (word ++ rest)) (.word quote (word ++ more) closed) after ∧
      (quote ≠ .bare → more = []) ∧
      (quote = .bare → more = (bareBody context.nested rest).text) := by
  cases quote with
  | brace =>
      have hread := reads_brace context (word ++ rest)
      rw [braceBody_of_within (braceEnd_name h.all 0), Body.text_push] at hread
      have hmore : (braceBody 0 rest).text = [] := by
        cases rest with
        | nil => rfl
        | cons c rest =>
            obtain rfl : c = '}' := by simpa using hbrace rfl
            rfl
      exact ⟨_, _, _, hread, fun _ => hmore, by simp⟩
  | double =>
      have hread := reads_double context (Quote.double.escape word ++ rest)
      rw [doubleBody_escape, Body.text_push, Quote.escape_name h.all] at hread
      have hmore : (doubleBody rest).text = [] := by
        cases rest with
        | nil => rfl
        | cons c rest =>
            obtain rfl : c = '"' := by simpa using hdouble rfl
            simp [doubleBody]
      exact ⟨_, _, _, hread, fun _ => hmore, by simp⟩
  | bare =>
      obtain ⟨c, others, rfl⟩ := List.exists_cons_of_ne_nil h.ne_nil
      have hc : isNameChar c = true := h.all c List.mem_cons_self
      have hreturn : '\r' ∉ c :: others := fun hmem =>
        absurd (h.all '\r' hmem) (by decide)
      have hbody := bareBody_escape context.nested hreturn rest
      rw [Quote.escape_name h.all] at hbody
      have hcontinues : ¬(c = '\\' ∧ (others ++ rest).head? = some '\n') :=
        fun hnewline => ne_of_isNameChar hc (by decide) hnewline.1
      have hread := readLexeme_of_beginsBare (beginsBare_of_isNameChar hc context) hcontinues
      rw [← List.cons_append, hbody] at hread
      exact ⟨_, _, _, ⟨c, others ++ rest, rfl, hread⟩, fun hbare => absurd rfl hbare, fun _ => rfl⟩

theorem head_of_goesOn {context : Context} {rest : Text}
    (hrest : ∀ text closed after, ¬Reads context rest (.word .bare text closed) after)
    (hmore : (bareBody context.nested rest).text ≠ []) :
    (∃ c after, rest = c :: after ∧ c ∈ ['#', '[', '{', '"']) ∨
      ∃ after, rest = '\\' :: '\n' :: after := by
  rw [ne_eq, text_bareBody_eq_nil_iff] at hmore
  cases rest with
  | nil => exact absurd rfl hmore
  | cons c after =>
      have hgoesOn : endsBare context.nested c = false := by simpa using hmore
      by_cases hc : c ∈ ['#', '[', '{', '"']
      · exact .inl ⟨c, after, rfl, hc⟩
      · simp only [List.mem_cons, List.not_mem_nil, or_false, not_or] at hc
        have hbegins : context.BeginsBare c :=
          ⟨hgoesOn, fun h => hc.1 h.1, fun h => hc.2.1 h.1, hc.2.2.1, hc.2.2.2⟩
        by_cases hcontinues : c = '\\' ∧ after.head? = some '\n'
        · obtain ⟨rfl, hhead⟩ := hcontinues
          obtain ⟨others, rfl⟩ := List.head?_eq_some_iff.1 hhead
          exact .inr ⟨others, rfl⟩
        · have hread := readLexeme_of_beginsBare hbegins hcontinues
          exact absurd ⟨c, after, rfl, hread⟩ (hrest _ _ _)

theorem exists_unescape_more {context : Context} {word rest : Text}
    (hword : ∀ c ∈ word, isNameChar c = true)
    (hrest : ∀ text closed after, ¬Reads context rest (.word .bare text closed) after)
    (hmore : (bareBody context.nested rest).text ≠ []) :
    ∃ c ∈ Text.unescape (word ++ (bareBody context.nested rest).text), isNameChar c = false := by
  have hread := Quote.unescape_escape_append (by decide : Quote.bare ≠ .brace) word
    (bareBody context.nested rest).text
  rw [Quote.escape_name hword] at hread
  rw [hread]
  rcases head_of_goesOn hrest hmore with ⟨c, after, rfl, hc⟩ | ⟨after, rfl⟩
  · have hforeign : isNameChar c = false ∧ c ≠ '\\' := by
      simp only [List.mem_cons, List.not_mem_nil, or_false] at hc
      rcases hc with rfl | rfl | rfl | rfl <;> decide
    have hgoesOn : endsBare context.nested c = false := by
      simpa [text_bareBody_eq_nil_iff] using hmore
    refine ⟨c, List.mem_append_right _ ?_, hforeign.1⟩
    rw [bareBody_cons hforeign.2 hgoesOn, Body.text_push, List.singleton_append,
      Text.unescape_cons hforeign.2]
    exact List.mem_cons_self
  · refine ⟨'\n', List.mem_append_right _ ?_, by decide⟩
    simp [bareBody, Text.escaped]

end Line

end CommandFrame
