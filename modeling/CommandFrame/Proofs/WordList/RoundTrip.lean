import CommandFrame.WordList.Fault
import CommandFrame.WordList.Merge

/-!
# Merged items split into themselves

An item is written in braces or with escapes; an item without special
characters is its own escaped form.  Either way the reader takes up exactly
what was written, provided that a separator or nothing follows.
-/

namespace CommandFrame.WordList

/-- Nothing, or a separator, stands next. -/
def Separated : Text → Prop
  | [] => True
  | c :: _ => isSeparator c = true

/-! ## Items in braces -/

theorem readBraced_of_isBalanced {depth : Nat} {item : Text}
    (h : isBalanced depth item = true) (rest : Text) :
    readBraced depth (item ++ '}' :: rest) = some (item, rest) := by
  fun_induction isBalanced depth item with
  | case1 depth =>
      obtain rfl : depth = 0 := by simpa using h
      rfl
  | case2 depth item ih => simp [readBraced, ih h, consume]
  | case3 => contradiction
  | case4 depth item ih => simp [readBraced, ih h, consume]
  | case5 depth c item hopen hclose hdeep ih =>
      have hc : c ≠ '}' := by
        rintro rfl
        cases depth with
        | zero => exact hclose rfl rfl
        | succ depth => exact hdeep depth rfl rfl
      have hc' : c ≠ '{' := hopen
      rw [List.cons_append, readBraced]
      · simp [ih h, consume]
      all_goals simp_all

/-! ## Items with escapes -/

theorem isSpecial_of_isSeparator {c : Char} (h : isSeparator c = true) :
    isSpecial c = true := by
  simp only [isSeparator, Bool.or_eq_true, decide_eq_true_eq] at h
  rcases h with (((rfl | rfl) | rfl) | rfl) | rfl <;> decide

theorem escaped_of_isSpecial {c : Char} (h : isSpecial c = true) : Text.escaped c = c := by
  have hn : c ≠ 'n' := by rintro rfl; revert h; decide
  have ht : c ≠ 't' := by rintro rfl; revert h; decide
  simp [Text.escaped, hn, ht]

theorem escapeChar_cases (c : Char) :
    (isSpecial c = true ∧ ∃ d, escapeChar c = ['\\', d] ∧ Text.escaped d = c) ∨
      (isSpecial c = false ∧ escapeChar c = [c]) := by
  unfold escapeChar
  split
  · rename_i h
    subst h
    exact .inl ⟨by decide, 'n', rfl, by decide⟩
  split
  · rename_i h
    subst h
    exact .inl ⟨by decide, 't', rfl, by decide⟩
  split
  · rename_i h
    exact .inl ⟨h, c, rfl, escaped_of_isSpecial h⟩
  · rename_i h
    exact .inr ⟨by simpa using h, rfl⟩

theorem ne_backslash_of_plain {c : Char} (h : isSpecial c = false) : c ≠ '\\' := by
  rintro rfl
  revert h
  decide

theorem isSeparator_of_plain {c : Char} (h : isSpecial c = false) : isSeparator c = false := by
  cases hc : isSeparator c with
  | false => rfl
  | true => simp [isSpecial_of_isSeparator hc] at h

@[simp] theorem escape_cons (c : Char) (item : Text) :
    escape (c :: item) = escapeChar c ++ escape item := rfl

theorem escape_eq_self {item : Text} (h : item.any isSpecial = false) : escape item = item := by
  induction item with
  | nil => rfl
  | cons c item ih =>
      simp only [List.any_cons, Bool.or_eq_false_iff] at h
      rcases escapeChar_cases c with ⟨hspecial, -⟩ | ⟨-, hc⟩
      · simp [h.1] at hspecial
      · rw [escape_cons, hc, ih h.2]
        rfl

theorem unescape_escape (item : Text) : Text.unescape (escape item) = item := by
  induction item with
  | nil => rfl
  | cons c item ih =>
      rcases escapeChar_cases c with ⟨-, d, hd, hc⟩ | ⟨hplain, hc⟩
      · simp [hd, ih, hc]
      · simp [hc, Text.unescape_cons (ne_backslash_of_plain hplain), ih]

theorem readBare_escapeChar (c : Char) (rest : Text) :
    readBare (escapeChar c ++ rest) = consume (escapeChar c) (readBare rest) := by
  rcases escapeChar_cases c with ⟨-, d, hd, -⟩ | ⟨hplain, hc⟩
  · simp [hd, readBare]
  · rw [hc, List.singleton_append, readBare]
    · simp [isSeparator_of_plain hplain]
    · simp [ne_backslash_of_plain hplain]

theorem readBare_of_separated {rest : Text} (h : Separated rest) : readBare rest = ([], rest) := by
  cases rest with
  | nil => rfl
  | cons c rest =>
      have hc : isSeparator c = true := h
      have hne : c ≠ '\\' := by rintro rfl; revert hc; decide
      rw [readBare]
      · simp [hc]
      · simp [hne]

theorem readBare_escape (item : Text) {rest : Text} (h : Separated rest) :
    readBare (escape item ++ rest) = (escape item, rest) := by
  induction item with
  | nil => exact readBare_of_separated h
  | cons c item ih =>
      rw [escape_cons, List.append_assoc, readBare_escapeChar, ih]
      rfl

theorem escapeChar_eq_cons (c : Char) :
    ∃ first rest, escapeChar c = first :: rest ∧ isSeparator first = false ∧
      first ≠ '{' ∧ first ≠ '"' := by
  rcases escapeChar_cases c with ⟨-, d, hd, -⟩ | ⟨hplain, hc⟩
  · exact ⟨'\\', [d], hd, by decide, by decide, by decide⟩
  · refine ⟨c, [], hc, isSeparator_of_plain hplain, ?_, ?_⟩
    · rintro rfl; revert hplain; decide
    · rintro rfl; revert hplain; decide

/-! ## Written items -/

theorem writeItem_cases (item : Text) :
    (isBalanced 0 item = true ∧ writeItem item = '{' :: item ++ ['}']) ∨
      (item ≠ [] ∧ writeItem item = escape item) := by
  unfold writeItem
  split
  · rename_i h
    simp only [isPlain, Bool.and_eq_true, Bool.not_eq_true'] at h
    refine .inr ⟨by rintro rfl; simp at h, (escape_eq_self h.2).symm⟩
  split
  · rename_i h
    simp only [Bool.and_eq_true] at h
    exact .inl ⟨h.1, rfl⟩
  · rename_i h
    refine .inr ⟨?_, rfl⟩
    rintro rfl
    exact h (by decide)

theorem readElement_writeItem (item rest : Text) (h : Separated rest) :
    ∃ c text element, writeItem item ++ rest = c :: text ∧ isSeparator c = false ∧
      readElement c text = some (element, rest) ∧ element.item = item := by
  rcases writeItem_cases item with ⟨hbalanced, hwritten⟩ | ⟨hne, hwritten⟩
  · refine ⟨'{', item ++ '}' :: rest, .braced item, by simp [hwritten], by decide, ?_, rfl⟩
    simp [readElement, readBraced_of_isBalanced hbalanced]
  · obtain ⟨c, item, rfl⟩ := List.exists_cons_of_ne_nil hne
    obtain ⟨first, others, hfirst, hseparator, hbrace, hquote⟩ := escapeChar_eq_cons c
    have hread := readBare_escape (c :: item) h
    have htext : escape (c :: item) ++ rest = first :: (others ++ escape item ++ rest) := by
      simp [hfirst]
    refine ⟨first, others ++ escape item ++ rest, .bare (escape (c :: item)), ?_, hseparator,
      ?_, unescape_escape _⟩
    · rw [hwritten, htext]
    · rw [htext] at hread
      rw [readElement, if_neg hbrace, if_neg hquote, hread]

theorem readElements_of_last {c : Char} {text : Text} {element : Element}
    (hc : isSeparator c = false) (h : readElement c text = some (element, [])) :
    readElements (c :: text) = .ok [element] := by
  rw [readElements, dif_neg (by simp [hc])]
  split
  · rename_i hnone
    simp [h] at hnone
  · rename_i hsome
    obtain ⟨rfl, rfl⟩ : element = _ ∧ [] = _ := by simpa [h] using hsome
    rfl

theorem readElements_of_separated {c next : Char} {text rest : Text} {element : Element}
    (hc : isSeparator c = false) (h : readElement c text = some (element, next :: rest))
    (hnext : isSeparator next = true) :
    readElements (c :: text) = (readElements rest).map (element :: ·) := by
  rw [readElements, dif_neg (by simp [hc])]
  split
  · rename_i hnone
    simp [h] at hnone
  · rename_i hsome
    obtain ⟨rfl, rfl⟩ : element = _ ∧ next :: rest = _ := by simpa [h] using hsome
    simp [hnext]

theorem readElements_merge (items : List Text) :
    ∃ elements, readElements (merge items) = .ok elements ∧
      elements.map Element.item = items := by
  induction items with
  | nil => exact ⟨[], by simp [merge, Text.join, readElements], rfl⟩
  | cons item items ih =>
      cases items with
      | nil =>
          obtain ⟨c, text, element, htext, hc, hread, hitem⟩ :=
            readElement_writeItem item [] trivial
          refine ⟨[element], ?_, by simp [hitem]⟩
          have hmerge : merge [item] = c :: text := by simpa [merge, Text.join] using htext
          rw [hmerge, readElements_of_last hc hread]
      | cons next items =>
          obtain ⟨elements, hrest, hitems⟩ := ih
          have hblank : isSeparator ' ' = true := by decide
          obtain ⟨c, text, element, htext, hc, hread, hitem⟩ :=
            readElement_writeItem item (' ' :: merge (next :: items)) hblank
          refine ⟨element :: elements, ?_, by simp [hitem, hitems]⟩
          have hmerge : merge (item :: next :: items) = c :: text := by
            simpa [merge, Text.join] using htext
          rw [hmerge, readElements_of_separated hc hread hblank, hrest]
          rfl

theorem split_of_readElements {text : Text} {elements : List Element}
    (h : readElements text = .ok elements) : split text = .ok (elements.map Element.item) := by
  rw [split, h]

/-- Items of any characters come back from the list they are merged into. -/
theorem split_merge (items : List Text) : split (merge items) = .ok items := by
  obtain ⟨elements, hread, hitems⟩ := readElements_merge items
  simp [split, hread, hitems]

end CommandFrame.WordList
