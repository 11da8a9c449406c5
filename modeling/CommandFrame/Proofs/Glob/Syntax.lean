import CommandFrame.Proofs.Glob.Literal

/-!
# Which texts are patterns

A text can fail to be a pattern for two reasons: brackets that are not closed or have
nothing in them, and stars that stand together but are not a whole segment.  Such a text is
matched by itself only, since it is escaped, and an escaped text is always a pattern.
-/

namespace CommandFrame.Glob

/-- What stands between the brackets of a set.  In the first place, or behind a `!`, a closing
bracket does not close. -/
inductive InBrackets : Text → Prop
  | oneOf {c : Char} {more : Text} (hc : c ≠ '!') (hmore : ']' ∉ more) : InBrackets (c :: more)
  | noneOf {c : Char} {more : Text} (hmore : ']' ∉ more) : InBrackets ('!' :: c :: more)

inductive IsPattern : Bool → Text → Prop
  | nil {segmentStart : Bool} : IsPattern segmentStart []
  | anyChar {segmentStart : Bool} {rest : Text} (hrest : IsPattern false rest) :
      IsPattern segmentStart ('?' :: rest)
  | anyRun {segmentStart : Bool} {rest : Text} (hnext : rest.head? ≠ some '*')
      (hrest : IsPattern false rest) : IsPattern segmentStart ('*' :: rest)
  | allPaths : IsPattern true ['*', '*']
  | anyPath {rest : Text} (hrest : IsPattern true rest) :
      IsPattern true ('*' :: '*' :: '/' :: rest)
  | brackets {segmentStart : Bool} {inside rest : Text} (hinside : InBrackets inside)
      (hrest : IsPattern false rest) : IsPattern segmentStart ('[' :: (inside ++ ']' :: rest))
  | char {segmentStart : Bool} {c : Char} {rest : Text} (hmark : c ≠ '?') (hstar : c ≠ '*')
      (hbracket : c ≠ '[') (hrest : IsPattern (c = '/') rest) : IsPattern segmentStart (c :: rest)

variable {text inside after rest found : Text} {piece : Piece} {segmentStart : Bool}

/-! ## Brackets -/

theorem splitSet?_append {c : Char} {more : Text} (h : ']' ∉ more) (after : Text) :
    splitSet? (c :: (more ++ ']' :: after)) = some (c :: more, after) := by
  have hopen : ∀ d ∈ more, decide (d ≠ ']') = true := by
    intro d hd
    simpa using fun heq : d = ']' => h (heq ▸ hd)
  have hdrop : (more ++ ']' :: after).dropWhile (fun d => decide (d ≠ ']')) = ']' :: after := by
    rw [List.dropWhile_append_of_pos hopen]
    rfl
  have htake : (more ++ ']' :: after).takeWhile (fun d => decide (d ≠ ']')) = more := by
    rw [List.takeWhile_append_of_pos hopen]
    simp
  simp only [splitSet?, hdrop, htake]

theorem exists_of_splitSet? (h : splitSet? text = some (inside, after)) :
    ∃ c more, inside = c :: more ∧ ']' ∉ more ∧ text = c :: (more ++ ']' :: after) := by
  cases text with
  | nil => simp [splitSet?] at h
  | cons c rest =>
      simp only [splitSet?] at h
      split at h
      · contradiction
      · rename_i d behind hdrop
        cases h
        have hd := List.head?_dropWhile_not (fun d => decide (d ≠ ']')) rest
        rw [hdrop] at hd
        obtain rfl : d = ']' := by simpa using hd
        refine ⟨c, rest.takeWhile fun d => decide (d ≠ ']'), rfl, ?_, ?_⟩
        · intro hmem
          simpa using List.all_eq_true.1 List.all_takeWhile ']' hmem
        · rw [← hdrop, List.takeWhile_append_dropWhile]

theorem InBrackets.exists_readBracket? (h : InBrackets inside) (after : Text) :
    ∃ piece, readBracket? (inside ++ ']' :: after) = some (piece, after) := by
  cases h with
  | @oneOf c more hc hmore =>
      refine ⟨.oneOf (readSet (c :: more)), ?_⟩
      rw [List.cons_append, readBracket?]
      · rw [splitSet?_append hmore]
        rfl
      · exact fun rest heq => hc (List.cons.inj heq).1
  | @noneOf c more hmore =>
      refine ⟨.noneOf (readSet (c :: more)), ?_⟩
      rw [List.cons_append, List.cons_append, readBracket?, splitSet?_append hmore]
      rfl

theorem exists_inBrackets_of_readBracket? (h : readBracket? text = some (piece, after)) :
    ∃ inside, InBrackets inside ∧ text = inside ++ ']' :: after := by
  unfold readBracket? at h
  split at h
  · rename_i rest
    obtain ⟨⟨inside, behind⟩, hsplit, heq⟩ := Option.map_eq_some_iff.1 h
    cases heq
    obtain ⟨c, more, rfl, hmore, rfl⟩ := exists_of_splitSet? hsplit
    exact ⟨'!' :: c :: more, .noneOf hmore, rfl⟩
  · rename_i hbang
    obtain ⟨⟨inside, behind⟩, hsplit, heq⟩ := Option.map_eq_some_iff.1 h
    cases heq
    obtain ⟨c, more, rfl, hmore, rfl⟩ := exists_of_splitSet? hsplit
    refine ⟨c :: more, .oneOf ?_ hmore, rfl⟩
    rintro rfl
    exact hbang _ rfl

/-! ## Reading -/

theorem isPattern_of_readPieces (done : List Piece)
    (h : (readPieces segmentStart done text).isSome = true) : IsPattern segmentStart text := by
  fun_induction readPieces segmentStart done text with
  | case1 => exact .nil
  | case2 segmentStart done rest ih => exact .anyChar (ih h)
  | case3 | case4 | case7 | case9 => contradiction
  | case5 segmentStart done hstart =>
      obtain rfl : segmentStart = true := by simpa using hstart
      exact .allPaths
  | case6 segmentStart done hstart rest _ ih =>
      obtain rfl : segmentStart = true := by simpa using hstart
      exact .anyPath (ih h)
  | case8 segmentStart done rest _ hnext ih =>
      refine .anyRun ?_ (ih h)
      intro hhead
      obtain ⟨behind, rfl⟩ := List.head?_eq_some_iff.1 hhead
      exact hnext behind rfl
  | case10 segmentStart done rest piece after hread ih =>
      obtain ⟨inside, hinside, rfl⟩ := exists_inBrackets_of_readBracket? hread
      exact .brackets hinside (ih h)
  | case11 segmentStart done c rest hmark _ _ hstar hbracket ih =>
      exact .char hmark hstar hbracket (ih h)

theorem IsPattern.isSome_readPieces (h : IsPattern segmentStart text) (done : List Piece) :
    (readPieces segmentStart done text).isSome = true := by
  induction h generalizing done with
  | nil => simp [readPieces]
  | anyChar hrest ih =>
      rw [readPieces]
      exact ih _
  | anyRun hnext hrest ih =>
      rw [readPieces_star hnext]
      exact ih _
  | allPaths => simp [readPieces]
  | anyPath hrest ih =>
      rw [readPieces]
      exact ih _
  | brackets hinside hrest ih =>
      obtain ⟨piece, hread⟩ := hinside.exists_readBracket? _
      rw [readPieces_bracket hread]
      exact ih _
  | char hmark hstar hbracket hrest ih =>
      rw [readPieces_char hmark hstar hbracket]
      exact ih _

theorem parse?_eq_none_iff : parse? text = none ↔ ¬IsPattern true text := by
  rw [← Option.not_isSome_iff_eq_none, not_iff_not]
  exact ⟨isPattern_of_readPieces [], fun h => h.isSome_readPieces []⟩

theorem IsPattern.exists_parse? (h : IsPattern true text) :
    ∃ pieces, parse? text = some pieces :=
  Option.isSome_iff_exists.1 (h.isSome_readPieces [])

theorem isPattern_escape (text : Text) : IsPattern true (escape text) := by
  by_contra hnone
  have hparse := (parse?_eq_none_iff.2 hnone).symm.trans (parse?_escape text)
  contradiction

theorem parse?_or_escape (pattern : Text) :
    (parse? pattern <|> parse? (escape pattern)) = some (compile pattern) := by
  rw [compile]
  cases parse? pattern with
  | some pieces => rfl
  | none =>
      rw [parse?_escape]
      rfl

/-- A text that is no pattern, or one that has no special characters, is matched by itself
only.  No text is left without pieces, since its escape is a pattern. -/
theorem accepts_iff_eq_of_literal (pattern : Text) :
    (parse? pattern = none ↔ ¬IsPattern true pattern) ∧
    (¬IsPattern true pattern ∨ IsPlain pattern →
      ∀ found, accepts pattern found = true ↔ found = pattern) ∧
    IsPattern true (escape pattern) ∧
    (parse? pattern <|> parse? (escape pattern)) = some (compile pattern) := by
  refine ⟨parse?_eq_none_iff, ?_, isPattern_escape pattern, parse?_or_escape pattern⟩
  rintro (hnone | hplain) found
  · exact accepts_of_parse?_eq_none (parse?_eq_none_iff.2 hnone)
  · exact accepts_of_isPlain hplain

end CommandFrame.Glob
