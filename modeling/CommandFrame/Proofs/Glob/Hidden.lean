import CommandFrame.Proofs.Glob.Syntax

/-!
# Names that begin with a dot

No sign that stands for characters stands for the dot that hides a name.  But a star may
stand for nothing, so the dot may be written behind the stars that a pattern begins with,
and these patterns match hidden names.
-/

namespace CommandFrame.Glob

/-- A pattern without the stars that it begins with, of which each may stand for nothing. -/
def dropStars : Text → Text
  | '*' :: '*' :: '/' :: rest => dropStars rest
  | '*' :: rest => rest
  | text => text

def Piece.IsStar (piece : Piece) : Prop := piece = .anyRun ∨ piece = .anyPath

/-- Behind the stars that it begins with, the pattern begins with a dot and matches the name. -/
structure Uncovers (pattern name : Text) : Prop where
  isPattern : IsPattern true (dropStars pattern)
  head?_eq : (dropStars pattern).head? = some '.'
  accepts_eq : accepts (dropStars pattern) name = true

variable {text rest found pattern : Text} {piece : Piece} {pieces done stars : List Piece}
  {segmentStart : Bool}

/-! ## Matching a dot -/

theorem Piece.IsStar.matchFrom_dot (h : piece.IsStar) (pieces : List Piece) (found : Text) :
    matchFrom (piece :: pieces) true ('.' :: found) = matchFrom pieces true ('.' :: found) := by
  rcases h with rfl | rfl
  · simp [matchFrom, afterRun, isOpen]
  · simp [matchFrom, afterSegments]

theorem matchFrom_append_dot (h : ∀ piece ∈ stars, piece.IsStar) (pieces : List Piece)
    (found : Text) :
    matchFrom (stars ++ pieces) true ('.' :: found) = matchFrom pieces true ('.' :: found) := by
  induction stars with
  | nil => rfl
  | cons star stars ih =>
      rw [List.forall_mem_cons] at h
      rw [List.cons_append, h.1.matchFrom_dot, ih h.2]

theorem matchFrom_stars_dot (h : ∀ piece ∈ stars, piece.IsStar) (found : Text) :
    matchFrom stars true ('.' :: found) = false := by
  have happend := matchFrom_append_dot h [] found
  rw [List.append_nil] at happend
  rw [happend, matchFrom]
  rfl

theorem eq_dot_of_matchFrom (hstar : ¬piece.IsStar)
    (h : matchFrom (piece :: pieces) true ('.' :: found) = true) : piece = .char '.' := by
  cases piece with
  | char c =>
      simp [matchFrom, Piece.admits] at h
      rw [h.1]
  | anyChar | oneOf | noneOf => simp [matchFrom, Piece.admits, isOpen] at h
  | anyRun => exact absurd (.inl rfl) hstar
  | anyPath => exact absurd (.inr rfl) hstar

/-! ## Reading behind other pieces -/

def IsSettled (done : List Piece) : Prop := done ≠ [] ∧ done ≠ [.anyPath]

theorem isSettled_singleton (h : ¬piece.IsStar) : IsSettled [piece] :=
  ⟨List.cons_ne_nil _ _, fun heq => h (.inr (List.cons.inj heq).1)⟩

theorem IsSettled.cons (h : IsSettled done) (piece : Piece) : IsSettled (piece :: done) :=
  ⟨List.cons_ne_nil _ _, fun heq => h.1 (List.cons.inj heq).2⟩

theorem exists_pushAnyPath (done : List Piece) : ∃ more, pushAnyPath done = more ++ done := by
  unfold pushAnyPath
  split
  · exact ⟨[], rfl⟩
  · exact ⟨[.anyPath], rfl⟩

theorem isSettled_pushAnyPath (h : IsSettled done) : IsSettled (pushAnyPath done) := by
  obtain ⟨more, hmore⟩ := exists_pushAnyPath done
  rw [hmore]
  clear hmore
  induction more with
  | nil => exact h
  | cons piece more ih => exact ih.cons piece

theorem pushAnyPath_append (h : IsSettled done) (base : List Piece) :
    pushAnyPath (done ++ base) = pushAnyPath done ++ base := by
  obtain ⟨hne, hpath⟩ := h
  match done with
  | [] => contradiction
  | [piece] =>
      have hpiece : piece ≠ .anyPath := by simpa using hpath
      cases piece with
      | anyPath => contradiction
      | char | anyChar | oneOf | noneOf | anyRun => rfl
  | piece :: next :: done => cases piece <;> rfl

def ReadsBehind (segmentStart : Bool) (done : List Piece) (text : Text) : Prop :=
  ∃ behind, ∀ base, readPieces segmentStart (done ++ base) text =
    some (base.reverse ++ (done.reverse ++ behind))

theorem ReadsBehind.of_append {next : Bool} {more : List Piece}
    (h : ReadsBehind next (more ++ done) rest)
    (hread : ∀ base, readPieces segmentStart (done ++ base) text =
      readPieces next (more ++ done ++ base) rest) : ReadsBehind segmentStart done text := by
  obtain ⟨behind, hbehind⟩ := h
  refine ⟨more.reverse ++ behind, fun base => ?_⟩
  rw [hread, hbehind]
  simp

theorem ReadsBehind.of_cons {next : Bool} (h : ReadsBehind next (piece :: done) rest)
    (hread : ∀ done, readPieces segmentStart done text = readPieces next (piece :: done) rest) :
    ReadsBehind segmentStart done text :=
  of_append (List.singleton_append ▸ h) fun base => hread (done ++ base)

theorem IsPattern.readsBehind (h : IsPattern segmentStart text) (hdone : IsSettled done) :
    ReadsBehind segmentStart done text := by
  induction h generalizing done with
  | nil => exact ⟨[], fun base => by simp [readPieces]⟩
  | anyChar hrest ih =>
      exact (ih (hdone.cons .anyChar)).of_cons fun done => by rw [readPieces]
  | anyRun hnext hrest ih =>
      exact (ih (hdone.cons .anyRun)).of_cons fun done => readPieces_star hnext _ done
  | allPaths =>
      obtain ⟨more, hmore⟩ := exists_pushAnyPath done
      refine ⟨more.reverse, fun base => ?_⟩
      simp [readPieces, pushAnyPath_append hdone, hmore]
  | anyPath hrest ih =>
      obtain ⟨more, hmore⟩ := exists_pushAnyPath done
      have hbehind := ih (isSettled_pushAnyPath hdone)
      rw [hmore] at hbehind
      refine hbehind.of_append fun base => ?_
      rw [readPieces, pushAnyPath_append hdone, hmore]
      rfl
  | brackets hinside hrest ih =>
      obtain ⟨piece, hbracket⟩ := hinside.exists_readBracket? _
      exact (ih (hdone.cons piece)).of_cons fun done => readPieces_bracket hbracket _ done
  | @char _ c _ hmark hstar hbracket hrest ih =>
      exact (ih (hdone.cons (.char c))).of_cons fun done =>
        readPieces_char hmark hstar hbracket _ done _

theorem exists_set_of_readBracket? {after : Text} (h : readBracket? text = some (piece, after)) :
    ∃ set, piece = .oneOf set ∨ piece = .noneOf set := by
  unfold readBracket? at h
  split at h
  · obtain ⟨⟨inside, behind⟩, -, heq⟩ := Option.map_eq_some_iff.1 h
    exact ⟨readSet inside, .inr (congrArg Prod.fst heq).symm⟩
  · obtain ⟨⟨inside, behind⟩, -, heq⟩ := Option.map_eq_some_iff.1 h
    exact ⟨readSet inside, .inl (congrArg Prod.fst heq).symm⟩

def HasFirst (text : Text) : Prop :=
  ∃ first behind, ¬first.IsStar ∧ (first = .char '.' → text.head? = some '.') ∧
    ∀ segmentStart done, readPieces segmentStart done text = some (done.reverse ++ first :: behind)

theorem IsPattern.hasFirst_of_rest {next : Bool} (h : IsPattern next rest) (piece : Piece)
    (hpiece : ¬piece.IsStar) (hdot : piece = .char '.' → text.head? = some '.')
    (hread : ∀ segmentStart done, readPieces segmentStart done text =
      readPieces next (piece :: done) rest) : HasFirst text := by
  obtain ⟨behind, hbehind⟩ := h.readsBehind (isSettled_singleton hpiece)
  refine ⟨piece, behind, hpiece, hdot, fun segmentStart done => ?_⟩
  rw [hread]
  exact hbehind done

theorem IsPattern.hasFirst (h : IsPattern segmentStart text) (hne : text ≠ [])
    (hstar : text.head? ≠ some '*') : HasFirst text := by
  cases h with
  | nil => contradiction
  | anyRun | allPaths | anyPath => exact absurd rfl hstar
  | anyChar hrest =>
      refine hrest.hasFirst_of_rest .anyChar (by simp [Piece.IsStar]) nofun fun start done => ?_
      rw [readPieces]
  | brackets hinside hrest =>
      obtain ⟨piece, hbracket⟩ := hinside.exists_readBracket? _
      have hpiece : ¬piece.IsStar ∧ piece ≠ .char '.' := by
        obtain ⟨set, rfl | rfl⟩ := exists_set_of_readBracket? hbracket <;> simp [Piece.IsStar]
      exact hrest.hasFirst_of_rest piece hpiece.1 (fun heq => absurd heq hpiece.2)
        (readPieces_bracket hbracket)
  | @char _ c _ hmark hother hbracket hrest =>
      refine hrest.hasFirst_of_rest (.char c) (by simp [Piece.IsStar]) ?_ fun start done =>
        readPieces_char hmark hother hbracket start done _
      rintro ⟨⟩
      rfl

/-! ## A dot behind stars -/

theorem matchFrom_dot_iff_of_head? (h : IsPattern segmentStart text)
    (hstar : text.head? ≠ some '*') (hdone : ∀ piece ∈ done, piece.IsStar)
    (hread : readPieces segmentStart done text = some pieces) :
    matchFrom pieces true ('.' :: found) = true ↔
      text.head? = some '.' ∧ accepts text ('.' :: found) = true := by
  have hdone' : ∀ piece ∈ done.reverse, piece.IsStar := by simpa using hdone
  by_cases hnil : text = []
  · subst hnil
    obtain rfl : done.reverse = pieces := by simpa [readPieces] using hread
    simp [matchFrom_stars_dot hdone']
  · obtain ⟨first, behind, hfirst, hdot, hsame⟩ := h.hasFirst hnil hstar
    obtain rfl := Option.some.inj ((hsame segmentStart done).symm.trans hread)
    rw [matchFrom_append_dot hdone', accepts_of_parse? (hsame true [])]
    constructor
    · intro hmatch
      exact ⟨hdot (eq_dot_of_matchFrom hfirst hmatch), hmatch⟩
    · exact And.right

theorem isStar_of_mem_pushAnyPath (h : ∀ piece ∈ done, piece.IsStar) :
    ∀ piece ∈ pushAnyPath done, piece.IsStar := by
  unfold pushAnyPath
  split
  · exact h
  · exact List.forall_mem_cons.2 ⟨.inr rfl, h⟩

theorem matchFrom_dot_iff (h : IsPattern true text) (hdone : ∀ piece ∈ done, piece.IsStar)
    (hread : readPieces true done text = some pieces) :
    matchFrom pieces true ('.' :: found) = true ↔
      (dropStars text).head? = some '.' ∧ accepts (dropStars text) ('.' :: found) = true := by
  fun_induction dropStars text generalizing done with
  | case1 rest ih =>
      cases h with
      | anyRun hnext hrest => exact absurd rfl hnext
      | char hmark hstar hbracket hrest => exact absurd rfl hstar
      | anyPath hrest =>
          rw [readPieces] at hread
          exact ih hrest (isStar_of_mem_pushAnyPath hdone) hread
  | case2 rest hpath =>
      cases h with
      | char hmark hstar hbracket hrest => exact absurd rfl hstar
      | anyPath hrest => exact absurd rfl (hpath _)
      | anyRun hnext hrest =>
          rw [readPieces_star hnext] at hread
          have hstars := List.forall_mem_cons.2 ⟨.inl rfl, hdone⟩
          exact matchFrom_dot_iff_of_head? hrest hnext hstars hread
      | allPaths =>
          have hstars : ∀ piece ∈ (pushAnyPath done).reverse, piece.IsStar := by
            simpa using isStar_of_mem_pushAnyPath hdone
          obtain rfl : (pushAnyPath done).reverse = pieces := by simpa [readPieces] using hread
          simp [matchFrom_stars_dot hstars]
  | case3 text hpath hstar =>
      refine matchFrom_dot_iff_of_head? h ?_ hdone hread
      intro hhead
      obtain ⟨rest, rfl⟩ := List.head?_eq_some_iff.1 hhead
      exact hstar rest rfl

theorem IsPattern.of_head? (h : IsPattern segmentStart text) (hstar : text.head? ≠ some '*')
    (start : Bool) : IsPattern start text := by
  cases h with
  | nil => exact .nil
  | anyRun | allPaths | anyPath => exact absurd rfl hstar
  | anyChar hrest => exact .anyChar hrest
  | brackets hinside hrest => exact .brackets hinside hrest
  | char hmark hother hbracket hrest => exact .char hmark hother hbracket hrest

theorem isPattern_dropStars_iff (hdot : (dropStars text).head? = some '.') :
    IsPattern true (dropStars text) ↔ IsPattern true text := by
  fun_induction dropStars text with
  | case1 rest ih =>
      rw [ih hdot]
      constructor
      · exact .anyPath
      · intro h
        cases h with
        | anyRun hnext hrest => exact absurd rfl hnext
        | char hmark hstar hbracket hrest => exact absurd rfl hstar
        | anyPath hrest => exact hrest
  | case2 rest hpath =>
      have hnext : rest.head? ≠ some '*' := by simp [hdot]
      constructor
      · intro h
        exact .anyRun hnext (h.of_head? hnext false)
      · intro h
        cases h with
        | char hmark hstar hbracket hrest => exact absurd rfl hstar
        | anyPath hrest => exact absurd rfl (hpath _)
        | anyRun _ hrest => exact hrest.of_head? hnext true
        | allPaths => contradiction
  | case3 => rfl

/-- A pattern that does not begin with a dot matches a hidden name exactly if it uncovers it. -/
theorem accepts_dot_iff (hdot : pattern.head? ≠ some '.') :
    accepts pattern ('.' :: found) = true ↔ Uncovers pattern ('.' :: found) := by
  by_cases h : IsPattern true pattern
  · obtain ⟨pieces, hread⟩ := h.exists_parse?
    rw [accepts_of_parse? hread, matchFrom_dot_iff h (by simp) hread]
    constructor
    · rintro ⟨hhead, haccepts⟩
      exact ⟨(isPattern_dropStars_iff hhead).2 h, hhead, haccepts⟩
    · exact fun huncovers => ⟨huncovers.head?_eq, huncovers.accepts_eq⟩
  · rw [accepts_of_parse?_eq_none (parse?_eq_none_iff.2 h)]
    constructor
    · rintro rfl
      exact absurd rfl hdot
    · exact fun huncovers => absurd ((isPattern_dropStars_iff huncovers.head?_eq).1
        huncovers.isPattern) h

end CommandFrame.Glob
