import CommandFrame.Glob.Row
import Mathlib.Data.List.Chain

/-!
# Patterns that are meant literally

A pattern without special characters matches itself only, and so does one that cannot
be read, since it is escaped.  With a star behind it a pattern without special
characters matches what begins with it.  Stars and question marks match themselves too,
but two stars that stand together are read as one sign, and brackets are not read as
brackets.
-/

namespace CommandFrame.Glob

def IsPlain (text : Text) : Prop := ∀ c ∈ text, c ≠ '*' ∧ c ≠ '?' ∧ c ≠ '['

/-- No two stars stand together. -/
def HasLoneStars (text : Text) : Prop :=
  text.IsChain fun first second => ¬(first = '*' ∧ second = '*')

instance (text : Text) : Decidable (IsPlain text) :=
  List.decidableBAll (fun c => c ≠ '*' ∧ c ≠ '?' ∧ c ≠ '[') text

instance (text : Text) : Decidable (HasLoneStars text) :=
  inferInstanceAs (Decidable (text.IsChain _))

variable {text found rest pattern : Text} {pieces done : List Piece} {segmentStart : Bool}

theorem IsPlain.append {first second : Text} (hfirst : IsPlain first) (hsecond : IsPlain second) :
    IsPlain (first ++ second) :=
  List.forall_mem_append.2 ⟨hfirst, hsecond⟩

/-! ## Reading -/

def Piece.ofChar (c : Char) : Piece :=
  if c = '?' then .anyChar else if c = '*' then .anyRun else .char c

theorem readPieces_char {c : Char} (hmark : c ≠ '?') (hstar : c ≠ '*') (hbracket : c ≠ '[')
    (segmentStart : Bool) (done : List Piece) (rest : Text) :
    readPieces segmentStart done (c :: rest) = readPieces (c = '/') (.char c :: done) rest := by
  rw [readPieces] <;> simp [hmark, hstar, hbracket]

theorem readPieces_star (h : rest.head? ≠ some '*') (segmentStart : Bool) (done : List Piece) :
    readPieces segmentStart done ('*' :: rest) = readPieces false (.anyRun :: done) rest := by
  rw [readPieces]
  · rintro rest' rfl
    simp at h
  · rintro rest' rfl
    simp at h

theorem readPieces_of_hasLoneStars (hbracket : '[' ∉ text) (hstars : HasLoneStars text)
    (segmentStart : Bool) (done : List Piece) :
    readPieces segmentStart done text = some (done.reverse ++ text.map Piece.ofChar) := by
  induction text generalizing segmentStart done with
  | nil => simp [readPieces]
  | cons c text ih =>
      rw [List.mem_cons, not_or] at hbracket
      obtain ⟨hhead, htail⟩ := List.isChain_cons.1 hstars
      by_cases hmark : c = '?'
      · subst hmark
        rw [readPieces, ih hbracket.2 htail]
        simp [Piece.ofChar]
      · by_cases hstar : c = '*'
        · subst hstar
          have hnext : text.head? ≠ some '*' := fun hnext => hhead '*' hnext ⟨rfl, rfl⟩
          rw [readPieces_star hnext, ih hbracket.2 htail]
          simp [Piece.ofChar]
        · rw [readPieces_char hmark hstar (Ne.symm hbracket.1), ih hbracket.2 htail]
          simp [Piece.ofChar, hmark, hstar]

theorem parse?_of_hasLoneStars (hbracket : '[' ∉ text) (hstars : HasLoneStars text) :
    parse? text = some (text.map Piece.ofChar) :=
  readPieces_of_hasLoneStars hbracket hstars true []

theorem readPieces_stars (hslash : '/' ∉ rest) (h : segmentStart = true → rest ≠ [])
    (done : List Piece) : readPieces segmentStart done ('*' :: '*' :: rest) = none := by
  cases rest with
  | nil =>
      have hstart : segmentStart = false := by simpa using h
      rw [hstart, readPieces]
      rfl
  | cons c rest =>
      have hc : '/' ≠ c := fun hc => hslash (hc ▸ List.mem_cons_self)
      by_cases hthird : c = '*'
      · rw [hthird, readPieces]
      · rw [readPieces] <;> simp [hthird, hc.symm]

theorem readPieces_of_not_hasLoneStars (hbracket : '[' ∉ text) (hslash : '/' ∉ text)
    (hstars : ¬HasLoneStars text) (h : segmentStart = true → text ≠ "**") (done : List Piece) :
    readPieces segmentStart done text = none := by
  induction text generalizing segmentStart done with
  | nil => exact absurd List.isChain_nil hstars
  | cons c text ih =>
      rw [List.mem_cons, not_or] at hbracket hslash
      have hrest : c ≠ '*' ∨ text.head? ≠ some '*' → ¬HasLoneStars text := by
        refine fun hapart htext => hstars (List.isChain_cons.2 ⟨?_, htext⟩)
        rintro d hd ⟨rfl, rfl⟩
        exact hapart.elim (· rfl) (· hd)
      by_cases hmark : c = '?'
      · subst hmark
        rw [readPieces]
        exact ih hbracket.2 hslash.2 (hrest (.inl (by decide))) (by simp) _
      by_cases hstar : c = '*'
      · subst hstar
        by_cases hnext : text.head? = some '*'
        · obtain ⟨rest, rfl⟩ := List.head?_eq_some_iff.1 hnext
          rw [List.mem_cons, not_or] at hslash
          exact readPieces_stars hslash.2.2 (fun hstart hrest => h hstart (by rw [hrest]; rfl)) done
        · rw [readPieces_star hnext]
          exact ih hbracket.2 hslash.2 (hrest (.inr hnext)) (by simp) _
      · rw [readPieces_char hmark hstar (Ne.symm hbracket.1), decide_eq_false (Ne.symm hslash.1)]
        exact ih hbracket.2 hslash.2 (hrest (.inl hstar)) (by simp) _

theorem readPieces_bracket {piece : Piece} {after : Text}
    (h : readBracket? rest = some (piece, after)) (segmentStart : Bool) (done : List Piece) :
    readPieces segmentStart done ('[' :: rest) = readPieces false (piece :: done) after := by
  rw [readPieces]
  split
  · rename_i hnone
    rw [h] at hnone
    contradiction
  · rename_i hsome
    rw [h] at hsome
    cases hsome
    rfl

theorem readBracket?_single {c : Char} (h : c ≠ '!') (rest : Text) :
    readBracket? (c :: ']' :: rest) = some (.oneOf [.single c], rest) := by
  rw [readBracket?]
  · simp [splitSet?, readSet]
  · exact fun text htext => h (List.cons.inj htext).1

def Piece.ofEscaped (c : Char) : Piece :=
  if c = '?' ∨ c = '*' ∨ c = '[' ∨ c = ']' then .oneOf [.single c] else .char c

theorem readPieces_escape (segmentStart : Bool) (done : List Piece) (text : Text) :
    readPieces segmentStart done (escape text) =
      some (done.reverse ++ text.map Piece.ofEscaped) := by
  induction text generalizing segmentStart done with
  | nil => simp [escape, readPieces]
  | cons c text ih =>
      by_cases hspecial : c = '?' ∨ c = '*' ∨ c = '[' ∨ c = ']'
      · have hbang : c ≠ '!' := by rintro rfl; simp at hspecial
        have hescape : escape (c :: text) = '[' :: c :: ']' :: escape text := by
          simp [escape, hspecial]
        rw [hescape, readPieces_bracket (readBracket?_single hbang _), ih]
        simp [Piece.ofEscaped, hspecial]
      · have hescape : escape (c :: text) = c :: escape text := by simp [escape, hspecial]
        simp only [not_or] at hspecial
        rw [hescape, readPieces_char hspecial.1 hspecial.2.1 hspecial.2.2.1, ih]
        simp [Piece.ofEscaped, hspecial]

theorem parse?_escape (text : Text) : parse? (escape text) = some (text.map Piece.ofEscaped) :=
  readPieces_escape true [] text

/-! ## Matching -/

def Piece.IsOnly (piece : Piece) (c : Char) : Prop :=
  ∀ segmentStart d, piece.admits segmentStart d = decide (d = c)

theorem Piece.isOnly_char (c : Char) : (Piece.char c).IsOnly c := fun _ _ => rfl

theorem Piece.isOnly_ofEscaped (c : Char) : (Piece.ofEscaped c).IsOnly c := by
  intro segmentStart d
  unfold ofEscaped
  split
  · rename_i hspecial
    by_cases hd : d = c
    · subst hd
      have hopen : isOpen segmentStart d = true := by
        rcases hspecial with rfl | rfl | rfl | rfl <;> cases segmentStart <;> rfl
      simp [admits, hopen, SetItem.holds]
    · simp [admits, SetItem.holds, hd]
  · rfl

theorem Piece.IsOnly.matchFrom_cons {piece : Piece} {c : Char} (h : piece.IsOnly c)
    (pieces : List Piece) (segmentStart : Bool) (found : Text) :
    matchFrom (piece :: pieces) segmentStart found = true ↔
      ∃ rest, found = c :: rest ∧ matchFrom pieces (c = '/') rest = true := by
  have hrun : piece ≠ .anyRun := by
    rintro rfl
    simpa [admits] using h false c
  have hpath : piece ≠ .anyPath := by
    rintro rfl
    simpa [admits] using h false c
  cases found with
  | nil => rw [matchFrom] <;> simp [hrun, hpath]
  | cons d found =>
      have hadmits := h segmentStart d
      rw [matchFrom]
      · rw [hadmits, Bool.and_eq_true, decide_eq_true_eq]
        constructor
        · rintro ⟨rfl, hfound⟩
          exact ⟨found, rfl, hfound⟩
        · rintro ⟨rest, heq, hrest⟩
          cases heq
          exact ⟨rfl, hrest⟩
      · exact hrun
      · exact hpath

theorem matchFrom_append {piece : Char → Piece} (h : ∀ c ∈ text, (piece c).IsOnly c)
    (hmatch : matchFrom (text.map piece ++ pieces) segmentStart found = true) :
    ∃ rest nextStart, found = text ++ rest ∧ matchFrom pieces nextStart rest = true := by
  induction text generalizing segmentStart found with
  | nil => exact ⟨found, segmentStart, rfl, hmatch⟩
  | cons c text ih =>
      obtain ⟨hc, htext⟩ := List.forall_mem_cons.1 h
      obtain ⟨later, rfl, hlater⟩ := (hc.matchFrom_cons _ _ _).1 hmatch
      obtain ⟨rest, nextStart, rfl, hrest⟩ := ih htext hlater
      exact ⟨rest, nextStart, rfl, hrest⟩

theorem matchFrom_exact_iff {piece : Char → Piece} (h : ∀ c ∈ text, (piece c).IsOnly c) :
    matchFrom (text.map piece) segmentStart found = true ↔ found = text := by
  induction text generalizing segmentStart found with
  | nil => simp [matchFrom]
  | cons c text ih =>
      obtain ⟨hc, htext⟩ := List.forall_mem_cons.1 h
      rw [List.map_cons, hc.matchFrom_cons]
      simp [ih htext]

theorem IsPlain.isOnly (h : IsPlain text) : ∀ c ∈ text, (Piece.ofChar c).IsOnly c := by
  intro c hc
  obtain ⟨hstar, hmark, -⟩ := h c hc
  rw [Piece.ofChar, if_neg hmark, if_neg hstar]
  exact Piece.isOnly_char c

theorem IsPlain.bracket_notMem (h : IsPlain text) : '[' ∉ text := fun hc => (h _ hc).2.2 rfl

theorem IsPlain.hasLoneStars_append_star (h : IsPlain text) : HasLoneStars (text ++ ['*']) := by
  have hplain : HasLoneStars text := by
    refine List.Pairwise.isChain (List.pairwise_iff_forall_sublist.2 ?_)
    rintro first second hsub ⟨rfl, -⟩
    exact (h '*' (hsub.subset List.mem_cons_self)).1 rfl
  refine List.isChain_append.2 ⟨hplain, List.isChain_singleton _, ?_⟩
  rintro first hfirst - - ⟨rfl, -⟩
  exact (h '*' (List.mem_of_getLast? hfirst)).1 rfl

theorem accepts_of_parse? (h : parse? pattern = some pieces) (found : Text) :
    accepts pattern found = matchFrom pieces true found := by
  rw [accepts, compile, h, matchPieces_eq_matchFrom]

theorem accepts_of_isPlain (h : IsPlain pattern) :
    accepts pattern found = true ↔ found = pattern := by
  have hstars : HasLoneStars pattern := (List.isChain_append.1 h.hasLoneStars_append_star).1
  rw [accepts_of_parse? (parse?_of_hasLoneStars h.bracket_notMem hstars)]
  exact matchFrom_exact_iff h.isOnly

theorem matchPieces_ofEscaped (text found : Text) :
    matchPieces (text.map Piece.ofEscaped) found = true ↔ found = text := by
  rw [matchPieces_eq_matchFrom]
  exact matchFrom_exact_iff fun c _ => Piece.isOnly_ofEscaped c

theorem accepts_of_parse?_eq_none (h : parse? pattern = none) :
    accepts pattern found = true ↔ found = pattern := by
  have hcompile : compile pattern = pattern.map Piece.ofEscaped := by
    rw [compile, h, parse?_escape]
    rfl
  rw [accepts, hcompile]
  exact matchPieces_ofEscaped pattern found

/-! ## A star behind a text -/

theorem prefix_of_accepts_star (h : IsPlain text)
    (haccepts : accepts (text ++ ['*']) found = true) : text <+: found := by
  have hbracket : '[' ∉ text ++ ['*'] := by simp [h.bracket_notMem]
  rw [accepts_of_parse? (parse?_of_hasLoneStars hbracket h.hasLoneStars_append_star),
    List.map_append] at haccepts
  obtain ⟨rest, -, rfl, -⟩ := matchFrom_append h.isOnly haccepts
  exact List.prefix_append text rest

theorem afterRun_of_here {rest : Bool → Text → Bool} (h : rest segmentStart found = true) :
    afterRun rest segmentStart found = true := by
  cases found with
  | nil => exact h
  | cons c found => rw [afterRun, h, Bool.true_or]

theorem matchFrom_star (hslash : '/' ∉ found)
    (hdot : segmentStart = true → found.head? ≠ some '.') :
    matchFrom [.anyRun] segmentStart found = true := by
  rw [matchFrom]
  induction found generalizing segmentStart with
  | nil => rfl
  | cons c found ih =>
      rw [List.mem_cons, not_or] at hslash
      have hopen : isOpen segmentStart c = true := by
        cases segmentStart with
        | false => simp [isOpen, Ne.symm hslash.1]
        | true =>
            have hc : c ≠ '.' := by simpa using hdot rfl
            simp [isOpen, Ne.symm hslash.1, hc]
      rw [afterRun, hopen, ih hslash.2 (by simp), Bool.and_true, Bool.or_true]

theorem accepts_two_stars (hslash : '/' ∉ found) (hdot : found.head? ≠ some '.') :
    accepts "**" found = true := by
  have hparse : parse? "**" = some [.anyPath] := by decide +kernel
  have hrest : ∀ found : Text, '/' ∉ found → afterSegments (matchFrom []) false found = true := by
    intro found hslash
    induction found with
    | nil => rfl
    | cons c found ih =>
        rw [List.mem_cons, not_or] at hslash
        simp [afterSegments, Ne.symm hslash.1, ih hslash.2]
  rw [accepts_of_parse? hparse, matchFrom, Bool.or_eq_true]
  cases found with
  | nil => exact .inl rfl
  | cons c found =>
      rw [List.mem_cons, not_or] at hslash
      have hc : c ≠ '.' := by simpa using hdot
      exact .inr (by simp [afterSegments, Ne.symm hslash.1, hc, hrest found hslash.2])

theorem matchFrom_self (text : Text) (hslash : '/' ∉ text ++ rest)
    (hdot : segmentStart = true → text = [] → rest.head? ≠ some '.') :
    matchFrom ((text ++ ['*']).map Piece.ofChar) segmentStart (text ++ rest) = true := by
  induction text generalizing segmentStart with
  | nil => exact matchFrom_star hslash fun hstart => hdot hstart rfl
  | cons c text ih =>
      rw [List.cons_append, List.mem_cons, not_or] at hslash
      have hlater : matchFrom ((text ++ ['*']).map Piece.ofChar) false (text ++ rest) = true :=
        ih hslash.2 (by simp)
      rw [List.cons_append, List.cons_append, List.map_cons]
      by_cases hmark : c = '?'
      · subst hmark
        have hopen : isOpen segmentStart '?' = true := by cases segmentStart <;> rfl
        change (isOpen segmentStart '?' && _) = true
        rw [hopen, Bool.true_and]
        exact hlater
      · by_cases hstar : c = '*'
        · subst hstar
          have hopen : isOpen segmentStart '*' = true := by cases segmentStart <;> rfl
          change matchFrom (.anyRun :: _) segmentStart _ = true
          rw [matchFrom, afterRun, hopen, afterRun_of_here hlater, Bool.and_true, Bool.or_true]
        · rw [Piece.ofChar, if_neg hmark, if_neg hstar, (Piece.isOnly_char c).matchFrom_cons]
          refine ⟨text ++ rest, rfl, ?_⟩
          rwa [decide_eq_false (Ne.symm hslash.1)]

/-- With a star behind it a text matches what begins with it, unless it has stars that stand
together: then it matches nothing but itself. -/
theorem accepts_append_star_iff (hbracket : '[' ∉ text) (hslash : '/' ∉ text ++ rest)
    (hdot : text = [] → rest.head? ≠ some '.') :
    accepts (text ++ ['*']) (text ++ rest) = true ↔
      HasLoneStars (text ++ ['*']) ∨ text = ['*'] ∨ rest = ['*'] := by
  have hbracket' : '[' ∉ text ++ ['*'] := by simp [hbracket]
  by_cases hstars : HasLoneStars (text ++ ['*'])
  · rw [accepts_of_parse? (parse?_of_hasLoneStars hbracket' hstars)]
    exact ⟨fun _ => .inl hstars, fun _ => matchFrom_self text hslash fun _ => hdot⟩
  by_cases htext : text = ['*']
  · subst htext
    exact ⟨fun _ => .inr (.inl rfl), fun _ => accepts_two_stars hslash (by simp)⟩
  · have hslash' : '/' ∉ text ++ ['*'] := by
      rw [List.mem_append, not_or] at hslash ⊢
      exact ⟨hslash.1, by decide⟩
    have hnone : parse? (text ++ ['*']) = none :=
      readPieces_of_not_hasLoneStars hbracket' hslash' hstars
        (fun _ heq => htext (List.append_cancel_right (heq.trans (by rfl : _ = ['*'] ++ ['*'])))) []
    rw [accepts_of_parse?_eq_none hnone, List.append_cancel_left_eq]
    simp [hstars, htext]

end CommandFrame.Glob
