import CommandFrame.Glob.Match

/-!
# Matching globs

Whether pieces match depends on where in the text they start and on nothing
before.  A row holds the answers for every ending of the text, the text itself
first, and the row of a pattern comes from the row of the pattern without its
first piece.  So matching takes one pass over the text for each piece after the
first star, and one character for each piece before it.
-/

namespace CommandFrame.Glob

/-- The answers for every ending of a text. -/
def answers (matches? : Bool → Text → Bool) (segmentStart : Bool) : Text → List Bool
  | [] => [matches? segmentStart []]
  | c :: text => matches? segmentStart (c :: text) :: answers matches? (c = '/') text

def endRow : Text → List Bool
  | [] => [true]
  | _ :: text => false :: endRow text

def charRow (piece : Piece) (segmentStart : Bool) : Text → List Bool → List Bool
  | c :: text, _ :: later =>
      (piece.admits segmentStart c && later.headD false) :: charRow piece (c = '/') text later
  | _, _ => [false]

def runRow (segmentStart : Bool) : Text → List Bool → List Bool
  | c :: text, here :: later =>
      let after := runRow (c = '/') text later
      (here || (isOpen segmentStart c && after.headD false)) :: after
  | _, row => row

def segmentsRow (segmentStart : Bool) : Text → List Bool → List Bool
  | c :: text, _ :: later =>
      let after := segmentsRow (c = '/') text later
      let here :=
        if segmentStart && c = '.' then false
        else if c = '/' then later.headD false || after.headD false
        else after.headD false
      here :: after
  | _, row => row

def pieceRow (piece : Piece) (segmentStart : Bool) (text : Text) (later : List Bool) :
    List Bool :=
  match piece with
  | .anyRun => runRow segmentStart text later
  | .anyPath => List.zipWith (· || ·) later (segmentsRow segmentStart text later)
  | _ => charRow piece segmentStart text later

def row (segmentStart : Bool) (text : Text) : List Piece → List Bool
  | [] => endRow text
  | piece :: pieces => pieceRow piece segmentStart text (row segmentStart text pieces)

def matchAt : List Piece → Bool → Text → Bool
  | [], _, text => text.isEmpty
  | .anyRun :: pieces, segmentStart, text =>
      (row segmentStart text (.anyRun :: pieces)).headD false
  | .anyPath :: pieces, segmentStart, text =>
      (row segmentStart text (.anyPath :: pieces)).headD false
  | _ :: _, _, [] => false
  | piece :: pieces, segmentStart, c :: text =>
      piece.admits segmentStart c && matchAt pieces (c = '/') text

def matchPieces (pieces : List Piece) (text : Text) : Bool := matchAt pieces true text

def accepts (pattern text : Text) : Bool := matchPieces (compile pattern) text

/-! ## Rows hold the answers -/

@[simp] theorem head?_answers (matches? : Bool → Text → Bool) (segmentStart : Bool)
    (text : Text) :
    (answers matches? segmentStart text).head? = some (matches? segmentStart text) := by
  cases text <;> rfl

theorem answers_congr {first second : Bool → Text → Bool}
    (h : ∀ start text, first start text = second start text) (segmentStart : Bool) (text : Text) :
    answers first segmentStart text = answers second segmentStart text := by
  rw [show first = second from funext fun start => funext (h start)]

theorem endRow_eq (segmentStart : Bool) (text : Text) :
    endRow text = answers (matchFrom []) segmentStart text := by
  induction text generalizing segmentStart with
  | nil => simp [endRow, answers, matchFrom]
  | cons c text ih => simp [endRow, answers, matchFrom, ih (c = '/')]

theorem charRow_answers (piece : Piece) (rest whole : Bool → Text → Bool)
    (hnil : ∀ start, whole start [] = false)
    (hcons : ∀ start c text,
      whole start (c :: text) = (piece.admits start c && rest (c = '/') text))
    (segmentStart : Bool) (text : Text) :
    charRow piece segmentStart text (answers rest segmentStart text) =
      answers whole segmentStart text := by
  induction text generalizing segmentStart with
  | nil => simp [charRow, answers, hnil]
  | cons c text ih => simp [charRow, answers, hcons, ih]

theorem runRow_answers (rest : Bool → Text → Bool) (segmentStart : Bool) (text : Text) :
    runRow segmentStart text (answers rest segmentStart text) =
      answers (afterRun rest) segmentStart text := by
  induction text generalizing segmentStart with
  | nil => simp [runRow, answers, afterRun]
  | cons c text ih =>
      by_cases h : c = '/'
      · simp [runRow, answers, afterRun, ih, isOpen, h]
      · simp [runRow, answers, afterRun, ih, h]

theorem segmentsRow_answers (rest : Bool → Text → Bool) (segmentStart : Bool) (text : Text) :
    segmentsRow segmentStart text (answers rest segmentStart text) =
      answers (afterSegments rest) segmentStart text := by
  induction text generalizing segmentStart with
  | nil => simp [segmentsRow, answers, afterSegments]
  | cons c text ih =>
      by_cases h : c = '/' <;> simp [segmentsRow, answers, afterSegments, ih, h]

theorem zipWith_answers (first second : Bool → Text → Bool) (segmentStart : Bool)
    (text : Text) :
    List.zipWith (· || ·) (answers first segmentStart text) (answers second segmentStart text) =
      answers (fun start text => first start text || second start text) segmentStart text := by
  induction text generalizing segmentStart with
  | nil => rfl
  | cons c text ih => simp [answers, ih]

theorem row_eq (pieces : List Piece) (segmentStart : Bool) (text : Text) :
    row segmentStart text pieces = answers (matchFrom pieces) segmentStart text := by
  induction pieces with
  | nil => exact endRow_eq segmentStart text
  | cons piece pieces ih =>
      cases piece with
      | anyRun =>
          simp only [row, pieceRow, ih, runRow_answers]
          exact answers_congr (fun _ _ => by rw [matchFrom]) ..
      | anyPath =>
          simp only [row, pieceRow, ih, segmentsRow_answers, zipWith_answers]
          exact answers_congr (fun _ _ => by rw [matchFrom]) ..
      | _ =>
          simp only [row, pieceRow, ih]
          exact charRow_answers _ _ _ (by simp [matchFrom]) (by simp [matchFrom]) ..

theorem matchAt_eq_matchFrom (pieces : List Piece) (segmentStart : Bool) (text : Text) :
    matchAt pieces segmentStart text = matchFrom pieces segmentStart text := by
  fun_induction matchAt pieces segmentStart text with
  | case1 => rw [matchFrom]
  | case2 => simp [row_eq]
  | case3 => simp [row_eq]
  | case4 piece pieces _ hrun hpath => rw [matchFrom] <;> assumption
  | case5 piece pieces _ c text hrun hpath ih => rw [matchFrom, ih] <;> assumption

theorem matchPieces_eq_matchFrom (pieces : List Piece) (text : Text) :
    matchPieces pieces text = matchFrom pieces true text :=
  matchAt_eq_matchFrom pieces true text

end CommandFrame.Glob
