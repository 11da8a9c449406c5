import CommandFrame.Text.Basic

/-!
# Glob patterns

A pattern is a list of pieces.  `*` and `?` stand for characters of one path
segment, `[...]` for one character of a set, and `**`, which must be a whole
segment, for any number of segments.  A text that is no pattern stands for
itself.
-/

namespace CommandFrame.Glob

inductive SetItem
  | single (c : Char)
  | range (first last : Char)
  deriving DecidableEq, Repr

def SetItem.holds (c : Char) : SetItem → Bool
  | single d => c = d
  | range first last => first ≤ c && c ≤ last

inductive Piece
  | char (c : Char)
  | anyChar
  | oneOf (set : List SetItem)
  | noneOf (set : List SetItem)
  | anyRun
  | anyPath
  deriving DecidableEq, Repr

def readSet : Text → List SetItem
  | first :: '-' :: last :: rest => .range first last :: readSet rest
  | c :: rest => .single c :: readSet rest
  | [] => []

/-- Splits the inside of brackets from what follows.  A bracket in the first
place does not close. -/
def splitSet? : Text → Option (Text × Text)
  | [] => none
  | c :: rest =>
      match rest.dropWhile (· ≠ ']') with
      | [] => none
      | _ :: after => some (c :: rest.takeWhile (· ≠ ']'), after)

def readBracket? : Text → Option (Piece × Text)
  | '!' :: rest => (splitSet? rest).map fun (inside, after) => (.noneOf (readSet inside), after)
  | rest => (splitSet? rest).map fun (inside, after) => (.oneOf (readSet inside), after)

theorem length_splitSet?_lt {text inside after : Text}
    (h : splitSet? text = some (inside, after)) : after.length < text.length := by
  unfold splitSet? at h
  split at h
  · simp at h
  · rename_i c rest
    split at h
    · simp at h
    · rename_i d after' hdrop
      have := (List.dropWhile_sublist (l := rest) (· ≠ ']')).length_le
      simp_all only [Option.some.injEq, Prod.mk.injEq, List.length_cons]
      omega

theorem length_readBracket?_lt {text after : Text} {piece : Piece}
    (h : readBracket? text = some (piece, after)) : after.length < text.length := by
  unfold readBracket? at h
  split at h
  · obtain ⟨⟨inside, rest⟩, hsplit, heq⟩ := Option.map_eq_some_iff.1 h
    have hrest : rest = after := congrArg Prod.snd heq
    exact hrest ▸ Nat.lt_succ_of_lt (length_splitSet?_lt hsplit)
  · obtain ⟨⟨inside, rest⟩, hsplit, heq⟩ := Option.map_eq_some_iff.1 h
    have hrest : rest = after := congrArg Prod.snd heq
    exact hrest ▸ length_splitSet?_lt hsplit

/-- A segment of stars right after another one adds nothing, except that the
first two pieces of a pattern are kept. -/
def pushAnyPath (done : List Piece) : List Piece :=
  match done with
  | .anyPath :: _ :: _ => done
  | _ => .anyPath :: done

/-- Reads the rest of a pattern after the pieces `done`, the last one first.
`segmentStart` says that a segment begins here. -/
def readPieces (segmentStart : Bool) (done : List Piece) : Text → Option (List Piece)
  | [] => some done.reverse
  | '?' :: rest => readPieces false (.anyChar :: done) rest
  | '*' :: '*' :: '*' :: _ => none
  | '*' :: '*' :: rest =>
      if !segmentStart then none
      else
        match rest with
        | [] => some (pushAnyPath done).reverse
        | '/' :: rest => readPieces true (pushAnyPath done) rest
        | _ => none
  | '*' :: rest => readPieces false (.anyRun :: done) rest
  | '[' :: rest =>
      match _h : readBracket? rest with
      | none => none
      | some (piece, after) => readPieces false (piece :: done) after
  | c :: rest => readPieces (c = '/') (.char c :: done) rest
termination_by text => text.length
decreasing_by
  all_goals simp only [List.length_cons]
  all_goals try omega
  have := length_readBracket?_lt (by assumption)
  omega

def parse? (text : Text) : Option (List Piece) := readPieces true [] text

def escape (text : Text) : Text :=
  text.flatMap fun c =>
    if c = '?' ∨ c = '*' ∨ c = '[' ∨ c = ']' then ['[', c, ']'] else [c]

def compile (text : Text) : List Piece :=
  match parse? text with
  | some pieces => pieces
  | none => (parse? (escape text)).getD []

end CommandFrame.Glob
