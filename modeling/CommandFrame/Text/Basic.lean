/-!
# Texts

A text is a list of characters.  Offsets into a text count the bytes of its
UTF-8 form, so that a cursor reported by a terminal can be used as it is;
`splitBytes` cuts at such an offset and never inside a character.
-/

namespace CommandFrame

abbrev Text := List Char

instance : Coe String Text := ⟨String.toList⟩

namespace Text

def byteLength : Text → Nat
  | [] => 0
  | c :: rest => c.utf8Size + byteLength rest

@[simp] theorem byteLength_nil : byteLength [] = 0 := rfl

@[simp] theorem byteLength_cons (c : Char) (text : Text) :
    byteLength (c :: text) = c.utf8Size + byteLength text := rfl

@[simp] theorem byteLength_append (first second : Text) :
    byteLength (first ++ second) = byteLength first + byteLength second := by
  induction first with
  | nil => simp
  | cons c rest ih => simp [ih, Nat.add_assoc]

/-- The longest start of at most `count` bytes, and what follows it. -/
def splitBytes : Nat → Text → Text × Text
  | _, [] => ([], [])
  | count, c :: rest =>
      if c.utf8Size ≤ count then
        let (before, after) := splitBytes (count - c.utf8Size) rest
        (c :: before, after)
      else ([], c :: rest)

@[simp] theorem splitBytes_append (count : Nat) (text : Text) :
    (splitBytes count text).1 ++ (splitBytes count text).2 = text := by
  induction text generalizing count with
  | nil => rfl
  | cons c rest ih =>
      unfold splitBytes
      split
      · simp [ih]
      · rfl

def dropStart? : Text → Text → Option Text
  | [], text => some text
  | _ :: _, [] => none
  | s :: start, c :: text => if s = c then dropStart? start text else none

def startsWith (start text : Text) : Bool := start.isPrefixOf text

def endsWith (ending text : Text) : Bool := ending.isSuffixOf text

theorem getLast?_of_endsWith {ending text : Text} (h : endsWith ending text = true)
    (hne : ending ≠ []) : text.getLast? = ending.getLast? := by
  obtain ⟨start, rfl⟩ := List.isSuffixOf_iff_suffix.1 h
  rw [List.getLast?_append]
  cases hlast : ending.getLast? with
  | none => exact absurd (List.getLast?_eq_none_iff.1 hlast) hne
  | some c => rfl

def join (separator : Text) : List Text → Text
  | [] => []
  | [text] => text
  | text :: next :: rest => text ++ separator ++ join separator (next :: rest)

theorem join_concat (separator : Text) {texts : List Text} (h : texts ≠ []) (text : Text) :
    join separator (texts ++ [text]) = join separator texts ++ separator ++ text := by
  induction texts with
  | nil => contradiction
  | cons first rest ih =>
      cases rest with
      | nil => rfl
      | cons second rest =>
          have hrest := ih (List.cons_ne_nil second rest)
          simp only [List.cons_append, join] at hrest ⊢
          rw [hrest]
          simp

def splitOn (cut : Char → Bool) : Text → List Text
  | [] => [[]]
  | c :: rest =>
      if cut c then [] :: splitOn cut rest
      else
        match splitOn cut rest with
        | [] => [[c]]
        | piece :: pieces => (c :: piece) :: pieces

def ofNat (n : Nat) : Text := Nat.toDigits 10 n

def ofInt : Int → Text
  | .ofNat n => ofNat n
  | .negSucc n => '-' :: ofNat (n + 1)

/-- Texts in order of their characters' code points, which is the order of
their UTF-8 bytes. -/
def sort (texts : List Text) : List Text :=
  texts.mergeSort fun first second => !decide (second < first)

end Text

end CommandFrame
