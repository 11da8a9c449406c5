import CommandFrame.Text.Unescape

/-!
# Splitting a word list

A word list such as `a {b {c}} "d e";f` holds its items in one text.  Items
are separated by blanks, line ends and semicolons.  A braced item is taken
literally, with nested braces counted; backslash escapes are read in quoted
and bare items.  Only an element that is never closed, or one that is closed
and goes on, is a fault.
-/

namespace CommandFrame.WordList

def isSeparator (c : Char) : Bool :=
  c = ' ' || c = '\t' || c = '\r' || c = '\n' || c = ';'

inductive Element
  | braced (body : Text)
  | quoted (body : Text)
  | bare (body : Text)
  deriving DecidableEq, Repr

def Element.item : Element → Text
  | .braced body => body
  | .quoted body | .bare body => Text.unescape body

inductive FaultCause
  | unclosed
  | joined
  deriving DecidableEq, Repr

/-! ## Elements -/

def consume (read : Text) : Text × Text → Text × Text
  | (body, rest) => (read ++ body, rest)

/-- The text up to the brace that closes `depth` open ones and the element. -/
def readBraced : Nat → Text → Option (Text × Text)
  | _, [] => none
  | 0, '}' :: rest => some ([], rest)
  | depth + 1, '}' :: rest => (readBraced depth rest).map (consume ['}'])
  | depth, '{' :: rest => (readBraced (depth + 1) rest).map (consume ['{'])
  | depth, c :: rest => (readBraced depth rest).map (consume [c])

def readQuoted : Text → Option (Text × Text)
  | [] => none
  | '\\' :: c :: rest => (readQuoted rest).map (consume ['\\', c])
  | '"' :: rest => some ([], rest)
  | c :: rest => (readQuoted rest).map (consume [c])

def readBare : Text → Text × Text
  | [] => ([], [])
  | '\\' :: c :: rest => consume ['\\', c] (readBare rest)
  | c :: rest => if isSeparator c then ([], c :: rest) else consume [c] (readBare rest)

def readElement (c : Char) (rest : Text) : Option (Element × Text) :=
  if c = '{' then (readBraced 0 rest).map fun (body, rest) => (.braced body, rest)
  else if c = '"' then (readQuoted rest).map fun (body, rest) => (.quoted body, rest)
  else
    let (body, rest) := readBare (c :: rest)
    some (.bare body, rest)

theorem length_readBraced_le {depth : Nat} {text body rest : Text}
    (h : readBraced depth text = some (body, rest)) : rest.length ≤ text.length := by
  fun_induction readBraced depth text generalizing body with
  | case1 => simp at h
  | case2 => simp_all
  | case3 depth text ih | case4 depth text ih | case5 depth c text _ _ _ ih =>
      obtain ⟨⟨inner, after⟩, hinner, heq⟩ := Option.map_eq_some_iff.1 h
      simp only [consume, Prod.mk.injEq] at heq
      have := ih (heq.2 ▸ hinner)
      simp only [List.length_cons]
      omega

theorem length_readQuoted_le {text body rest : Text}
    (h : readQuoted text = some (body, rest)) : rest.length ≤ text.length := by
  fun_induction readQuoted text generalizing body with
  | case1 => simp at h
  | case3 => simp_all
  | case2 c text ih | case4 c text _ _ ih =>
      obtain ⟨⟨inner, after⟩, hinner, heq⟩ := Option.map_eq_some_iff.1 h
      simp only [consume, Prod.mk.injEq] at heq
      have := ih (heq.2 ▸ hinner)
      simp only [List.length_cons]
      omega

theorem length_readBare_le (text : Text) : (readBare text).2.length ≤ text.length := by
  fun_induction readBare text with
  | case1 => simp
  | case2 c text ih => simp only [consume, List.length_cons]; omega
  | case3 => simp
  | case4 c text _ _ ih => simp only [consume, List.length_cons]; omega

theorem length_readBare_cons_le {c : Char} (hc : isSeparator c = false) (text : Text) :
    (readBare (c :: text)).2.length ≤ text.length := by
  unfold readBare
  split
  · contradiction
  · rename_i heq
    obtain ⟨rfl, rfl⟩ := List.cons.inj heq
    have := length_readBare_le ‹Text›
    simp only [consume, List.length_cons]
    omega
  · rename_i heq
    obtain ⟨rfl, rfl⟩ := List.cons.inj heq
    simpa [hc, consume] using length_readBare_le text

theorem length_readElement_le {c : Char} (hc : isSeparator c = false) {text rest : Text}
    {element : Element} (h : readElement c text = some (element, rest)) :
    rest.length ≤ text.length := by
  unfold readElement at h
  split at h
  · obtain ⟨⟨body, after⟩, hbody, heq⟩ := Option.map_eq_some_iff.1 h
    simp only [Prod.mk.injEq] at heq
    exact length_readBraced_le (heq.2 ▸ hbody)
  · split at h
    · obtain ⟨⟨body, after⟩, hbody, heq⟩ := Option.map_eq_some_iff.1 h
      simp only [Prod.mk.injEq] at heq
      exact length_readQuoted_le (heq.2 ▸ hbody)
    · simp only [Option.some.injEq, Prod.mk.injEq] at h
      exact h.2 ▸ length_readBare_cons_le hc text

/-! ## Lists -/

/-- Reads all elements.  A fault comes with the text from where it stands. -/
def readElements : Text → Except (FaultCause × Text) (List Element)
  | [] => .ok []
  | c :: text =>
      if _hc : isSeparator c then readElements text
      else
        match _h : readElement c text with
        | none => .error (.unclosed, c :: text)
        | some (element, rest) =>
            match rest with
            | [] => .ok [element]
            | next :: after =>
                if isSeparator next then (readElements after).map (element :: ·)
                else .error (.joined, next :: after)
termination_by text => text.length
decreasing_by
  · simp
  · have := length_readElement_le (by simpa using _hc) _h
    simp only [List.length_cons] at this ⊢
    omega

end CommandFrame.WordList
