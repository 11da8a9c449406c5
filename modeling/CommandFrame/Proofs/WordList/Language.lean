import CommandFrame.Proofs.WordList.Grammar

/-!
# The language of word lists

A word list is read from left to right.  Separators are passed over; an element
goes up to the brace that matches its first one, up to a quote that no backslash
pair has taken, or up to a separator.  Splitting fails at the first element that
is never closed or that is closed and goes on, and nowhere else.
-/

namespace CommandFrame.WordList

open Peg (Match Parses)
open Grammar (rules)

/-! ## What an element is -/

/-- All braces close that open in the text, and `depth` others that stand open
before it; nowhere more of them close. -/
structure Matched (depth : Nat) (body : Text) : Prop where
  count_eq : body.count '{' + depth = body.count '}'
  le_of_start : ∀ start, start <+: body → start.count '}' ≤ start.count '{' + depth

inductive RunOf (allowed : Char → Prop) : Text → Prop
  | nil : RunOf allowed []
  | pair (c : Char) {rest : Text} (h : RunOf allowed rest) : RunOf allowed ('\\' :: c :: rest)
  | single {c : Char} (hne : c ≠ '\\') (hc : allowed c) {rest : Text} (h : RunOf allowed rest) :
      RunOf allowed (c :: rest)

def BeginsBare (body : Text) : Prop := ∃ c rest, body = c :: rest ∧ c ≠ '{' ∧ c ≠ '"'

/-- The element is read where its source stands in front of `rest`. -/
inductive Stands : Element → Text → Prop
  | braced {body : Text} (h : Matched 0 body) (rest : Text) : Stands (.braced body) rest
  | quoted {body : Text} (h : RunOf (· ≠ '"') body) (rest : Text) : Stands (.quoted body) rest
  | bare {body rest : Text} (hbegins : BeginsBare body)
      (h : RunOf (fun c => isSeparator c = false) body) (hrest : Separated rest) :
      Stands (.bare body) rest
  | backslash {body : Text} (hbegins : BeginsBare (body ++ ['\\']))
      (h : RunOf (fun c => isSeparator c = false) body) : Stands (.bare (body ++ ['\\'])) []

/-- The elements of a text. -/
inductive Lists : Text → List Element → Prop
  | nil : Lists [] []
  | separator {c : Char} (hc : isSeparator c = true) {text : Text} {elements : List Element}
      (h : Lists text elements) : Lists (c :: text) elements
  | element {element : Element} {rest : Text} (helement : Stands element rest)
      (hrest : Separated rest) {elements : List Element} (h : Lists rest elements) :
      Lists (element.source ++ rest) (element :: elements)

/-- The first fault of a text. -/
inductive Faults : Text → Fault → Prop
  | separator {c : Char} (hc : isSeparator c = true) {text : Text} {fault : Fault}
      (h : Faults text fault) : Faults (c :: text) { fault with before := c :: fault.before }
  | element {element : Element} {rest : Text} (helement : Stands element rest)
      (hrest : Separated rest) {fault : Fault} (h : Faults rest fault) :
      Faults (element.source ++ rest) { fault with before := element.source ++ fault.before }
  | openBrace {text : Text} (h : ∀ body rest, text = body ++ '}' :: rest → ¬Matched 0 body) :
      Faults ('{' :: text) ⟨.unclosed, [], '{' :: text⟩
  | openQuote {text : Text} (h : ∀ body rest, text = body ++ '"' :: rest → ¬RunOf (· ≠ '"') body) :
      Faults ('"' :: text) ⟨.unclosed, [], '"' :: text⟩
  | joined {element : Element} {rest : Text} (helement : Stands element rest)
      (hrest : ¬Separated rest) : Faults (element.source ++ rest) ⟨.joined, element.source, rest⟩

/-! ## Braces -/

theorem Faults.text_eq {text : Text} {fault : Fault} (h : Faults text fault) :
    fault.before ++ fault.after = text := by
  induction h with
  | separator hc h ih => simp [ih]
  | element helement hrest h ih => simp [ih]
  | openBrace | openQuote | joined => rfl

end CommandFrame.WordList
