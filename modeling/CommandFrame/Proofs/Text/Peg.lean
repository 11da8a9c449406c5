import CommandFrame.Text.Basic

/-!
# Parsing expressions

A parsing expression takes up a start of a text or fails.  A choice tries its
second part only where the first fails, and a repetition goes on for as long as
it can; what they have settled on is not taken back when something later fails.
-/

namespace CommandFrame

/-- Expressions over rules that `ρ` names.  What is kept of a text is a `κ`. -/
inductive Peg (ρ κ : Type)
  | empty
  | any
  | char (c : Char)
  | seq (first second : Peg ρ κ)
  | choice (first second : Peg ρ κ)
  | many (body : Peg ρ κ)
  | not (body : Peg ρ κ)
  | rule (name : ρ)
  | keep (make : Text → κ) (body : Peg ρ κ)

namespace Peg

/-- What was taken up, what was kept of it in order, and what is left. -/
structure Match (κ : Type) where
  read : Text
  kept : List κ
  rest : Text

variable {ρ κ : Type}

def Match.andThen (first second : Match κ) : Match κ :=
  ⟨first.read ++ second.read, first.kept ++ second.kept, second.rest⟩

/-- The outcome of an expression on a text; `none` is failure. -/
inductive Parses (rules : ρ → Peg ρ κ) : Peg ρ κ → Text → Option (Match κ) → Prop
  | empty (text : Text) : Parses rules .empty text (some ⟨[], [], text⟩)
  | any (c : Char) (rest : Text) : Parses rules .any (c :: rest) (some ⟨[c], [], rest⟩)
  | any_end : Parses rules .any [] none
  | char (c : Char) (rest : Text) : Parses rules (.char c) (c :: rest) (some ⟨[c], [], rest⟩)
  | char_other {c : Char} {text : Text} (h : text.head? ≠ some c) :
      Parses rules (.char c) text none
  | seq {first second : Peg ρ κ} {text : Text} {begun done : Match κ}
      (hfirst : Parses rules first text (some begun))
      (hsecond : Parses rules second begun.rest (some done)) :
      Parses rules (.seq first second) text (some (begun.andThen done))
  | seq_first {first second : Peg ρ κ} {text : Text} (hfirst : Parses rules first text none) :
      Parses rules (.seq first second) text none
  | seq_second {first second : Peg ρ κ} {text : Text} {begun : Match κ}
      (hfirst : Parses rules first text (some begun))
      (hsecond : Parses rules second begun.rest none) : Parses rules (.seq first second) text none
  | choice_first {first second : Peg ρ κ} {text : Text} {done : Match κ}
      (hfirst : Parses rules first text (some done)) :
      Parses rules (.choice first second) text (some done)
  | choice_second {first second : Peg ρ κ} {text : Text} {outcome : Option (Match κ)}
      (hfirst : Parses rules first text none) (hsecond : Parses rules second text outcome) :
      Parses rules (.choice first second) text outcome
  | many_stop {body : Peg ρ κ} {text : Text} (hbody : Parses rules body text none) :
      Parses rules (.many body) text (some ⟨[], [], text⟩)
  | many_more {body : Peg ρ κ} {text : Text} {begun done : Match κ}
      (hbody : Parses rules body text (some begun))
      (hmore : Parses rules (.many body) begun.rest (some done)) :
      Parses rules (.many body) text (some (begun.andThen done))
  | not_failed {body : Peg ρ κ} {text : Text} (hbody : Parses rules body text none) :
      Parses rules (.not body) text (some ⟨[], [], text⟩)
  | not_done {body : Peg ρ κ} {text : Text} {done : Match κ}
      (hbody : Parses rules body text (some done)) : Parses rules (.not body) text none
  | rule {name : ρ} {text : Text} {outcome : Option (Match κ)}
      (h : Parses rules (rules name) text outcome) : Parses rules (.rule name) text outcome
  | keep {make : Text → κ} {body : Peg ρ κ} {text : Text} {done : Match κ}
      (hbody : Parses rules body text (some done)) :
      Parses rules (.keep make body) text (some ⟨done.read, [make done.read], done.rest⟩)
  | keep_failed {make : Text → κ} {body : Peg ρ κ} {text : Text}
      (hbody : Parses rules body text none) : Parses rules (.keep make body) text none

variable {rules : ρ → Peg ρ κ}

theorem Parses.unique {expression : Peg ρ κ} {text : Text} {first second : Option (Match κ)}
    (hfirst : Parses rules expression text first) (hsecond : Parses rules expression text second) :
    first = second := by
  -- By induction on the first derivation.  Two derivations that end in different rules disagree
  -- on what a part of the expression does, and the part has one outcome only.
  induction hfirst generalizing second with
  | empty | any | any_end => cases hsecond; rfl
  | char c rest =>
      cases hsecond with
      | char => rfl
      | char_other h => exact absurd rfl h
  | char_other h =>
      cases hsecond with
      | char => exact absurd rfl h
      | char_other => rfl
  | seq _ _ ihfirst ihsecond =>
      cases hsecond with
      | seq hbegun hdone =>
          obtain rfl := Option.some.inj (ihfirst hbegun)
          obtain rfl := Option.some.inj (ihsecond hdone)
          rfl
      | seq_first hfailed => exact absurd (ihfirst hfailed) (by simp)
      | seq_second hbegun hfailed =>
          obtain rfl := Option.some.inj (ihfirst hbegun)
          exact absurd (ihsecond hfailed) (by simp)
  | seq_first _ ih =>
      cases hsecond with
      | seq hbegun _ => exact absurd (ih hbegun) (by simp)
      | seq_first => rfl
      | seq_second hbegun _ => exact absurd (ih hbegun) (by simp)
  | seq_second _ _ ihfirst ihsecond =>
      cases hsecond with
      | seq hbegun hdone =>
          obtain rfl := Option.some.inj (ihfirst hbegun)
          exact absurd (ihsecond hdone) (by simp)
      | seq_first | seq_second => rfl
  | choice_first _ ih =>
      cases hsecond with
      | choice_first hdone => exact ih hdone
      | choice_second hfailed _ => exact absurd (ih hfailed) (by simp)
  | choice_second _ _ ihfirst ihsecond =>
      cases hsecond with
      | choice_first hdone => exact absurd (ihfirst hdone) (by simp)
      | choice_second _ houtcome => exact ihsecond houtcome
  | many_stop _ ih =>
      cases hsecond with
      | many_stop => rfl
      | many_more hbegun _ => exact absurd (ih hbegun) (by simp)
  | many_more _ _ ihbody ihmore =>
      cases hsecond with
      | many_stop hfailed => exact absurd (ihbody hfailed) (by simp)
      | many_more hbegun hdone =>
          obtain rfl := Option.some.inj (ihbody hbegun)
          obtain rfl := Option.some.inj (ihmore hdone)
          rfl
  | not_failed _ ih =>
      cases hsecond with
      | not_failed => rfl
      | not_done hdone => exact absurd (ih hdone) (by simp)
  | not_done _ ih =>
      cases hsecond with
      | not_failed hfailed => exact absurd (ih hfailed) (by simp)
      | not_done => rfl
  | rule _ ih =>
      cases hsecond with
      | rule h => exact ih h
  | keep _ ih =>
      cases hsecond with
      | keep hdone =>
          obtain rfl := Option.some.inj (ih hdone)
          rfl
      | keep_failed hfailed => exact absurd (ih hfailed) (by simp)
  | keep_failed _ ih =>
      cases hsecond with
      | keep hdone => exact absurd (ih hdone) (by simp)
      | keep_failed => rfl

/-! ## Characters -/

def oneOf (c : Char) : List Char → Peg ρ κ
  | [] => .char c
  | next :: others => .choice (.char c) (oneOf next others)

def noneOf (c : Char) (others : List Char) : Peg ρ κ := .seq (.not (oneOf c others)) .any

def pairOr (other : Peg ρ κ) : Peg ρ κ := .choice (.seq (.char '\\') .any) other

end Peg

end CommandFrame
