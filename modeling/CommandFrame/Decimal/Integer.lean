import CommandFrame.Text.Basic

/-!
# Integers in decimal

Reading a number accepts a sign and at least one digit and refuses what does
not fit in 64 bits.
-/

namespace CommandFrame.Decimal

def digit? (c : Char) : Option Nat :=
  if '0' ≤ c ∧ c ≤ '9' then some (c.toNat - '0'.toNat) else none

def isDigit (c : Char) : Bool := (digit? c).isSome

def ofDigits (digits : Text) : Nat :=
  digits.foldl (fun n c => 10 * n + (digit? c).getD 0) 0

def natural? (text : Text) : Option Nat :=
  if text ≠ [] ∧ text.all isDigit then some (ofDigits text) else none

def signed? (text : Text) : Option Int :=
  let value? : Option Int :=
    match text with
    | '-' :: digits => (natural? digits).map fun n => -(n : Int)
    | '+' :: digits => (natural? digits).map fun n => (n : Int)
    | digits => (natural? digits).map fun n => (n : Int)
  value?.filter fun i => -(Nat.pow 2 63 : Int) ≤ i ∧ i < Nat.pow 2 63

def unsigned? (text : Text) : Option Nat :=
  let value? :=
    match text with
    | '+' :: digits => natural? digits
    | digits => natural? digits
  value?.filter fun n => n < Nat.pow 2 64

end CommandFrame.Decimal
