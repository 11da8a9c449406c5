import CommandFrame.Decimal.Integer

/-!
# Binary numbers of 64 bits

A finite number is kept as its sign, its significand and its exponent of two,
so that rounding is arithmetic of natural numbers.  `ofRatio` rounds an exact
quotient to the nearest number, ties to an even significand, and `parse?`
reads a decimal numeral through it.
-/

namespace CommandFrame.Decimal

inductive Binary64
  | nan
  | infinite (negative : Bool)
  /-- The number `significand * 2 ^ exponent`.  The significand has 53 bits
  unless the exponent is the least one, `-1074`. -/
  | finite (negative : Bool) (significand : Nat) (exponent : Int)
  deriving DecidableEq, Repr

structure Ratio where
  num : Nat
  den : Nat
  deriving DecidableEq, Repr

namespace Ratio

def scale (ratio : Ratio) (base : Nat) : Int → Ratio
  | .ofNat e => ⟨ratio.num * base.pow e, ratio.den⟩
  | .negSucc e => ⟨ratio.num, ratio.den * base.pow (e + 1)⟩

def round (ratio : Ratio) : Nat :=
  let quotient := ratio.num / ratio.den
  let twice := 2 * (ratio.num % ratio.den)
  if twice < ratio.den then quotient
  else if ratio.den < twice then quotient + 1
  else quotient + quotient % 2

def log2 (ratio : Ratio) : Int :=
  let guess := (ratio.num.log2 : Int) - ratio.den.log2
  let scaled := ratio.scale 2 (-guess)
  if scaled.den ≤ scaled.num then guess else guess - 1

end Ratio

namespace Binary64

def leastExponent : Int := -1074

def greatestExponent : Int := 971

def ofRatio (negative : Bool) (ratio : Ratio) : Binary64 :=
  if ratio.num = 0 then .finite negative 0 leastExponent
  else
    let exponent := max (ratio.log2 - 52) leastExponent
    let significand := (ratio.scale 2 (-exponent)).round
    let (significand, exponent) :=
      if significand = Nat.pow 2 53 then (Nat.pow 2 52, exponent + 1) else (significand, exponent)
    if greatestExponent < exponent then .infinite negative
    else .finite negative significand exponent

/-- The number nearest to `digits * 10 ^ exponent`.  Beyond the decimal
exponents of the format no power of ten is computed. -/
def ofDecimal (negative : Bool) (digits : Nat) (exponent : Int) : Binary64 :=
  let size := (Nat.toDigits 10 digits).length
  if digits = 0 ∨ exponent + size < -330 then .finite negative 0 leastExponent
  else if 330 < exponent + size then .infinite negative
  else ofRatio negative (Ratio.scale ⟨digits, 1⟩ 10 exponent)

/-! ## Reading -/

def exponent? : Text → Option Int
  | '-' :: digits => (natural? digits).map fun n => -(n : Int)
  | '+' :: digits => (natural? digits).map fun n => (n : Int)
  | digits => (natural? digits).map fun n => (n : Int)

def numeral? (negative : Bool) (text : Text) : Option Binary64 :=
  let whole := text.takeWhile isDigit
  let afterWhole := text.dropWhile isDigit
  let (part, rest) :=
    match afterWhole with
    | '.' :: more => (more.takeWhile isDigit, more.dropWhile isDigit)
    | more => ([], more)
  if whole = [] ∧ part = [] then none
  else
    let number (exponent : Int) :=
      ofDecimal negative (ofDigits (whole ++ part)) (exponent - part.length)
    match rest with
    | [] => some (number 0)
    | c :: digits =>
        if c = 'e' ∨ c = 'E' then (exponent? digits).map number else none

def magnitude? (negative : Bool) (text : Text) : Option Binary64 :=
  let name := text.map Char.toLower
  if name = "inf" ∨ name = "infinity" then some (.infinite negative)
  else if name = "nan" then some .nan
  else numeral? negative text

def parse? : Text → Option Binary64
  | '-' :: rest => magnitude? true rest
  | '+' :: rest => magnitude? false rest
  | text => magnitude? false text

end Binary64

end CommandFrame.Decimal
