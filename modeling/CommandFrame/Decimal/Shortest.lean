import CommandFrame.Decimal.Binary64

/-!
# The fewest digits that identify a number

The reals that round to a binary number form an interval, ends included when
the significand is even.  `shortest` takes the coarsest decimal grid with a
point in that interval, of two such points the nearer one, and of two equally
near ones the upper.  `render` writes the digits without an exponent.
-/

namespace CommandFrame.Decimal

structure Figure where
  digits : Nat
  exponent : Int
  deriving DecidableEq, Repr

/-- The reals that round to one number, in units of a quarter of its last bit. -/
structure Interval where
  low : Nat
  middle : Nat
  high : Nat
  closed : Bool
  unit : Int
  deriving DecidableEq, Repr

namespace Interval

/-- The step below a power of two is half as wide as the one above it, except
at the least exponent. -/
def of (significand : Nat) (exponent : Int) : Interval where
  low := if significand = Nat.pow 2 52 ∧ Binary64.leastExponent < exponent
    then 4 * significand - 1 else 4 * significand - 2
  middle := 4 * significand
  high := 4 * significand + 2
  closed := significand % 2 = 0
  unit := exponent - 2

def holds (interval : Interval) (figure : Figure) : Bool :=
  let point := (Ratio.scale ⟨figure.digits, 1⟩ 10 figure.exponent).scale 2 (-interval.unit)
  if interval.closed then
    interval.low * point.den ≤ point.num && point.num ≤ interval.high * point.den
  else
    interval.low * point.den < point.num && point.num < interval.high * point.den

def value (interval : Interval) : Ratio := Ratio.scale ⟨interval.middle, 1⟩ 2 interval.unit

def places (interval : Interval) : Int :=
  let v := interval.value
  if v.den ≤ v.num then (Nat.toDigits 10 (v.num / v.den)).length
  else 1 - (Nat.toDigits 10 ((v.den - 1) / v.num)).length

def onGrid? (interval : Interval) (exponent : Int) : Option Figure :=
  let scaled := interval.value.scale 10 (-exponent)
  let below : Figure := ⟨scaled.num / scaled.den, exponent⟩
  let above : Figure := ⟨scaled.num / scaled.den + 1, exponent⟩
  match interval.holds below, interval.holds above with
  | true, true =>
      if 2 * (scaled.num % scaled.den) < scaled.den then some below else some above
  | true, false => some below
  | false, true => some above
  | false, false => none

def shortest (interval : Interval) : Figure :=
  let grids := (List.range 17).map fun n : Nat => interval.places - (n + 1 : Int)
  (grids.findSome? interval.onGrid?).getD ⟨0, 0⟩

end Interval

def Figure.render (figure : Figure) : Text :=
  let digits := Text.ofNat figure.digits
  match figure.exponent with
  | .ofNat e => digits ++ List.replicate e '0'
  | .negSucc e =>
      let padded := List.replicate (e + 2 - digits.length) '0' ++ digits
      let whole := padded.take (padded.length - (e + 1))
      let part := padded.drop (padded.length - (e + 1))
      match (part.reverse.dropWhile (· = '0')).reverse with
      | [] => whole
      | kept => whole ++ '.' :: kept

def Binary64.render : Binary64 → Text
  | .nan => "NaN"
  | .infinite negative => (if negative then ['-'] else []) ++ "inf".toList
  | .finite negative significand exponent =>
      (if negative then ['-'] else []) ++
        if significand = 0 then ['0']
        else (Interval.of significand exponent).shortest.render

end CommandFrame.Decimal
