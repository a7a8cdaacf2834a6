import IndexDesign.Decimal.Double
import IndexDesign.Decimal.Fixed

/-! # The shortest decimal that reads back

    The decimals that read back as a given double fill an interval around it:
    up to halfway to each neighbour, both ends included when the mantissa is
    even.  On the coarsest decimal grid with a point in that interval, the
    point nearest to the double is its shortest text; of two equally near
    points the larger is taken. -/

namespace IndexDesign.Decimal

-- Powers are the built-in ones, whatever other instances are in sight.
attribute [local instance (high)] instPowNat

/-- The numbers that round to a given double, over a common denominator. -/
structure Interval where
  low : Nat
  value : Nat
  high : Nat
  denominator : Nat
  closed : Bool

namespace Interval

/-- The interval of a non-zero magnitude, in quarters of its last place. -/
def ofMagnitude (m : Magnitude) : Interval :=
  let scale := 2 ^ (m.exponent - 2).toNat
  let below := if m.atPowerOfTwo then 1 else 2
  { low := (4 * m.mantissa - below) * scale
    value := 4 * m.mantissa * scale
    high := (4 * m.mantissa + 2) * scale
    denominator := 2 ^ (2 - m.exponent).toNat
    closed := m.mantissa % 2 == 0 }

/-- Whether the quotient lies in the interval. -/
def contains (i : Interval) (num den : Nat) : Bool :=
  let x := num * i.denominator
  if i.closed then decide (i.low * den ≤ x ∧ x ≤ i.high * den)
  else decide (i.low * den < x ∧ x < i.high * den)

/-- The point nearest to the value on the grid of step `num / den`, if one of the
    value's two neighbours on the grid lies in the interval. -/
def nearestOnGrid (i : Interval) (num den : Nat) : Option Nat :=
  let step := num * i.denominator
  let below := i.value * den / step
  let rest := i.value * den - below * step
  match i.contains (below * num) den, i.contains ((below + 1) * num) den with
  | true, true => some (if 2 * rest < step then below else below + 1)
  | true, false => some below
  | false, true => some (below + 1)
  | false, false => none

/-- The text of the nearest point of the first grid with a hit, going down from step
    `10 ^ exponent` by powers of ten. -/
def shortestFrom (i : Interval) : (grids : Nat) → (exponent : Int) → String
  | 0, _ => ""
  | grids + 1, exponent =>
    match i.nearestOnGrid (10 ^ exponent.toNat) (10 ^ (-exponent).toNat) with
    | some point =>
      positional (point * 10 ^ exponent.toNat) (-exponent).toNat
    | none => i.shortestFrom grids (exponent - 1)

/-- The shortest text of the interval's value.  A grid of step `10 ^ (-345)` has a hit for
    every double. -/
def shortest (i : Interval) : String :=
  let whole := (toString (i.value / i.denominator)).length
  i.shortestFrom (whole + 346) whole

end Interval

/-- The shortest positional decimal of a double. -/
def shortestDouble (x : Float) : String :=
  signed (fun m => if m.mantissa = 0 then "0" else (Interval.ofMagnitude m).shortest) x

end IndexDesign.Decimal
