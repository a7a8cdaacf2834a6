import IndexDesign.Decimal.Fixed
import IndexDesign.Decimal.Shortest

/-! # Numbers in messages

    Messages write a number in full or with a fixed count of places.  A double
    is written in full by its shortest decimal, an exact number as a quotient. -/

namespace IndexDesign

/-- A type of numbers that can be written in a message. -/
class Rendered (α : Type) where
  /-- The number in full. -/
  text : α → String
  /-- The number with a fixed count of decimal places. -/
  fixed (places : Nat) : α → String

instance : Rendered Float where
  text := Decimal.shortestDouble
  fixed := Decimal.fixedDouble

instance : Rendered Rat where
  text q := if q.den = 1 then toString q.num else toString q.num ++ "/" ++ toString q.den
  fixed places q :=
    (if q.num < 0 then "-" else "") ++ Decimal.fixedQuotient places q.num.natAbs q.den

end IndexDesign
