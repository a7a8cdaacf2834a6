import IndexDesign.Decimal.Double

/-! # Numbers with a fixed count of decimal places

    A quotient is rounded to a whole number of units in the last place, a tie
    going to the even neighbour, and written with a point. -/

namespace IndexDesign.Decimal

-- Powers are the built-in ones, whatever other instances are in sight.
attribute [local instance (high)] instPowNat

/-- The quotient rounded to the nearest whole number, a tie going to the even one. -/
def roundHalfEven (num den : Nat) : Nat :=
  let quotient := num / den
  let twice := 2 * (num % den)
  if twice < den then quotient
  else if den < twice then quotient + 1
  else quotient + quotient % 2

/-- A whole number of units of the last place, written with that many places. -/
def positional (units places : Nat) : String :=
  let digits := toString units
  let padded := "".pushn '0' (places + 1 - digits.length) ++ digits
  if places = 0 then padded
  else
    let whole := padded.length - places
    (padded.take whole).toString ++ "." ++ (padded.drop whole).toString

/-- A non-negative quotient with a fixed count of places. -/
def fixedQuotient (places num den : Nat) : String :=
  positional (roundHalfEven (num * 10 ^ places) den) places

/-- The exact value of a double with a fixed count of places. -/
def fixedDouble (places : Nat) (x : Float) : String :=
  signed (fun m => fixedQuotient places m.numerator m.denominator) x

end IndexDesign.Decimal
