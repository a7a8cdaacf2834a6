/-! # Doubles as exact numbers

    A finite binary double is `±mantissa · 2 ^ exponent`.  Everything written
    about a double is computed from these two integers, never from rounded
    arithmetic. -/

namespace IndexDesign.Decimal

-- Powers are the built-in ones, whatever other instances are in sight.
attribute [local instance (high)] instPowNat

/-- The magnitude `mantissa · 2 ^ exponent` of a finite double. -/
structure Magnitude where
  mantissa : Nat
  exponent : Int
  deriving DecidableEq, Repr

namespace Magnitude

/-- The magnitude of the double with the given bits; the sign is ignored. -/
def ofBits (bits : Nat) : Magnitude :=
  let fraction : Nat := bits % 2 ^ (52 : Nat)
  let biased : Nat := bits / 2 ^ (52 : Nat) % 2 ^ (11 : Nat)
  if biased = 0 then ⟨fraction, -1074⟩ else ⟨fraction + 2 ^ (52 : Nat), (biased : Int) - 1075⟩

/-- The magnitude of a finite double. -/
def ofFloat (x : Float) : Magnitude := ofBits x.toBits.toNat

/-- The numerator of the magnitude over `denominator`. -/
def numerator (m : Magnitude) : Nat := m.mantissa * 2 ^ m.exponent.toNat

/-- The power of two under which the magnitude is a whole number. -/
def denominator (m : Magnitude) : Nat := 2 ^ (-m.exponent).toNat

/-- Whether the gap to the next smaller double is half the gap to the next larger one. -/
def atPowerOfTwo (m : Magnitude) : Bool :=
  m.mantissa == 2 ^ (52 : Nat) && decide (-1074 < m.exponent)

end Magnitude

/-- Whether the sign bit of a double is set. -/
def isSigned (x : Float) : Bool := decide (2 ^ (63 : Nat) ≤ x.toBits.toNat)

/-- The text of a double: a name for a value that is no number, otherwise the sign and
    the text of the magnitude. -/
def signed (magnitude : Magnitude → String) (x : Float) : String :=
  if x.isNaN then "NaN"
  else
    let sign := if isSigned x then "-" else ""
    if x.isInf then sign ++ "inf" else sign ++ magnitude (.ofFloat x)

end IndexDesign.Decimal
