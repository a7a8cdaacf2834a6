/-! # Scalars — the numbers in which sizes, row counts and costs are computed

    Every quantity of the designer that is not a count (row estimates, sizes,
    costs, objectives) is generic in a number type with the operations below.

    * `Float` is the type the designer runs on.  Its `min` and `max` pass over
      a NaN operand, its sums start from negative zero, and `totalLE` orders
      all of its values, NaN included, by sign and magnitude.
    * `Rat` gives the same definitions exact arithmetic.

    The order of operations in the generic definitions is part of their
    meaning: floating-point sums are not associative, so sums and products are
    left folds from a stated start. -/

namespace IndexDesign

-- Powers are the built-in ones, whatever other instances are in sight.
attribute [local instance (high)] instPowNat

/-- A type of numbers with the arithmetic and comparisons that costs need. -/
class Scalar (α : Type) extends Add α, Sub α, Mul α, Div α, LE α, LT α, BEq α where
  /-- The number nearest to a count. -/
  ofCount : Nat → α
  /-- The number nearest to `digits · 10 ^ (-places)`. -/
  decimal (digits places : Nat) : α
  /-- The sum of no numbers. -/
  emptySum : α
  /-- The distance from zero. -/
  abs : α → α
  /-- The smaller of two numbers; an operand that is not a number is passed over. -/
  min : α → α → α
  /-- The larger of two numbers; an operand that is not a number is passed over. -/
  max : α → α → α
  /-- A total order that refines `≤`. -/
  totalLE : α → α → Bool
  /-- Whether a number is neither infinite nor undefined. -/
  isFinite : α → Bool
  /-- Comparison by `≤` is decidable. -/
  decLE : ∀ a b : α, Decidable (a ≤ b)
  /-- Comparison by `<` is decidable. -/
  decLT : ∀ a b : α, Decidable (a < b)

namespace Scalar

variable {α : Type} [Scalar α]

@[inline] instance (a b : α) : Decidable (a ≤ b) := Scalar.decLE a b

@[inline] instance (a b : α) : Decidable (a < b) := Scalar.decLT a b

/-- The number zero. -/
def zero : α := ofCount 0

/-- The number one. -/
def one : α := ofCount 1

/-- The slack allowed when a linear constraint or an objective is compared: 10⁻⁹. -/
def tolerance : α := decimal 1 9

/-- The gap between one and the next binary double: 2⁻⁵². -/
def unitGap : α := one / ofCount (2 ^ (52 : Nat))

/-- The sum of a list, added from left to right. -/
def sum (xs : List α) : α := xs.foldl (· + ·) emptySum

/-- The product of a list, multiplied from left to right. -/
def product (xs : List α) : α := xs.foldl (· * ·) one

/-- A number moved into the interval from `low` to `high`. -/
def clamp (low high x : α) : α :=
  let raised := if x < low then low else x
  if high < raised then high else raised

/-- The first of the least elements of a list under a measure, by the total order. -/
def firstLeast {β : Type} (measure : β → α) : List β → Option β
  | [] => none
  | x :: xs => some (xs.foldl (fun best y =>
      if totalLE (measure best) (measure y) then best else y) x)

end Scalar

/-! ## Binary doubles -/

/-- The place of a double in the total order: negative values count down from −1
    by magnitude, all others count up from 0. -/
def Float.rank (x : Float) : Int :=
  let bits := x.toBits.toNat
  if bits < 2 ^ (63 : Nat) then (bits : Int) else -((bits - 2 ^ (63 : Nat) : Nat) : Int) - 1

instance : Scalar Float where
  ofCount := Float.ofNat
  decimal digits places := Float.ofScientific digits true places
  emptySum := -0.0
  abs := Float.abs
  min a b := if a.isNaN then b else if b.isNaN then a else if b < a then b else a
  max a b := if a.isNaN then b else if b.isNaN then a else if a < b then b else a
  totalLE a b := decide (Float.rank a ≤ Float.rank b)
  isFinite := Float.isFinite
  decLE a b := Float.decLe a b
  decLT a b := Float.decLt a b

/-! ## Exact numbers -/

instance : Scalar Rat where
  ofCount n := (n : Rat)
  decimal digits places := (digits : Rat) / (10 ^ places : Nat)
  emptySum := 0
  abs a := if a < 0 then -a else a
  min a b := if b < a then b else a
  max a b := if a < b then b else a
  totalLE a b := decide (a ≤ b)
  isFinite _ := true
  decLE := inferInstance
  decLT := inferInstance

end IndexDesign
