import IndexDesign.Field
import IndexDesign.Scalar

/-! # Selectivity — how conditions and groups change row counts

    An equality condition keeps one of the field's values, a range condition a
    tenth of the rows.  Conditions are taken to be independent. -/

namespace IndexDesign.Selectivity

variable {α : Type} [Scalar α]

/-- The share of rows that an equality condition on the field keeps. -/
def equality (f : Field) : α := Scalar.one / Scalar.ofCount (max f.cardinality 1)

/-- The share of rows that a range condition keeps. -/
def range : α := Scalar.decimal 1 1

/-- The rows that are left under equality and range conditions. -/
def apply (rows : α) (eq inRange : List Field) : α :=
  rows * Scalar.product (eq.map equality) * Scalar.product (inRange.map fun _ => range)

/-- The rows that are left after grouping: one without groups, otherwise one per group as
    far as there are rows. -/
def grouped (rows : α) (groups : List Field) : α :=
  if groups.isEmpty then Scalar.one
  else
    let combinations := Scalar.product (groups.map fun f => Scalar.ofCount f.cardinality)
    Scalar.max (Scalar.min combinations rows) Scalar.one

end IndexDesign.Selectivity
