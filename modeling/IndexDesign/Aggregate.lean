import IndexDesign.Field

/-! # Aggregates — a function of the values of a field

    Aggregates are ordered by function, then by field. -/

namespace IndexDesign

/-- A function of many values. -/
inductive AggregateFunction where
  | count
  | sum
  | avg
  | min
  | max
  deriving DecidableEq, Repr

namespace AggregateFunction

/-- The name of the function. -/
def name : AggregateFunction → String
  | count => "count"
  | sum => "sum"
  | avg => "avg"
  | min => "min"
  | max => "max"

/-- The place of the function among all, as a text. -/
def rank : AggregateFunction → String
  | count => "0"
  | sum => "1"
  | avg => "2"
  | min => "3"
  | max => "4"

end AggregateFunction

/-- A function applied to a field. -/
structure Aggregate where
  function : AggregateFunction
  field : Field
  deriving DecidableEq, Repr

instance : Keyed Aggregate where
  key a := [a.function.rank, a.field.entity, a.field.name]

namespace Aggregate

/-- The function's name with the field in parentheses. -/
def text (a : Aggregate) : String := a.function.name ++ "(" ++ a.field.qualifiedName ++ ")"

instance : ToString Aggregate := ⟨text⟩

/-- A listing of aggregates in brackets. -/
def listing (aggregates : List Aggregate) : String :=
  "[" ++ ", ".intercalate (aggregates.map text) ++ "]"

end Aggregate

/-- A set of aggregates. -/
abbrev AggregateSet := SortedSet Aggregate

/-- The aggregated fields. -/
def AggregateSet.fields (aggregates : AggregateSet) : List Field :=
  aggregates.toList.map (·.field)

end IndexDesign
