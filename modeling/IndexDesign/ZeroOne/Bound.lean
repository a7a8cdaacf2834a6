import IndexDesign.ZeroOne.Propagation

/-! # Lower bounds — what completions of a partial assignment must cost

    A completion costs at least the objectives of the true variables and the
    negative objectives of the free ones.  A constraint that makes exactly one
    of its variables true costs at least the cheapest of its free variables as
    long as none is true yet.  Such costs add up over constraints that share no
    variable. -/

namespace IndexDesign.ZeroOne

variable {α : Type} [Scalar α]

namespace Constraint

/-- Whether one of the constraint's variables is true already. -/
def isSettled (c : Constraint α) (p : Partial) : Bool :=
  c.terms.any fun (v, _) => p.value v == some true

/-- The free variables of a constraint. -/
def freeVariables (c : Constraint α) (p : Partial) : List Nat :=
  (c.terms.map (·.1)).filter p.isFree

end Constraint

/-- The set partitions among the constraints, less those that share a variable with an
    earlier one of them or with `taken`. -/
def disjointPartitions : List (Constraint α) → (taken : List Nat) → List (Constraint α)
  | [], _ => []
  | c :: rest, taken =>
    let own := c.terms.map (·.1)
    if c.isSetPartition && !own.any taken.contains then
      c :: disjointPartitions rest (own ++ taken)
    else disjointPartitions rest taken

namespace Program

/-- The set partitions of a program that share no variables, chosen in order. -/
def partitions (m : Program α) : List (Constraint α) := disjointPartitions m.constraints []

/-- What a variable adds to the objective at least. -/
def leastShare (x : Variable α) : Option Bool → α
  | some true => x.objective
  | some false => Scalar.zero
  | none => Scalar.min x.objective Scalar.zero

/-- The least objective among the free variables of a constraint. -/
def cheapest? (m : Program α) (p : Partial) (c : Constraint α) : Option α :=
  match (c.freeVariables p).map m.objective with
  | [] => none
  | x :: xs => some (xs.foldl Scalar.min x)

/-- What a set partition adds to the bound: the cheapest of its free variables where none of
    its variables is true and that one has a positive finite objective. -/
def partitionShare? (m : Program α) (p : Partial) (c : Constraint α) : Option α :=
  if c.isSettled p then none
  else (m.cheapest? p c).filter fun x => Scalar.isFinite x && Scalar.zero < x

/-- A number that no completion of the partial assignment undercuts. -/
def lowerBound (m : Program α) (partitions : List (Constraint α)) (p : Partial) : α :=
  (partitions.filterMap (m.partitionShare? p)).foldl (· + ·)
    (Scalar.sum (Array.zipWith leastShare m.vars p).toList)

end Program

end IndexDesign.ZeroOne
