import IndexDesign.Scalar
import IndexDesign.ZeroOne.Error

/-! # Zero-one programs — linear constraints over variables that are true or false

    A program asks for the assignment of least objective among those that
    satisfy every constraint.  Constraints are compared with a slack of
    `Scalar.tolerance`.

    * `addConstraint` adds up the terms of one variable and drops terms whose
      coefficient is within the tolerance of zero, so a constraint lists each
      variable at most once.
    * `isFeasible` is the meaning of a program: which assignments solve it. -/

namespace IndexDesign.ZeroOne

variable {α : Type}

/-- How the weighted sum of a constraint compares with its bound. -/
inductive Sense where
  | atMost
  | exactly
  | atLeast
  deriving DecidableEq, Repr

namespace Sense

/-- The symbol of a comparison. -/
def symbol : Sense → String
  | atMost => "<="
  | exactly => "="
  | atLeast => ">="

/-- Whether the bound holds from above. -/
def isUpper : Sense → Bool
  | atLeast => false
  | _ => true

/-- Whether the bound holds from below. -/
def isLower : Sense → Bool
  | atMost => false
  | _ => true

end Sense

/-- A variable and what it adds to the objective when true. -/
structure Variable (α : Type) where
  name : String
  objective : α

/-- A linear constraint: the sum of the coefficients of the true variables compares with a
    bound as the sense says. -/
structure Constraint (α : Type) where
  name : String
  terms : List (Nat × α)
  sense : Sense
  bound : α

namespace Constraint

variable [Scalar α]

/-- The sum of the coefficients of the true variables. -/
def activity (c : Constraint α) (values : Array Bool) : α :=
  Scalar.sum ((c.terms.filter fun (v, _) => values.getD v false).map (·.2))

/-- Whether the constraint holds, up to the tolerance. -/
def isSatisfied (c : Constraint α) (values : Array Bool) : Bool :=
  let sum := c.activity values
  match c.sense with
  | .atMost => decide (sum ≤ c.bound + Scalar.tolerance)
  | .exactly => decide (Scalar.abs (sum - c.bound) ≤ Scalar.tolerance)
  | .atLeast => decide (c.bound - Scalar.tolerance ≤ sum)

/-- Whether a number is one, up to the tolerance. -/
def isUnit (x : α) : Bool := decide (Scalar.abs (x - Scalar.one) ≤ Scalar.tolerance)

/-- Whether the constraint says that exactly one of its variables is true. -/
def isSetPartition (c : Constraint α) : Bool :=
  c.sense == .exactly && isUnit c.bound && !c.terms.isEmpty && c.terms.all fun (_, x) => isUnit x

end Constraint

/-- A zero-one program: variables, numbered from zero, and constraints over them. -/
structure Program (α : Type) where
  vars : Array (Variable α)
  constraints : List (Constraint α)

/-- Values for the variables of a program, and their objective. -/
structure Assignment (α : Type) where
  values : Array Bool
  objective : α

/-- The value of a variable; a variable beyond the last is false. -/
def Assignment.value (a : Assignment α) (v : Nat) : Bool := a.values.getD v false

/-- A solver finds an assignment for a program or says why it has none. -/
abbrev Solver (α : Type) := Program α → Except SolverError (Assignment α)

namespace Program

/-- The program without variables and constraints. -/
def empty : Program α := ⟨#[], []⟩

instance : Inhabited (Program α) := ⟨empty⟩

/-- The program with one more variable, whose number is the old `vars.size`. -/
def addVariable (m : Program α) (name : String) (objective : α) : Program α :=
  { m with vars := m.vars.push ⟨name, objective⟩ }

/-- The program with another objective for one variable; one beyond the last is ignored. -/
def setObjective (m : Program α) (v : Nat) (objective : α) : Program α :=
  { m with vars := m.vars.modify v ({ · with objective }) }

variable [Scalar α]

/-- Terms with one more coefficient for a variable: added to the term that the variable has,
    or in a new term at the end. -/
def addTerm (v : Nat) (x : α) : List (Nat × α) → List (Nat × α)
  | [] => [(v, x)]
  | (w, y) :: rest => if w = v then (w, y + x) :: rest else (w, y) :: addTerm v x rest

/-- The terms with one term per variable, in the order of first mention. -/
def mergeTerms (terms : List (Nat × α)) : List (Nat × α) :=
  terms.foldl (fun merged (v, x) => addTerm v x merged) []

/-- The program with one more constraint, whose terms are merged and freed of those that
    weigh no more than the tolerance. -/
def addConstraint (m : Program α) (name : String) (terms : List (Nat × α)) (sense : Sense)
    (bound : α) : Program α :=
  let kept := (mergeTerms terms).filter fun (_, x) => decide (Scalar.tolerance < Scalar.abs x)
  { m with constraints := m.constraints ++ [⟨name, kept, sense, bound⟩] }

/-- The program of the given variables with the given constraints added in order. -/
def ofParts (vars : List (Variable α)) (constraints : List (Constraint α)) : Program α :=
  constraints.foldl (fun m c => m.addConstraint c.name c.terms c.sense c.bound)
    ⟨vars.toArray, []⟩

/-- The sum of the objectives of the true variables. -/
def objectiveValue (m : Program α) (values : Array Bool) : α :=
  Scalar.sum (((m.vars.toList.zip values.toList).filter (·.2)).map (·.1.objective))

/-- Whether values are given for exactly the variables and satisfy every constraint. -/
def isFeasible (m : Program α) (values : Array Bool) : Bool :=
  values.size == m.vars.size && m.constraints.all (·.isSatisfied values)

/-- The objective of a variable. -/
def objective (m : Program α) (v : Nat) : α :=
  (m.vars[v]?).elim Scalar.zero (·.objective)

end Program

end IndexDesign.ZeroOne
