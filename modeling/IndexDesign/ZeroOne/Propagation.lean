import IndexDesign.ZeroOne.Program

/-! # Propagation — the values that constraints force on free variables

    A partial assignment leaves some variables free.  Each constraint then has
    a least and a greatest activity, over all values of its free variables.
    Where even those break the constraint, no completion satisfies it; where
    one value of a free variable would, the variable takes the other.

    Passes over all constraints go on until no variable is forced any more.
    Every repeated pass has fewer free variables, which is why `propagate`
    ends. -/

namespace IndexDesign.ZeroOne

variable {α : Type}

/-- Values for some of the variables; a free variable has `none`. -/
abbrev Partial := Array (Option Bool)

namespace Partial

/-- The assignment of no variable out of the given number. -/
def free (count : Nat) : Partial := Array.replicate count none

/-- The value of a variable. -/
@[inline] def value (p : Partial) (v : Nat) : Option Bool := p.getD v none

/-- Whether a variable is free. -/
@[inline] def isFree (p : Partial) (v : Nat) : Bool := (p.value v).isNone

/-- The assignment with a value for one more variable. -/
def assign (p : Partial) (v : Nat) (b : Bool) : Partial := p.setIfInBounds v (some b)

/-- The number of free variables. -/
def freeCount (p : Partial) : Nat := p.countP (·.isNone)

/-- The values of all variables, free ones taken as false. -/
def total (p : Partial) : Array Bool := p.map (·.getD false)

end Partial

namespace Constraint

variable [Scalar α]

/-- The sum of the coefficients of the true variables and, for each free variable, of the share
    of its coefficient that counts. -/
@[specialize] def activityWith (share : α → α) (c : Constraint α) (p : Partial) : α :=
  c.terms.foldl (fun sum (v, x) =>
    match p.value v with
    | some true => sum + x
    | some false => sum
    | none => sum + share x) Scalar.zero

/-- The least activity that a constraint can have under a partial assignment. -/
def leastActivity (c : Constraint α) (p : Partial) : α :=
  c.activityWith (Scalar.min · Scalar.zero) p

/-- The greatest activity that a constraint can have under a partial assignment. -/
def greatestActivity (c : Constraint α) (p : Partial) : α :=
  c.activityWith (Scalar.max · Scalar.zero) p

/-- Whether an activity is too large for the constraint. -/
def exceeds (c : Constraint α) (activity : α) : Bool :=
  c.sense.isUpper && decide (c.bound + Scalar.tolerance < activity)

/-- Whether an activity is too small for the constraint. -/
def fallsShort (c : Constraint α) (activity : α) : Bool :=
  c.sense.isLower && decide (activity < c.bound - Scalar.tolerance)

/-- The value that a free variable with the given coefficient must take, by the least and the
    greatest activity: true adds the coefficient to the least activity where it is positive,
    false takes its negative away where it is not, and likewise for the greatest. -/
def forced? (c : Constraint α) (least greatest x : α) : Option Bool :=
  if Scalar.zero < x && c.exceeds (least + x) then some false
  else if x < Scalar.zero && c.exceeds (least - x) then some true
  else if Scalar.zero < x && c.fallsShort (greatest - x) then some true
  else if x < Scalar.zero && c.fallsShort (greatest + x) then some false
  else none

/-- The assignment with the values that one constraint forces, all judged by the activities
    at the start; `none` where the constraint cannot hold any more. -/
def propagate (c : Constraint α) (p : Partial) : Option Partial :=
  let least := c.leastActivity p
  let greatest := c.greatestActivity p
  if c.exceeds least || c.fallsShort greatest then none
  else some (c.terms.foldl (fun q (v, x) =>
    if q.isFree v then (c.forced? least greatest x).elim q (q.assign v) else q) p)

end Constraint

namespace Program

variable [Scalar α]

/-- The assignment after every constraint has forced values once, in order. -/
def propagateOnce (m : Program α) (p : Partial) : Option Partial :=
  m.constraints.foldlM (fun q c => c.propagate q) p

/-- The assignment with all values that the constraints force; `none` where some constraint
    cannot hold any more. -/
def propagate (m : Program α) (p : Partial) : Option Partial :=
  match m.propagateOnce p with
  | none => none
  | some q => if q.freeCount < p.freeCount then m.propagate q else some q
termination_by p.freeCount

end Program

end IndexDesign.ZeroOne
