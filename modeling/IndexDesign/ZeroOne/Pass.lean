import IndexDesign.ZeroOne.Propagation

/-! # Propagation in place — passes repeated until one forces nothing

    The same propagation on one assignment that is overwritten.  The activities
    of a constraint are taken once, before its terms, and go stale while the
    terms force values.  A pass notes whether it has forced any, and passes are
    made as long as the last one has.  Nothing in the loop says that it ends:
    `EndsAfter` describes the runs that do. -/

namespace IndexDesign.ZeroOne

variable {α : Type} [Scalar α]

/-- A pass under way: the assignment so far, and whether the pass has forced a value. -/
structure Pass where
  values : Partial
  changed : Bool

namespace Constraint

/-- The pass after one term, judged by the given activities. -/
def passTerm (c : Constraint α) (least greatest : α) (s : Pass) (t : Nat × α) : Pass :=
  if s.values.isFree t.1 then
    match c.forced? least greatest t.2 with
    | some b => ⟨s.values.assign t.1 b, true⟩
    | none => s
  else s

/-- The pass after one constraint; `none` where the constraint cannot hold any more. -/
def pass (c : Constraint α) (s : Pass) : Option Pass :=
  let least := c.leastActivity s.values
  let greatest := c.greatestActivity s.values
  if c.exceeds least || c.fallsShort greatest then none
  else some (c.terms.foldl (c.passTerm least greatest) s)

end Constraint

namespace Program

/-- One pass over all constraints, in order. -/
def pass (m : Program α) (p : Partial) : Option Pass :=
  m.constraints.foldlM (fun s c => c.pass s) ⟨p, false⟩

/-- `m.EndsAfter n p r`: the passes from `p` end after `n` of them and leave `r`, which is `none`
    where a constraint could not hold any more. -/
inductive EndsAfter (m : Program α) : Nat → Partial → Option Partial → Prop where
  | failed {p : Partial} (h : m.pass p = none) : EndsAfter m 1 p none
  | settled {p q : Partial} (h : m.pass p = some ⟨q, false⟩) : EndsAfter m 1 p (some q)
  | again {n : Nat} {p q : Partial} {r : Option Partial} (h : m.pass p = some ⟨q, true⟩)
      (rest : EndsAfter m n q r) : EndsAfter m (n + 1) p r

end Program

end IndexDesign.ZeroOne
