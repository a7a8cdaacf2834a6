import IndexDesign.Config.Basic
import IndexDesign.Selection.Attribution
import IndexDesign.Selection.Design
import IndexDesign.ZeroOne.Program

/-! # Selection problems — which indexes to choose, as a zero-one program

    The program has a variable for each candidate index, true where the index
    is chosen, and one for each plan of each query.  It knows indexes by their
    keys: candidates of one key are chosen together, by the variable of the last
    of them, and the variables of the others stand for nothing.  The constraints
    say that

    * a query has exactly one plan,
    * a plan that is taken has its indexes chosen,
    * an index that a write modifies has one plan for each support query if it
      is chosen and none otherwise, and is not chosen where that is impossible,
    * the chosen indexes fit the budget.

    Plans cost what is attributed to their indexes; an index costs its
    maintenance.  Indexes that no plan can use are left out. -/

namespace IndexDesign

open ZeroOne

-- Sums of counts start at the built-in zero, whatever other instances are in sight.
attribute [local instance (high)] Zero.ofOfNat0

/-- What a write does to an index, with the costs of its support queries. -/
structure MaintenanceCosts (α : Type) where
  maintenance : Maintenance α
  support : Option (List (StatementCosts α))

/-- A query of which one plan is to be taken.  The variables of its plans follow each other. -/
structure Choice (α : Type) where
  label : String
  query : Query α
  plans : List (Plan α)
  /-- The variable of the first plan. -/
  first : Nat

namespace Choice

variable {α : Type}

/-- The plans with their variables. -/
def numbered (c : Choice α) : List (Plan α × Nat) := c.plans.zipIdx c.first

/-- The first plan that an assignment takes. -/
def selected? (c : Choice α) (a : Assignment α) : Option (Plan α) :=
  (c.numbered.find? fun (_, v) => a.value v).map (·.1)

/-- Choices whose variables follow each other from a number on. -/
def number (first : Nat) : List (String × StatementCosts α) → List (Choice α)
  | [] => []
  | (label, costs) :: rest =>
    ⟨label, costs.query, costs.plans, first⟩ :: number (first + costs.plans.length) rest

/-- The number of variables of choices. -/
def total (choices : List (Choice α)) : Nat := (choices.map (·.plans.length)).sum

end Choice

/-- The maintenance of a candidate index. -/
structure Upkeep (α : Type) where
  label : String
  maintenance : Maintenance α
  /-- The variable of the index. -/
  index : Nat
  /-- The support queries; `none` where one of them has no plan over the candidates. -/
  support : Option (List (Choice α))

/-- Which of the candidate indexes to choose for which plans. -/
structure SelectionProblem (α : Type) where
  /-- The candidate indexes in the order of their keys.  Each brings a variable, its position. -/
  indexes : List Index
  queries : List (Choice α)
  upkeep : List (Upkeep α)
  budget : Option α

namespace SelectionProblem

variable {α : Type}

/-! ## Leaving out indexes -/

/-- Whether all indexes of a plan are among those of the given keys. -/
def isWithin (keys : List String) (p : Plan α) : Bool := p.lookedUp.all (keys.contains ·.key)

/-- The keys of the indexes that the plans of queries look up. -/
def keysOf (costs : List (StatementCosts α)) : List String :=
  (costs.flatMap (·.plans)).flatMap fun p => p.lookedUp.map (·.key)

/-- The keys in use, grown by those that maintaining the indexes in use takes, for a number of
    rounds or until nothing is added. -/
def growUsed (allowed : List String) (maintenance : List (MaintenanceCosts α)) :
    (rounds : Nat) → SortedSet String → SortedSet String
  | 0, used => used
  | rounds + 1, used =>
    let entries := maintenance.filter fun e => used.contains e.maintenance.index.key
    let grown := (keysOf (entries.flatMap fun e => e.support.getD [])).filter fun key =>
      allowed.contains key && !used.contains key
    if grown.isEmpty then used
    else growUsed allowed maintenance rounds (used.extend grown)

/-- The candidates that some plan can use: those of query plans, and those of the support plans
    of indexes in use. -/
def reachable (candidates : List Index) (queries : List (StatementCosts α))
    (maintenance : List (MaintenanceCosts α)) : List Index :=
  let allowed := candidates.map (·.key)
  let used := growUsed allowed maintenance candidates.length
    (SortedSet.ofList ((keysOf queries).filter allowed.contains))
  candidates.filter fun index => used.contains index.key

variable [Scalar α]

/-- The candidates that fit the budget on their own, with the plans over these; an error where a
    query is left without plans.  Without a budget, or where that is not asked for, all
    candidates and plans are kept. -/
def withinBudget (config : SelectionConfig α) (pool : List Index)
    (queries : List (StatementCosts α)) :
    Except (SelectionError α) (List Index × List (StatementCosts α)) :=
  match config.spaceBudget, config.pruneOversized with
  | some budget, true =>
    let fitting := pool.filter fun index => decide ((index.size : α) ≤ budget)
    let restricted := queries.map (·.retain (isWithin (fitting.map (·.key))))
    if restricted.any (·.plans.isEmpty) then .error (.noSolution (some budget))
    else .ok (fitting, restricted)
  | _, _ => .ok (pool, queries)

/-! ## Building problems -/

/-- The variable of a key among those of the candidates: the position of the last that has it. -/
def variableOf? (keys : List String) (key : String) : Option Nat := keys.zipIdx.reverse.lookup key

/-- The candidates that are chosen: those whose keys have variables that are true. -/
def chosenBy (candidates : List Index) (value : Nat → Bool) : List Index :=
  let keys := candidates.map (·.key)
  candidates.filter fun i => (variableOf? keys i.key).any value

/-- The support queries with the plans over the given keys; `none` where one has none. -/
def supportOver (keys : List String) (entry : MaintenanceCosts α) :
    Option (List (StatementCosts α)) :=
  entry.support.bind fun costs => costs.mapM fun c =>
    let restricted := c.retain (isWithin keys)
    if restricted.plans.isEmpty then none else some restricted

/-- The upkeep of the candidates of the given keys, by numbered maintenance entries; the
    variables of support plans follow each other from `next` on. -/
def upkeepOf (keys : List String) (next : Nat) :
    List (MaintenanceCosts α × Nat) → List (Upkeep α)
  | [] => []
  | (entry, n) :: rest =>
    match variableOf? keys entry.maintenance.index.key with
    | none => upkeepOf keys next rest
    | some index =>
      let support := (supportOver keys entry).map fun costs =>
        Choice.number next (costs.zipIdx.map fun (c, s) => (s!"u{n}_s{s}", c))
      ⟨s!"u{n}", entry.maintenance, index, support⟩ ::
        upkeepOf keys (next + Choice.total (support.getD [])) rest

/-- The problem of choosing among candidates for queries and maintenance with the given
    costs. -/
def build (indexes : List Index) (queries : List (StatementCosts α))
    (maintenance : List (MaintenanceCosts α)) (config : SelectionConfig α) :
    Except (SelectionError α) (SelectionProblem α) := do
  let (candidates, queries) ← withinBudget config (Index.pool indexes) queries
  let candidates := reachable candidates queries maintenance
  let choices := Choice.number candidates.length (queries.zipIdx.map fun (c, n) => (s!"q{n}", c))
  let upkeep := upkeepOf (candidates.map (·.key)) (candidates.length + Choice.total choices)
    maintenance.zipIdx
  return ⟨candidates, choices, upkeep, config.spaceBudget⟩

/-! ## The program -/

/-- The cost of maintaining the indexes of a variable. -/
def upkeepCost (problem : SelectionProblem α) (index : Nat) : α :=
  (problem.upkeep.filter (·.index == index)).foldl
    (fun sum u => sum + u.maintenance.weightedCost) Scalar.zero

/-- The variables of the plans of a choice. -/
def planVariables (c : Choice α) : List (Variable α) :=
  c.plans.zipIdx.map fun (p, i) => ⟨s!"{c.label}_p{i}", p.attributedCost⟩

/-- The support choices of all maintained indexes. -/
def supportChoices (problem : SelectionProblem α) : List (Choice α) :=
  problem.upkeep.flatMap fun u => u.support.getD []

/-- The variables of the program: of the indexes, the query plans and the support plans. -/
def vars (problem : SelectionProblem α) : List (Variable α) :=
  problem.indexes.zipIdx.map (fun (i, v) => ⟨s!"index_{i.key}", problem.upkeepCost v⟩)
    ++ (problem.queries ++ problem.supportChoices).flatMap planVariables

/-- The constraints that a plan which is taken has its indexes chosen. -/
def usesRows (problem : SelectionProblem α) (c : Choice α) : List (Constraint α) :=
  let keys := problem.indexes.map (·.key)
  c.plans.zipIdx.flatMap fun (p, i) =>
    (SortedSet.ofList (p.lookedUp.map (·.key))).toList.filterMap fun key =>
      (variableOf? keys key).map fun v =>
        ⟨s!"{c.label}_p{i}_uses_{key}",
          [(c.first + i, Scalar.one), (v, Scalar.zero - Scalar.one)], .atMost, Scalar.zero⟩

/-- The plans of a choice, each counted once. -/
def planTerms (c : Choice α) : List (Nat × α) := c.numbered.map fun (_, v) => (v, Scalar.one)

/-- The constraints of a query: one plan is taken, with its indexes. -/
def queryRows (problem : SelectionProblem α) (c : Choice α) : List (Constraint α) :=
  problem.usesRows c ++ [⟨s!"{c.label}_one_plan", planTerms c, .exactly, Scalar.one⟩]

/-- The constraints of a support query: one plan is taken, with its indexes, if the maintained
    index is chosen. -/
def supportRows (problem : SelectionProblem α) (index : Nat) (c : Choice α) :
    List (Constraint α) :=
  problem.usesRows c ++
    [⟨s!"{c.label}_iff_index", planTerms c ++ [(index, Scalar.zero - Scalar.one)], .exactly,
      Scalar.zero⟩]

/-- The constraints of a maintained index. -/
def upkeepRows (problem : SelectionProblem α) (u : Upkeep α) : List (Constraint α) :=
  match u.support with
  | some choices => choices.flatMap (problem.supportRows u.index)
  | none => [⟨s!"{u.label}_unsupported", [(u.index, Scalar.one)], .atMost, Scalar.zero⟩]

/-- The sizes of the candidates, each with the variable of its key. -/
def sizeTerms (candidates : List Index) : List (Nat × α) :=
  let keys := candidates.map (·.key)
  candidates.filterMap fun i => (variableOf? keys i.key).map (·, i.size)

/-- The constraint of the budget. -/
def budgetRows (problem : SelectionProblem α) : List (Constraint α) :=
  problem.budget.toList.map fun budget =>
    ⟨"space_budget", sizeTerms problem.indexes, .atMost, budget⟩

/-- The zero-one program of the problem. -/
def program (problem : SelectionProblem α) : Program α :=
  Program.ofParts problem.vars
    (problem.queries.flatMap problem.queryRows ++ problem.upkeep.flatMap problem.upkeepRows
      ++ problem.budgetRows)

/-! ## Solving -/

/-- The plans that an assignment takes for the queries; an error where it takes none for one. -/
def plansOf (problem : SelectionProblem α) (a : Assignment α) :
    Except (SelectionError α) (List (Plan α)) :=
  problem.queries.mapM fun c =>
    match c.selected? a with
    | some p => .ok p
    | none => .error (.internal (.planMissing c.query.text))

/-- The update plans of the maintained indexes that an assignment chooses. -/
def updatePlansOf (problem : SelectionProblem α) (a : Assignment α) : List (UpdatePlan α) :=
  (problem.upkeep.filter fun u => a.value u.index).map fun u =>
    ⟨u.maintenance.statement, u.maintenance.index,
      (u.support.getD []).filterMap (·.selected? a), u.maintenance.steps⟩

/-- The design that an assignment stands for. -/
def designOf (problem : SelectionProblem α) (a : Assignment α) :
    Except (SelectionError α) (Design α) := do
  let plans ← problem.plansOf a
  return {
    indexes := chosenBy problem.indexes a.value
    plans
    updates := problem.updatePlansOf a
    budget := problem.budget
    objective := a.objective }

/-- The design that a solver finds. -/
@[inline] def solve (problem : SelectionProblem α) (solver : Solver α) :
    Except (SelectionError α) (Design α) := do
  match solver problem.program with
  | .error .infeasible => .error (.noSolution problem.budget)
  | .error (.nodeLimit nodes) => .error (.solverLimit nodes)
  | .ok a =>
    let design ← problem.designOf a
    design.validate
    return design

end SelectionProblem

end IndexDesign
