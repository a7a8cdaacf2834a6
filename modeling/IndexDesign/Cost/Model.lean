import IndexDesign.Index.Basic

/-! # Cost models — what the steps of a plan cost

    A cost model prices each kind of step from estimated row counts.  Two
    models are built in: one counts requests to the store, the other weighs
    requests, rows, bytes and work in memory by unit costs.  The logarithm of
    the sort price is a parameter, so that exact numbers can do without one. -/

namespace IndexDesign

/-- Prices for the steps of plans, the maintenance of indexes and their first build. -/
structure CostModel (α : Type) where
  name : String
  /-- Reading `rows` rows of an index by `lookups` partition lookups. -/
  lookup (index : Index) (lookups rows : α) : α
  /-- Testing rows in memory against conditions. -/
  filter (rows : α) (conditions : Nat) : α
  /-- Sorting rows in memory by a number of fields. -/
  sort (rows : α) (fields : Nat) : α
  /-- Cutting rows off at a limit. -/
  limit (rows : α) (limit : Nat) : α
  /-- Aggregating rows in memory. -/
  aggregate (rows : α) (aggregates groups : Nat) : α
  /-- Adding rows to an index. -/
  insert (index : Index) (rows : α) : α
  /-- Removing rows from an index. -/
  delete (index : Index) (rows : α) : α
  /-- Building an index. -/
  load (index : Index) : α

variable {α : Type} [Scalar α]

/-- Counts the requests to the store; work in memory is free. -/
def CostModel.requestCount : CostModel α where
  name := "request_count"
  lookup _ lookups _ := Scalar.max lookups Scalar.one
  filter _ _ := Scalar.zero
  sort _ _ := Scalar.zero
  limit _ _ := Scalar.zero
  aggregate _ _ _ := Scalar.zero
  insert _ rows := Scalar.max rows Scalar.one
  delete _ rows := Scalar.max rows Scalar.one
  load index := index.partitionCount

/-! ## Unit costs -/

/-- The prices of single operations. -/
structure UnitCosts (α : Type) where
  /-- A request to a partition. -/
  request : α
  /-- A row that is read. -/
  row : α
  /-- A byte that is moved. -/
  byte : α
  /-- A row that is tested or cut off in memory. -/
  cpuRow : α
  /-- A comparison in a sort. -/
  sortComparison : α
  /-- A row that enters one aggregate. -/
  aggregateRow : α
  /-- A row that is written or removed. -/
  writeRequest : α

namespace UnitCosts

/-- The prices for a store on spinning disks. -/
def standard : UnitCosts α where
  request := Scalar.one
  row := Scalar.decimal 1 2
  byte := Scalar.decimal 1 4
  cpuRow := Scalar.decimal 1 3
  sortComparison := Scalar.decimal 2 3
  aggregateRow := Scalar.decimal 2 3
  writeRequest := Scalar.ofCount 2

/-- The prices for a store on solid-state disks, where requests are cheaper. -/
def solidState : UnitCosts α :=
  { (standard : UnitCosts α) with
    request := Scalar.decimal 3 1
    writeRequest := Scalar.decimal 6 1 }

/-- The prices for a store in memory, where moving bytes is free. -/
def inMemory : UnitCosts α :=
  { (standard : UnitCosts α) with
    request := Scalar.decimal 5 2
    row := Scalar.decimal 1 3
    byte := Scalar.zero
    writeRequest := Scalar.decimal 1 1 }

/-- The prices under their names, in order. -/
def named (c : UnitCosts α) : List (String × α) :=
  [("request_cost", c.request), ("row_cost", c.row), ("byte_cost", c.byte),
    ("cpu_row_cost", c.cpuRow), ("sort_comparison_cost", c.sortComparison),
    ("aggregate_row_cost", c.aggregateRow), ("write_request_cost", c.writeRequest)]

/-- The prices with the one of the given name replaced. -/
def replace (c : UnitCosts α) (name : String) (cost : α) : UnitCosts α :=
  match name with
  | "request_cost" => { c with request := cost }
  | "row_cost" => { c with row := cost }
  | "byte_cost" => { c with byte := cost }
  | "cpu_row_cost" => { c with cpuRow := cost }
  | "sort_comparison_cost" => { c with sortComparison := cost }
  | "aggregate_row_cost" => { c with aggregateRow := cost }
  | "write_request_cost" => { c with writeRequest := cost }
  | _ => c

/-- The first price that is negative or not a number. -/
def firstNegative? (c : UnitCosts α) : Option (String × α) :=
  c.named.find? fun (_, cost) => !decide (Scalar.zero ≤ cost)

/-- The price of reading rows of an index. -/
def read (c : UnitCosts α) (index : Index) (rows : α) : α :=
  rows * (c.row + Scalar.ofCount index.entrySize * c.byte)

end UnitCosts

/-- Prices steps by unit costs; `log2` is the logarithm that counts the comparisons of a
    sort. -/
def CostModel.ofUnitCosts (log2 : α → α) (c : UnitCosts α) : CostModel α where
  name := "configured"
  lookup index lookups rows := Scalar.max lookups Scalar.one * c.request + c.read index rows
  filter rows conditions := rows * Scalar.ofCount (max conditions 1) * c.cpuRow
  sort rows fields :=
    let n := Scalar.max rows (Scalar.ofCount 2)
    n * log2 n * Scalar.ofCount (max fields 1) * c.sortComparison
  limit rows limit := Scalar.min rows (Scalar.ofCount limit) * c.cpuRow
  aggregate rows aggregates groups :=
    rows * Scalar.ofCount (max (aggregates + groups) 1) * c.aggregateRow
  insert index rows :=
    Scalar.max rows Scalar.one
      * (c.writeRequest + Scalar.ofCount index.entrySize * c.byte)
  delete _ rows := Scalar.max rows Scalar.one * c.writeRequest
  load index := index.partitionCount * c.writeRequest + c.read index index.entries

end IndexDesign
