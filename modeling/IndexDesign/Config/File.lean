import IndexDesign.Config.Basic
import IndexDesign.DesignError
import IndexDesign.Toml.Document
import IndexDesign.Toml.Text

/-! # Configuration files — configurations as TOML documents

    A document has one table for each section of the configuration.  What a
    document leaves out keeps its standard value.  Names that no section knows
    are passed over, as long as the numbers under them can be read.  A section
    may also be a list of its values in the order of their names, where further
    items are not looked at, or a date, which says nothing.  Writing leaves out
    the options that are not set. -/

namespace IndexDesign.Config

open Toml (Value)

-- Powers are the built-in ones, whatever other instances are in sight.
attribute [local instance (high)] instPowNat

/-! ## Reading -/

/-- The values of a section: a table's by name, a list's by the position of the name. -/
abbrev Section := String → Option Value

/-- The section of a value, whose entries have the given names in order. -/
def sectionOf (names : List String) : Option Value → Option Section
  | none | some .moment => some fun _ => none
  | some (.table _ entries) =>
    if Toml.entriesReadable entries then some fun name => entries.lookup name else none
  | some (.list items) => some fun name => (names.findIdx? (· == name)).bind (items[·]?)
  | some _ => none

/-- A count, which is at most 2⁶⁴ − 1. -/
def count? : Value → Option Nat
  | .integer n => if 0 ≤ n ∧ n < 2 ^ (64 : Nat) then some n.toNat else none
  | _ => none

/-- A number, which may be written as an integer between −2⁶³ and 2⁶⁴ − 1. -/
def number? : Value → Option Float
  | .float x => some x
  | .integer n =>
    if -2 ^ (63 : Nat) ≤ n ∧ n < 2 ^ (64 : Nat) then
      some (if n < 0 then -Float.ofNat n.natAbs else Float.ofNat n.natAbs)
    else none
  | _ => none

/-- A flag. -/
def flag? : Value → Option Bool
  | .flag b => some b
  | _ => none

/-- A text. -/
def text? : Value → Option String
  | .text s => some s
  | _ => none

/-- The value of a name as `read` takes it, or the standard one where the section has none. -/
def Section.value {β : Type} (s : Section) (name : String) (read : Value → Option β)
    (standard : β) : Option β :=
  match s name with
  | some v => read v
  | none => some standard

/-- The planning section. -/
def planningOf (v : Option Value) : Option (PlanningConfig Float) := do
  let s ← sectionOf ["max_index_lookups", "cost_ratio", "parallel_threshold"] v
  let standard : PlanningConfig Float := {}
  return {
    maxLookups := ← s.value "max_index_lookups" (fun v => (count? v).map some) standard.maxLookups
    costRatio := ← s.value "cost_ratio" (fun v => (number? v).map some) standard.costRatio
    parallelThreshold := ← s.value "parallel_threshold" count? standard.parallelThreshold }

/-- The selection section. -/
def selectionOf (v : Option Value) : Option (SelectionConfig Float) := do
  let s ← sectionOf ["space_budget", "cost_tolerance", "max_nodes", "prune_oversized"] v
  let standard : SelectionConfig Float := .standard
  return {
    spaceBudget := ← s.value "space_budget" (fun v => (number? v).map some) standard.spaceBudget
    costTolerance := ← s.value "cost_tolerance" number? standard.costTolerance
    maxNodes := ← s.value "max_nodes" count? standard.maxNodes
    pruneOversized := ← s.value "prune_oversized" flag? standard.pruneOversized }

/-- The section of unit costs. -/
def unitCostsOf (v : Option Value) : Option (UnitCosts Float) := do
  let standard : UnitCosts Float := .standard
  let names := standard.named.map (·.1)
  let s ← sectionOf names v
  names.foldlM (fun costs name =>
    match s name with
    | some v => (number? v).map (costs.replace name)
    | none => some costs) standard

/-- The logging section. -/
def logOf (v : Option Value) : Option LogConfig := do
  let s ← sectionOf ["level", "dir", "file", "max_file_size", "max_files"] v
  let standard : LogConfig := {}
  return {
    level := ← s.value "level" text? standard.level
    directory := ← s.value "dir" text? standard.directory
    file := ← s.value "file" text? standard.file
    maxFileSize := ← s.value "max_file_size" count? standard.maxFileSize
    maxFiles := ← s.value "max_files" count? standard.maxFiles }

/-- The names of the sections. -/
def sectionNames : List String := ["planner", "optimizer", "cost", "log"]

/-- The entries of a document that are no section. -/
def unknownEntries (document : Toml.Table) : Toml.Table :=
  document.filter fun (name, _) => !sectionNames.contains name

/-- The configuration that a document describes. -/
def ofText? (text : String) : Option (Config Float) := do
  let document ← Toml.parse text
  guard (Toml.entriesReadable (unknownEntries document))
  return {
    planning := ← planningOf (document.get? "planner")
    selection := ← selectionOf (document.get? "optimizer")
    cost := ← unitCostsOf (document.get? "cost")
    log := ← logOf (document.get? "log") }

/-- The configuration in a file's text, or why it is refused; a file that does not exist has
    no text. -/
def load : Option String → Except (DesignError Float) (Config Float)
  | none => .error .file
  | some text =>
    match ofText? text with
    | none => .error (.configuration .malformedText)
    | some config =>
      match config.fault? with
      | some fault => .error (.configuration fault)
      | none => .ok config

/-! ## Writing -/

/-- The document that describes the configuration. -/
def text (c : Config Float) : String :=
  let number (name : String) (n : Nat) : String := Toml.entry name (toString n)
  let float (name : String) (x : Float) : String := Toml.entry name (Toml.writeFloat x)
  let string (name : String) (s : String) : String := Toml.entry name (Toml.writeText s)
  let planning := Toml.tableText "planner"
    [c.planning.maxLookups.elim "" (number "max_index_lookups"),
      c.planning.costRatio.elim "" (float "cost_ratio"),
      number "parallel_threshold" c.planning.parallelThreshold]
  let selection := Toml.tableText "optimizer"
    [c.selection.spaceBudget.elim "" (float "space_budget"),
      float "cost_tolerance" c.selection.costTolerance,
      number "max_nodes" c.selection.maxNodes,
      Toml.entry "prune_oversized" (Toml.writeFlag c.selection.pruneOversized)]
  let cost := Toml.tableText "cost" (c.cost.named.map fun (name, x) => float name x)
  let log := Toml.tableText "log"
    [string "level" c.log.level, string "dir" c.log.directory, string "file" c.log.file,
      number "max_file_size" c.log.maxFileSize, number "max_files" c.log.maxFiles]
  "\n".intercalate [planning, selection, cost, log]

end IndexDesign.Config
