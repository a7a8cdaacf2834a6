/-! # TOML values — texts, numbers, flags, lists and tables

    A table remembers how it came to be, since that decides what may still be
    added to it: a table written inline is closed, a table that a header names
    cannot be named by a second header, and a table that dotted keys made
    cannot be named by a header at all.

    A number of any size may be written, and an integer may break off into
    other characters, but a number that no number type holds cannot be read.
    It does no harm where it is not looked at. -/

namespace IndexDesign.Toml

/-- How a table was first written. -/
inductive Origin where
  /-- Only as the table above a named one. -/
  | implied
  /-- By a header of its own. -/
  | header
  /-- By the first parts of a dotted key. -/
  | dotted
  /-- In braces. -/
  | inlined
  deriving DecidableEq, Repr

/-- A value of a document. -/
inductive Value where
  | text (s : String)
  | integer (n : Int)
  | float (x : Float)
  /-- A number that is beyond all integers of 128 bits or all finite floats, or an integer that
      lacks digits or has other characters for them. -/
  | unreadable
  | flag (b : Bool)
  /-- A date or a time, which is not looked into. -/
  | moment
  | list (items : List Value)
  | table (origin : Origin) (entries : List (String × Value))
  /-- The tables that headers in double brackets name, the last one first. -/
  | tables (elements : List (List (String × Value)))

/-- The entries of a table, in the order in which they are written. -/
abbrev Table := List (String × Value)

namespace Table

/-- The entry of a name. -/
def get? (t : Table) (name : String) : Option Value := t.lookup name

/-- The table with the entry of a name replaced. -/
def replace (t : Table) (name : String) (v : Value) : Table :=
  t.map fun (n, old) => if n = name then (n, v) else (n, old)

/-- The table with one more entry under a dotted key.  The tables on the way are made; those
    that are there must have been made by dotted keys or be implied by headers, and on a list
    of tables the way leads into the last.  The entry itself must be new, and goes only into a
    table that is `accessible`: the one where the way begins or one that dotted keys made. -/
def define (accessible : Bool) (t : Table) : List String → Value → Option Table
  | [], _ => none
  | [name], v =>
    if accessible && (t.get? name).isNone then some (t ++ [(name, v)]) else none
  | name :: rest, v =>
    match t.get? name with
    | none => do
      let inner ← define true [] rest v
      return t ++ [(name, .table .dotted inner)]
    | some (.table .dotted inner) => do
      let inner ← define true inner rest v
      return t.replace name (.table .dotted inner)
    | some (.table .implied inner) => do
      let inner ← define false inner rest v
      return t.replace name (.table .implied inner)
    | some (.tables (last :: others)) => do
      let last ← define false last rest v
      return t.replace name (.tables (last :: others))
    | some _ => none

/-- The table with the table at a path changed.  Tables missing on the way are made; on a
    list of tables the way leads into the last. -/
def changeAt (t : Table) (change : Table → Option Table) : List String → Option Table
  | [] => change t
  | name :: rest =>
    match t.get? name with
    | none => do
      let inner ← changeAt [] change rest
      return t ++ [(name, .table .implied inner)]
    | some (.table .inlined _) => none
    | some (.table origin inner) => do
      let inner ← changeAt inner change rest
      return t.replace name (.table origin inner)
    | some (.tables (last :: others)) => do
      let last ← changeAt last change rest
      return t.replace name (.tables (last :: others))
    | some _ => none

/-- The table with a header's last name opened as a table. -/
def openTable (name : String) (t : Table) : Option Table :=
  match t.get? name with
  | none => some (t ++ [(name, .table .header [])])
  | some (.table .implied inner) => some (t.replace name (.table .header inner))
  | some _ => none

/-- The table with one more table under a header's last name. -/
def openElement (name : String) (t : Table) : Option Table :=
  match t.get? name with
  | none => some (t ++ [(name, .tables [[]])])
  | some (.tables elements) => some (t.replace name (.tables ([] :: elements)))
  | some _ => none

end Table

/-! ## Numbers that can be read -/

mutual

/-- Whether every number in the value can be read. -/
def Value.isReadable : Value → Bool
  | .unreadable => false
  | .list items => itemsReadable items
  | .table _ entries => entriesReadable entries
  | .tables elements => elementsReadable elements
  | _ => true

/-- Whether every number in the items of a list can be read. -/
def itemsReadable : List Value → Bool
  | [] => true
  | v :: rest => v.isReadable && itemsReadable rest

/-- Whether every number in the entries of a table can be read. -/
def entriesReadable : List (String × Value) → Bool
  | [] => true
  | (_, v) :: rest => v.isReadable && entriesReadable rest

/-- Whether every number in a list of tables can be read. -/
def elementsReadable : List (List (String × Value)) → Bool
  | [] => true
  | entries :: rest => entriesReadable entries && elementsReadable rest

end

end IndexDesign.Toml
