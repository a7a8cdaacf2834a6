import IndexDesign.Toml.Scalar

/-! # TOML documents — from a text to its table

    A document is read line by line: a line is blank, names a table in
    brackets, or gives a key a value.  A value that spans lines takes them with
    it.  Reading fails where the text is no document, says something twice or
    nests too deep. -/

namespace IndexDesign.Toml

/-- Whether the character is a blank within a line. -/
def isBlank (c : Char) : Bool := c == ' ' || c == '\t'

/-- The characters after leading blanks. -/
def skipBlanks (cs : List Char) : List Char := cs.dropWhile isBlank

/-- The characters after a comment, up to the line break; a comment holds no control
    characters. -/
def skipComment (cs : List Char) : Option (List Char) :=
  match cs with
  | '#' :: rest =>
    let line := rest.takeWhile (· != '\n')
    let next := rest.dropWhile (· != '\n')
    let comment := if !next.isEmpty && line.getLast? == some '\r' then line.dropLast else line
    if comment.all isPlain then some next else none
  | rest => some rest

/-- What follows the end of the line, which may hold blanks and a comment. -/
def endLine (cs : List Char) : Option (List Char) := do
  match ← skipComment (skipBlanks cs) with
  | [] => some []
  | '\n' :: rest => some rest
  | '\r' :: '\n' :: rest => some rest
  | _ => none

/-- What follows blanks, line breaks and comments. -/
def skipLines : (fuel : Nat) → List Char → Option (List Char)
  | 0, cs => some cs
  | fuel + 1, cs => do
    match ← skipComment (skipBlanks cs) with
    | '\n' :: rest => skipLines fuel rest
    | '\r' :: '\n' :: rest => skipLines fuel rest
    | rest => some rest

/-! ## Keys -/

/-- Whether the character may stand in an unquoted key. -/
def isBareKey (c : Char) : Bool := c.isAlphanum || c == '_' || c == '-'

/-- One part of a key. -/
def keyPart (cs : List Char) : Option (String × List Char) :=
  match cs with
  | '"' :: rest => (quoted [] rest).map fun (name, rest) => (String.ofList name, rest)
  | '\'' :: rest => (literal [] rest).map fun (name, rest) => (String.ofList name, rest)
  | _ =>
    let name := cs.takeWhile isBareKey
    if name.isEmpty then none else some (String.ofList name, cs.dropWhile isBareKey)

/-- A key of at most `parts` parts between points. -/
def keyWithin : (parts : Nat) → List Char → Option (List String × List Char)
  | 0, _ => none
  | parts + 1, cs => do
    let (name, rest) ← keyPart (skipBlanks cs)
    match skipBlanks rest with
    | '.' :: rest =>
      let (names, rest) ← keyWithin parts rest
      return (name :: names, rest)
    | rest => return ([name], rest)

/-- How many parts a key may have, and how deep lists and tables in braces may nest. -/
def maxDepth : Nat := 80

/-- A key of parts between points. -/
def key (cs : List Char) : Option (List String × List Char) := keyWithin maxDepth cs

/-! ## Values -/

/-- Whether the character ends an unquoted scalar. -/
def endsScalar (c : Char) : Bool :=
  ['=', ',', '[', ']', '\x7b', '\x7d', '#', '\n', '\r'].contains c

/-- An unquoted scalar.  It may have blanks within it, as between a date and a time, but not at
    its end. -/
def unquoted (cs : List Char) : Option (Value × List Char) :=
  let scalar := ((cs.takeWhile (! endsScalar ·)).reverse.dropWhile isBlank).reverse
  (scalar? scalar).map (·, cs.dropWhile (! endsScalar ·))

mutual

/-- A value, and what follows it; `depth` more brackets and braces may be opened in it. -/
def value : (fuel depth : Nat) → List Char → Option (Value × List Char)
  | 0, _, _ => none
  | fuel + 1, depth, cs =>
    let text (s : List Char) : Value := .text (String.ofList s)
    match cs with
    | '"' :: '"' :: '"' :: rest => (multilineText '"' rest).map fun (s, rest) => (text s, rest)
    | '\'' :: '\'' :: '\'' :: rest => (multilineText '\'' rest).map fun (s, rest) => (text s, rest)
    | '"' :: rest => (quoted [] rest).map fun (s, rest) => (text s, rest)
    | '\'' :: rest => (literal [] rest).map fun (s, rest) => (text s, rest)
    | '[' :: rest => if depth = 0 then none else items fuel (depth - 1) [] rest
    | '\x7b' :: rest => if depth = 0 then none else members fuel (depth - 1) [] rest
    | _ => unquoted cs

/-- The items of a list after its opening bracket; the last may be followed by a comma. -/
def items : (fuel depth : Nat) → (acc : List Value) → List Char → Option (Value × List Char)
  | 0, _, _, _ => none
  | fuel + 1, depth, acc, cs => do
    match ← skipLines cs.length cs with
    | ']' :: rest => return (.list acc.reverse, rest)
    | cs =>
      let (item, rest) ← value fuel depth cs
      match ← skipLines rest.length rest with
      | ',' :: rest => items fuel depth (item :: acc) rest
      | ']' :: rest => return (.list (item :: acc).reverse, rest)
      | _ => none

/-- The entries of a table after its opening brace; the last may be followed by a comma.  Only
    the parts of a key have to stand on one line. -/
def members : (fuel depth : Nat) → (acc : Table) → List Char → Option (Value × List Char)
  | 0, _, _, _ => none
  | fuel + 1, depth, acc, cs => do
    match ← skipLines cs.length cs with
    | '\x7d' :: rest => return (.table .inlined acc, rest)
    | cs =>
      let (names, rest) ← key cs
      match ← skipLines rest.length rest with
      | '=' :: rest =>
        let (v, rest) ← value fuel depth (← skipLines rest.length rest)
        let acc ← acc.define true names v
        match ← skipLines rest.length rest with
        | ',' :: rest => members fuel depth acc rest
        | '\x7d' :: rest => return (.table .inlined acc, rest)
        | _ => none
      | _ => none

end

/-! ## Lines -/

/-- A header's path of names after its opening brackets, up to `closing`. -/
def header (closing : List Char) (cs : List Char) : Option (List String × List Char) := do
  let (names, rest) ← key cs
  if closing.isPrefixOf rest then return (names, ← endLine (rest.drop closing.length)) else none

/-- The table after the remaining lines; `current` is the path of the table that keys go
    to. -/
def lines : (fuel : Nat) → (document : Table) → (current : List String) → List Char →
    Option Table
  | 0, _, _, _ => none
  | fuel + 1, document, current, cs => do
    match ← skipLines cs.length cs with
    | [] => return document
    | '[' :: '[' :: rest =>
      let (names, rest) ← header [']', ']'] rest
      let document ← document.changeAt (Table.openElement (names.getLastD "")) names.dropLast
      lines fuel document names rest
    | '[' :: rest =>
      let (names, rest) ← header [']'] rest
      let document ← document.changeAt (Table.openTable (names.getLastD "")) names.dropLast
      lines fuel document names rest
    | cs =>
      let (names, rest) ← key cs
      match rest with
      | '=' :: rest =>
        let (v, rest) ← value rest.length maxDepth (skipBlanks rest)
        let rest ← endLine rest
        let document ← document.changeAt (fun t => t.define true names v) current
        lines fuel document current rest
      | _ => none

/-- The table of a document. -/
def parse (text : String) : Option Table :=
  let cs := text.toList
  let cs := if cs.head? = some '\uFEFF' then cs.drop 1 else cs
  lines (cs.length + 1) [] [] cs

end IndexDesign.Toml
