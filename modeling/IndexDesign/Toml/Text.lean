import IndexDesign.Decimal.Text

/-! # Writing TOML — numbers, flags and texts as values

    A text is written in the first of these forms that holds it without
    escapes other than of tabs: double quotes, single quotes, triple double
    quotes, triple single quotes.  A text that none of them holds is escaped
    in double quotes, or in triple ones where it has line breaks. -/

namespace IndexDesign.Toml

/-- A float is written in full, with a fraction at least of zero. -/
def writeFloat (x : Float) : String :=
  if x.isNaN then "nan"
  else
    let digits := Decimal.shortestDouble x
    if x.isInf || digits.toList.contains '.' then digits else digits ++ ".0"

/-- A flag. -/
def writeFlag (b : Bool) : String := if b then "true" else "false"

/-- The length of the longest run of a character. -/
def longestRun (c : Char) (cs : List Char) : Nat :=
  (cs.foldl (fun (longest, run) d =>
    let run := if d = c then run + 1 else 0
    (max longest run, run)) ((0, 0) : Nat × Nat)).1

/-- Whether the character has to be escaped in every kind of quotes but those that span
    lines. -/
def isControl (c : Char) : Bool :=
  (decide (c < ' ') && c != '\t' && c != '\n') || c == '\x7f'

/-- The escape of a character in double quotes, other than of a double quote. -/
def escape (multiline : Bool) (c : Char) : String :=
  match c with
  | '\\' => "\\\\"
  | '\x08' => "\\b"
  | '\t' => "\\t"
  | '\n' => if multiline then "\n" else "\\n"
  | '\x0c' => "\\f"
  | '\r' => "\\r"
  | c =>
    if isControl c then
      let digits := (Nat.toDigits 16 c.toNat).map Char.toUpper
      "\\u" ++ String.ofList (List.replicate (4 - digits.length) '0' ++ digits)
    else c.toString

/-- The characters as they stand in double quotes, after `run` double quotes that are not
    escaped.  Two double quotes in a row may stand in triple quotes; any other is escaped. -/
def escapeAll (multiline : Bool) (run : Nat) : List Char → String
  | [] => ""
  | '"' :: cs =>
    if run < (if multiline then 2 else 0) then "\"" ++ escapeAll multiline (run + 1) cs
    else "\\\"" ++ escapeAll multiline 0 cs
  | c :: cs => escape multiline c ++ escapeAll multiline 0 cs

/-- A text as a value. -/
def writeText (s : String) : String :=
  let cs := s.toList
  let controls := cs.any isControl
  let breaks := cs.contains '\n'
  let backslash := cs.contains '\\'
  let doubles := longestRun '"' cs
  let singles := longestRun '\'' cs
  let opening := if breaks then "\n" else ""
  let inOneLine := "\"" ++ escapeAll false 0 cs ++ "\""
  let inLines := "\"\"\"" ++ opening ++ escapeAll true 0 cs ++ "\"\"\""
  if !controls && !backslash && doubles == 0 && !breaks then inOneLine
  else if !controls && singles == 0 && !breaks then "'" ++ s ++ "'"
  else if !controls && !backslash && doubles ≤ 2 then inLines
  else if !controls && singles ≤ 2 then "'''" ++ opening ++ s ++ "'''"
  else if breaks then inLines
  else inOneLine

/-- A line that gives a key a value. -/
def entry (name value : String) : String := name ++ " = " ++ value ++ "\n"

/-- A table under a header, with the lines of its entries. -/
def tableText (name : String) (entries : List String) : String :=
  "[" ++ name ++ "]\n" ++ String.join entries

end IndexDesign.Toml
