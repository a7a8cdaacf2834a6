import IndexDesign.Toml.Value

/-! # TOML scalars — numbers, flags, dates and quoted texts

    An unquoted scalar is read as a whole and then classified by its form.  A
    quoted text is read character by character; each reader returns the text
    with what follows its closing quote. -/

namespace IndexDesign.Toml

-- Powers are the built-in ones, whatever other instances are in sight.
attribute [local instance (high)] instPowNat

/-! ## Numbers -/

/-- Whether the characters are digits in groups between single underscores. -/
def groupedDigits (isDigit : Char → Bool) : List Char → Bool
  | [] => false
  | [c] => isDigit c
  | c :: '_' :: rest => isDigit c && groupedDigits isDigit rest
  | c :: rest => isDigit c && groupedDigits isDigit rest

/-- The value of a digit in bases up to sixteen. -/
def digitValue (c : Char) : Nat :=
  if c.isDigit then c.toNat - '0'.toNat
  else c.toLower.toNat - 'a'.toNat + 10

/-- The number that digits write in a base; underscores are passed over. -/
def digitsValue (base : Nat) (cs : List Char) : Nat :=
  (cs.filter (· != '_')).foldl (fun n c => base * n + digitValue c) 0

/-- Whether the character is a digit of the base. -/
def isDigitOf (base : Nat) (c : Char) : Bool :=
  (c.isDigit || c.isAlpha) && decide (digitValue c < base)

/-- The sign in front of a number, and the rest. -/
def splitSign : List Char → Option Bool × List Char
  | '+' :: rest => (some false, rest)
  | '-' :: rest => (some true, rest)
  | rest => (none, rest)

/-- Whether the characters are the whole part of a decimal number, without needless leading
    zeros.  Only after a sign may an underscore come first, and zeros may follow it. -/
def isDecimal (signed : Bool) : List Char → Bool
  | '_' :: digits => signed && groupedDigits Char.isDigit digits
  | digits => groupedDigits Char.isDigit digits && (digits.head? != some '0' || digits.length == 1)

/-- An integer as a value; it has to fit into 128 bits, with or without a sign. -/
def integerValue (n : Int) : Value :=
  if -2 ^ (127 : Nat) ≤ n ∧ n < 2 ^ (128 : Nat) then .integer n else .unreadable

/-- The value of digits after the mark of their base; without digits it cannot be read. -/
def based? (base : Nat) (digits : List Char) : Option Value :=
  if digits.isEmpty then some .unreadable
  else if groupedDigits (isDigitOf base) digits then some (integerValue (digitsValue base digits))
  else none

/-- The value of an integer of the given form. -/
def integer? (cs : List Char) : Option Value :=
  match cs with
  | '0' :: 'x' :: digits => based? 16 digits
  | '0' :: 'o' :: digits => based? 8 digits
  | '0' :: 'b' :: digits => based? 2 digits
  | _ =>
    let (sign, digits) := splitSign cs
    if isDecimal sign.isSome digits then
      let n : Int := digitsValue 10 digits
      some (integerValue (if sign = some true then -n else n))
    else none

/-- Whether each underscore stands between two digits of base sixteen. -/
def joinsDigits : List Char → Bool
  | [] => true
  | '_' :: _ => false
  | c :: '_' :: rest => isDigitOf 16 c && rest.head?.any (isDigitOf 16) && joinsDigits rest
  | _ :: rest => joinsDigits rest

/-- Whether the characters are taken for a decimal integer that cannot be read.  They begin with
    digits and an underscore, or with a sign and an underscore, and all their underscores join
    digits of base sixteen; the other characters may be any but those of floats and the space. -/
def isBrokenInteger (cs : List Char) : Bool :=
  let (sign, body) := splitSign cs
  let joins := match body with
    | '_' :: rest => sign.isSome && rest.head?.any (isDigitOf 16) && joinsDigits rest
    | '0' :: _ => false
    | c :: rest =>
      c.isDigit && (rest.dropWhile Char.isDigit).head? == some '_' && joinsDigits body
    | [] => false
  joins && body.all fun c => !(c == '.' || c == 'e' || c == 'E' || c == ' ')

/-- The exponent after the letter, with its sign. -/
def exponent? (cs : List Char) : Option Int :=
  let (sign, digits) := splitSign cs
  if groupedDigits Char.isDigit digits then
    let n : Int := digitsValue 10 digits
    some (if sign = some true then -n else n)
  else none

/-- The float nearest to digits times a power of ten, as a value. -/
def floatValue (negative : Bool) (digits : Nat) (exponent : Int) : Value :=
  let places := exponent + (Nat.toDigits 10 digits).length
  let magnitude :=
    if digits = 0 ∨ places < -400 then 0
    else if 400 < places then 1 / 0
    else Float.ofScientific digits (decide (exponent < 0)) exponent.natAbs
  if magnitude.isInf then .unreadable else .float (if negative then -magnitude else magnitude)

/-- The value of a float of the given form: a decimal with a fraction, an exponent or both, or
    a name of infinity or of no number. -/
def float? (cs : List Char) : Option Value :=
  let (sign, body) := splitSign cs
  let negative := sign == some true
  if body = ['i', 'n', 'f'] then some (.float (if negative then -1.0 / 0.0 else 1.0 / 0.0))
  else if body = ['n', 'a', 'n'] then some (.float (0.0 / 0.0))
  else
    let isExponent (c : Char) : Bool := c == 'e' || c == 'E'
    let mantissa := body.takeWhile (! isExponent ·)
    let exponent : Option Int :=
      match body.dropWhile (! isExponent ·) with
      | [] => some 0
      | _ :: digits => exponent? digits
    let whole := mantissa.takeWhile (· != '.')
    match exponent, mantissa.dropWhile (· != '.') with
    | none, _ => none
    | some e, [] =>
      if isDecimal sign.isSome whole && whole.length < body.length
      then some (floatValue negative (digitsValue 10 whole) e) else none
    | some e, _ :: fraction =>
      if isDecimal sign.isSome whole && groupedDigits Char.isDigit fraction then
        let places := (fraction.filter (· != '_')).length
        some (floatValue negative (digitsValue 10 (whole ++ fraction)) (e - places))
      else none

/-! ## Dates and times -/

/-- Whether the characters follow the pattern, where `0` stands for any digit. -/
def matchesPattern : (pattern cs : List Char) → Bool
  | [], [] => true
  | '0' :: pattern, c :: cs => c.isDigit && matchesPattern pattern cs
  | p :: pattern, c :: cs => p == c && matchesPattern pattern cs
  | _, _ => false

/-- The number of days of a month. -/
def daysOf (year month : Nat) : Nat :=
  let leap := year % 4 == 0 && (year % 100 != 0 || year % 400 == 0)
  if month = 2 then if leap then 29 else 28
  else if month = 4 ∨ month = 6 ∨ month = 9 ∨ month = 11 then 30
  else 31

/-- The number that some of the characters write, counted from a position. -/
def numberAt (cs : List Char) (start length : Nat) : Nat :=
  digitsValue 10 ((cs.drop start).take length)

/-- Whether the characters are a date of the calendar. -/
def isDate (cs : List Char) : Bool :=
  let month := numberAt cs 5 2
  let day := numberAt cs 8 2
  matchesPattern ['0', '0', '0', '0', '-', '0', '0', '-', '0', '0'] cs
    && decide (1 ≤ month) && decide (month ≤ 12)
    && decide (1 ≤ day) && decide (day ≤ daysOf (numberAt cs 0 4) month)

/-- Whether the characters are hours and minutes. -/
def isHourMinute (cs : List Char) : Bool :=
  matchesPattern ['0', '0', ':', '0', '0'] cs
    && decide (numberAt cs 0 2 ≤ 23) && decide (numberAt cs 3 2 ≤ 59)

/-- Whether the characters are the seconds of a time after a colon, with or without a fraction.
    A minute may have a leap second. -/
def isSeconds (cs : List Char) : Bool :=
  matchesPattern [':', '0', '0'] (cs.take 3) && decide (numberAt cs 1 2 ≤ 60)
    && (match cs.drop 3 with
      | [] => true
      | '.' :: digits => !digits.isEmpty && digits.all Char.isDigit
      | _ => false)

/-- Whether the characters are a time of day, with or without seconds. -/
def isTime (cs : List Char) : Bool :=
  isHourMinute (cs.take 5) && ((cs.drop 5).isEmpty || isSeconds (cs.drop 5))

/-- Whether the characters are a time of day with the offset of a zone, if any. -/
def isZonedTime (cs : List Char) : Bool :=
  let inTime (c : Char) : Bool := c.isDigit || c == ':' || c == '.'
  isTime (cs.takeWhile inTime)
    && (match cs.dropWhile inTime with
      | [] | ['Z'] | ['z'] => true
      | '+' :: zone | '-' :: zone => isHourMinute zone
      | _ => false)

/-- Whether the characters are a date, a time, or both. -/
def isMoment (cs : List Char) : Bool :=
  isDate cs || isTime cs
    || isDate (cs.take 10) && isZonedTime (cs.drop 11)
      && ((cs.drop 10).head? == some 'T' || (cs.drop 10).head? == some 't'
        || (cs.drop 10).head? == some ' ')

/-- The value of an unquoted scalar. -/
def scalar? (cs : List Char) : Option Value :=
  if cs = ['t', 'r', 'u', 'e'] then some (.flag true)
  else if cs = ['f', 'a', 'l', 's', 'e'] then some (.flag false)
  else integer? cs
    |>.or (float? cs)
    |>.or (if isMoment cs then some .moment else none)
    |>.or (if isBrokenInteger cs then some .unreadable else none)

/-! ## Quoted texts -/

/-- Whether a character may stand in a text as it is; a tab is the only control character. -/
def isPlain (c : Char) : Bool :=
  c == '\t' || decide (' ' ≤ c) && c != '\x7f'

/-- The character with the given code. -/
def ofCode? (digits : List Char) : Option Char :=
  let code := digitsValue 16 digits
  if h : digits.all (isDigitOf 16) = true ∧ code.isValidChar then some ⟨code.toUInt32, by
    have h := h.2
    simpa [UInt32.isValidChar, Nat.toUInt32, Nat.mod_eq_of_lt (show code < 4294967296 by
      rcases h with h | h <;> omega)] using h⟩
  else none

/-- The character of a one-letter escape. -/
def escaped? : Char → Option Char
  | 'b' => some '\x08'
  | 'e' => some '\x1b'
  | 't' => some '\t'
  | 'n' => some '\n'
  | 'f' => some '\x0c'
  | 'r' => some '\r'
  | '"' => some '"'
  | '\\' => some '\\'
  | _ => none

/-- A text in double quotes on one line, after its opening quote. -/
def quoted (acc : List Char) : List Char → Option (List Char × List Char)
  | [] => none
  | '"' :: rest => some (acc.reverse, rest)
  | '\\' :: 'x' :: a :: b :: rest => do
    let char ← ofCode? [a, b]
    quoted (char :: acc) rest
  | '\\' :: 'u' :: a :: b :: c :: d :: rest => do
    let char ← ofCode? [a, b, c, d]
    quoted (char :: acc) rest
  | '\\' :: 'U' :: a :: b :: c :: d :: e :: f :: g :: h :: rest => do
    let char ← ofCode? [a, b, c, d, e, f, g, h]
    quoted (char :: acc) rest
  | '\\' :: c :: rest => do
    let char ← escaped? c
    quoted (char :: acc) rest
  | c :: rest => if isPlain c then quoted (c :: acc) rest else none

/-- A text in single quotes on one line, after its opening quote. -/
def literal (acc : List Char) : List Char → Option (List Char × List Char)
  | [] => none
  | '\'' :: rest => some (acc.reverse, rest)
  | c :: rest => if isPlain c then literal (c :: acc) rest else none

/-- The characters after leading blanks and line breaks. -/
def skipBlankLines : List Char → List Char
  | ' ' :: rest | '\t' :: rest | '\n' :: rest | '\r' :: '\n' :: rest => skipBlankLines rest
  | rest => rest

/-- A text between triple quotes, after the opening quotes; up to two quotes may stand
    before the closing ones.  Line breaks are kept as they are written.  A backslash at the
    end of a line takes the line break and the blanks after it away. -/
def multiline (quote : Char) : (fuel : Nat) → (acc cs : List Char) →
    Option (List Char × List Char)
  | 0, _, _ => none
  | _, _, [] => none
  | fuel + 1, acc, '\r' :: '\n' :: rest => multiline quote fuel ('\n' :: '\r' :: acc) rest
  | fuel + 1, acc, '\n' :: rest => multiline quote fuel ('\n' :: acc) rest
  | fuel + 1, acc, c :: rest =>
    if c = quote then
      let quotes := (c :: rest).takeWhile (· == quote)
      let rest := (c :: rest).dropWhile (· == quote)
      if quotes.length < 3 then multiline quote fuel (quotes ++ acc) rest
      else if quotes.length ≤ 5 then some ((quotes.drop 3 ++ acc).reverse, rest)
      else none
    else if c = '\\' ∧ quote = '"' then
      match rest with
      | 'x' :: a :: b :: rest => do
        let char ← ofCode? [a, b]
        multiline quote fuel (char :: acc) rest
      | 'u' :: a :: b :: c :: d :: rest => do
        let char ← ofCode? [a, b, c, d]
        multiline quote fuel (char :: acc) rest
      | 'U' :: a :: b :: c :: d :: e :: f :: g :: h :: rest => do
        let char ← ofCode? [a, b, c, d, e, f, g, h]
        multiline quote fuel (char :: acc) rest
      | c :: rest =>
        match escaped? c with
        | some char => multiline quote fuel (char :: acc) rest
        | none =>
          let blank (c : Char) : Bool := c == ' ' || c == '\t'
          let afterBlanks := (c :: rest).dropWhile blank
          let breaks := match afterBlanks with
            | '\n' :: _ | '\r' :: '\n' :: _ => true
            | _ => false
          if breaks then multiline quote fuel acc (skipBlankLines afterBlanks) else none
      | [] => none
    else if isPlain c then multiline quote fuel (c :: acc) rest
    else none

/-- A text between triple quotes; a line break right after the opening quotes is dropped. -/
def multilineText (quote : Char) (cs : List Char) : Option (List Char × List Char) :=
  let body := match cs with
    | '\n' :: rest => rest
    | '\r' :: '\n' :: rest => rest
    | rest => rest
  multiline quote (body.length + 1) [] body

end IndexDesign.Toml
