import TacticNotation.Toml.Value

/-!
# Strings, numbers and dates in TOML

A reader takes the characters that are left and gives what it read with the
characters after it, or nothing where the text is not TOML.
-/

namespace TacticNotation
namespace Toml

/-! ## Characters -/

/-- The blanks inside a line. -/
def isSpace (c : Char) : Bool :=
  c == ' ' || c == '\t'

/-- The characters that a comment or a string of one line may hold. -/
def isText (c : Char) : Bool :=
  c == '\t' || (c.toNat ≥ 0x20 && c.toNat ≠ 0x7F)

/-- The rest of a text after the end of its first line, if it starts with the
end of a line. -/
def lineBreak? : List Char → Option (List Char)
  | '\n' :: rest => some rest
  | '\r' :: '\n' :: rest => some rest
  | _ => none

/-- The value of a hexadecimal digit. -/
def hexValue? (c : Char) : Option Nat :=
  if '0' ≤ c ∧ c ≤ '9' then some (c.toNat - 48)
  else if 'a' ≤ c ∧ c ≤ 'f' then some (c.toNat - 87)
  else if 'A' ≤ c ∧ c ≤ 'F' then some (c.toNat - 55)
  else none

/-- The number that hexadecimal digits write. -/
def hexNumber? (digits : List Char) : Option Nat :=
  digits.foldlM (fun n c => (hexValue? c).map (16 * n + ·)) 0

/-- The character with the code point that hexadecimal digits write. -/
def unicode? (digits : List Char) : Option Char := do
  let n ← hexNumber? digits
  if h : n.isValidChar then some (Char.ofNatAux n h) else none

/-- The character that a letter after a backslash stands for. -/
def escape? : Char → Option Char
  | 'b' => some '\x08'
  | 'e' => some '\x1b'
  | 't' => some '\t'
  | 'n' => some '\n'
  | 'f' => some '\x0c'
  | 'r' => some '\r'
  | '"' => some '"'
  | '\\' => some '\\'
  | _ => none

/-- The character that so many hexadecimal digits write, and what follows
them. -/
def takeUnicode? (count : Nat) (cs : List Char) : Option (Char × List Char) :=
  let digits := cs.take count
  if digits.length = count then (unicode? digits).map (·, cs.drop count) else none

/-- The character that stands after a backslash, and what follows it. -/
def takeEscape? : List Char → Option (Char × List Char)
  | 'x' :: rest => takeUnicode? 2 rest
  | 'u' :: rest => takeUnicode? 4 rest
  | 'U' :: rest => takeUnicode? 8 rest
  | c :: rest => (escape? c).map (·, rest)
  | [] => none

/-! ## Strings -/

/-- The characters of a basic string up to its closing quote; `bound` limits
their number. -/
def basicBody : (bound : Nat) → List Char → Option (List Char × List Char)
  | 0, _ => none
  | bound + 1, cs =>
      match cs with
      | [] => none
      | '"' :: rest => some ([], rest)
      | '\\' :: rest => do
          let (c, rest) ← takeEscape? rest
          let (body, rest) ← basicBody bound rest
          some (c :: body, rest)
      | c :: rest =>
          if isText c then do
            let (body, rest) ← basicBody bound rest
            some (c :: body, rest)
          else none

/-- The quotes that end a string of several lines, after the first three: up
to two more belong to the string. -/
def extraQuotes (quote : Char) : List Char → List Char × List Char
  | c :: d :: rest =>
      if c = quote then
        if d = quote then ([quote, quote], rest) else ([quote], d :: rest)
      else ([], c :: d :: rest)
  | [c] => if c = quote then ([quote], []) else ([], [c])
  | [] => ([], [])

/-- What follows a backslash at the end of a line: the next character that is
neither blank nor a line break. -/
def skipFold : (bound : Nat) → List Char → List Char
  | 0, cs => cs
  | bound + 1, cs =>
      match lineBreak? (cs.dropWhile isSpace) with
      | some rest => skipFold bound rest
      | none => cs.dropWhile isSpace

/-- The characters of a basic string of several lines; its line breaks stay as
they are written. -/
def longBasicBody : (bound : Nat) → List Char → Option (List Char × List Char)
  | 0, _ => none
  | bound + 1, cs =>
      match cs with
      | '"' :: '"' :: '"' :: rest => some (extraQuotes '"' rest)
      | '\\' :: rest =>
          match lineBreak? (rest.dropWhile isSpace) with
          | some rest => longBasicBody bound (skipFold rest.length rest)
          | none => do
              let (c, rest) ← takeEscape? rest
              let (body, rest) ← longBasicBody bound rest
              some (c :: body, rest)
      | '\r' :: '\n' :: rest => do
          let (body, rest) ← longBasicBody bound rest
          some ('\r' :: '\n' :: body, rest)
      | c :: rest =>
          if isText c ∨ c = '\n' then do
            let (body, rest) ← longBasicBody bound rest
            some (c :: body, rest)
          else none
      | [] => none

/-- The characters of a literal string of several lines; its line breaks stay
as they are written. -/
def longLiteralBody : (bound : Nat) → List Char → Option (List Char × List Char)
  | 0, _ => none
  | bound + 1, cs =>
      match cs with
      | '\'' :: '\'' :: '\'' :: rest => some (extraQuotes '\'' rest)
      | '\r' :: '\n' :: rest => do
          let (body, rest) ← longLiteralBody bound rest
          some ('\r' :: '\n' :: body, rest)
      | c :: rest =>
          if isText c ∨ c = '\n' then do
            let (body, rest) ← longLiteralBody bound rest
            some (c :: body, rest)
          else none
      | [] => none

/-- A line break directly after the opening quotes is no part of the string. -/
def dropFirstBreak (cs : List Char) : List Char :=
  (lineBreak? cs).getD cs

/-- A string of one line, with its opening quote. -/
def takeShortString? : List Char → Option (String × List Char)
  | '"' :: rest => do
      let (body, rest) ← basicBody (rest.length + 1) rest
      some (String.ofList body, rest)
  | '\'' :: rest =>
      let body := rest.takeWhile fun c => isText c && c != '\''
      match rest.drop body.length with
      | '\'' :: rest => some (String.ofList body, rest)
      | _ => none
  | _ => none

/-- A string of either length, with its opening quotes. -/
def takeString? : List Char → Option (String × List Char)
  | '"' :: '"' :: '"' :: rest => do
      let rest := dropFirstBreak rest
      let (body, rest) ← longBasicBody (rest.length + 1) rest
      some (String.ofList body, rest)
  | '\'' :: '\'' :: '\'' :: rest => do
      let rest := dropFirstBreak rest
      let (body, rest) ← longLiteralBody (rest.length + 1) rest
      some (String.ofList body, rest)
  | cs => takeShortString? cs

/-! ## Numbers -/

/-- The digits of a number, without the underscores that may stand between any
two of them. -/
def ungroup? (isDigit : Char → Bool) : List Char → Option (List Char)
  | [] => none
  | [c] => if isDigit c then some [c] else none
  | c :: '_' :: rest =>
      if isDigit c then (ungroup? isDigit rest).map (c :: ·) else none
  | c :: d :: rest =>
      if isDigit c then (ungroup? isDigit (d :: rest)).map (c :: ·) else none

/-- The number that digits write to a base of at most sixteen. -/
def ofDigits (base : Nat) (digits : List Char) : Nat :=
  digits.foldl (fun n c => base * n + (hexValue? c).getD 0) 0

/-- The digits of a decimal number: a zero stands first only where it stands
alone. -/
def decimal? (cs : List Char) : Option (List Char) :=
  match ungroup? Char.isDigit cs with
  | some ('0' :: _ :: _) => none
  | digits => digits

/-- Whether a sign makes a number negative, and what follows the sign, if there
is one. -/
def takeSign : List Char → Bool × List Char
  | '+' :: rest => (false, rest)
  | '-' :: rest => (true, rest)
  | cs => (false, cs)

/-- The number that decimal digits write after a sign. -/
def signed (negative : Bool) (digits : List Char) : Int :=
  if negative then -(ofDigits 10 digits : Int) else (ofDigits 10 digits : Int)

/-- An integer, which is all there is. -/
def integer? (cs : List Char) : Option Int :=
  match cs with
  | '0' :: 'x' :: rest =>
      (ungroup? (fun c => (hexValue? c).isSome) rest).map fun ds => (ofDigits 16 ds : Int)
  | '0' :: 'o' :: rest =>
      (ungroup? (fun c => '0' ≤ c && c ≤ '7') rest).map fun ds => (ofDigits 8 ds : Int)
  | '0' :: 'b' :: rest =>
      (ungroup? (fun c => c == '0' || c == '1') rest).map fun ds => (ofDigits 2 ds : Int)
  | cs =>
      let (negative, rest) := takeSign cs
      (decimal? rest).map (signed negative)

/-- Whether every underscore stands between hexadecimal digits, in a text that
follows the character `last`. -/
def isSeparated (last : Char) : List Char → Bool
  | [] => last != '_'
  | c :: rest =>
      (if c = '_' then (hexValue? last).isSome
        else last != '_' || (hexValue? c).isSome) && isSeparated c rest

/-- Whether a text starts like an integer although it is none: there are no
digits after the mark of a base, or the first underscore after the decimal
digits leads to something that is only separated like digits. -/
def isGarbled (cs : List Char) : Bool :=
  let value := (takeSign cs).2
  cs == ['0', 'x'] || cs == ['0', 'o'] || cs == ['0', 'b'] ||
    match value, value.dropWhile Char.isDigit with
    | first :: rest, '_' :: tail =>
        first != '_' && first != '0' &&
          tail.all (fun c => c != '.' && c != 'e' && c != 'E') && isSeparated first rest
    | _, _ => false

/-- The characters of a run of grouped digits. -/
def isGrouped (c : Char) : Bool :=
  c.isDigit || c == '_'

/-- The exponent of a float, which is all there is; no exponent is zero. -/
def exponent? : List Char → Option Int
  | [] => some 0
  | c :: rest =>
      if c = 'e' ∨ c = 'E' then
        let (negative, rest) := takeSign rest
        (ungroup? Char.isDigit rest).map (signed negative)
      else none

/-- A float, which is all there is. -/
def float? (cs : List Char) : Option Toml :=
  let rest := (takeSign cs).2
  if rest = ['i', 'n', 'f'] ∨ rest = ['n', 'a', 'n'] then some .special
  else do
    let whole ← decimal? (rest.takeWhile isGrouped)
    match rest.dropWhile isGrouped with
    | '.' :: rest =>
        let fraction ← ungroup? Char.isDigit (rest.takeWhile isGrouped)
        let power ← exponent? (rest.dropWhile isGrouped)
        some (.float (ofDigits 10 (whole ++ fraction)) (power - fraction.length))
    | c :: rest => do
        let power ← exponent? (c :: rest)
        some (.float (ofDigits 10 whole) power)
    | [] => none

/-! ## Dates -/

/-- A number of exactly so many digits. -/
def takeDigits? (count : Nat) (cs : List Char) : Option (Nat × List Char) :=
  let digits := cs.take count
  if digits.length = count ∧ digits.all Char.isDigit then
    some (ofDigits 10 digits, cs.drop count)
  else none

/-- The rest of a text after the character that it has to start with. -/
def expect? (c : Char) : List Char → Option (List Char)
  | d :: rest => if d = c then some rest else none
  | [] => none

/-- The number of days of a month. -/
def daysIn (year month : Nat) : Nat :=
  if month = 2 then
    if year % 4 = 0 ∧ (year % 100 ≠ 0 ∨ year % 400 = 0) then 29 else 28
  else if month = 4 ∨ month = 6 ∨ month = 9 ∨ month = 11 then 30
  else 31

/-- What follows a date. -/
def takeDate? (cs : List Char) : Option (List Char) := do
  let (year, cs) ← takeDigits? 4 cs
  let cs ← expect? '-' cs
  let (month, cs) ← takeDigits? 2 cs
  let cs ← expect? '-' cs
  let (day, cs) ← takeDigits? 2 cs
  if 1 ≤ month ∧ month ≤ 12 ∧ 1 ≤ day ∧ day ≤ daysIn year month then some cs else none

/-- What follows the hour and the minute of a time. -/
def takeClock? (cs : List Char) : Option (List Char) := do
  let (hour, cs) ← takeDigits? 2 cs
  let cs ← expect? ':' cs
  let (minute, cs) ← takeDigits? 2 cs
  if hour ≤ 23 ∧ minute ≤ 59 then some cs else none

/-- What follows the seconds of a time, of which there may be decimals; a minute
may have a leap second. -/
def takeSeconds? (cs : List Char) : Option (List Char) := do
  let (second, cs) ← takeDigits? 2 cs
  if second ≤ 60 then
    match cs with
    | '.' :: rest =>
        if (rest.takeWhile Char.isDigit).isEmpty then none
        else some (rest.dropWhile Char.isDigit)
    | _ => some cs
  else none

/-- What follows a time of day, with or without seconds. -/
def takeTime? (cs : List Char) : Option (List Char) := do
  match ← takeClock? cs with
  | ':' :: rest => takeSeconds? rest
  | rest => some rest

/-- Whether a text is the offset of a time zone, or nothing. -/
def isOffset (cs : List Char) : Bool :=
  match cs with
  | [] => true
  | [c] => c == 'Z' || c == 'z'
  | c :: rest =>
      (c == '+' || c == '-') &&
        match takeClock? rest with
        | some rest => rest.isEmpty
        | none => false

/-- Whether a text is a date, a time, or a date and a time with or without an
offset. -/
def isMoment (cs : List Char) : Bool :=
  match takeDate? cs with
  | some [] => true
  | some (c :: rest) =>
      (c == 'T' || c == 't' || c == ' ') &&
        match takeTime? rest with
        | some rest => isOffset rest
        | none => false
  | none =>
      match takeTime? cs with
      | some [] => true
      | _ => false

/-! ## Bare values -/

/-- The characters that a value which is not quoted goes on to: it ends before
blanks, comments, line breaks and the signs of arrays and tables. -/
def isBareValue (c : Char) : Bool :=
  !(isSpace c || c == '\n' || c == '\r' || c == '#' || c == '=' || c == ',' ||
    c == '[' || c == ']' || c == '\x7b' || c == '\x7d')

/-- The run of characters of an unquoted value; a date takes in the time after
the one space that follows it. -/
def takeBare (cs : List Char) : List Char × List Char :=
  let run := cs.takeWhile isBareValue
  let rest := cs.dropWhile isBareValue
  match rest with
  | ' ' :: c :: after =>
      if takeDate? run = some [] ∧ c.isDigit then
        (run ++ ' ' :: (c :: after).takeWhile isBareValue, (c :: after).dropWhile isBareValue)
      else (run, rest)
  | _ => (run, rest)

/-- The value that an unquoted run of characters writes. -/
def bareValue? (run : List Char) : Option Toml :=
  if run = ['t', 'r', 'u', 'e'] then some (.boolean true)
  else if run = ['f', 'a', 'l', 's', 'e'] then some (.boolean false)
  else
    match integer? run with
    | some value => some (.integer value)
    | none =>
        match float? run with
        | some value => some value
        | none =>
            if isMoment run then some .moment
            else if isGarbled run then some .garbled
            else none

/-- A value that is neither an array nor a table. -/
def takeScalar? (cs : List Char) : Option (Toml × List Char) :=
  match cs with
  | [] => none
  | c :: _ =>
      if c = '"' ∨ c = '\'' then (takeString? cs).map fun (text, rest) => (.string text, rest)
      else (bareValue? (takeBare cs).1).map (·, (takeBare cs).2)

end Toml
end TacticNotation
