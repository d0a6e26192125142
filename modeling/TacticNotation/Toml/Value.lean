/-!
# TOML values

What a TOML document holds.  A configuration asks for strings, booleans,
arrays and tables; of numbers and dates only their being well formed and
representable matters, so a float is kept as its decimal digits and a date as
no more than a date.  A number is looked at only where its value is: one that
cannot be represented, or that starts like an integer and goes wrong later, is
a value like any other as long as it is passed over.
-/

namespace TacticNotation

/-- How a table came to be, which decides what may still be added to it. -/
inductive TableOrigin where
  /-- Written between braces; nothing can be added. -/
  | inlined
  /-- The parent of a table that has a header of its own. -/
  | implied
  /-- Made by a dotted key, or implied until a dotted key added to it. -/
  | dotted
  /-- Made by a header, or the document itself. -/
  | header
  deriving DecidableEq, Repr

/-- A TOML value. -/
inductive Toml where
  | string (text : String)
  | integer (value : Int)
  /-- What starts like an integer but is none. -/
  | garbled
  /-- The absolute value of a decimal number: `mantissa` times ten to the power
  of `exponent`. -/
  | float (mantissa : Nat) (exponent : Int)
  /-- An infinity or the value that is no number. -/
  | special
  | boolean (value : Bool)
  /-- A date, a time or both. -/
  | moment
  /-- An array; one that headers have made can still grow. -/
  | array (byHeaders : Bool) (items : List Toml)
  | table (origin : TableOrigin) (entries : List (String × Toml))
  deriving Repr, Inhabited

namespace Toml

/-- The entries of a table, in the order they were made. -/
abbrev Entries := List (String × Toml)

/-- Whether a decimal number rounds to a finite double. -/
def fitsDouble (mantissa : Nat) (exponent : Int) : Bool :=
  let digits : Int := (Nat.repr mantissa).length
  if mantissa = 0 || digits + exponent ≤ 300 then true
  else if digits + exponent > 310 then false
  else
    let bound := (1 <<< 1024) - (1 <<< 970)
    if 0 ≤ exponent then mantissa * Nat.pow 10 exponent.toNat < bound
    else mantissa < bound * Nat.pow 10 (-exponent).toNat

/-- Whether an integer fits in 128 bits, with or without a sign. -/
def fitsWord (value : Int) : Bool :=
  -Int.ofNat (1 <<< 127) ≤ value && value < Int.ofNat (1 <<< 128)

mutual
/-- Whether every number in a value can be read and is within the range of its
type. -/
def inRange : Toml → Bool
  | .integer value => fitsWord value
  | .garbled => false
  | .float mantissa exponent => fitsDouble mantissa exponent
  | .array _ items => inRangeAll items
  | .table _ entries => inRangeEntries entries
  | .string _ | .special | .boolean _ | .moment => true
/-- Whether every number in some values is within range. -/
def inRangeAll : List Toml → Bool
  | [] => true
  | item :: items => inRange item && inRangeAll items
/-- Whether every number in some entries is within range. -/
def inRangeEntries : List (String × Toml) → Bool
  | [] => true
  | (_, item) :: entries => inRange item && inRangeEntries entries
end

/-- The value of a key. -/
def lookup? (key : String) (entries : Entries) : Option Toml :=
  List.lookup key entries

/-- Give a key another value. -/
def replace (key : String) (value : Toml) (entries : Entries) : Entries :=
  entries.map fun entry => if entry.1 = key then (key, value) else entry

end Toml
end TacticNotation
