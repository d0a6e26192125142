/-!
# Data as compact JSON

The values that trees and styled texts are written as, and their compact text:
no blanks, members in the order given, and in strings an escape for the quote,
the backslash and the characters below U+0020 only.
-/

namespace TacticNotation

/-- A JSON value of the kinds that this library writes. -/
inductive Json where
  | null
  | string (value : String)
  | array (items : List Json)
  | object (members : List (String × Json))
  deriving Repr, Inhabited

namespace Json

/-! ## Induction -/

/-- To show something of every value, show it of arrays and objects under the
assumption that it holds of the values directly in them. -/
theorem induct {motive : Json → Prop} (null : motive .null)
    (string : ∀ value, motive (.string value))
    (array : ∀ items, (∀ v ∈ items, motive v) → motive (.array items))
    (object : ∀ members, (∀ member ∈ members, motive member.2) → motive (.object members))
    (v : Json) : motive v :=
  Json.rec (motive_1 := motive) (motive_2 := fun items => ∀ v ∈ items, motive v)
    (motive_3 := fun members => ∀ member ∈ members, motive member.2)
    (motive_4 := fun member => motive member.2)
    null string array object (by simp)
    (by intro v items hv hitems w hw; cases hw with
      | head => exact hv
      | tail _ hw => exact hitems w hw)
    (by simp)
    (by intro member members hmember hmembers other hother; cases hother with
      | head => exact hmember
      | tail _ hother => exact hmembers other hother)
    (by intro key v hv; exact hv) v

/-! ## Compact text -/

/-- The digit of a number below sixteen. -/
def hexDigit (n : Nat) : Char :=
  if n < 10 then Char.ofNat (48 + n) else Char.ofNat (87 + n)

/-- The characters that stand for a character inside a string. -/
def escapeChar (c : Char) : List Char :=
  if c = '"' then ['\\', '"']
  else if c = '\\' then ['\\', '\\']
  else if c = '\x08' then ['\\', 'b']
  else if c = '\x0c' then ['\\', 'f']
  else if c = '\n' then ['\\', 'n']
  else if c = '\r' then ['\\', 'r']
  else if c = '\t' then ['\\', 't']
  else if c.toNat < 32 then
    ['\\', 'u', '0', '0', hexDigit (c.toNat / 16), hexDigit (c.toNat % 16)]
  else [c]

/-- A string between quotes. -/
def quoted (value : String) : String :=
  "\"" ++ String.ofList (value.toList.flatMap escapeChar) ++ "\""

mutual
/-- The compact text of a value. -/
def compact : Json → String
  | .null => "null"
  | .string value => quoted value
  | .array [] => "[]"
  | .array (item :: items) => "[" ++ compact item ++ moreItems items ++ "]"
  | .object [] => "\x7b\x7d"
  | .object ((key, value) :: members) =>
      "\x7b" ++ quoted key ++ ":" ++ compact value ++ moreMembers members ++ "\x7d"
/-- The items after the first, each after a comma. -/
def moreItems : List Json → String
  | [] => ""
  | item :: items => "," ++ compact item ++ moreItems items
/-- The members after the first, each after a comma. -/
def moreMembers : List (String × Json) → String
  | [] => ""
  | (key, value) :: members =>
      "," ++ quoted key ++ ":" ++ compact value ++ moreMembers members
end

end Json
end TacticNotation
