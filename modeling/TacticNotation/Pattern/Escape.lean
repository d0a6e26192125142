/-!
# Literal text in a pattern

A character that has a meaning in patterns stands for itself after a backslash.
-/

namespace TacticNotation
namespace Pattern

/-- The characters that are written with a backslash. -/
def isMeta (c : Char) : Bool :=
  "\\.+*?()|[]\x7b\x7d^$#&-~".toList.contains c

/-- The characters that stand for one literal character. -/
def quoteChar (c : Char) : List Char :=
  if isMeta c then ['\\', c] else [c]

/-- The pattern that matches a text and nothing else. -/
def quote (text : String) : String :=
  String.ofList (text.toList.flatMap quoteChar)

end Pattern
end TacticNotation
