import TacticNotation.Text.Replace

/-!
# Shorthands

A shorthand is a short text that stands for a longer piece of a notation.  A
table of shorthands is applied entry by entry: each entry expands in the whole
text that the entries before it have left, so an expansion may hold text that a
later entry expands.
-/

namespace TacticNotation

/-- A text and what it stands for. -/
structure Shorthand where
  source : String
  expansion : String
  deriving DecidableEq, Repr

namespace Shorthand

/-- The text with every occurrence of a shorthand expanded. -/
def expand (text : String) (entry : Shorthand) : String :=
  replaceAll entry.source entry.expansion text

end Shorthand

/-- An ordered table of shorthands. -/
abbrev ShorthandTable := List Shorthand

namespace ShorthandTable

/-- The shorthands that every table starts with. -/
def builtin : ShorthandTable :=
  [⟨"@bindings_list", "\x7b+ (@id := @val) \x7d"⟩,
   ⟨"@qualid_or_string", "@id|@string"⟩]

/-- The built-in shorthands and then `extra`, less the entries whose source is
empty. -/
def withExtra (extra : List Shorthand) : ShorthandTable :=
  builtin ++ extra.filter (·.source ≠ "")

/-- The text after every entry has been applied once, in order. -/
def apply (table : ShorthandTable) (text : String) : String :=
  table.foldl Shorthand.expand text

theorem apply_append (front back : ShorthandTable) (text : String) :
    apply (front ++ back) text = apply back (apply front text) :=
  List.foldl_append

end ShorthandTable
end TacticNotation
