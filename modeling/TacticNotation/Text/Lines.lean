import TacticNotation.Text.Blank

/-!
# Lines of a text

Lines end with a line feed, and a carriage return directly before the line feed
belongs to the ending.  A line need not end before the text does.
-/

namespace TacticNotation

/-- The characters of a line without the carriage return that may end it; the
characters come last first. -/
def dropReturn : List Char → List Char
  | '\r' :: rest => rest
  | line => line

/-- The lines of a text of whose first line `line` has been read, last
character first. -/
def linesFrom (line : List Char) : List Char → List String
  | [] => if line.isEmpty then [] else [String.ofList line.reverse]
  | c :: rest =>
      if c = '\n' then String.ofList (dropReturn line).reverse :: linesFrom [] rest
      else linesFrom (c :: line) rest

/-- The lines of a text. -/
def lines (text : String) : List String :=
  linesFrom [] text.toList

/-- Whether a line holds nothing but blanks. -/
def isBlankLine (line : String) : Bool :=
  line.toList.all isBlank

end TacticNotation
