import TacticNotation.Pattern.Limits
import TacticNotation.Pattern.Search
import TacticNotation.Shorthand
import TacticNotation.Tree.Data
import TacticNotation.Tree.Pattern
import TacticNotation.Tree.Placeholder
import TacticNotation.Tree.Reader
import TacticNotation.Tree.Styled

/-!
# Notations

A notation is kept as it was written, as it reads once its shorthands are
expanded, and as a tree.  It is rendered in one of four formats, and it can be
asked whether a text is an instance of it.
-/

namespace TacticNotation

/-- A notation that has been read. -/
structure Notation where
  /-- The notation as written. -/
  source : String
  /-- The notation with its shorthands expanded. -/
  substituted : String
  /-- The tree of the expanded notation. -/
  root : List Node
  deriving DecidableEq, Repr

/-- The formats that a notation is rendered in. -/
inductive Format where
  /-- Styled text for documentation pages. -/
  | html
  /-- Placeholder text. -/
  | text
  /-- The regular expression of the instances. -/
  | regex
  /-- The tree as data. -/
  | json
  deriving DecidableEq, Repr

namespace Format

/-- The name of a format. -/
def name : Format → String
  | .html => "html"
  | .text => "text"
  | .regex => "regex"
  | .json => "json"

/-- The format of a name. -/
def ofName? : String → Option Format
  | "html" => some .html
  | "text" => some .text
  | "regex" => some .regex
  | "json" => some .json
  | _ => none

theorem ofName?_name (format : Format) : ofName? format.name = some format := by
  cases format <;> rfl

end Format

namespace Notation

/-- Read a notation after expanding the shorthands of a table. -/
def parse (table : ShorthandTable) (source : String) : Except Problem Notation := do
  let substituted := table.apply source
  let root ← parseTree substituted
  .ok ⟨source, substituted, root⟩

/-- The notation as HTML. -/
def html (form : Notation) : String :=
  (Node.page form.root).html

/-- The notation as placeholder text. -/
def placeholder (form : Notation) : String :=
  Node.placeholderAll form.root

/-- The text of the pattern: anchored it matches instances only, and otherwise
it finds them inside other texts. -/
def patternText (form : Notation) (anchored : Bool) : String :=
  let text := Node.patternTextAll form.root
  if anchored then Node.anchored text else text

/-- The compact JSON text of the tree. -/
def treeJson (form : Notation) : String :=
  (Node.rootJson form.root).compact

/-- The compact JSON text of the notation. -/
def wholeJson (form : Notation) : String :=
  (Json.object [("source", .string form.source), ("substituted", .string form.substituted),
    ("root", Node.rootJson form.root)]).compact

/-- The pattern of the notation, ready to search with. -/
def compile (form : Notation) (anchored : Bool) : Except Problem Pattern :=
  match Pattern.compile (form.patternText anchored) with
  | .ok pattern => .ok pattern
  | .error _ => .error .invalidPattern

/-- The text of the pattern, if the pattern compiles. -/
def compiledText (form : Notation) (anchored : Bool) : Except Problem String := do
  let _ ← form.compile anchored
  .ok (form.patternText anchored)

/-- Whether the whole of a text is an instance. -/
def accepts (form : Notation) (text : String) : Except Problem Bool := do
  let pattern ← form.compile true
  .ok (pattern.isMatch text)

/-- The bytes of the first instance in a text. -/
def find (form : Notation) (anchored : Bool) (text : String) :
    Except Problem (Option (Nat × Nat)) := do
  let pattern ← form.compile anchored
  .ok (pattern.find? text)

/-- The notation in a format; `anchored` concerns patterns only. -/
def render (form : Notation) (format : Format) (anchored : Bool) : Except Problem String :=
  match format with
  | .html => .ok form.html
  | .text => .ok form.placeholder
  | .regex => form.compiledText anchored
  | .json => .ok form.treeJson

end Notation
end TacticNotation
