import TacticNotation.Notation

/-!
# Views of a notation

The texts that a notation can be shown as.  Two of them are pattern texts: the
one is shown whether or not it compiles, the other only if it does.
-/

namespace TacticNotation

/-- A way to show a notation. -/
inductive View where
  /-- HTML in an element of its own. -/
  | html
  /-- HTML without that element. -/
  | fragment
  /-- Placeholder text. -/
  | text
  /-- The text of the pattern that is not anchored. -/
  | regex
  /-- The tree as data. -/
  | json
  /-- The text of the pattern, anchored or not, if it compiles. -/
  | compiled
  deriving DecidableEq, Repr

/-- The view of a name. -/
def View.ofName? : String → Option View
  | "html" => some .html
  | "fragment" => some .fragment
  | "text" => some .text
  | "regex" => some .regex
  | "json" => some .json
  | "compiled" => some .compiled
  | _ => none

/-- Show a notation; `anchored` concerns the compiled view only. -/
def Notation.show (form : Notation) (anchored : Bool) : View → Except Problem String
  | .html => .ok form.html
  | .fragment => .ok (Markup.htmlAll (Node.styledAll form.root))
  | .text => .ok form.placeholder
  | .regex => .ok (form.patternText false)
  | .json => .ok form.treeJson
  | .compiled => form.compiledText anchored

end TacticNotation
