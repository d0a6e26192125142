import TacticNotation.Markup.Escape

/-!
# Styled text

Documentation pages show a notation as nested elements with classes.  An
element writes its non-empty classes, joined by spaces, as one attribute, and
leaves the attribute out where there are none; texts and classes are escaped.
-/

namespace TacticNotation

/-- The tags that elements are made of. -/
inductive Tag where
  | span
  /-- Superscript, for the marker of a repetition. -/
  | sup
  /-- Subscript, for the separator of a repetition. -/
  | sub
  deriving DecidableEq, Repr

namespace Tag

/-- The name of a tag. -/
def name : Tag → String
  | .span => "span"
  | .sup => "sup"
  | .sub => "sub"

/-- The tag of a name. -/
def ofName? : String → Option Tag
  | "span" => some .span
  | "sup" => some .sup
  | "sub" => some .sub
  | _ => none

theorem ofName?_name (tag : Tag) : ofName? tag.name = some tag := by
  cases tag <;> rfl

end Tag

/-- A piece of styled text. -/
inductive Markup where
  | element (tag : Tag) (classes : List String) (children : List Markup)
  | text (value : String)
  deriving Repr, Inhabited

namespace Markup

/-- The value of a class attribute: the non-empty classes, joined by spaces. -/
def classValue (classes : List String) : String :=
  " ".intercalate (classes.filter (· ≠ ""))

/-- The class attribute of an opening tag. -/
def classAttribute (classes : List String) : String :=
  let value := classValue classes
  if value = "" then "" else " class=\"" ++ escape value ++ "\""

mutual
/-- The HTML of a piece of styled text. -/
def html : Markup → String
  | .element tag classes children =>
      "<" ++ tag.name ++ classAttribute classes ++ ">" ++ htmlAll children ++
        "</" ++ tag.name ++ ">"
  | .text value => escape value
/-- The HTML of some pieces of styled text, one after the other. -/
def htmlAll : List Markup → String
  | [] => ""
  | m :: ms => html m ++ htmlAll ms
end

mutual
/-- The texts in a piece of styled text, one after the other. -/
def content : Markup → String
  | .element _ _ children => contentAll children
  | .text value => value
/-- The texts in some pieces of styled text, one after the other. -/
def contentAll : List Markup → String
  | [] => ""
  | m :: ms => content m ++ contentAll ms
end

theorem htmlAll_append (front back : List Markup) :
    htmlAll (front ++ back) = htmlAll front ++ htmlAll back := by
  induction front with
  | nil => simp [htmlAll]
  | cons m front ih => simp [htmlAll, ih, String.append_assoc]

theorem contentAll_append (front back : List Markup) :
    contentAll (front ++ back) = contentAll front ++ contentAll back := by
  induction front with
  | nil => simp [contentAll]
  | cons m front ih => simp [contentAll, ih, String.append_assoc]

end Markup
end TacticNotation
