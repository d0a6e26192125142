import TacticNotation.Markup

/-!
# Building elements

An element in the making, to which classes and children are added one at a
time.
-/

namespace TacticNotation

/-- An element whose classes and children are at hand. -/
structure Element where
  tag : Tag
  classes : List String
  children : List Markup
  deriving Repr

namespace Element

/-- An element with neither classes nor children. -/
def empty (tag : Tag) : Element := ⟨tag, [], []⟩

/-- The element as a piece of styled text. -/
def toMarkup (element : Element) : Markup :=
  .element element.tag element.classes element.children

/-- The element with one more class, which may be empty or there already. -/
def addClass (element : Element) (name : String) : Element :=
  { element with classes := element.classes ++ [name] }

/-- The element with more children at the end. -/
def addChildren (element : Element) (nodes : List Markup) : Element :=
  { element with children := element.children ++ nodes }

/-- The element with a text at the end. -/
def addText (element : Element) (value : String) : Element :=
  element.addChildren [.text value]

/-- An element of the given tag that holds this one only. -/
def wrap (element : Element) (tag : Tag) : Element :=
  ⟨tag, [], [element.toMarkup]⟩

/-- Whether a class has been added. -/
def hasClass (element : Element) (name : String) : Bool :=
  element.classes.contains name

theorem hasClass_addClass (element : Element) (added name : String) :
    (element.addClass added).hasClass name = (element.hasClass name || name == added) := by
  simp [hasClass, addClass, Bool.beq_eq_decide_eq]

end Element
end TacticNotation
