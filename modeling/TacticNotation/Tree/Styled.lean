import TacticNotation.Markup
import TacticNotation.Tree

/-!
# Trees as styled text

A repetition is a body with its marker raised and its separator lowered; the
branches of an alternative have a bar between them; braces of curlies and gaps
are bare text.
-/

namespace TacticNotation
namespace Node

/-- The bar between two branches. -/
def branchBar : Markup :=
  .element .span ["alternative-separator"] [.text "|"]

/-- The lowered separator of a repetition, if it has one. -/
def loweredSeparator : Option String → List Markup
  | none => []
  | some text => [.element .sub [] [.text text]]

mutual
/-- The styled text of a node. -/
def styled : Node → List Markup
  | .sequence children => styledAll children
  | .repetition marker separator body =>
      [.element .span ["repeat-wrapper"]
        (.element .span ["repeat"] (styledAll body) ::
          .element .sup [] [.text (String.singleton marker.char)] ::
          loweredSeparator separator)]
  | .curlies body =>
      [.element .span ["curlies"] (.text "\x7b" :: styledAll body ++ [.text "\x7d"])]
  | .alternative [] => [.element .span ["alternative"] []]
  | .alternative (branch :: branches) =>
      [.element .span ["alternative"] (styled branch ++ styledBranches branches)]
  | .atomic text => [.element .span [] [.text text]]
  | .hole id => [.element .span ["hole"] [.text id]]
  | .whitespace => [.text " "]
/-- The styled text of a list of nodes. -/
def styledAll : List Node → List Markup
  | [] => []
  | n :: ns => styled n ++ styledAll ns
/-- The styled text of the branches after the first, each after a bar. -/
def styledBranches : List Node → List Markup
  | [] => []
  | n :: ns => branchBar :: styled n ++ styledBranches ns
end

/-- The styled text of a whole notation, in an element of its own. -/
def page (root : List Node) : Markup :=
  .element .span ["notation"] (styledAll root)

theorem styledAll_append (front back : List Node) :
    styledAll (front ++ back) = styledAll front ++ styledAll back := by
  induction front with
  | nil => rfl
  | cons n front ih => simp [styledAll, ih]

end Node
end TacticNotation
