import TacticNotation.Tree

/-!
# Trees as placeholder text

The short reading form of a notation.  A repetition of at least one occurrence
shows two of them with an ellipsis between; the other repetitions show one.
-/

namespace TacticNotation
namespace Node

/-- What separates the ellipsis from the occurrences on both sides. -/
def spacer : Option String → String
  | none => " "
  | some separator => separator ++ " "

/-- The text between two occurrences of a repeated body. -/
def ellipsis (separator : Option String) : String :=
  spacer separator ++ "…" ++ spacer separator

mutual
/-- The placeholder text of a node. -/
def placeholder : Node → String
  | .sequence children => placeholderAll children
  | .repetition .oneOrMore separator body =>
      placeholderAll body ++ ellipsis separator ++ placeholderAll body
  | .repetition .optional _ body => placeholderAll body
  | .repetition .zeroOrMore _ body => placeholderAll body
  | .curlies body => "\x7b" ++ placeholderAll body ++ "\x7d"
  | .alternative [] => ""
  | .alternative (branch :: branches) => placeholder branch ++ placeholderBranches branches
  | .atomic text => text
  | .hole id => "‘" ++ id ++ "’"
  | .whitespace => " "
/-- The placeholder text of a list of nodes. -/
def placeholderAll : List Node → String
  | [] => ""
  | n :: ns => placeholder n ++ placeholderAll ns
/-- The placeholder text of the branches after the first, each after a pipe. -/
def placeholderBranches : List Node → String
  | [] => ""
  | n :: ns => "|" ++ placeholder n ++ placeholderBranches ns
end

theorem placeholderAll_append (front back : List Node) :
    placeholderAll (front ++ back) = placeholderAll front ++ placeholderAll back := by
  induction front with
  | nil => simp [placeholderAll]
  | cons n front ih => simp [placeholderAll, ih, String.append_assoc]

end Node
end TacticNotation
