import TacticNotation.Pattern.Escape
import TacticNotation.Tree

/-!
# Trees as patterns

The regular expression whose matches are the instances of a notation.  A
repetition of more than one occurrence writes its body twice: once for the
first occurrence and once, after the separator, for those that follow.
-/

namespace TacticNotation
namespace Node

/-- What can fill a hole. -/
def holePattern : String := "([^();. \\n]+)"

/-- A gap of any width. -/
def gapPattern : String := "\\s+"

/-- A separator with blanks around it, before another occurrence of a body. -/
def joinPattern (separator : Option String) : String :=
  "\\s*" ++ Pattern.quote (separator.getD " ") ++ "\\s*"

mutual
/-- The pattern of a node, written out. -/
def patternText : Node → String
  | .sequence children => patternTextAll children
  | .repetition .optional _ body => "(" ++ patternTextAll body ++ ")?"
  | .repetition .zeroOrMore separator body =>
      "(" ++ patternTextAll body ++ ")?(" ++ joinPattern separator ++ patternTextAll body ++ ")*"
  | .repetition .oneOrMore separator body =>
      "(" ++ patternTextAll body ++ ")(" ++ joinPattern separator ++ patternTextAll body ++ ")*"
  | .curlies body => "\\\x7b" ++ patternTextAll body ++ "\\\x7d"
  | .alternative [] => "()"
  | .alternative (branch :: branches) =>
      "(" ++ patternText branch ++ patternTextBranches branches ++ ")"
  | .atomic text => Pattern.quote text
  | .hole _ => holePattern
  | .whitespace => gapPattern
/-- The pattern of a list of nodes, written out. -/
def patternTextAll : List Node → String
  | [] => ""
  | n :: ns => patternText n ++ patternTextAll ns
/-- The patterns of the branches after the first, each after a bar. -/
def patternTextBranches : List Node → String
  | [] => ""
  | n :: ns => "|" ++ patternText n ++ patternTextBranches ns
end

/-- The text of a pattern that matches whole texts only. -/
def anchored (text : String) : String :=
  "^(?:" ++ text ++ ")$"

theorem patternTextAll_append (front back : List Node) :
    patternTextAll (front ++ back) = patternTextAll front ++ patternTextAll back := by
  induction front with
  | nil => simp [patternTextAll]
  | cons n front ih => simp [patternTextAll, ih, String.append_assoc]

end Node
end TacticNotation
