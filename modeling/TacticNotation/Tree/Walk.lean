import TacticNotation.Tree

/-!
# The order of a walk

A walk enters a node, visits the nodes below it from left to right and leaves
it again.  `Node.walk` lists what such a walk meets.
-/

namespace TacticNotation

/-- What a walk over a tree meets. -/
inductive Visit where
  | enterSequence (children : Nat)
  | leaveSequence
  | enterRepetition (marker : Marker) (separator : Option String)
  | leaveRepetition
  | enterCurlies
  | leaveCurlies
  | enterAlternative (branches : Nat)
  | leaveAlternative
  | atomic (text : String)
  | hole (id : String)
  | whitespace
  deriving DecidableEq, Repr

namespace Visit

/-- One line about a visit. -/
def line : Visit → String
  | .enterSequence children => "sequence " ++ Nat.repr children
  | .leaveSequence => "end sequence"
  | .enterRepetition marker none => "repeat " ++ marker.char.toString ++ " None"
  | .enterRepetition marker (some separator) =>
      "repeat " ++ marker.char.toString ++ " Some(" ++ Nat.repr separator.utf8ByteSize ++ ")"
  | .leaveRepetition => "end repeat"
  | .enterCurlies => "curlies"
  | .leaveCurlies => "end curlies"
  | .enterAlternative branches => "alternative " ++ Nat.repr branches
  | .leaveAlternative => "end alternative"
  | .atomic text => "atomic " ++ text
  | .hole id => "hole " ++ id
  | .whitespace => "whitespace"

end Visit

namespace Node

mutual
/-- The visits of a walk over a node. -/
def walk : Node → List Visit
  | .sequence children =>
      .enterSequence children.length :: walkAll children ++ [.leaveSequence]
  | .repetition marker separator body =>
      .enterRepetition marker separator :: walkAll body ++ [.leaveRepetition]
  | .curlies body => .enterCurlies :: walkAll body ++ [.leaveCurlies]
  | .alternative branches =>
      .enterAlternative branches.length :: walkAll branches ++ [.leaveAlternative]
  | .atomic text => [.atomic text]
  | .hole id => [.hole id]
  | .whitespace => [.whitespace]
/-- The visits of a walk over a list of nodes. -/
def walkAll : List Node → List Visit
  | [] => []
  | n :: ns => walk n ++ walkAll ns
end

end Node
end TacticNotation
