import TacticNotation.Json
import TacticNotation.Tree

/-!
# Trees as data

A node is an object whose member `kind` comes first and says which members
follow; the body of a group is an object with the one member `children`.
-/

namespace TacticNotation
namespace Node

/-- A separator as a JSON value. -/
def separatorJson : Option String → Json
  | none => .null
  | some text => .string text

/-- The object that holds a list of nodes. -/
def bodyJson (children : List Json) : Json :=
  .object [("children", .array children)]

mutual
/-- A node as a JSON value. -/
def json : Node → Json
  | .sequence children =>
      .object [("kind", .string "sequence"), ("children", .array (jsonAll children))]
  | .repetition marker separator body =>
      .object [("kind", .string "repeat"), ("marker", .string marker.name),
        ("separator", separatorJson separator), ("body", bodyJson (jsonAll body))]
  | .curlies body =>
      .object [("kind", .string "curlies"), ("body", bodyJson (jsonAll body))]
  | .alternative branches =>
      .object [("kind", .string "alternative"), ("branches", .array (jsonAll branches))]
  | .atomic text => .object [("kind", .string "atomic"), ("text", .string text)]
  | .hole id => .object [("kind", .string "hole"), ("id", .string id)]
  | .whitespace => .object [("kind", .string "whitespace")]
/-- Several nodes as JSON values. -/
def jsonAll : List Node → List Json
  | [] => []
  | n :: ns => json n :: jsonAll ns
end

/-- A whole tree as a JSON value. -/
def rootJson (root : List Node) : Json :=
  bodyJson (jsonAll root)

end Node
end TacticNotation
