import TacticNotation.Json
import TacticNotation.Markup

/-!
# Styled text as data
-/

namespace TacticNotation
namespace Markup

mutual
/-- Styled text as a JSON value. -/
def json : Markup → Json
  | .element tag classes children =>
      .object [("type", .string "element"), ("tag", .string tag.name),
        ("classes", .array (classes.map .string)), ("children", .array (jsonAll children))]
  | .text value => .object [("type", .string "text"), ("value", .string value)]
/-- Several pieces of styled text as JSON values. -/
def jsonAll : List Markup → List Json
  | [] => []
  | m :: ms => json m :: jsonAll ms
end

end Markup
end TacticNotation
