import TacticNotation.Toml.Document
import TacticNotation.Toml.Scalar

/-!
# From text to TOML

The statements of a document are read line by line and then carried out.
Arrays and tables that are written as values can be nested eighty deep, and a
path can have eighty keys.
-/

namespace TacticNotation
namespace Toml

/-- A reader of one thing at the front of a text. -/
abbrev Reader (α : Type) := List Char → Option (α × List Char)

/-! ## Blanks and comments -/

/-- The text after the blanks of a line. -/
def skipSpaces (cs : List Char) : List Char :=
  cs.dropWhile isSpace

/-- The text after a comment that may stand here. -/
def skipComment : List Char → List Char
  | '#' :: rest => rest.dropWhile isText
  | cs => cs

/-- The text after blanks, comments and line breaks; `bound` limits the number
of lines. -/
def skipLines : (bound : Nat) → List Char → List Char
  | 0, cs => cs
  | bound + 1, cs =>
      match lineBreak? (skipComment (skipSpaces cs)) with
      | some rest => skipLines bound rest
      | none => skipComment (skipSpaces cs)

/-- The text after all blanks, comments and line breaks. -/
def skipAll (cs : List Char) : List Char :=
  skipLines (cs.length + 1) cs

/-- The text after the end of the line, if nothing but blanks and a comment
stands before it. -/
def endOfLine? (cs : List Char) : Option (List Char) :=
  match skipComment (skipSpaces cs) with
  | [] => some []
  | rest => lineBreak? rest

/-! ## Keys -/

/-- The characters of a bare key. -/
def isBareKey (c : Char) : Bool :=
  c.isAlphanum || c == '_' || c == '-'

/-- One key. -/
def takeKey? : Reader String := fun cs =>
  match cs.takeWhile isBareKey with
  | [] => takeShortString? cs
  | run => some (String.ofList run, cs.dropWhile isBareKey)

/-- Keys with dots between them; `bound` limits their number. -/
def takeKeys? : (bound : Nat) → Reader (List String)
  | 0, _ => none
  | bound + 1, cs => do
      let (key, rest) ← takeKey? (skipSpaces cs)
      match skipSpaces rest with
      | '.' :: rest => do
          let (path, rest) ← takeKeys? bound rest
          some (key :: path, rest)
      | rest => some ([key], rest)

/-- The greatest number of keys in a path. -/
def maxKeys : Nat := 80

/-- The keys of a path. -/
def takePath? : Reader (List String) :=
  takeKeys? maxKeys

/-! ## Values -/

section
variable (value : Reader Toml)

/-- Keys, an equals sign and a value; what may stand around the sign is left
out by `skip`. -/
def takeAssignment? (skip : List Char → List Char) : Reader (List String × Toml) :=
  fun cs => do
    let (path, rest) ← takePath? cs
    let rest ← expect? '=' (skip rest)
    let (item, rest) ← value (skip rest)
    some ((path, item), rest)

/-- The items of an array up to its closing bracket. -/
def takeItems? : (bound : Nat) → Reader (List Toml)
  | 0, _ => none
  | bound + 1, cs =>
      match skipAll cs with
      | ']' :: rest => some ([], rest)
      | cs => do
          let (item, rest) ← value cs
          match skipAll rest with
          | ',' :: rest => do
              let (items, rest) ← takeItems? bound rest
              some (item :: items, rest)
          | ']' :: rest => some ([item], rest)
          | _ => none

/-- The entries of an inline table up to its closing brace. -/
def takeEntries? : (bound : Nat) → Table → Reader Table
  | 0, _, _ => none
  | bound + 1, made, cs =>
      match skipAll cs with
      | '}' :: rest => some (made, rest)
      | cs => do
          let ((path, item), rest) ← takeAssignment? value skipAll cs
          let made ← assignIn path item made
          match skipAll rest with
          | ',' :: rest => takeEntries? bound made rest
          | '}' :: rest => some (made, rest)
          | _ => none

/-- An array or inline table whose parts are read by `value`. -/
def takeCompound? : Reader Toml := fun cs =>
  match cs with
  | '[' :: rest =>
      (takeItems? value (rest.length + 1) rest).map
        fun (items, rest) => (.array false items, rest)
  | '{' :: rest =>
      (takeEntries? value (rest.length + 1) (.header, []) rest).map
        fun (made, rest) => (.table .inlined made.2, rest)
  | _ => none

end

/-- A value with arrays and inline tables nested at most `depth` deep. -/
def takeValue? : (depth : Nat) → Reader Toml
  | 0, cs => takeScalar? cs
  | depth + 1, cs =>
      match cs with
      | '[' :: _ => takeCompound? (takeValue? depth) cs
      | '{' :: _ => takeCompound? (takeValue? depth) cs
      | _ => takeScalar? cs

/-- How deep arrays and inline tables can be nested. -/
def maxNesting : Nat := 80

/-! ## Statements -/

/-- A header or an assignment. -/
def takeStatement? : Reader Statement := fun cs =>
  match cs with
  | '[' :: '[' :: rest => do
      let (path, rest) ← takePath? rest
      match rest with
      | ']' :: ']' :: rest => some (.openElement path, rest)
      | _ => none
  | '[' :: rest => do
      let (path, rest) ← takePath? rest
      let rest ← expect? ']' rest
      some (.openTable path, rest)
  | cs => do
      let ((path, item), rest) ← takeAssignment? (takeValue? maxNesting) skipSpaces cs
      some (.assign path item, rest)

/-- The statements of a text; `bound` limits the number of its lines. -/
def statements? : (bound : Nat) → List Char → Option (List Statement)
  | 0, _ => none
  | bound + 1, cs =>
      match skipAll cs with
      | [] => some []
      | cs => do
          let (statement, rest) ← takeStatement? cs
          let rest ← endOfLine? rest
          let more ← statements? bound rest
          some (statement :: more)

/-- The document that a text holds; a mark of the byte order may stand first. -/
def parse? (source : String) : Option Entries := do
  let chars := match source.toList with
    | '\uFEFF' :: rest => rest
    | chars => chars
  let statements ← statements? (chars.length + 1) chars
  build? statements

end Toml
end TacticNotation
