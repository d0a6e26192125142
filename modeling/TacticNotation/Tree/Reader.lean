import TacticNotation.Token.Lexer
import TacticNotation.Tree

/-!
# From tokens to a tree

The grammar, with `gap` for blank space that may be left out:

    notation   := gap blocks gap
    blocks     := unit (gap unit)*
    unit       := primary ('|' primary)*  or  '|'+
    primary    := ATOM  or  HOLE  or  repetition  or  curlies
    repetition := '{' marker separator? gap blocks gap '}'
    curlies    := '{' gap blocks gap '}'

A pipe stands between two branches only if it is glued to a primary on both
sides; every other run of pipes is literal text.  A separator is an atom or a
run of pipes glued to the opening of its repetition.  A gap between two units
is a node of its own, and so is one at the edge of the body of curlies; gaps at
the edges of a repetition's body and of the whole notation are dropped.

A step takes the tokens that are left and gives what it read with the tokens
after it.  The steps that read groups are written over the step that reads a
primary inside them; `primary` ties the knot with a bound on the depth, and the
number of tokens is always bound enough.
-/

namespace TacticNotation
namespace Reader

/-- A step of the reader. -/
abbrev Step (α : Type) := List Lexeme → Except Fault (α × List Lexeme)

/-! ## Gaps and pipes -/

/-- Whether a lexeme is a pipe. -/
def isPipe (lexeme : Lexeme) : Bool :=
  lexeme.token == .pipe

/-- The tokens after a gap that may stand here. -/
def skipGap : List Lexeme → List Lexeme
  | ⟨.gap, _, _⟩ :: rest => rest
  | tokens => tokens

/-- A gap that may stand here, as nodes, and the tokens after it. -/
def takeGap : List Lexeme → List Node × List Lexeme
  | ⟨.gap, _, _⟩ :: rest => ([.whitespace], rest)
  | tokens => ([], tokens)

/-- The text of the pipes that stand here, and the tokens after them. -/
def takePipes (tokens : List Lexeme) : String × List Lexeme :=
  (String.ofList ((tokens.takeWhile isPipe).map fun _ => '|'), tokens.dropWhile isPipe)

/-- Whether the first of some tokens can start a unit. -/
def atUnit : List Lexeme → Bool
  | lexeme :: _ => lexeme.token.startsUnit
  | [] => false

/-- The tokens after a pipe that stands here directly before a primary. -/
def gluedPipe? : List Lexeme → Option (List Lexeme)
  | ⟨.pipe, _, _⟩ :: lexeme :: rest =>
      if lexeme.token.startsPrimary then some (lexeme :: rest) else none
  | _ => none

/-- The separator of a repetition whose opening token has just been read. -/
def takeSeparator : List Lexeme → Option String × List Lexeme
  | ⟨.atom text, _, _⟩ :: rest => (some text, rest)
  | ⟨.pipe, start, stop⟩ :: rest =>
      let (text, rest) := takePipes (⟨.pipe, start, stop⟩ :: rest)
      (some text, rest)
  | tokens => (none, tokens)

/-- The tokens after the brace that has to close a group here. -/
def closeGroup : List Lexeme → Except Fault (List Lexeme)
  | ⟨.braceClose, _, _⟩ :: rest => .ok rest
  | lexeme :: _ => .error (.unexpected lexeme .close)
  | [] => .error (.ended .close)

/-! ## Units and blocks -/

section
variable (primary : Step Node)

/-- The branches that glued pipes add to a primary; `bound` limits their
number. -/
def moreBranches (bound : Nat) (tokens : List Lexeme) :
    Except Fault (List Node × List Lexeme) :=
  match bound with
  | 0 => .ok ([], tokens)
  | bound + 1 =>
      match gluedPipe? tokens with
      | none => .ok ([], tokens)
      | some rest => do
          let (branch, rest) ← primary rest
          let (branches, rest) ← moreBranches bound rest
          .ok (branch :: branches, rest)

/-- A run of pipes, a primary, or primaries joined by glued pipes. -/
def unit : Step Node
  | ⟨.pipe, start, stop⟩ :: rest =>
      let (text, rest) := takePipes (⟨.pipe, start, stop⟩ :: rest)
      .ok (.atomic text, rest)
  | tokens => do
      let (first, rest) ← primary tokens
      let (branches, rest) ← moreBranches primary rest.length rest
      match branches with
      | [] => .ok (first, rest)
      | _ :: _ => .ok (.alternative (first :: branches), rest)

/-- The units after the first, with the gaps between them; `bound` limits
their number.  A gap that no unit follows is left standing. -/
def moreBlocks (bound : Nat) (tokens : List Lexeme) :
    Except Fault (List Node × List Lexeme) :=
  match bound with
  | 0 => .ok ([], tokens)
  | bound + 1 =>
      let (gap, rest) := takeGap tokens
      if atUnit rest then do
        let (node, rest) ← unit primary rest
        let (nodes, rest) ← moreBlocks bound rest
        .ok (gap ++ node :: nodes, rest)
      else
        .ok ([], tokens)

/-- One unit or more, with the gaps between them. -/
def blocks : Step (List Node) := fun tokens => do
  let (node, rest) ← unit primary tokens
  let (nodes, rest) ← moreBlocks primary rest.length rest
  .ok (node :: nodes, rest)

/-! ## Groups -/

/-- A repetition after its opening token. -/
def repetition (marker : Marker) : Step Node := fun tokens => do
  let (separator, rest) := takeSeparator tokens
  let (body, rest) ← blocks primary (skipGap rest)
  let rest ← closeGroup (skipGap rest)
  .ok (.repetition marker separator body, rest)

/-- Literal braces after the opening one. -/
def curlies : Step Node := fun tokens => do
  let (before, rest) := takeGap tokens
  let (body, rest) ← blocks primary rest
  let (after, rest) := takeGap rest
  let rest ← closeGroup rest
  .ok (.curlies (before ++ body ++ after), rest)

/-- A primary whose groups hold primaries read by `primary`. -/
def primaryStep : Step Node
  | [] => .error (.ended .block)
  | ⟨token, start, stop⟩ :: rest =>
      match token with
      | .atom text => .ok (.atomic text, rest)
      | .hole id => .ok (.hole id, rest)
      | .repeatOpen marker => repetition primary marker rest
      | .braceOpen => curlies primary rest
      | .pipe =>
          let (text, rest) := takePipes (⟨.pipe, start, stop⟩ :: rest)
          .ok (.atomic text, rest)
      | .braceClose | .gap => .error (.unexpected ⟨token, start, stop⟩ .block)

end

/-- A primary with groups nested at most `depth` deep.  Depth zero allows for
no token at all, and where there is none the answer does not depend on the
depth. -/
def primary : Nat → Step Node
  | 0 => fun _ => .error (.ended .block)
  | depth + 1 => primaryStep (primary depth)

/-! ## Whole notations -/

/-- The tree of a whole list of tokens. -/
def root (tokens : List Lexeme) : Except Fault (List Node) :=
  match skipGap tokens with
  | [] => .error .empty
  | first :: rest => do
      let (nodes, rest) ← blocks (primary (first :: rest).length) (first :: rest)
      match skipGap rest with
      | [] => .ok nodes
      | lexeme :: _ => .error (.unexpected lexeme .finish)

end Reader

/-- The tree of a notation that is read as it stands. -/
def parseTree (source : String) : Except Problem (List Node) := do
  let tokens ← lex source
  match Reader.root tokens with
  | .ok nodes => .ok nodes
  | .error fault => .error (.ofFault source fault)

end TacticNotation
