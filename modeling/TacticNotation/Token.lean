import TacticNotation.Marker

/-!
# Tokens

A notation is written in seven kinds of token.  `Token.text` gives the
characters a token is written with; only blank space has several spellings,
and `Token.text` gives one space for all of them.
-/

namespace TacticNotation

/-- A token of the surface syntax of notations. -/
inductive Token where
  /-- A brace glued to a marker: the start of a repetition. -/
  | repeatOpen (marker : Marker)
  /-- A brace that opens a literal group. -/
  | braceOpen
  /-- A brace that closes either kind of group. -/
  | braceClose
  /-- `|`. -/
  | pipe
  /-- A placeholder such as `@term`, without its sigil. -/
  | hole (id : String)
  /-- A run of one or more blanks. -/
  | gap
  /-- Any other run of characters, such as `:=` or `in`. -/
  | atom (text : String)
  deriving DecidableEq, Repr

/-- The four blanks that may separate the words of a notation. -/
def isGap (c : Char) : Bool :=
  c == ' ' || c == '\t' || c == '\r' || c == '\n'

/-- The characters of a hole's name. -/
def isNameChar (c : Char) : Bool :=
  c.isAlphanum || c == '_'

/-- The characters that can stand in an atom: all but the sigil, the braces,
the pipe and the blanks. -/
def isAtomChar (c : Char) : Bool :=
  !(c == '@' || c == '{' || c == '}' || c == '|' || isGap c)

namespace Token

/-- The characters that a token is written with; a gap is one space. -/
def text : Token → String
  | .repeatOpen marker => String.ofList ['{', marker.char]
  | .braceOpen => "\x7b"
  | .braceClose => "\x7d"
  | .pipe => "|"
  | .hole id => "@" ++ id
  | .gap => " "
  | .atom text => text

/-- What a report calls a token that stands where it must not. -/
def found : Token → String
  | .gap => "whitespace"
  | token => token.text

/-- Whether a unit of a notation can start with this token. -/
def startsUnit : Token → Bool
  | .atom _ | .hole _ | .repeatOpen _ | .braceOpen | .pipe => true
  | .braceClose | .gap => false

/-- Whether a unit other than a run of pipes can start with this token. -/
def startsPrimary : Token → Bool
  | .atom _ | .hole _ | .repeatOpen _ | .braceOpen => true
  | .pipe | .braceClose | .gap => false

/-- A token starts a primary exactly when it starts a unit and is no pipe. -/
theorem startsPrimary_eq (token : Token) :
    token.startsPrimary = (token.startsUnit && decide (token ≠ .pipe)) := by
  cases token <;> simp [startsPrimary, startsUnit]

end Token

/-- A token with the bytes that it was read from: `start` is the first of
them and `stop` the one after the last. -/
structure Lexeme where
  token : Token
  start : Nat
  stop : Nat
  deriving DecidableEq, Repr

end TacticNotation
