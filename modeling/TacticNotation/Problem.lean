import TacticNotation.Token

/-!
# What can go wrong

A `Problem` records the cause of a failure; its wording, its code, the advice
that goes with it and the stretch of text it points at are functions of the
cause.  A `Fault` is what the reader of a token list reports before the text
that the tokens came from is attached.
-/

namespace TacticNotation

/-- What the reader was looking for. -/
inductive Expectation where
  /-- The first token of a unit. -/
  | block
  /-- The brace that closes the group being read. -/
  | close
  /-- The end of the notation. -/
  | finish
  deriving DecidableEq, Repr

/-- The words for an expectation in a report. -/
def Expectation.phrase : Expectation → String
  | .block => "a token, hole or group"
  | .close => "`\x7d` to close the group"
  | .finish => "end of notation"

/-- Why a list of tokens is not a notation. -/
inductive Fault where
  /-- There is no token but a gap. -/
  | empty
  /-- A token stands where something else has to. -/
  | unexpected (lexeme : Lexeme) (expected : Expectation)
  /-- The tokens end where something has to follow. -/
  | ended (expected : Expectation)
  deriving DecidableEq, Repr

/-- Why an operation on notations failed. -/
inductive Problem where
  /-- Bytes that had to be text are not UTF-8. -/
  | notUtf8
  /-- The notation holds nothing but blanks. -/
  | emptyNotation
  /-- At byte `offset` of `source` no token starts. -/
  | unrecognizedInput (source found : String) (offset : Nat)
  /-- The reader met `found` at bytes `start` to `stop` of `source`. -/
  | unexpectedToken (source found : String) (expected : Expectation) (start stop : Nat)
  /-- The reader met the end of `source`. -/
  | unexpectedEnd (source : String) (expected : Expectation)
  /-- A configuration file is not valid. -/
  | invalidConfig
  /-- The pattern of a notation is refused. -/
  | invalidPattern
  deriving DecidableEq, Repr

/-- A stretch of the source with the remark that belongs to it. -/
structure Label where
  offset : Nat
  length : Nat
  remark : String
  deriving DecidableEq, Repr

namespace Problem

/-- The problem that a fault is once the text of the tokens is known. -/
def ofFault (source : String) : Fault → Problem
  | .empty => .emptyNotation
  | .unexpected lexeme expected =>
      .unexpectedToken source lexeme.token.found expected lexeme.start lexeme.stop
  | .ended expected => .unexpectedEnd source expected

/-- One sentence that says what is wrong. -/
def message : Problem → String
  | .notUtf8 => "stream did not contain valid UTF-8"
  | .emptyNotation => "empty notation"
  | .unrecognizedInput _ found _ => "unrecognized input `" ++ found ++ "`"
  | .unexpectedToken _ found expected _ _ =>
      "unexpected `" ++ found ++ "`, expected " ++ expected.phrase
  | .unexpectedEnd _ expected => "unexpected end of notation, expected " ++ expected.phrase
  | .invalidConfig => "failed to parse config file"
  | .invalidPattern => "generated pattern is not a valid regular expression"

/-- The stable code of a problem. -/
def code : Problem → String
  | .notUtf8 => "tacnote::io_error"
  | .emptyNotation => "tacnote::empty_notation"
  | .unrecognizedInput .. => "tacnote::unrecognized_input"
  | .unexpectedToken .. => "tacnote::unexpected_token"
  | .unexpectedEnd .. => "tacnote::unexpected_end"
  | .invalidConfig => "tacnote::config_parse"
  | .invalidPattern => "tacnote::invalid_regex"

/-- Advice to the author of the notation or configuration. -/
def help : Problem → Option String
  | .emptyNotation => some "a notation needs at least one token, hole or group"
  | .unrecognizedInput .. =>
      some "holes are written `@name` where name is made of letters, digits and `_`"
  | .unexpectedEnd .. =>
      some "every `\x7b`, `\x7b+`, `\x7b*` and `\x7b?` group must be closed with `\x7d`"
  | .invalidConfig =>
      some ("check that tacnote.toml is valid TOML with [[substitutions]] and/or " ++
        "[render] sections")
  | .notUtf8 | .unexpectedToken .. | .invalidPattern => none

/-- The stretch of the source that a problem points at. -/
def label : Problem → Option Label
  | .unrecognizedInput _ found offset =>
      some ⟨offset, found.utf8ByteSize, "not a valid notation token"⟩
  | .unexpectedToken _ _ _ start stop => some ⟨start, stop - start, "found here"⟩
  | .unexpectedEnd source _ => some ⟨source.utf8ByteSize, 0, "notation ends here"⟩
  | .notUtf8 | .emptyNotation | .invalidConfig | .invalidPattern => none

/-- The text that the label of a problem counts its bytes in. -/
def source : Problem → Option String
  | .unrecognizedInput source _ _ => some source
  | .unexpectedToken source _ _ _ _ => some source
  | .unexpectedEnd source _ => some source
  | .notUtf8 | .emptyNotation | .invalidConfig | .invalidPattern => none

end Problem
end TacticNotation
