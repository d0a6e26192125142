import TacticNotation.Text.Blank

/-!
# Regular expressions

The syntax tree of the patterns that this library reads, with the character
sets that a pattern names.  Joining and choosing take lists, as the text of a
pattern writes them.
-/

namespace TacticNotation

/-- A set of characters that a pattern matches one of. -/
inductive CharSet where
  /-- One character, written as itself. -/
  | literal (c : Char)
  /-- `\s`: every blank. -/
  | blank
  /-- `[…]`: every one of the members, or, negated, every other character. -/
  | listed (negated : Bool) (members : List Char)
  deriving DecidableEq, Repr

/-- Whether a set holds a character. -/
def CharSet.accepts : CharSet → Char → Bool
  | .literal c, d => d == c
  | .blank, d => isBlank d
  | .listed negated members, d => members.contains d != negated

/-- A regular expression. -/
inductive Pattern where
  /-- One character of a set. -/
  | char (set : CharSet)
  /-- `^`: the start of the text. -/
  | atStart
  /-- `$`: the end of the text. -/
  | atEnd
  /-- One item after the other. -/
  | join (items : List Pattern)
  /-- One of the branches, an earlier one rather than a later one. -/
  | choose (branches : List Pattern)
  /-- `?`: once rather than not at all. -/
  | opt (item : Pattern)
  /-- `*`: any number of times, as often as possible. -/
  | star (item : Pattern)
  /-- `+`: at least once, as often as possible. -/
  | plus (item : Pattern)
  /-- A group, which may capture what it matches. -/
  | group (captures : Bool) (item : Pattern)
  deriving Repr, Inhabited

namespace Pattern

/-- One item is joined to nothing. -/
def ofItems : List Pattern → Pattern
  | [item] => item
  | items => .join items

/-- One branch leaves no choice. -/
def ofBranches : List Pattern → Pattern
  | [branch] => branch
  | branches => .choose branches

mutual
/-- The number of groups that capture. -/
def captures : Pattern → Nat
  | .char _ => 0
  | .atStart => 0
  | .atEnd => 0
  | .join items => capturesAll items
  | .choose branches => capturesAll branches
  | .opt item => captures item
  | .star item => captures item
  | .plus item => captures item
  | .group true item => 1 + captures item
  | .group false item => captures item
/-- The number of groups that capture in some patterns. -/
def capturesAll : List Pattern → Nat
  | [] => 0
  | p :: ps => captures p + capturesAll ps
end

/-- Whether the text of a pattern ends in a sign of repetition. -/
def isRepeated : Pattern → Bool
  | .opt _ | .star _ | .plus _ => true
  | _ => false

end Pattern
end TacticNotation
