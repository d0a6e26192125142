import TacticNotation.Pattern.Escape
import TacticNotation.Pattern.Syntax

/-!
# From text to regular expression

The reader goes over the text of a pattern once, one character at a time, and
keeps the groups that are open.  It knows literal characters, `\s`, `\n`,
characters quoted by a backslash, listed sets, `^`, `$`, `|`, the three signs
of repetition and groups with or without capture; it refuses the rest of the
usual syntax (`.`, ranges, counted and lazy repetition) rather than give it a
second meaning.
-/

namespace TacticNotation
namespace Pattern

/-- Why a text is no pattern of this syntax. -/
inductive SyntaxError where
  /-- A sign of repetition with nothing before it that it could repeat. -/
  | nothingToRepeat
  /-- A closing parenthesis without an opening one. -/
  | unopenedGroup
  /-- The text ends inside a group, a set or after a backslash. -/
  | unfinished
  /-- A backslash before a character that it gives no meaning. -/
  | unknownEscape (c : Char)
  /-- A character that belongs to syntax that is not read. -/
  | unsupported (c : Char)
  deriving DecidableEq, Repr

/-- What the next character is read as. -/
inductive Mode where
  | plain
  /-- After a backslash. -/
  | escaped
  /-- After an opening parenthesis. -/
  | opened
  /-- After an opening parenthesis and a question mark. -/
  | openedFlags
  /-- After an opening bracket. -/
  | setOpened
  /-- Inside a set; the members come last first. -/
  | inSet (negated : Bool) (members : List Char)
  /-- Inside a set, after a backslash. -/
  | setEscaped (negated : Bool) (members : List Char)
  deriving DecidableEq, Repr

/-- A group that is being read. -/
structure Level where
  /-- Whether the group captures what it matches. -/
  captures : Bool
  /-- The branches that are complete, last first. -/
  branches : List Pattern
  /-- The items of the branch being read, last first. -/
  items : List Pattern

namespace Level

/-- A group of which nothing has been read. -/
def fresh (captures : Bool) : Level := ⟨captures, [], []⟩

/-- The level with one more item. -/
def push (level : Level) (item : Pattern) : Level :=
  { level with items := item :: level.items }

/-- The branch that is being read, as it stands. -/
def branch (level : Level) : Pattern :=
  ofItems level.items.reverse

/-- What has been read at this level. -/
def contents (level : Level) : Pattern :=
  ofBranches (level.branches.reverse ++ [level.branch])

end Level

/-- How far the reader has got. -/
structure Progress where
  mode : Mode
  /-- The innermost group. -/
  level : Level
  /-- The groups around it, from the inside out. -/
  outer : List Level

namespace Progress

/-- Nothing has been read. -/
def initial : Progress := ⟨.plain, .fresh false, []⟩

/-- One more item has been read. -/
def push (progress : Progress) (item : Pattern) : Progress :=
  { progress with mode := .plain, level := progress.level.push item }

/-- A group has been opened. -/
def enter (progress : Progress) (captures : Bool) : Progress :=
  ⟨.plain, .fresh captures, progress.level :: progress.outer⟩

/-- The innermost group is closed. -/
def leave (progress : Progress) : Except SyntaxError Progress :=
  match progress.outer with
  | [] => .error .unopenedGroup
  | parent :: outer =>
      .ok ⟨.plain, parent.push (.group progress.level.captures progress.level.contents), outer⟩

/-- A sign of repetition applies to the last item. -/
def repeatLast (progress : Progress) (sign : Pattern → Pattern) :
    Except SyntaxError Progress :=
  match progress.level.items with
  | [] => .error .nothingToRepeat
  | item :: items =>
      if item.isRepeated then .error .nothingToRepeat
      else .ok ⟨.plain, { progress.level with items := sign item :: items }, progress.outer⟩

/-- The branch being read is complete. -/
def nextBranch (progress : Progress) : Progress :=
  ⟨.plain, { progress.level with
    branches := progress.level.branch :: progress.level.branches, items := [] }, progress.outer⟩

/-- A character outside sets and not after a backslash. -/
def plainStep (progress : Progress) (c : Char) : Except SyntaxError Progress :=
  match c with
  | '(' => .ok { progress with mode := .opened }
  | ')' => progress.leave
  | '|' => .ok progress.nextBranch
  | '?' => progress.repeatLast .opt
  | '*' => progress.repeatLast .star
  | '+' => progress.repeatLast .plus
  | '[' => .ok { progress with mode := .setOpened }
  | '\\' => .ok { progress with mode := .escaped }
  | '^' => .ok (progress.push .atStart)
  | '$' => .ok (progress.push .atEnd)
  | '.' | '{' | '}' | ']' => .error (.unsupported c)
  | c => .ok (progress.push (.char (.literal c)))

/-- A character inside a set. -/
def setStep (progress : Progress) (negated : Bool) (members : List Char) (c : Char) :
    Except SyntaxError Progress :=
  match c with
  | ']' =>
      match members with
      | [] => .error (.unsupported c)
      | _ :: _ => .ok (progress.push (.char (.listed negated members.reverse)))
  | '\\' => .ok { progress with mode := .setEscaped negated members }
  | '[' | '-' | '&' | '~' | '^' => .error (.unsupported c)
  | c => .ok { progress with mode := .inSet negated (c :: members) }

/-- Read one character. -/
def step (progress : Progress) (c : Char) : Except SyntaxError Progress :=
  match progress.mode with
  | .plain => progress.plainStep c
  | .escaped =>
      if c = 's' then .ok (progress.push (.char .blank))
      else if c = 'n' then .ok (progress.push (.char (.literal '\n')))
      else if isMeta c then .ok (progress.push (.char (.literal c)))
      else .error (.unknownEscape c)
  | .opened =>
      if c = '?' then .ok { progress with mode := .openedFlags }
      else (progress.enter true).plainStep c
  | .openedFlags =>
      if c = ':' then .ok (progress.enter false) else .error (.unsupported c)
  | .setOpened =>
      if c = '^' then .ok { progress with mode := .inSet true [] }
      else progress.setStep false [] c
  | .inSet negated members => progress.setStep negated members c
  | .setEscaped negated members =>
      if c = 'n' then .ok { progress with mode := .inSet negated ('\n' :: members) }
      else if isMeta c then .ok { progress with mode := .inSet negated (c :: members) }
      else .error (.unknownEscape c)

/-- The pattern that has been read, if the text may end here. -/
def finish (progress : Progress) : Except SyntaxError Pattern :=
  match progress.mode, progress.outer with
  | .plain, [] => .ok progress.level.contents
  | _, _ => .error .unfinished

end Progress

/-- The regular expression that a text writes down. -/
def read (source : String) : Except SyntaxError Pattern := do
  let progress ← source.toList.foldlM Progress.step Progress.initial
  progress.finish

end Pattern
end TacticNotation
