import TacticNotation.Notation
import TacticNotation.Toml.Reader

/-!
# Configuration

A configuration adds shorthands to the built-in ones and sets the defaults for
rendering.  In a file it is a TOML document; keys that it does not know are
passed over, but a number that is garbled or does not fit its type is refused
under any key.
Where a table with known keys is expected, an array may list the values of
those keys in their order instead: what it leaves out takes its default and
what it has too many is not looked at.  A date or a time counts as a table with
none of the keys.
-/

namespace TacticNotation

/-- The defaults for rendering. -/
structure RenderDefaults where
  /-- The format to render in. -/
  format : Format := .text
  /-- Whether patterns match whole texts only. -/
  anchored : Bool := false
  deriving DecidableEq, Repr

/-- A configuration. -/
structure Config where
  /-- The shorthands to use after the built-in ones. -/
  substitutions : List Shorthand := []
  render : RenderDefaults := {}
  deriving DecidableEq, Repr

namespace Config

/-- The shorthands in use under a configuration. -/
def table (config : Config) : ShorthandTable :=
  .withExtra config.substitutions

/-! ## From TOML -/

/-- A value that has to be a string. -/
def string? : Toml → Option String
  | .string text => some text
  | _ => none

/-- A value that has to be a truth value. -/
def boolean? : Toml → Option Bool
  | .boolean value => some value
  | _ => none

/-- Whether a value is an array or table without contents. -/
def isHollow : Toml → Bool
  | .array _ [] => true
  | .table _ [] => true
  | _ => false

/-- A format, which is its name, or a table with the name for its only key and
nothing under it. -/
def format? : Toml → Option Format
  | .string name => Format.ofName? name
  | .table _ [(name, value)] => if isHollow value then Format.ofName? name else none
  | _ => none

/-- Whether the keys of a table that are not known have values in range. -/
def unknownInRange (known : List String) (entries : Toml.Entries) : Bool :=
  entries.all fun entry => known.contains entry.1 || entry.2.inRange

/-- A shorthand. -/
def shorthand? : Toml → Option Shorthand
  | .table _ entries => do
      let source ← string? (← Toml.lookup? "from" entries)
      let expansion ← string? (← Toml.lookup? "to" entries)
      if unknownInRange ["from", "to"] entries then some ⟨source, expansion⟩ else none
  | .array _ (source :: expansion :: _) => do
      some ⟨← string? source, ← string? expansion⟩
  | _ => none

/-- A list of shorthands. -/
def shorthands? : Toml → Option (List Shorthand)
  | .array _ items => items.mapM shorthand?
  | _ => none

/-- The value of a key, or the default where the key is missing. -/
def field? {α : Type} (read : Toml → Option α) (default : α) : Option Toml → Option α
  | none => some default
  | some value => read value

/-- The defaults for rendering. -/
def render? : Toml → Option RenderDefaults
  | .table _ entries => do
      let format ← field? format? .text (Toml.lookup? "format" entries)
      let anchored ← field? boolean? false (Toml.lookup? "anchored" entries)
      if unknownInRange ["format", "anchored"] entries then some ⟨format, anchored⟩ else none
  | .array _ items => do
      let format ← field? format? .text items.head?
      let anchored ← field? boolean? false items.tail.head?
      some ⟨format, anchored⟩
  | .moment => some {}
  | _ => none

/-- The configuration in the entries of a document. -/
def ofEntries? (entries : Toml.Entries) : Option Config := do
  let substitutions ← field? shorthands? [] (Toml.lookup? "substitutions" entries)
  let render ← field? render? {} (Toml.lookup? "render" entries)
  if unknownInRange ["substitutions", "render"] entries then
    some ⟨substitutions, render⟩
  else none

/-- The configuration that a text holds. -/
def ofText (text : String) : Except Problem Config :=
  match (Toml.parse? text).bind ofEntries? with
  | some config => .ok config
  | none => .error .invalidConfig

/-- The configuration that the bytes of a file hold. -/
def ofBytes (bytes : ByteArray) : Except Problem Config :=
  match String.fromUTF8? bytes with
  | some text => ofText text
  | none => .error .notUtf8

/-! ## Files -/

/-- What a name stands for in a directory. -/
inductive FileState where
  | missing
  | directory
  | file (bytes : ByteArray)

/-- A directory, as far as looking up names in it goes. -/
abbrev Directory := String → FileState

/-- The names that a configuration file may have, in order of preference. -/
def candidates : List String :=
  ["tacnote.toml", ".tacnote.toml", ".config/tacnote.toml"]

/-- Whether a name stands for a file. -/
def FileState.isFile : FileState → Bool
  | .file _ => true
  | .missing | .directory => false

/-- The name of the configuration file of a directory. -/
def locate? (directory : Directory) : Option String :=
  candidates.find? fun name => (directory name).isFile

/-- The configuration of a directory, if it has a file for it. -/
def load? (directory : Directory) : Except Problem (Option Config) :=
  match locate? directory with
  | none => .ok none
  | some name =>
      match directory name with
      | .file bytes => (ofBytes bytes).map some
      | .missing | .directory => .ok none

/-- The configuration of a directory, or the default one. -/
def load (directory : Directory) : Except Problem Config :=
  (load? directory).map (·.getD {})

end Config
end TacticNotation
