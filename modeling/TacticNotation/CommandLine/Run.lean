import TacticNotation.CommandLine.Arguments
import TacticNotation.Config
import TacticNotation.Text.Lines

/-!
# What the command does

The command is a function from its arguments and surroundings to a report: the
exit code and what is written to the two outputs.  Exit code 0 stands for
success, 1 for a text that is no instance and for a missing subcommand, and 2
for every mistake; what was written before a mistake stays written.
-/

namespace TacticNotation
namespace CommandLine

/-- What the command finds around it. -/
structure Surroundings where
  /-- The directories that a path can lead to; without a path, the current one. -/
  directory : Option String → Config.Directory
  /-- The bytes of the input. -/
  input : ByteArray
  /-- Whether the environment asks for output without colour. -/
  noColor : Bool

/-- What the command leaves behind. -/
structure Report where
  code : Nat
  output : String
  errors : String
  deriving DecidableEq, Repr

/-! ## Colour -/

/-- A way to set off a text. -/
inductive Style where
  | red
  | green
  | bold
  deriving DecidableEq, Repr

/-- The number that turns a style on. -/
def Style.on : Style → String
  | .red => "31"
  | .green => "32"
  | .bold => "1"

/-- The number that turns a style off. -/
def Style.off : Style → String
  | .red | .green => "39"
  | .bold => "0"

/-- A text in a style, where colour is wanted. -/
def Style.paint (style : Style) (colour : Bool) (text : String) : String :=
  if colour then
    "\x1b[" ++ style.on ++ "m" ++ text ++ "\x1b[" ++ style.off ++ "m"
  else text

/-! ## Reports -/

namespace Report

/-- All went well. -/
def success (output : String) : Report := ⟨0, output, ""⟩

/-- A problem with a notation or configuration ends the command. -/
def ofProblem (output : String) (problem : Problem) : Report :=
  ⟨2, output, problem.code ++ "\n" ++ problem.message ++ "\n"⟩

/-- The input is not text. -/
def ofInput (colour : Bool) : Report :=
  ⟨2, "", Style.paint .red colour "error:" ++ " " ++ Problem.notUtf8.message ++ "\n"⟩

end Report

/-! ## Rendering and expanding -/

/-- The notations to work on: the one that is given, or the lines of the input
that are not blank.  There are none if the input is not text. -/
def sources? (given : Option String) (input : ByteArray) : Option (List String) :=
  match given with
  | some source => some [source]
  | none => (String.fromUTF8? input).map fun text => (lines text).filter (!isBlankLine ·)

/-- One notation, read and rendered. -/
def renderLine (table : ShorthandTable) (format : Format) (anchored : Bool) (source : String) :
    Except Problem String := do
  let form ← Notation.parse table source
  form.render format anchored

/-- Work on sources one after the other, each result on a line of its own, until
one of them fails. -/
def inTurn (work : String → Except Problem String) : List String → String × Option Problem
  | [] => ("", none)
  | source :: sources =>
      match work source with
      | .error problem => ("", some problem)
      | .ok result =>
          let (more, problem) := inTurn work sources
          (result ++ "\n" ++ more, problem)

/-- Work on every source. -/
def batch (work : String → Except Problem String) (sources : Option (List String))
    (colour : Bool) : Report :=
  match sources with
  | none => .ofInput colour
  | some sources =>
      match inTurn work sources with
      | (output, none) => .success output
      | (output, some problem) => .ofProblem output problem

/-! ## Checking -/

/-- Say whether a text is an instance of a notation. -/
def check (table : ShorthandTable) (source text : String) (verbose colour : Bool) : Report :=
  match Notation.parse table source with
  | .error problem => .ofProblem "" problem
  | .ok form =>
      match form.accepts text with
      | .error problem => .ofProblem "" problem
      | .ok true =>
          .success (Style.paint .green colour "✓" ++ " `" ++ text ++ "` matches `" ++
            source ++ "`\n")
      | .ok false =>
          let verdict := Style.paint .red colour "✗" ++ " `" ++ text ++
            "` does not match `" ++ source ++ "`\n"
          let detail := if verbose then "  pattern: " ++ form.patternText true ++ "\n" else ""
          ⟨1, verdict ++ detail, ""⟩

/-! ## Listing -/

/-- A text with spaces after it up to a number of characters. -/
def padded (width : Nat) (text : String) : String :=
  text ++ String.ofList (List.replicate (width - text.length) ' ')

/-- The shorthands of a table, one on each line. -/
def listing (table : ShorthandTable) (colour : Bool) : String :=
  let width := (table.map (·.source.length)).foldl max 0
  String.join (table.map fun entry =>
    Style.paint .bold colour (padded width entry.source) ++ "  →  " ++ entry.expansion ++ "\n")

/-! ## The command -/

/-- The line that says which version this is. -/
def versionLine : String := "tacnote_cli 0.1.0\n"

/-- How to call the command. -/
def usage : String :=
  "Render tactic notation strings as HTML, placeholder text or regular expressions.\n\n" ++
  "Usage: tacnote [OPTIONS] [COMMAND]\n\n" ++
  "Commands:\n" ++
  "  render      Render a notation with one of the backends\n" ++
  "  substitute  Print a notation after its shorthand macros are expanded\n" ++
  "  check       Check whether TEXT is an instance of NOTATION\n" ++
  "  macros      List the active shorthand macros in the order they are applied\n" ++
  "  help        Print this message or the help of the given subcommand(s)\n\n" ++
  "Options:\n" ++
  "  -p, --path <PATH>  Directory to search for a `tacnote.toml` config file\n" ++
  "  -v, --verbose      Enable verbose output\n" ++
  "      --no-color     Disable colored output\n" ++
  "  -h, --help         Print help\n" ++
  "  -V, --version      Print version\n"

/-- Carry out a command under a configuration. -/
def perform (command : Command) (config : Config) (input : ByteArray)
    (verbose colour : Bool) : Report :=
  match command with
  | .render source format anchored =>
      batch (renderLine config.table (format.getD config.render.format)
        (anchored || config.render.anchored)) (sources? source input) colour
  | .substitute source =>
      batch (fun source => .ok (config.table.apply source)) (sources? source input) colour
  | .check source text => check config.table source text verbose colour
  | .list => .success (listing config.table colour)

/-- Run the command. -/
def run (arguments : List String) (surroundings : Surroundings) : Report :=
  match readArguments arguments with
  | .error .mistake => ⟨2, "", "error: invalid arguments\n\n" ++ usage⟩
  | .error .help => .success usage
  | .error .version => .success versionLine
  | .ok arguments =>
      let colour := !(arguments.noColor || surroundings.noColor)
      match arguments.command with
      | none => ⟨1, "", "No subcommand specified. Run `tacnote --help` for usage.\n"⟩
      | some command =>
          match Config.load (surroundings.directory arguments.path) with
          | .error problem => .ofProblem "" problem
          | .ok config => perform command config surroundings.input arguments.verbose colour

end CommandLine
end TacticNotation
