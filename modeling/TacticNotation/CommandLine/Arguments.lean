import TacticNotation.Notation

/-!
# The arguments of the command

Arguments are read from left to right.  Options may stand before or after the
name of a subcommand; those that every subcommand shares may be given once at
each place, and the second place wins.  Reading stops at the first mistake, and
also where an option asks for the version or for help.  The word `help` in place
of a subcommand asks for help too; after it nothing may stand but the name of
one subcommand.
-/

namespace TacticNotation
namespace CommandLine

/-- The subcommands. -/
inductive Subcommand where
  | render
  | substitute
  | check
  | list
  deriving DecidableEq, Repr

namespace Subcommand

/-- The subcommand of a name. -/
def ofName? : String → Option Subcommand
  | "render" => some .render
  | "substitute" => some .substitute
  | "check" => some .check
  | "macros" => some .list
  | _ => none

/-- How many operands a subcommand takes at most. -/
def maxOperands : Subcommand → Nat
  | .render | .substitute => 1
  | .check => 2
  | .list => 0

end Subcommand

/-- Options without a value. -/
inductive Switch where
  | verbose
  | noColor
  | anchored
  | help
  | version
  deriving DecidableEq, Repr

/-- Options with a value. -/
inductive Setting where
  | path
  | format
  deriving DecidableEq, Repr

/-- What the name of an option stands for. -/
inductive Meaning where
  | switch (switch : Switch)
  | setting (setting : Setting)

/-- The options given at one place. -/
structure Given where
  path : Option String := none
  verbose : Bool := false
  noColor : Bool := false
  format : Option Format := none
  anchored : Bool := false
  deriving DecidableEq, Repr

/-- Why reading stops before the last argument. -/
inductive Stop where
  /-- An argument is wrong or missing. -/
  | mistake
  | help
  | version
  deriving DecidableEq, Repr

/-- How far the arguments have been read. -/
structure Reading where
  subcommand : Option Subcommand := none
  /-- Whether the word `help` stands in place of a subcommand. -/
  helping : Bool := false
  /-- The name after the word `help`. -/
  topic : Option String := none
  /-- The options before the subcommand. -/
  before : Given := {}
  /-- The options after the subcommand. -/
  after : Given := {}
  /-- The operands of the subcommand. -/
  operands : List String := []
  /-- The option that the next argument is the value of. -/
  pending : Option Setting := none
  /-- Whether all further arguments are operands. -/
  literal : Bool := false

namespace Reading

/-- The options given at the place that is being read. -/
def here (reading : Reading) : Given :=
  if reading.subcommand.isSome then reading.after else reading.before

/-- The same with other options at the place that is being read. -/
def setHere (reading : Reading) (given : Given) : Reading :=
  if reading.subcommand.isSome then { reading with after := given }
  else { reading with before := given }

/-- The option of a long name, where it can stand. -/
def long? (reading : Reading) (name : String) : Option Meaning :=
  match name, reading.subcommand with
  | "path", _ => some (.setting .path)
  | "verbose", _ => some (.switch .verbose)
  | "no-color", _ => some (.switch .noColor)
  | "help", _ => some (.switch .help)
  | "version", none => some (.switch .version)
  | "format", some .render => some (.setting .format)
  | "anchored", some .render => some (.switch .anchored)
  | _, _ => none

/-- The option of a letter, where it can stand. -/
def short? (reading : Reading) (letter : Char) : Option Meaning :=
  match letter, reading.subcommand with
  | 'p', _ => some (.setting .path)
  | 'v', _ => some (.switch .verbose)
  | 'h', _ => some (.switch .help)
  | 'V', none => some (.switch .version)
  | _, _ => none

/-- Take an option without a value; it can be given once. -/
def giveSwitch (reading : Reading) (switch : Switch) : Except Stop Reading :=
  let here := reading.here
  match switch with
  | .help => .error .help
  | .version => .error .version
  | .verbose =>
      if here.verbose then .error .mistake
      else .ok (reading.setHere { here with verbose := true })
  | .noColor =>
      if here.noColor then .error .mistake
      else .ok (reading.setHere { here with noColor := true })
  | .anchored =>
      if here.anchored then .error .mistake
      else .ok (reading.setHere { here with anchored := true })

/-- Take the value of an option; it can be given once. -/
def giveSetting (reading : Reading) (setting : Setting) (value : String) :
    Except Stop Reading :=
  let here := reading.here
  match setting with
  | .path =>
      if here.path.isSome ∨ value = "" then .error .mistake
      else .ok { reading.setHere { here with path := some value } with pending := none }
  | .format =>
      match here.format, Format.ofName? value with
      | none, some format =>
          .ok { reading.setHere { here with format := some format } with pending := none }
      | _, _ => .error .mistake

/-- An argument that is no option. -/
def word (reading : Reading) (text : String) : Except Stop Reading :=
  match reading.subcommand with
  | some subcommand =>
      if reading.operands.length < subcommand.maxOperands then
        .ok { reading with operands := reading.operands ++ [text] }
      else .error .mistake
  | none =>
      if reading.literal then .error .mistake
      else if text = "help" then .ok { reading with helping := true }
      else
        match Subcommand.ofName? text with
        | some subcommand => .ok { reading with subcommand := some subcommand }
        | none => .error .mistake

/-- An argument after the word `help`, whatever it looks like. -/
def giveTopic (reading : Reading) (text : String) : Except Stop Reading :=
  if reading.topic = none ∧ (text = "help" ∨ (Subcommand.ofName? text).isSome) then
    .ok { reading with topic := some text }
  else .error .mistake

/-- An argument of two dashes and a name, perhaps with a value after an equals
sign. -/
def long (reading : Reading) (chars : List Char) : Except Stop Reading :=
  let name := String.ofList (chars.takeWhile (· ≠ '='))
  match reading.long? name, chars.dropWhile (· ≠ '=') with
  | some (.switch switch), [] => reading.giveSwitch switch
  | some (.setting setting), [] => .ok { reading with pending := some setting }
  | some (.setting setting), _ :: value => reading.giveSetting setting (String.ofList value)
  | _, _ => .error .mistake

/-- The letters after one dash; the first that takes a value takes the rest of
the argument. -/
def letters (reading : Reading) : List Char → Except Stop Reading
  | [] => .ok reading
  | letter :: rest =>
      match reading.short? letter with
      | none => .error .mistake
      | some (.switch switch) =>
          match reading.giveSwitch switch with
          | .error stop => .error stop
          | .ok reading => reading.letters rest
      | some (.setting setting) =>
          match rest with
          | [] => .ok { reading with pending := some setting }
          | '=' :: value => reading.giveSetting setting (String.ofList value)
          | value => reading.giveSetting setting (String.ofList value)

/-- Read one argument. -/
def step (reading : Reading) (argument : String) : Except Stop Reading :=
  if reading.helping then reading.giveTopic argument
  else if reading.literal then reading.word argument
  else
    match reading.pending, argument.toList with
    | some setting, ['-'] => reading.giveSetting setting argument
    | some _, '-' :: _ => .error .mistake
    | some setting, _ => reading.giveSetting setting argument
    | none, ['-', '-'] => .ok { reading with literal := true }
    | none, '-' :: '-' :: rest => reading.long rest
    | none, '-' :: letter :: rest => reading.letters (letter :: rest)
    | none, _ => reading.word argument

end Reading

/-- What the command is asked to do. -/
inductive Command where
  /-- Render a notation, or each line of the input. -/
  | render (source : Option String) (format : Option Format) (anchored : Bool)
  /-- Expand the shorthands of a text, or of each line of the input. -/
  | substitute (source : Option String)
  /-- Say whether a text is an instance of a notation. -/
  | check (source text : String)
  /-- List the shorthands. -/
  | list
  deriving DecidableEq, Repr

/-- The arguments, read. -/
structure Arguments where
  /-- The directory to look for a configuration in. -/
  path : Option String
  verbose : Bool
  noColor : Bool
  /-- Nothing to do if no subcommand is named. -/
  command : Option Command
  deriving DecidableEq, Repr

/-- The command that a subcommand with its options and operands is. -/
def command? (subcommand : Subcommand) (given : Given) : List String → Option Command
  | [] =>
      match subcommand with
      | .render => some (.render none given.format given.anchored)
      | .substitute => some (.substitute none)
      | .list => some .list
      | .check => none
  | [operand] =>
      match subcommand with
      | .render => some (.render (some operand) given.format given.anchored)
      | .substitute => some (.substitute (some operand))
      | .check | .list => none
  | [source, text] =>
      match subcommand with
      | .check => some (.check source text)
      | .render | .substitute | .list => none
  | _ => none

/-- What the arguments ask for once all of them have been read. -/
def Reading.finish (reading : Reading) : Except Stop Arguments :=
  let path := reading.after.path <|> reading.before.path
  let verbose := reading.before.verbose || reading.after.verbose
  let noColor := reading.before.noColor || reading.after.noColor
  if reading.pending.isSome then .error .mistake
  else if reading.helping then .error .help
  else
    match reading.subcommand with
    | none => .ok ⟨path, verbose, noColor, none⟩
    | some subcommand =>
        match command? subcommand reading.after reading.operands with
        | some command => .ok ⟨path, verbose, noColor, some command⟩
        | none => .error .mistake

/-- Read the arguments of the command. -/
def readArguments (arguments : List String) : Except Stop Arguments := do
  let reading ← arguments.foldlM Reading.step {}
  reading.finish

end CommandLine
end TacticNotation
