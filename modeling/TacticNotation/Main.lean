import TacticNotation.CommandLine.Run

/-!
# The command

Reads the surroundings of the process, runs the command and writes its report.
-/

open TacticNotation

/-- What a path stands for; what cannot be read as a file counts as missing. -/
def readState (path : String) : IO Config.FileState := do
  match ← (IO.FS.readBinFile path).toBaseIO with
  | .ok bytes => return .file bytes
  | .error _ => return .missing

/-- The configuration files of a directory, read. -/
def readDirectory (root : String) : IO Config.Directory := do
  let mut found := []
  for name in Config.candidates do
    found := (name, ← readState (root ++ "/" ++ name)) :: found
  let states := found
  return fun name => (states.lookup name).getD .missing

/-- Run the command with the arguments of the process. -/
def main (arguments : List String) : IO UInt32 := do
  let asked := match CommandLine.readArguments arguments with
    | .ok asked => some asked
    | .error _ => none
  let root := (asked.bind (·.path)).getD "."
  let directory ← readDirectory root
  let usesInput := match asked.bind (·.command) with
    | some (.render none _ _) | some (.substitute none) => true
    | _ => false
  let input ← if usesInput then (← IO.getStdin).readBinToEnd else pure ByteArray.empty
  let noColor ← IO.getEnv "NO_COLOR"
  let report := CommandLine.run arguments ⟨fun _ => directory, input, noColor.isSome⟩
  IO.print report.output
  IO.eprint report.errors
  return report.code.toUInt32
