import JsonSelect.CommandLine

/-!
# The program

Reads the files that the arguments name and, where no input file is named, the standard input, runs
the command line, and writes what it printed.
-/

namespace JsonSelect.Main

open CommandLine

/-- The contents of a file, if it can be read. -/
def contents? (name : String) : IO (Option (List UInt8)) := do
  try return some (← IO.FS.readBinFile name).toList
  catch _ => return none

/-- The named files that can be read. -/
def readable : List String → IO (List (String × List UInt8))
  | [] => return []
  | name :: names => do
    let others ← readable names
    match ← contents? name with
    | some bytes => return (name, bytes) :: others
    | none => return others

/-- The standard input to its end. -/
def standardInput : IO (List UInt8) := do
  return (← (← IO.getStdin).readBinToEnd).toList

def usage : String :=
  "usage: [FILE] [--root TEXT] [-i TEXT] [-e TEXT] [--fields FILE] [--ndjson] [--compact]"

end JsonSelect.Main

open JsonSelect in
def main (arguments : List String) : IO UInt32 := do
  let parsed := (CommandLine.parse? .empty arguments).getD .empty
  let files ← Main.readable (parsed.input.toList ++ (parsed.get .requestFile).toList)
  let input ← if parsed.input.isSome then pure [] else Main.standardInput
  let outcome := CommandLine.run arguments (files.lookup ·) input
  for warning in outcome.warnings do IO.eprintln warning
  if outcome.code == 2 then IO.eprintln Main.usage
  match outcome.message with
  | some message => IO.eprintln ("Error: " ++ message)
  | none => pure ()
  IO.print outcome.output
  return outcome.code.toUInt32
