import GrammarTables.CommandLine.Report

/-!
# The command line program

Reads the file that the command line names, answers the request, and prints the outcome.
-/

open GrammarTables

def readFile? (path : String) : IO (Option ByteArray) := do
  try
    let bytes ← IO.FS.readBinFile path
    return some bytes
  catch _ => return none

def main (args : List String) : IO UInt32 := do
  match Request.parse? args with
  | none =>
    IO.eprint usageText
    return 2
  | some request =>
    let bytes ←
      match request.path? with
      | some path => readFile? path
      | none => pure none
    let outcome := request.run bytes
    IO.print outcome.stdout
    IO.eprint outcome.stderr
    return outcome.code
