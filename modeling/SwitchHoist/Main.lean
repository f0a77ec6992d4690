import SwitchHoist.CommandLine

/-!
# The program

`switchhoist [-O STEP]... INPUT OUTPUT` optimizes a program, and `switchhoist
parse` prints the tree of a program on standard input as JSON.  A command line
that cannot be used ends with exit code 2, any other failure with 101.
-/

namespace SwitchHoist

/-- How the program is called. -/
def usage : String :=
  "Usage: switchhoist [-O <STEPS>] <INPUT_FILE> <OUTPUT_FILE>\n       switchhoist parse"

/-- Prints a message about the command line. -/
def refuse (message : String) : IO UInt32 := do
  IO.eprintln message
  return 2

/-- Prints a message about a failure. -/
def giveUp (failure : Failure) : IO UInt32 := do
  IO.eprintln failure.message
  return 101

/-- The bytes of a file, if it can be read. -/
def contents? (name : String) : IO (Option ByteArray) := do
  try
    let bytes ← IO.FS.readBinFile name
    return some bytes
  catch _ => return none

/-- Writes a file, and says whether that was possible. -/
def writes (name content : String) : IO Bool := do
  try
    IO.FS.writeFile name content
    return true
  catch _ => return false

/-- Optimizes the input file into the output file. -/
def runRequest (request : Request) : IO UInt32 := do
  match request.outcome (← contents? request.input.name) with
  | .error failure => giveUp failure
  | .ok content =>
      if ← writes request.output.name content then return 0
      else giveUp (.cannotWrite request.output.name)

/-- Prints the tree of the program on standard input. -/
def runParse : IO UInt32 := do
  let input ← IO.getStdin
  let code ← input.readToEnd
  match jsonOfText code with
  | .error failure => giveUp failure
  | .ok text =>
      IO.print text
      return 0

end SwitchHoist

open SwitchHoist in
/-- Runs the program. -/
def main (words : List String) : IO UInt32 := do
  if words = ["parse"] then runParse
  else
    match Arguments.ofWords? words with
    | some ⟨steps, [input, output]⟩ =>
        match Request.ofArguments steps input output with
        | .error e => refuse e.message
        | .ok request => runRequest request
    | _ => refuse usage
