import SwitchHoist.Program.Json
import SwitchHoist.Program.Parser
import SwitchHoist.Step

/-!
# What the command line asks for

A request names the steps to run, the file to read and the file to write.  The
names of the files say how programs are written in them: as text in `.il` files
and as JSON in `.json` files.  Everything here is computed from the request and
the bytes of the input file; reading and writing files is left to the program.
-/

namespace SwitchHoist

/-- How a program is written in a file. -/
inductive FileFormat where
  | text
  | json
  deriving DecidableEq, Repr, Inhabited

/-- The characters behind the last dot of a file name, if it has a dot. -/
def extension? (fileName : String) : Option String :=
  let cs := fileName.toList
  if cs.contains '.' then some (String.ofList (cs.reverse.takeWhile (· != '.')).reverse) else none

/-- The format that a file name stands for. -/
def FileFormat.ofFileName? (fileName : String) : Option FileFormat :=
  match extension? fileName with
  | some "il" => some .text
  | some "json" => some .json
  | _ => none

/-- A file to read or to write. -/
structure ProgramFile where
  format : FileFormat
  name : String
  deriving DecidableEq, Repr, Inhabited

/-- The file of a name that stands for a format. -/
def ProgramFile.ofName? (name : String) : Option ProgramFile :=
  (FileFormat.ofFileName? name).map fun format => ⟨format, name⟩

/-- A value on the command line that cannot be used. -/
inductive UsageError where
  | step (word : String)
  | inputFile (name : String)
  | outputFile (name : String)
  deriving DecidableEq, Repr

/-- What is said about a value that cannot be used in some place. -/
def UsageError.invalidValue (value place reason : String) : String :=
  "error: invalid value '" ++ value ++ "' for '" ++ place ++ "': " ++ reason

/-- What is said about a file name without a known extension. -/
def UsageError.extensionReason (name : String) : String :=
  "Expected a file name with one of the following extensions: il, json. Got " ++ name

/-- The message for a value that cannot be used. -/
def UsageError.message : UsageError → String
  | step word => invalidValue word "--step <STEPS>" (Step.unknownMessage word)
  | inputFile name => invalidValue name "<INPUT_FILE>" (extensionReason name)
  | outputFile name => invalidValue name "<OUTPUT_FILE>" (extensionReason name)

/-- A request to optimize a program. -/
structure Request where
  steps : List Step
  input : ProgramFile
  output : ProgramFile
  deriving DecidableEq, Repr

/-- The request of a command line.  The steps are looked at first, then the input
file, then the output file. -/
def Request.ofArguments (steps : List String) (input output : String) :
    Except UsageError Request :=
  match Step.ofNames steps with
  | .error word => .error (.step word)
  | .ok steps =>
      match ProgramFile.ofName? input with
      | none => .error (.inputFile input)
      | some inputFile =>
          match ProgramFile.ofName? output with
          | none => .error (.outputFile output)
          | some outputFile => .ok ⟨steps, inputFile, outputFile⟩

/-- Why a request could not be met. -/
inductive Failure where
  | cannotRead (name : String)
  | notText
  | malformedText (code : String) (error : ParseError)
  | malformedJson
  | invalid (violations : List Violation)
  | optimizer (error : OptimizeError)
  | cannotWrite (name : String)
  deriving DecidableEq, Repr

/-- The message for a failure. -/
def Failure.message : Failure → String
  | cannotRead name => "Could not read the input file " ++ name
  | notText => "The input file does not contain valid utf-8 text"
  | malformedText code error => "Syntax error: " ++ error.message code
  | malformedJson => "AST JSON file is not valid"
  | invalid violations =>
      "The input program is not valid:\n" ++ (Report.ofViolations violations).text
  | optimizer error => error.message
  | cannotWrite name => "Failed to write to the optimized program to the output file: " ++ name

/-- The program that a file holds. -/
def ProgramFile.read (file : ProgramFile) (content : String) : Except Failure Block :=
  match file.format with
  | .text =>
      match Block.parse content with
      | .ok b => .ok b
      | .error e => .error (.malformedText content e)
  | .json =>
      match Block.parseJson? content with
      | some b => .ok b
      | none => .error .malformedJson

/-- What a file holds when a program is written to it.  A text ends with a line
end and a JSON value does not. -/
def ProgramFile.write (file : ProgramFile) (b : Block) : String :=
  match file.format with
  | .text => b.text ++ "\n"
  | .json => b.toJson.pretty

/-- What the output file of a request has to hold, when the input file holds some
text. -/
def Request.outcomeOfText (request : Request) (content : String) : Except Failure String := do
  let b ← request.input.read content
  if b.IsValid then
    match b.optimize request.steps with
    | .ok b => .ok (request.output.write b)
    | .error e => .error (.optimizer e)
  else .error (.invalid b.violations)

/-- What the output file of a request has to hold, from the bytes of the input
file, which may be missing. -/
def Request.outcome (request : Request) : Option ByteArray → Except Failure String
  | none => .error (.cannotRead request.input.name)
  | some bytes =>
      match String.fromUTF8? bytes with
      | none => .error .notText
      | some content => request.outcomeOfText content

/-- The JSON text of a program given as text, with a line end. -/
def jsonOfText (code : String) : Except Failure String :=
  match Block.parse code with
  | .ok b => .ok (b.toJson.pretty ++ "\n")
  | .error e => .error (.malformedText code e)

/-- The words of a command line, sorted into steps and files. -/
structure Arguments where
  steps : List String
  files : List String
  deriving DecidableEq, Repr

/-- The text behind a start of a word, if the word has that start. -/
def behind? (start word : String) : Option String :=
  if start.toList.isPrefixOf word.toList then
    some (String.ofList (word.toList.drop start.toList.length))
  else none

/-- What a word says that takes no other word with it: a step behind an equals
sign or right behind `-O`, or the name of a file. -/
def Arguments.ofWord? (word : String) : Option Arguments :=
  match behind? "--step=" word with
  | some step => some ⟨[step], []⟩
  | none =>
      match behind? "-O" word with
      | some step => if step = "" then none else some ⟨[step], []⟩
      | none => if (behind? "-" word).isSome then none else some ⟨[], [word]⟩

/-- Sorts the words of a command line.  A step may also be the word behind `-O`
or `--step`. -/
def Arguments.ofWords? : List String → Option Arguments
  | [] => some ⟨[], []⟩
  | [word] => Arguments.ofWord? word
  | word :: next :: rest =>
      if word = "-O" ∨ word = "--step" then
        (Arguments.ofWords? rest).map fun a => { a with steps := next :: a.steps }
      else do
        let a ← Arguments.ofWord? word
        let others ← Arguments.ofWords? (next :: rest)
        some ⟨a.steps ++ others.steps, a.files ++ others.files⟩

end SwitchHoist
