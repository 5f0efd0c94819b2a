import RingTape.Program
import RingTape.Snapshot.Json

/-!
The command line. Arguments are taken from left to right and the first one that cannot be used decides; a
request for the version or for help takes effect where it stands.
-/

namespace RingTape

set_option autoImplicit false

namespace CommandLine

structure Options where
  file : Option String := none
  maxSteps : Option Nat := none
  dumpMemory : Bool := false
deriving DecidableEq, Repr

/-- What the arguments ask for. -/
inductive Request where
  | run (file : String) (maxSteps : Option Nat) (dumpMemory : Bool)
  | version
  | help
  | misuse
deriving DecidableEq, Repr

/-- An unsigned 64-bit number in decimal, with an optional plus sign. -/
def count? (text : String) : Option Nat :=
  let digits :=
    match text.toList with
    | '+' :: rest => rest
    | chars => chars
  if !digits.isEmpty && digits.all (Text.isDigit 10) then
    some (Text.valueOf 10 digits) |>.filter fun count => count < UInt64.size
  else
    none

/-- Take the name of the source file, which there must be one of. -/
def takeFile (options : Options) (name : String) : Option Options :=
  if options.file.isSome || name.isEmpty then none else some { options with file := some name }

def takeMaxSteps (options : Options) (text : String) : Option Options :=
  if options.maxSteps.isSome then
    none
  else
    (count? text).map fun count => { options with maxSteps := some count }

/-- The request of the options when all arguments have been taken. -/
def finish (options : Options) : Request :=
  match options.file with
  | some file => .run file options.maxSteps options.dumpMemory
  | none => .misuse

/-- Take arguments that all name files. -/
def takeFiles (options : Options) : List String → Request
  | [] => finish options
  | name :: rest =>
      match takeFile options name with
      | some options => takeFiles options rest
      | none => .misuse

/-- What a run of one-letter options asks for, or nothing if each only raises the verbosity. -/
def letters : List Char → Option Request
  | [] => none
  | 'v' :: rest => letters rest
  | 'V' :: _ => some .version
  | 'h' :: _ => some .help
  | _ => some .misuse

/-- The text after a given beginning. -/
def after? : List Char → List Char → Option (List Char)
  | [], rest => some rest
  | expected :: beginning, char :: rest => if expected = char then after? beginning rest else none
  | _ :: _, [] => none

def takeOptions (options : Options) : List String → Request
  | [] => finish options
  | argument :: rest =>
      if argument = "--" then
        takeFiles options rest
      else if argument = "--version" then
        .version
      else if argument = "--help" then
        .help
      else if argument = "--verbose" then
        takeOptions options rest
      else if argument = "--dump-memory" then
        if options.dumpMemory then .misuse else takeOptions { options with dumpMemory := true } rest
      else if argument = "--max-steps" then
        match rest with
        | [] => .misuse
        | value :: rest =>
            match takeMaxSteps options value with
            | some options => takeOptions options rest
            | none => .misuse
      else
        match after? "--max-steps=".toList argument.toList with
        | some value =>
            match takeMaxSteps options (String.ofList value) with
            | some options => takeOptions options rest
            | none => .misuse
        | none =>
            match argument.toList with
            | '-' :: '-' :: _ => .misuse
            | '-' :: first :: others =>
                match letters (first :: others) with
                | some request => request
                | none => takeOptions options rest
            | _ =>
                match takeFile options argument with
                | some options => takeOptions options rest
                | none => .misuse

def request (arguments : List String) : Request :=
  takeOptions {} arguments

/-- What a call leaves behind: its exit code and what it wrote. -/
structure Outcome where
  code : Nat
  output : List UInt8
  errors : String
deriving DecidableEq, Repr

def misuseCode : Nat := 64

def missingFileCode : Nat := 66

def failureCode : Nat := 1

def versionText : String := "spherehorn 0.2.0\n"

def helpText : String :=
  "Run a Spherehorn program\n\nUsage: spherehorn [OPTIONS] <FILE>\n\nArguments:\n" ++
  "  <FILE>  Source file to run\n\nOptions:\n" ++
  "      --max-steps <N>  Abort after this many instructions\n" ++
  "      --dump-memory    Print the final memory tree as JSON on stderr\n" ++
  "  -v, --verbose...     Raise log verbosity (-v debug, -vv trace)\n" ++
  "  -h, --help           Print help\n" ++
  "  -V, --version        Print version\n"

def textOutcome (text : String) : Outcome :=
  ⟨0, Text.Utf8.encode text.toList, ""⟩

/-- The outcome of arguments that cannot be used. -/
def misuse : Outcome :=
  ⟨misuseCode, [], "error: the arguments cannot be used\n"⟩

def missingFile (file : String) : Outcome :=
  ⟨missingFileCode, [], "Could not open file: " ++ file ++ "\n"⟩

/-- The outcome for a program that could not be built. -/
def rejected : HostError → Outcome
  | .parse problems =>
      let lines := (HostError.diagnostics problems).map fun diagnostic => diagnostic.text ++ "\n"
      ⟨failureCode, [], String.join lines
        ++ "Program was not run, as there were one or more parse errors.\n"⟩
  | error => ⟨failureCode, [], "Error: " ++ error.message ++ "\n"⟩

/-- The outcome of a program after its run. -/
def finished (dumpMemory : Bool) (program : Program) (streams : Streams) : Outcome :=
  let dump := if dumpMemory then program.snapshot.pretty ++ "\n" else ""
  match program.abort with
  | some abort => ⟨failureCode, streams.output.toList, dump ++ "Error: " ++ abort.text ++ "\n"⟩
  | none => ⟨0, streams.output.toList, dump⟩

/-- Run a source text. There is no outcome if the budget is used up before the run ends. -/
def runSource (source : String) (maxSteps : Option Nat) (dumpMemory : Bool) (streams : Streams)
    (budget : Nat) : Option Outcome :=
  match Program.parse source with
  | .error error => some (rejected error)
  | .ok program =>
      match program.run streams maxSteps budget with
      | .error error => some (rejected error)
      | .ok result => result.map fun (_, program, streams) => finished dumpMemory program streams

end CommandLine

end RingTape
