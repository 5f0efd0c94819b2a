import RingTape.CommandLine

/-!
The command line as a process. A run is a function of the whole input, so a run that comes to the end of
the input read so far is stopped there, what it has written is put out, and it is done again with more input.
-/

namespace RingTape.CommandLine

set_option autoImplicit false

/-- More container visits than any run can make. -/
def budget : Nat := 0x4000000000000000

/-- How many bytes of input are asked for at a time. -/
def chunk : USize := 65536

def put (bytes : List UInt8) : IO Unit := do
  let output ← IO.getStdout
  output.write (ByteArray.mk bytes.toArray)
  output.flush

def conclude (outcome : Outcome) (written : Nat) : IO UInt32 := do
  put (outcome.output.drop written)
  (← IO.getStderr).putStr outcome.errors
  return outcome.code.toUInt32

/-- Whether a program stopped only for want of input. -/
def isStarved (program : Program) : Bool :=
  match program.abort with
  | some ⟨.stream _, _⟩ => true
  | _ => false

/-- Run a program on the input read so far, of which `written` bytes of output are already put out. -/
partial def converse (program : Program) (maxSteps : Option Nat) (dumpMemory : Bool)
    (input : List UInt8) (inputEnd : InputEnd) (written : Nat) : IO UInt32 := do
  match program.run (Streams.ofInput input inputEnd) maxSteps budget with
  | .error error => conclude (rejected error) written
  | .ok none => converse program maxSteps dumpMemory input inputEnd written
  | .ok (some (_, final, streams)) =>
      if isStarved final then
        put (streams.output.toList.drop written)
        let more ← (← IO.getStdin).read chunk
        let inputEnd := if more.isEmpty then InputEnd.stop else inputEnd
        converse program maxSteps dumpMemory (input ++ more.toList) inputEnd streams.output.size
      else
        conclude (finished dumpMemory final streams) written

/-- The text of a file, if it can be read and is UTF-8. -/
def readSource (file : String) : IO (Option String) := do
  try
    return String.fromUTF8? (← IO.FS.readBinFile file)
  catch _ =>
    return none

def start (file : String) (maxSteps : Option Nat) (dumpMemory : Bool) : IO UInt32 := do
  match ← readSource file with
  | none => conclude (missingFile file) 0
  | some source =>
      match Program.parse source with
      | .error error => conclude (rejected error) 0
      | .ok program => converse program maxSteps dumpMemory [] (.fail "more input is needed") 0

def callWith (arguments : List String) : IO UInt32 :=
  match request arguments with
  | .misuse => conclude misuse 0
  | .version => conclude (textOutcome versionText) 0
  | .help => conclude (textOutcome helpText) 0
  | .run file maxSteps dumpMemory => start file maxSteps dumpMemory

end RingTape.CommandLine

def main (arguments : List String) : IO UInt32 :=
  RingTape.CommandLine.callWith arguments
