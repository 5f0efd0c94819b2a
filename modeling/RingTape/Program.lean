import RingTape.Machine.Run
import RingTape.Source.Draft

/-!
A program: a block of code with the memory and the registers it works on. It runs at most once.
-/

namespace RingTape

set_option autoImplicit false

/-- Why a program cannot be built or run. -/
inductive HostError where
  | parse (problems : List (Located Problem))
  | alreadyRun
  | emptyBlock
  | emptyMemory
  | memory (fault : Fault)
deriving DecidableEq, Repr

namespace HostError

def diagnostics (problems : List (Located Problem)) : List Diagnostic :=
  problems.map Problem.diagnostic

def message : HostError → String
  | .parse problems => Diagnostic.textAll (diagnostics problems)
  | .alreadyRun => "attempted to re-run a program"
  | .emptyBlock => "instruction block must contain at least one instruction"
  | .emptyMemory => "initial memory must contain at least one cell"
  | .memory fault => fault.message

/-- The group an error belongs to. -/
def category : HostError → String
  | .parse _ => "parse"
  | .alreadyRun => "usage"
  | .emptyBlock => "build"
  | .emptyMemory => "build"
  | .memory _ => "memory"

end HostError

/-- A block of the given members. -/
def Block.build (gate : Gate) (location : Location) (members : List Code) : Except HostError (Block Code) :=
  match Block.ofMembers? gate location members with
  | some block => .ok block
  | none => .error .emptyBlock

/-- How the run of a whole program ended. -/
inductive Ending where
  | exit
  | abort
deriving DecidableEq, Repr

def Ending.text : Ending → String
  | .exit => "EXIT"
  | .abort => "ABORT"

/-- A program ends gracefully unless its run was aborted. -/
def Verdict.ending : Verdict → Ending
  | .flow _ => .exit
  | .abort _ => .abort

structure Program where
  root : Block Code
  store : Store
  memoryRoot : CellId
  registers : Registers
  hasRun : Bool
  /-- The number of instructions that the run visited. -/
  steps : Nat
  abort : Option Abort

namespace Program

/-- A program from its parts; the head starts on the first child of the memory's root. -/
def ofParts (root : Block Code) (memory : Option CellTree) (accumulator : Num) (condition : Bool) :
    Except HostError Program :=
  let tree := memory.getD CellTree.initial
  if tree.value ≤ 0 then
    .error .emptyMemory
  else
    match Store.child tree.root tree.store with
    | .ok head store => .ok ⟨root, store, tree.root, ⟨accumulator, condition, head⟩, false, 0, none⟩
    | .error fault _ => .error (.memory fault)

def ofDraft (draft : Draft) : Except HostError Program :=
  ofParts draft.root draft.memory (draft.accumulator.getD 0) (draft.condition.getD false)

/-- The program that a source text describes. -/
def parse (source : String) : Except HostError Program :=
  match Draft.read source with
  | .ok draft => ofDraft draft
  | .error problems => .error (.parse problems)

/-- The machine at the start of a run. -/
def machine (program : Program) (streams : Streams) : Machine :=
  ⟨program.store, program.registers, streams, 0⟩

/--
Run the whole program. The result is how the run ended, the program after it and what it made of the streams;
there is none if the budget was used up first.
-/
def run (program : Program) (streams : Streams) (limit : Option Nat) (budget : Nat) :
    Except HostError (Option (Ending × Program × Streams)) :=
  if program.hasRun then
    .error .alreadyRun
  else
    .ok <| (Code.run limit budget (.block program.root) (program.machine streams)).map
      fun (verdict, machine) =>
        (verdict.ending,
          { program with
            store := machine.store
            registers := machine.registers
            hasRun := true
            steps := machine.steps
            abort := verdict.abort? },
          machine.streams)

/-- The shape of the whole memory. -/
def snapshot (program : Program) : Snapshot :=
  CellTree.snapshot ⟨program.store, program.memoryRoot⟩

end Program

end RingTape
