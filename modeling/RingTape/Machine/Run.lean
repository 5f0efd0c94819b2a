import RingTape.Machine.Basic

/-!
Running code. An instruction is visited: it counts as a step, whether its gate lets it through or not. A
block whose gate lets it through repeats its members from the first to the last until one of them leaves it,
ends the run or aborts it.

A run need not end, so it is given a budget of container visits and has no result when the budget is used
up. A limit on steps is part of the language: beyond it a run aborts. It does not bound the run by itself,
since a block whose gate holds it back is passed over without a step.
-/

namespace RingTape

set_option autoImplicit false

/-- Why and where a run was aborted. -/
structure Abort where
  reason : AbortReason
  location : Location
deriving DecidableEq, Repr

def Abort.text (abort : Abort) : String :=
  abort.location.mark abort.reason.message

/-- How running a piece of code ended. -/
inductive Verdict where
  | flow (flow : Flow)
  | abort (cause : Abort)
deriving DecidableEq, Repr

def Verdict.text : Verdict → String
  | .flow .okay => "OKAY"
  | .flow .leave => "BREAK"
  | .flow .exit => "EXIT"
  | .abort _ => "ABORT"

def Verdict.abort? : Verdict → Option Abort
  | .flow _ => none
  | .abort cause => some cause

/-- Visit one instruction. -/
def Instruction.visit (limit : Option Nat) (instruction : Instruction) (machine : Machine) :
    Verdict × Machine :=
  let machine := { machine with steps := machine.steps + 1 }
  match limit.filter fun limit => limit < machine.steps with
  | some limit => (.abort ⟨.stepLimit limit, instruction.location⟩, machine)
  | none =>
      if instruction.gate.admits machine.registers.condition then
        match Machine.perform instruction.op machine with
        | .ok flow machine => (.flow flow, machine)
        | .error reason machine => (.abort ⟨reason, instruction.location⟩, machine)
      else
        (.flow .okay, machine)

mutual

/-- Run a piece of code once. -/
def Code.run (limit : Option Nat) : Nat → Code → Machine → Option (Verdict × Machine)
  | _, .instruction single, machine => some (single.visit limit machine)
  | 0, .block _, _ => none
  | budget + 1, .block loop, machine =>
      if loop.gate.admits machine.registers.condition then
        Code.cycle limit budget loop.members loop.members machine
      else
        some (.flow .okay, machine)

/-- Run the remaining members of a block, and then all of them over and over. -/
def Code.cycle (limit : Option Nat) : Nat → List Code → List Code → Machine → Option (Verdict × Machine)
  | 0, _, _, _ => none
  | budget + 1, members, [], machine => Code.cycle limit budget members members machine
  | budget + 1, members, code :: rest, machine =>
      match Code.run limit budget code machine with
      | some (.flow .okay, machine) => Code.cycle limit budget members rest machine
      | some (.flow .leave, machine) => some (.flow .okay, machine)
      | ended => ended

end

end RingTape
