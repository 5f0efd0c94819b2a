import RingTape.Machine.Run
import RingTape.Proofs.Outcome

/-!
Contracts of the machine. A program on the store or on the streams keeps its contract when the machine runs it.
The first contract proved here is that no operation of the machine counts as a step.
-/

namespace RingTape

set_option autoImplicit false

theorem Arithmetic.error_cases {operation : Arithmetic} {accumulator operand : Num} {reason : AbortReason}
    (failed : operation.apply accumulator operand = .error reason) :
    (∃ minuend subtrahend, reason = .negativeDifference minuend subtrahend) ∨
      (∃ dividend, reason = .divisionByZero dividend) ∨ ∃ dividend, reason = .remainderByZero dividend := by
  cases operation <;> simp only [apply, difference, quotient, modulus] at failed <;> grind

namespace Machine

section Rules

variable {α : Type} {before : Machine → Prop} {after : α → Machine → Prop} {failed : AbortReason → Machine → Prop}

theorem meets_onStore {program : StoreM α}
    (meets : ∀ machine, before machine → Meets (· = machine.store) program
      (fun result store => after result { machine with store := store })
      (fun fault store => failed (.memory fault) { machine with store := store })) :
    Meets before (onStore program) after failed := by
  intro machine holds
  have reached := meets machine holds machine.store rfl
  unfold onStore
  cases ran : program machine.store with
  | ok result store =>
      rw [ran] at reached
      exact reached
  | error fault store =>
      rw [ran] at reached
      exact reached

theorem meets_onStreams {program : StreamM α}
    (meets : ∀ machine, before machine → Meets (· = machine.streams) program
      (fun result streams => after result { machine with streams := streams })
      (fun message streams => failed (.stream message) { machine with streams := streams })) :
    Meets before (onStreams program) after failed := by
  intro machine holds
  have reached := meets machine holds machine.streams rfl
  unfold onStreams
  cases ran : program machine.streams with
  | ok result streams =>
      rw [ran] at reached
      exact reached
  | error message streams =>
      rw [ran] at reached
      exact reached

end Rules

section Runs

variable {α : Type} {machine : Machine}

theorem run_head (machine : Machine) : head machine = .ok machine.registers.head machine := rfl

theorem run_registersNow (machine : Machine) : registersNow machine = .ok machine.registers machine := rfl

theorem run_onStore_ok {program : StoreM α} {result : α} {reached : Store}
    (ran : program machine.store = .ok result reached) :
    onStore program machine = .ok result { machine with store := reached } := by
  simp only [onStore, ran]

theorem run_onStore_error {program : StoreM α} {fault : Fault} {reached : Store}
    (ran : program machine.store = .error fault reached) :
    onStore program machine = .error (.memory fault) { machine with store := reached } := by
  simp only [onStore, ran]

end Runs

theorem onStore_bind {α β : Type} (first : StoreM α) (rest : α → StoreM β) :
    onStore (first >>= rest) = onStore first >>= fun result => onStore (rest result) := by
  funext machine
  change onStore (EStateM.bind first rest) machine =
    EStateM.bind (onStore first) (fun result => onStore (rest result)) machine
  simp only [onStore, EStateM.bind]
  cases first machine.store <;> rfl

/-- The program does not count as a step and does not fail for want of steps. -/
def Untimed {α : Type} (program : MachineM α) : Prop :=
  ∀ count, Meets (fun machine => machine.steps = count) program (fun _ machine => machine.steps = count)
    (fun reason machine => machine.steps = count ∧ ∀ limit, reason ≠ .stepLimit limit)

section Untimed

variable {α β : Type}

theorem Untimed.bind {first : MachineM α} {rest : α → MachineM β} (untimed : Untimed first)
    (onward : ∀ result, Untimed (rest result)) : Untimed (first >>= rest) :=
  fun count => (untimed count).bind fun result => onward result count

theorem untimed_pure (result : α) : Untimed (pure result) :=
  fun _ => meets_pure fun _ same => same

theorem untimed_throw {reason : AbortReason} (other : ∀ limit, reason ≠ .stepLimit limit) :
    Untimed (throw reason : MachineM α) :=
  fun _ => meets_throw fun _ same => ⟨same, other⟩

theorem untimed_get : Untimed (get : MachineM Machine) :=
  fun _ _ same => same

theorem untimed_registersNow : Untimed registersNow :=
  untimed_get.bind fun _ => untimed_pure _

theorem untimed_head : Untimed head :=
  untimed_get.bind fun _ => untimed_pure _

theorem untimed_setAccumulator (value : Num) : Untimed (setAccumulator value) :=
  fun _ _ same => same

theorem untimed_setCondition (value : Bool) : Untimed (setCondition value) :=
  fun _ _ same => same

theorem untimed_setHead (cell : CellId) : Untimed (setHead cell) :=
  fun _ _ same => same

theorem untimed_onStore (program : StoreM α) : Untimed (onStore program) := by
  intro count
  apply meets_onStore
  intro machine same store _
  cases program store with
  | ok result reached => exact same
  | error fault reached => exact ⟨same, by simp⟩

theorem untimed_onStreams (program : StreamM α) : Untimed (onStreams program) := by
  intro count
  apply meets_onStreams
  intro machine same streams _
  cases program streams with
  | ok result reached => exact same
  | error message reached => exact ⟨same, by simp⟩

theorem untimed_activeValue : Untimed activeValue :=
  untimed_head.bind fun _ => (untimed_onStore _).bind fun _ => untimed_pure _

theorem untimed_resolve (operand : Operand) : Untimed (resolve operand) := by
  match operand with
  | .constant value => exact untimed_pure value
  | .register .accumulator => exact untimed_registersNow.bind fun _ => untimed_pure _
  | .register .active => exact untimed_activeValue

theorem untimed_move (direction : Move) : Untimed (move direction) := by
  have onto {program : StoreM CellId} : Untimed (do setHead (← onStore program); return Flow.okay) :=
    (untimed_onStore _).bind fun _ => (untimed_setHead _).bind fun _ => untimed_pure _
  cases direction with
  | up =>
      refine untimed_head.bind fun head => (untimed_onStore _).bind fun _ => untimed_get.bind fun machine => ?_
      split
      · exact untimed_pure _
      · exact (untimed_setHead _).bind fun _ => (untimed_onStore _).bind fun _ => untimed_pure _
  | down =>
      refine untimed_activeValue.bind fun value => ?_
      split
      · exact (untimed_throw (by simp)).bind fun _ => untimed_head.bind fun _ => onto
      · exact untimed_head.bind fun _ => onto
  | previous | next => exact untimed_head.bind fun _ => onto
  | back count | forward count =>
      exact (untimed_resolve count).bind fun _ => untimed_head.bind fun _ => onto
  | restart => exact untimed_head.bind fun _ => (untimed_onStore _).bind fun _ => onto
  | rotate => exact untimed_head.bind fun _ => (untimed_onStore _).bind fun _ => untimed_pure _

theorem untimed_edit (change : Edit) : Untimed (edit change) :=
  untimed_head.bind fun _ => (untimed_onStore _).bind fun _ => (untimed_setHead _).bind fun _ =>
    (untimed_onStore _).bind fun _ => untimed_pure _

theorem untimed_input (format : Format) : Untimed (input format) := by
  cases format with
  | byte | number | line =>
      exact (untimed_onStreams _).bind fun _ => untimed_head.bind fun _ => untimed_onStore _

theorem untimed_output (format : Format) : Untimed (output format) := by
  refine untimed_activeValue.bind fun value => ?_
  cases format with
  | byte =>
      dsimp only
      split
      · exact untimed_onStreams _
      · exact untimed_throw (by simp)
  | number => exact untimed_onStreams _
  | line =>
      dsimp only
      split
      · exact untimed_head.bind fun _ => (untimed_onStore _).bind fun _ => (untimed_onStore _).bind fun _ =>
          untimed_onStreams _
      · exact untimed_pure _

/-- No operation counts as a step: the machine counts the instructions that it visits, and nothing else does. -/
theorem untimed_perform (op : Op) : Untimed (perform op) := by
  cases op with
  | leave => exact untimed_pure _
  | increment => exact untimed_registersNow.bind fun _ => (untimed_setAccumulator _).bind fun _ => untimed_pure _
  | decrement =>
      refine untimed_registersNow.bind fun registers => ?_
      dsimp only
      split
      · exact (untimed_throw (by simp)).bind fun _ => (untimed_setAccumulator _).bind fun _ => untimed_pure _
      · exact (untimed_setAccumulator _).bind fun _ => untimed_pure _
  | invert => exact untimed_registersNow.bind fun _ => (untimed_setCondition _).bind fun _ => untimed_pure _
  | setAccumulator operand =>
      exact (untimed_resolve operand).bind fun _ => (untimed_setAccumulator _).bind fun _ => untimed_pure _
  | setCondition operand =>
      exact (untimed_resolve operand).bind fun _ => (untimed_setCondition _).bind fun _ => untimed_pure _
  | setValue operand =>
      exact (untimed_resolve operand).bind fun _ => untimed_head.bind fun _ =>
        (untimed_onStore _).bind fun _ => untimed_pure _
  | setMemory literal => exact untimed_head.bind fun _ => (untimed_onStore _).bind fun _ => untimed_pure _
  | arithmetic operation operand =>
      refine (untimed_resolve operand).bind fun value => untimed_registersNow.bind fun registers => ?_
      cases outcome : operation.apply registers.accumulator value with
      | ok result => exact (untimed_setAccumulator _).bind fun _ => untimed_pure _
      | error reason =>
          apply untimed_throw
          rcases Arithmetic.error_cases outcome with ⟨_, _, rfl⟩ | ⟨_, rfl⟩ | ⟨_, rfl⟩ <;> simp
  | connect connective operand | compare comparison operand =>
      exact (untimed_resolve operand).bind fun _ => untimed_registersNow.bind fun _ =>
        (untimed_setCondition _).bind fun _ => untimed_pure _
  | move direction => exact untimed_move direction
  | edit change => exact untimed_edit change
  | input format => exact (untimed_input format).bind fun _ => untimed_pure _
  | output format => exact (untimed_output format).bind fun _ => untimed_pure _

end Untimed

end Machine

end RingTape
