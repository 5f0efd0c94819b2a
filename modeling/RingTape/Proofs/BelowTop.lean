import Mathlib
import RingTape.Proofs.Scenes

/-!
The head stays below the top of the memory until the run ends, and the run ends when it gets there. So every
move among siblings and every edit finds a ring, no operation is refused by the memory, and the reasons for
which an instruction can abort a run are few: they are listed here, each with the values it depends on.
-/

namespace RingTape

set_option autoImplicit false

namespace Arithmetic

/-- A difference is taken over the integers, and must be a number that is not negative. -/
theorem difference_eq (minuend subtrahend : Num) :
    difference minuend subtrahend =
      if 0 ≤ minuend.toInt - subtrahend.toInt ∧ minuend.toInt - subtrahend.toInt ≤ Num.greatest then
        .ok (Int64.ofInt (minuend.toInt - subtrahend.toInt))
      else
        .error (.negativeDifference minuend subtrahend) := by
  unfold difference Num.ofInt?
  generalize minuend.toInt - subtrahend.toInt = exact
  unfold Num.least Num.greatest
  by_cases fits : -0x8000000000000000 ≤ exact ∧ exact ≤ 0x7FFFFFFFFFFFFFFF
  · have same : (Int64.ofInt exact).toInt = exact := Int64.toInt_ofInt_of_le (by omega) (by omega)
    have positive : 0 ≤ Int64.ofInt exact ↔ 0 ≤ exact := by
      rw [Int64.le_iff_toInt_le, Int64.toInt_zero, same]
    rw [if_pos fits]
    simp only [positive, fits.2, and_true]
  · have outside : ¬ (0 ≤ exact ∧ exact ≤ 0x7FFFFFFFFFFFFFFF) := by omega
    rw [if_neg fits, if_neg outside]

theorem difference_eq_error_iff {minuend subtrahend : Num} {reason : AbortReason} :
    difference minuend subtrahend = .error reason ↔
      ¬ (0 ≤ minuend.toInt - subtrahend.toInt ∧ minuend.toInt - subtrahend.toInt ≤ Num.greatest) ∧
        reason = .negativeDifference minuend subtrahend := by
  rw [difference_eq]
  split
  case isTrue inside => simp only [reduceCtorEq, inside, and_self, not_true_eq_false, false_and]
  case isFalse outside => simp only [Except.error.injEq, outside, not_false_eq_true, true_and, eq_comm]

theorem quotient_eq_error_iff {dividend divisor : Num} {reason : AbortReason} :
    quotient dividend divisor = .error reason ↔ divisor = 0 ∧ reason = .divisionByZero dividend := by
  unfold quotient
  by_cases zero : divisor = 0 <;> simp [zero, eq_comm]

theorem modulus_eq_error_iff {dividend divisor : Num} {reason : AbortReason} :
    modulus dividend divisor = .error reason ↔ divisor = 0 ∧ reason = .remainderByZero dividend := by
  unfold modulus
  by_cases zero : divisor = 0 <;> simp [zero, eq_comm]

end Arithmetic

theorem Num.toByte?_eq_none_iff (value : Num) :
    value.toByte? = none ↔ ¬ (0 ≤ value.toInt ∧ value.toInt ≤ 255) := by
  have lower : 0 ≤ value ↔ 0 ≤ value.toInt := by rw [Int64.le_iff_toInt_le, Int64.toInt_zero]
  have upper : value ≤ 255 ↔ value.toInt ≤ 255 := by
    rw [Int64.le_iff_toInt_le]
    rfl
  simp only [toByte?, lower, upper, ite_eq_right_iff, reduceCtorEq, imp_false]

namespace Machine

/-- The value of the cell under the head. -/
def headValue (machine : Machine) : Num :=
  CellTree.value ⟨machine.store, machine.registers.head⟩

def valueOf (machine : Machine) : Operand → Num
  | .constant value => value
  | .register .accumulator => machine.registers.accumulator
  | .register .active => machine.headValue

/-- The operation asks for what cannot be done with the values as they are. -/
inductive Overreaches (machine : Machine) : Op → AbortReason → Prop where
  | decrement (spent : machine.registers.accumulator.toInt ≤ 0) : Overreaches machine .decrement .decrementPastZero
  | subtract {operand : Operand}
      (outside : ¬ (0 ≤ machine.registers.accumulator.toInt - (machine.valueOf operand).toInt ∧
        machine.registers.accumulator.toInt - (machine.valueOf operand).toInt ≤ Num.greatest)) :
      Overreaches machine (.arithmetic .subtract operand)
        (.negativeDifference machine.registers.accumulator (machine.valueOf operand))
  | subtractFrom {operand : Operand}
      (outside : ¬ (0 ≤ (machine.valueOf operand).toInt - machine.registers.accumulator.toInt ∧
        (machine.valueOf operand).toInt - machine.registers.accumulator.toInt ≤ Num.greatest)) :
      Overreaches machine (.arithmetic .subtractFrom operand)
        (.negativeDifference (machine.valueOf operand) machine.registers.accumulator)
  | divide {operand : Operand} (zero : machine.valueOf operand = 0) :
      Overreaches machine (.arithmetic .divide operand) (.divisionByZero machine.registers.accumulator)
  | divideFrom {operand : Operand} (zero : machine.registers.accumulator = 0) :
      Overreaches machine (.arithmetic .divideFrom operand) (.divisionByZero (machine.valueOf operand))
  | remainder {operand : Operand} (zero : machine.valueOf operand = 0) :
      Overreaches machine (.arithmetic .remainder operand) (.remainderByZero machine.registers.accumulator)
  | remainderFrom {operand : Operand} (zero : machine.registers.accumulator = 0) :
      Overreaches machine (.arithmetic .remainderFrom operand) (.remainderByZero (machine.valueOf operand))
  | descend (barren : machine.headValue.toInt ≤ 0) :
      Overreaches machine (.move .down) (.emptyDescent machine.headValue)
  | character (outside : ¬ (0 ≤ machine.headValue.toInt ∧ machine.headValue.toInt ≤ 255)) :
      Overreaches machine (.output .byte) (.invalidCharacter machine.headValue)

/-- The operation reads, and the input breaks down. -/
inductive ReadFails (machine : Machine) : Op → AbortReason → Prop where
  | byte {message : String} {rest : Streams} (failed : Streams.readByte machine.streams = .error message rest) :
      ReadFails machine (.input .byte) (.stream message)
  | number {message : String} {rest : Streams} (failed : Streams.readNumber machine.streams = .error message rest) :
      ReadFails machine (.input .number) (.stream message)
  | line {message : String} {rest : Streams} (failed : Streams.readLine machine.streams = .error message rest) :
      ReadFails machine (.input .line) (.stream message)

variable {machine : Machine} {scene : Scene}

theorem overreaches_arithmetic_iff {operation : Arithmetic} {operand : Operand} {reason : AbortReason} :
    machine.Overreaches (.arithmetic operation operand) reason ↔
      operation.apply machine.registers.accumulator (machine.valueOf operand) = .error reason := by
  constructor
  · intro overreaches
    cases overreaches with
    | subtract outside | subtractFrom outside => exact Arithmetic.difference_eq_error_iff.mpr ⟨outside, rfl⟩
    | divide zero | divideFrom zero => exact Arithmetic.quotient_eq_error_iff.mpr ⟨zero, rfl⟩
    | remainder zero | remainderFrom zero => exact Arithmetic.modulus_eq_error_iff.mpr ⟨zero, rfl⟩
  · intro failed
    cases operation with
    | add | multiply => cases failed
    | subtract =>
        obtain ⟨outside, rfl⟩ := Arithmetic.difference_eq_error_iff.mp failed
        exact .subtract outside
    | subtractFrom =>
        obtain ⟨outside, rfl⟩ := Arithmetic.difference_eq_error_iff.mp failed
        exact .subtractFrom outside
    | divide =>
        obtain ⟨zero, rfl⟩ := Arithmetic.quotient_eq_error_iff.mp failed
        exact .divide zero
    | divideFrom =>
        obtain ⟨zero, rfl⟩ := Arithmetic.quotient_eq_error_iff.mp failed
        exact .divideFrom zero
    | remainder =>
        obtain ⟨zero, rfl⟩ := Arithmetic.modulus_eq_error_iff.mp failed
        exact .remainder zero
    | remainderFrom =>
        obtain ⟨zero, rfl⟩ := Arithmetic.modulus_eq_error_iff.mp failed
        exact .remainderFrom zero

theorem Plays.headValue_eq (plays : machine.Plays scene) : machine.headValue = scene.view.here.value := by
  obtain ⟨host, depicts, same⟩ := plays.shows
  have found : machine.store.cell? machine.registers.head = some host := by
    rw [← same]
    exact Store.cell?_of_mem depicts.sound.distinct depicts.mem
  rw [headValue, CellTree.value, CellTree.cell?, found]
  exact depicts.here_value.symm

theorem Plays.valueOf_eq (plays : machine.Plays scene) (operand : Operand) :
    machine.valueOf operand = scene.valueOf operand := by
  match operand with
  | .constant value => rfl
  | .register .accumulator => exact plays.accumulator
  | .register .active => exact plays.headValue_eq

end Machine

namespace View

/-- Below the top there is a ring, so nothing done in it is refused. -/
theorem exists_inRing {view : View} (below : view.trail ≠ []) (act : View → Nat → View) :
    ∃ above index, view.inRing act = .ok (act above index) := by
  cases trail : view.trail with
  | nil => exact absurd trail below
  | cons index up => exact ⟨⟨view.content, up⟩, index, by simp only [inRing, trail]⟩

end View

namespace Scene

/-- The operation is carried out, and ends the run just if the head comes to the top. -/
def Lands (outcome : Except AbortReason (Flow × Scene)) : Prop :=
  ∃ flow next, outcome = .ok (flow, next) ∧ (flow = .exit ↔ next.view.trail = [])

section Lands

variable {scene : Scene}

theorem lands_same (below : scene.view.trail ≠ []) {flow : Flow} {next : Scene}
    (same : next.view.trail = scene.view.trail) (other : flow ≠ .exit) : Lands (.ok (flow, next)) := by
  refine ⟨flow, next, rfl, ?_⟩
  rw [same]
  exact iff_of_false other below

theorem lands_arrive (below : scene.view.trail ≠ []) (act : View → Nat → View) :
    Lands (scene.arrive (scene.view.inRing act)) := by
  obtain ⟨above, index, acted⟩ := View.exists_inRing below act
  rw [acted]
  refine ⟨_, _, rfl, ?_⟩
  cases (act above index).trail <;> simp

/-- A move within the ring stays below the top. -/
theorem lands_goTo (below : scene.view.trail ≠ []) {act : View → Nat → View}
    (within : ∀ above index, (act above index).trail ≠ []) : Lands (scene.goTo (scene.view.inRing act)) := by
  obtain ⟨above, index, acted⟩ := View.exists_inRing below act
  rw [acted]
  exact ⟨.okay, _, rfl, iff_of_false (by simp) (within above index)⟩

theorem lands_edit (below : scene.view.trail ≠ []) (change : Edit) : Lands (scene.edit change) := by
  cases change with
  | insertBefore | insertAfter | deleteBefore | deleteAfter => exact lands_arrive below _

theorem lands_move (below : scene.view.trail ≠ []) {direction : Move} (other : direction ≠ .down) :
    Lands (scene.move direction) := by
  cases direction with
  | down => exact absurd rfl other
  | up =>
      rw [move]
      cases trail : scene.view.trail with
      | nil => exact absurd trail below
      | cons index up =>
          refine ⟨_, _, rfl, ?_⟩
          cases up <;> simp
  | previous | next | back count | forward count | restart | rotate =>
      apply lands_goTo below
      intro above index
      exact List.cons_ne_nil _ _

theorem lands_descend (fertile : ¬ scene.view.here.value ≤ 0) :
    Lands (scene.move .down) := by
  have several : scene.view.here.value.places ≠ 0 := by
    rw [Int64.le_iff_toInt_le, Int64.toInt_zero] at fertile
    unfold Num.places
    omega
  rw [move, if_neg fertile, View.descend, if_neg several]
  exact ⟨.okay, _, rfl, iff_of_false (by simp) (List.cons_ne_nil _ _)⟩

theorem lands_print (below : scene.view.trail ≠ []) (bytes : List UInt8) : Lands (scene.print bytes) := by
  have printed : scene.print bytes = .ok (.okay, { scene with streams := _ }) := rfl
  rw [printed]
  exact lands_same below rfl (by simp)

end Lands

theorem read_eq_error_iff {α : Type} {scene : Scene} {program : StreamM α} {shown : α → Content}
    {reason : AbortReason} :
    scene.read program shown = .error reason ↔
      ∃ message rest, program scene.streams = .error message rest ∧ reason = .stream message := by
  unfold read
  cases program scene.streams with
  | ok result streams => simp
  | error message rest => simp [eq_comm]

theorem trail_of_read {α : Type} {scene next : Scene} {program : StreamM α} {shown : α → Content} {flow : Flow}
    (performed : scene.read program shown = .ok (flow, next)) :
    flow = .okay ∧ next.view.trail = scene.view.trail := by
  unfold read at performed
  split at performed
  · cases performed
    exact ⟨rfl, rfl⟩
  · cases performed

/-- A run goes on below the top, and ends there. -/
theorem exit_iff_top {scene next : Scene} (below : scene.view.trail ≠ []) {op : Op} {flow : Flow}
    (performed : scene.perform op = .ok (flow, next)) : flow = .exit ↔ next.view.trail = [] := by
  have lands : Lands (scene.perform op) := by
    cases op with
    | leave | increment | invert => exact lands_same below rfl (by simp)
    | setAccumulator operand | setCondition operand | setValue operand => exact lands_same below rfl (by simp)
    | connect connective operand | compare comparison operand => exact lands_same below rfl (by simp)
    | setMemory literal => exact lands_same below rfl (by simp)
    | edit change => exact lands_edit below change
    | decrement =>
        by_cases past : scene.accumulator ≤ 0
        · simp only [perform, if_pos past, reduceCtorEq] at performed
        · rw [perform, if_neg past]
          exact lands_same below rfl (by simp)
    | arithmetic operation operand =>
        rw [perform] at performed ⊢
        cases outcome : operation.apply scene.accumulator (scene.valueOf operand) with
        | ok value => exact lands_same below rfl (by simp)
        | error reason => simp only [outcome, reduceCtorEq] at performed
    | move direction =>
        by_cases down : direction = .down
        · subst down
          by_cases barren : scene.view.here.value ≤ 0
          · simp only [perform, move, if_pos barren, reduceCtorEq] at performed
          · exact lands_descend barren
        · exact lands_move below down
    | input format =>
        have kept : flow = .okay ∧ next.view.trail = scene.view.trail := by
          cases format with
          | byte | number | line => exact trail_of_read performed
        exact ⟨flow, next, performed, iff_of_false (by simp [kept.1]) (by rw [kept.2]; exact below)⟩
    | output format =>
        cases format with
        | byte =>
            simp only [perform, output] at performed ⊢
            cases found : scene.view.here.value.toByte? with
            | some byte => exact lands_print below [byte]
            | none => simp only [found, reduceCtorEq] at performed
        | number => exact lands_print below _
        | line =>
            simp only [perform, output]
            split
            · exact lands_print below _
            · exact lands_same below rfl (by simp)
  obtain ⟨landed, there, same, iff⟩ := lands
  rw [performed] at same
  cases same
  exact iff

/-- Below the top, an operation is refused just for what it asks for or fails to read, and never by the memory. -/
theorem perform_eq_error_iff {machine : Machine} {scene : Scene} (plays : machine.Plays scene)
    (below : scene.view.trail ≠ []) {op : Op} {reason : AbortReason} :
    scene.perform op = .error reason ↔ machine.Overreaches op reason ∨ machine.ReadFails op reason := by
  have lands {outcome : Except AbortReason (Flow × Scene)} (landed : Lands outcome) : outcome ≠ .error reason := by
    intro failed
    obtain ⟨_, _, same, _⟩ := landed
    rw [failed] at same
    cases same
  constructor
  · intro failed
    cases op with
    | leave | increment | invert => cases failed
    | setAccumulator operand | setCondition operand | setValue operand => cases failed
    | connect connective operand | compare comparison operand => cases failed
    | setMemory literal => cases failed
    | edit change => exact absurd failed (lands (lands_edit below change))
    | decrement =>
        left
        rw [perform] at failed
        split at failed
        case isTrue past =>
          cases failed
          rw [← plays.accumulator, Int64.le_iff_toInt_le, Int64.toInt_zero] at past
          exact .decrement past
        case isFalse => cases failed
    | arithmetic operation operand =>
        left
        rw [Machine.overreaches_arithmetic_iff, plays.accumulator, plays.valueOf_eq]
        rw [perform] at failed
        cases outcome : operation.apply scene.accumulator (scene.valueOf operand) with
        | ok value => simp only [outcome, reduceCtorEq] at failed
        | error other =>
            simp only [outcome] at failed
            cases failed
            rfl
    | move direction =>
        left
        by_cases down : direction = .down
        · subst down
          by_cases barren : scene.view.here.value ≤ 0
          · simp only [perform, move, if_pos barren] at failed
            cases failed
            rw [← plays.headValue_eq] at barren ⊢
            rw [Int64.le_iff_toInt_le, Int64.toInt_zero] at barren
            exact .descend barren
          · exact absurd failed (lands (lands_descend barren))
        · exact absurd failed (lands (lands_move below down))
    | input format =>
        right
        cases format with
        | byte =>
            obtain ⟨message, rest, broken, rfl⟩ := read_eq_error_iff.mp failed
            exact .byte (plays.streams ▸ broken)
        | number =>
            obtain ⟨message, rest, broken, rfl⟩ := read_eq_error_iff.mp failed
            exact .number (plays.streams ▸ broken)
        | line =>
            obtain ⟨message, rest, broken, rfl⟩ := read_eq_error_iff.mp failed
            exact .line (plays.streams ▸ broken)
    | output format =>
        left
        cases format with
        | byte =>
            simp only [perform, output] at failed
            cases found : scene.view.here.value.toByte? with
            | some byte =>
                simp only [found] at failed
                exact absurd failed (lands (lands_print below [byte]))
            | none =>
                simp only [found] at failed
                cases failed
                rw [← plays.headValue_eq] at found ⊢
                exact .character ((Num.toByte?_eq_none_iff _).mp found)
        | number => cases failed
        | line =>
            simp only [perform, output] at failed
            split at failed <;> cases failed
  · intro refuses
    rcases refuses with overreaches | broken
    · cases op with
      | arithmetic operation operand =>
          have failed := Machine.overreaches_arithmetic_iff.mp overreaches
          rw [plays.accumulator, plays.valueOf_eq] at failed
          simp only [perform, failed]
      | decrement =>
          cases overreaches with
          | decrement spent =>
              rw [← Int64.toInt_zero, ← Int64.le_iff_toInt_le, plays.accumulator] at spent
              rw [perform, if_pos spent]
      | move direction =>
          cases overreaches with
          | descend barren =>
              rw [← Int64.toInt_zero, ← Int64.le_iff_toInt_le, plays.headValue_eq] at barren
              rw [perform, move, if_pos barren, plays.headValue_eq]
      | output format =>
          cases overreaches with
          | character outside =>
              rw [← Num.toByte?_eq_none_iff, plays.headValue_eq] at outside
              simp only [perform, output, outside, plays.headValue_eq]
      | _ => cases overreaches
    · cases broken with
      | byte failed => exact read_eq_error_iff.mpr ⟨_, _, plays.streams ▸ failed, rfl⟩
      | number failed => exact read_eq_error_iff.mpr ⟨_, _, plays.streams ▸ failed, rfl⟩
      | line failed => exact read_eq_error_iff.mpr ⟨_, _, plays.streams ▸ failed, rfl⟩

end Scene

namespace Machine

/-- The head is on a cell below the given one. -/
def IsBelow (root : CellId) (machine : Machine) : Prop :=
  ∃ top, machine.store.cell? root = some top ∧ machine.registers.head ∈ top.descendants

variable {root : CellId} {machine : Machine} {scene : Scene}

theorem Plays.head_eq_root_iff (plays : machine.Plays scene) (safe : machine.Safe root) :
    machine.registers.head = root ↔ scene.view.trail = [] := by
  have top := safe.rooted.oneTree.top_iff _ ((Store.contains_iff _).mpr safe.head)
  obtain ⟨host, depicts, same⟩ := plays.shows
  rw [← same] at top ⊢
  rw [← top]
  cases trail : scene.view.trail with
  | nil => exact iff_of_true (depicts.parent?_eq_none trail) rfl
  | cons index up =>
      obtain ⟨parent, above, seat⟩ := depicts.above trail
      rw [(Store.parent?_of_seat above.sound above.mem seat).1]
      simp

theorem Safe.isBelow (safe : machine.Safe root) (other : machine.registers.head ≠ root) : machine.IsBelow root := by
  obtain ⟨top, found, same⟩ := safe.rooted.mem_ids_top
  have inside := safe.head
  rw [same, Cell.ids_eq, List.mem_cons, (Store.mem_nodes_of_cell? found).2] at inside
  refine ⟨top, found, (Cell.descendants_perm top).mem_iff.mpr ?_⟩
  exact inside.resolve_left other

end Machine

namespace Config

/-- The head is below the top until the run exits, and then on it; the memory has not refused anything. -/
def Grounded : Config → Prop
  | .running _ _ machine => ∃ scene, machine.Plays scene ∧ scene.view.trail ≠ []
  | .ended verdict machine =>
      (∃ scene, machine.Plays scene ∧ (verdict = .flow .exit ↔ scene.view.trail = [])) ∧
        ∀ fault location, verdict ≠ .abort ⟨.memory fault, location⟩

theorem grounded_resume {stack : List Frame} {verdict : Verdict} {machine : Machine} {scene : Scene}
    (plays : machine.Plays scene) (exits : verdict = .flow .exit ↔ scene.view.trail = [])
    (other : ∀ fault location, verdict ≠ .abort ⟨.memory fault, location⟩) :
    (resume stack verdict machine).Grounded := by
  fun_induction resume stack verdict machine with
  | case2 frame stack machine =>
      refine ⟨scene, plays, ?_⟩
      rw [Ne, ← exits]
      simp
  | case3 frame stack machine induction =>
      apply induction plays
      · rw [← exits]
        simp
      · simp
  | _ => exact ⟨⟨scene, plays, exits⟩, other⟩

end Config

/-- Reasons that do not name a cell are akin only to themselves. -/
theorem AbortReason.eq_of_akin {refusal reason : AbortReason} (akin : refusal.Akin reason)
    (other : ∀ fault, reason ≠ .memory fault) : refusal = reason := by
  cases reason with
  | memory fault => exact absurd rfl (other fault)
  | _ => cases refusal <;> simp_all [Akin, unnumbered]

theorem Machine.not_memory {machine : Machine} {op : Op} {reason : AbortReason}
    (refuses : machine.Overreaches op reason ∨ machine.ReadFails op reason) (fault : Fault) :
    reason ≠ .memory fault := by
  rcases refuses with overreaches | broken
  · cases overreaches <;> simp
  · cases broken <;> simp

namespace Instruction

section Visit

variable {limit : Option Nat} {single : Instruction} {machine : Machine} {scene : Scene}
  (intact : single.op.Intact) (plays : machine.Plays scene) (short : machine.streams.LinesBelow (2 ^ 63))
  (room : single.takesEffect limit machine = true → machine.hasRoom single.op = true)
  (below : scene.view.trail ≠ [])

include intact plays short room below

/-- A visit leaves the head below the top, or on it if the verdict is to exit. -/
theorem grounded_visit (stack : List Frame) :
    (Config.resume stack (single.visit limit machine).1 (single.visit limit machine).2).Grounded := by
  have shown := single.shown_visit intact plays short room
  generalize (single.visit limit machine).1 = verdict, (single.visit limit machine).2 = after at shown
  cases shown with
  | cut idle still => exact Config.grounded_resume still (by simp [below]) (by simp)
  | heldBack idle still => exact Config.grounded_resume still (by simp [below]) (by simp)
  | done effect performed shown =>
      apply Config.grounded_resume shown
      · rw [← Scene.exit_iff_top below performed]
        simp
      · simp
  | refused effect performed akin still =>
      have refuses := (Scene.perform_eq_error_iff plays below).mp performed
      apply Config.grounded_resume still
      · simp [below]
      · intro fault location aborted
        cases aborted
        have same := AbortReason.eq_of_akin akin (Machine.not_memory refuses)
        exact Machine.not_memory refuses fault same.symm

/-- An instruction that is carried out aborts just for what it asks for or fails to read. -/
theorem visit_eq_abort_iff (effect : single.takesEffect limit machine = true) {cause : Abort} :
    (single.visit limit machine).1 = .abort cause ↔ cause.location = single.location ∧
      (machine.Overreaches single.op cause.reason ∨ machine.ReadFails single.op cause.reason) := by
  have shown := single.shown_visit intact plays short room
  rw [← Scene.perform_eq_error_iff plays below]
  generalize (single.visit limit machine).1 = verdict, (single.visit limit machine).2 = after at shown
  cases shown with
  | cut idle _ | heldBack idle _ =>
      rw [effect] at idle
      cases idle
  | done _ performed _ => simp [performed]
  | refused _ performed akin _ =>
      have refuses := (Scene.perform_eq_error_iff plays below).mp performed
      have same := AbortReason.eq_of_akin akin (Machine.not_memory refuses)
      rcases cause with ⟨reason, location⟩
      rw [performed, same, Verdict.abort.injEq, Abort.mk.injEq, Except.error.injEq]
      constructor
      · intro both
        exact ⟨both.2.symm, both.1⟩
      · intro both
        exact ⟨both.2, both.1.symm⟩

end Visit

end Instruction

namespace Config

theorem grounded_step {root : CellId} {limit : Option Nat} {config : Config} (sheltered : config.Sheltered root)
    (grounded : config.Grounded) (room : config.crams limit = false) : (config.step limit).Grounded := by
  match config with
  | .ended verdict machine => exact grounded
  | .running (.instruction single) stack machine =>
      obtain ⟨scene, plays, below⟩ := grounded
      have fits : single.takesEffect limit machine = true → machine.hasRoom single.op = true := by
        simpa [crams] using room
      cases sheltered.intact.1 with
      | instruction _ intact => exact single.grounded_visit intact plays sheltered.safe.short fits below stack
  | .running (.block loop) stack machine =>
      obtain ⟨scene, plays, below⟩ := grounded
      rw [step]
      split
      · exact ⟨scene, plays, below⟩
      · exact grounded_resume plays (by simp [below]) (by simp)

end Config

theorem Store.Rooted.shows_top {root : CellId} {store : Store} (rooted : store.Rooted root) :
    ∃ top, store.cell? root = some top ∧ store.Shows ⟨top.content, []⟩ root := by
  obtain ⟨top, alone, same⟩ := rooted.exists_top
  have inside : top ∈ store.nodes := tree_mem_nodes (by simp [alone])
  refine ⟨top, same ▸ cell?_of_mem rooted.sound.distinct inside, top, ⟨?_, ?_⟩, same⟩
  · exact (wellFormed_iff_sound _).mpr rooted.sound
  · exact ⟨top, alone, rfl, rfl⟩

namespace Program

/-- A parsed program starts with the head on the first child of the top. -/
theorem plays_start {source : String} {program : Program} (streams : Streams) (parsed : parse source = .ok program)
    (shortSource : source.utf8ByteSize < 2 ^ 63) :
    ∃ draft, Draft.read source = .ok draft ∧ program.root = draft.root ∧
      (program.machine streams).Plays
        ⟨⟨(draft.memory.getD CellTree.initial).snapshot.content, [0]⟩, draft.accumulator.getD 0,
          draft.condition.getD false, streams⟩ := by
  obtain ⟨draft, tree, head, store, read, same, several, ran, rfl⟩ := exists_of_parse parsed
  refine ⟨draft, read, rfl, ?_⟩
  have rooted := Draft.rooted_of_read shortSource read
  rw [← same] at rooted ⊢
  obtain ⟨top, found, shows⟩ := rooted.shows_top
  have shown : tree.snapshot.content = top.content := by
    rw [CellTree.snapshot, CellTree.cell?, found]
    exact Cell.content_snapshot top
  have fertile : top.value.places ≠ 0 := by
    have value : tree.value = top.value := by rw [CellTree.value, CellTree.cell?, found]
    rw [value, Int64.le_iff_toInt_le, Int64.toInt_zero] at several
    unfold Num.places
    omega
  have entered := Store.leads_child _ _ _ shows
  have here : (⟨top.content, []⟩ : View).here.value = top.value := by
    change top.content.value = top.value
    rw [Cell.content_eq]
    rfl
  rw [View.descend, here, if_neg fertile] at entered
  obtain ⟨target, reached, arrived, there⟩ := entered
  rw [ran] at arrived
  cases arrived
  rw [shown]
  exact ⟨there, rfl, rfl, rfl⟩

end Program

namespace Config

/-- What a step passes on, besides what keeps the machine safe: where the head is. -/
structure Steady (root : CellId) (config : Config) : Prop extends config.Sheltered root where
  grounded : config.Grounded

theorem steady_step {root : CellId} {limit : Option Nat} {config : Config} (steady : config.Steady root)
    (room : config.crams limit = false) : (config.step limit).Steady root :=
  ⟨sheltered_step steady.toSheltered room, grounded_step steady.toSheltered steady.grounded room⟩

end Config

namespace Program

variable {source : String} {program : Program} {streams : Streams} (parsed : parse source = .ok program)
  (shortSource : source.utf8ByteSize < 2 ^ 63) (shortInput : streams.LinesBelow (2 ^ 63))

include parsed shortSource shortInput

theorem steady_start : (program.start streams).Steady program.memoryRoot := by
  obtain ⟨_, _, _, plays⟩ := plays_start streams parsed shortSource
  exact ⟨sheltered_start parsed shortSource shortInput, _, plays, by simp⟩

theorem steady_iterate {limit : Option Nat} {count : Nat}
    (room : ∀ earlier < count, ((Config.step limit)^[earlier] (program.start streams)).crams limit = false) :
    ((Config.step limit)^[count] (program.start streams)).Steady program.memoryRoot :=
  iterate_kept (fun _ => Config.steady_step) (steady_start parsed shortSource shortInput) room

end Program

theorem Config.Steady.head_eq_root_iff {root : CellId} {config : Config} (steady : config.Steady root) :
    config.machine.registers.head = root ↔ ∃ machine, config = .ended (.flow .exit) machine := by
  cases config with
  | running code stack machine =>
      obtain ⟨scene, plays, below⟩ := steady.grounded
      exact iff_of_false (mt (plays.head_eq_root_iff steady.safe).mp below) (by simp)
  | ended verdict machine =>
      obtain ⟨⟨scene, plays, exits⟩, _⟩ := steady.grounded
      apply (plays.head_eq_root_iff steady.safe).trans
      rw [← exits]
      simp

/--
At every step of a run of a parsed program, up to the first insertion into a ring of the greatest size: the head
is below the top of the memory until the run ends, and it comes to the top just if the run exits. An instruction
that is carried out aborts just if it overreaches or its read fails, and the memory refuses nothing.
-/
theorem head_stays_below_top (limit : Option Nat) (source : String) (program : Program) (streams : Streams)
    (parsed : Program.parse source = .ok program) (shortSource : source.utf8ByteSize < 2 ^ 63)
    (shortInput : streams.LinesBelow (2 ^ 63)) :
    (∀ count config, (Config.step limit)^[count] (program.start streams) = config →
      (∀ earlier < count, ((Config.step limit)^[earlier] (program.start streams)).crams limit = false) →
      (config.hasEnded = false → config.machine.IsBelow program.memoryRoot) ∧
      (config.machine.registers.head = program.memoryRoot ↔ ∃ machine, config = .ended (.flow .exit) machine) ∧
      (∀ single stack machine, config = .running (.instruction single) stack machine →
        single.takesEffect limit machine = true → machine.hasRoom single.op = true → ∀ cause,
          (single.visit limit machine).1 = .abort cause ↔ cause.location = single.location ∧
            (machine.Overreaches single.op cause.reason ∨ machine.ReadFails single.op cause.reason)) ∧
      ∀ fault location machine, config ≠ .ended (.abort ⟨.memory fault, location⟩) machine) ∧
    ((∀ count, ((Config.step limit)^[count] (program.start streams)).crams limit = false) →
      ∀ budget ending after rest, program.run streams limit budget = .ok (some (ending, after, rest)) →
        ∀ fault location, after.abort ≠ some ⟨.memory fault, location⟩) := by
  constructor
  · intro count config reached room
    have steady := Program.steady_iterate parsed shortSource shortInput room
    rw [reached] at steady
    have atTop := steady.head_eq_root_iff
    refine ⟨?_, atTop, ?_, ?_⟩
    · intro running
      apply steady.safe.isBelow
      rw [Ne, atTop]
      intro ended
      obtain ⟨machine, same⟩ := ended
      rw [same] at running
      cases running
    · intro single stack machine same effect roomy cause
      subst same
      obtain ⟨scene, plays, below⟩ := steady.grounded
      cases steady.intact.1 with
      | instruction _ intact =>
          exact single.visit_eq_abort_iff intact plays steady.safe.short (fun _ => roomy) below effect
    · intro fault location machine same
      subst same
      exact steady.grounded.2 fault location rfl
  · intro roomy budget ending after rest ran fault location recorded
    obtain ⟨count, verdict, machine, ended, same⟩ := (Program.run_iff (Program.hasRun_of_parse parsed)).mp ⟨budget, ran⟩
    have steady := Program.steady_iterate parsed shortSource shortInput fun earlier (_ : earlier < count) =>
      roomy earlier
    rw [ended] at steady
    cases same
    cases verdict with
    | flow flow => cases recorded
    | abort cause =>
        cases recorded
        exact steady.grounded.2 fault location rfl

/-- A cell is inserted and deleted again, the head's value is written, and with the last cell the ring goes too. -/
def Program.closingIn : Program :=
  ⟨⟨.always, .instruction ⟨.edit .insertAfter, .always, ⟨1, 3⟩⟩,
      [.instruction ⟨.edit .deleteAfter, .always, ⟨1, 6⟩⟩, .instruction ⟨.output .byte, .always, ⟨1, 9⟩⟩,
        .instruction ⟨.edit .deleteAfter, .always, ⟨1, 15⟩⟩], ⟨1, 1⟩⟩,
    CellTree.initial.store, ⟨0⟩, ⟨0, false, ⟨1⟩⟩, false, 0, none⟩

/-- Where its run on no input stands after so many steps. -/
def Program.closingStep (count : Nat) : Config :=
  (Config.step none)^[count] (closingIn.start (Streams.ofInput [] .stop))

theorem closingIn_reaches_top :
    Program.parse "{ +> -> chout -> }" = .ok .closingIn ∧ (Program.closingStep 4).machine.IsBelow ⟨0⟩ ∧
      (∀ cause, (Instruction.visit none ⟨.output .byte, .always, ⟨1, 9⟩⟩ (Program.closingStep 3).machine).1 =
          .abort cause ↔
        cause.location = ⟨1, 9⟩ ∧ ((Program.closingStep 3).machine.Overreaches (.output .byte) cause.reason ∨
          (Program.closingStep 3).machine.ReadFails (.output .byte) cause.reason)) ∧
      (Program.closingStep 5).machine.registers.head = ⟨0⟩ ∧
      ∃ machine, Program.closingStep 5 = .ended (.flow .exit) machine := by
  have parsed : Program.parse "{ +> -> chout -> }" = .ok .closingIn := by cbv
  have room : ∀ earlier < 5, (Program.closingStep earlier).crams none = false := by decide +kernel
  obtain ⟨steps, _⟩ := head_stays_below_top none _ .closingIn (Streams.ofInput [] .stop) parsed (by decide)
    (Streams.linesBelow_of_length (by decide))
  obtain ⟨_, _, writes, _⟩ := steps 3 (Program.closingStep 3) rfl fun earlier less => room earlier (by omega)
  obtain ⟨below, _⟩ := steps 4 (Program.closingStep 4) rfl fun earlier less => room earlier (by omega)
  obtain ⟨_, top, _⟩ := steps 5 (Program.closingStep 5) rfl room
  have exits : ∃ machine, Program.closingStep 5 = .ended (.flow .exit) machine := ⟨_, rfl⟩
  exact ⟨parsed, below rfl, writes _ _ _ rfl rfl rfl, top.mpr exits, exits⟩

end RingTape
