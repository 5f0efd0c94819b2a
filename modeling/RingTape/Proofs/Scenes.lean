import RingTape.Proofs.Atomicity
import RingTape.Proofs.Twins

/-!
The machine as it is seen from outside. A scene has no cells and no slots: its memory is a view, in which every
child is there from the start, and an operation gives its flow and the next scene, or the reason why the run is
aborted. Whatever the machine does, its scene does too, so what holds of all scenes holds of all machines.
-/

namespace RingTape

set_option autoImplicit false

structure Scene where
  view : View
  accumulator : Num
  condition : Bool
  streams : Streams

namespace Scene

def valueOf (scene : Scene) : Operand → Num
  | .constant value => value
  | .register .accumulator => scene.accumulator
  | .register .active => scene.view.here.value

/-- The head goes where it can, and the run goes on. -/
def goTo (scene : Scene) : Except Fault View → Except AbortReason (Flow × Scene)
  | .ok view => .ok (.okay, { scene with view := view })
  | .error fault => .error (.memory fault)

/-- The head goes where it can, and on the top the run ends. -/
def arrive (scene : Scene) : Except Fault View → Except AbortReason (Flow × Scene)
  | .ok view => .ok (if view.trail.isEmpty then .exit else .okay, { scene with view := view })
  | .error fault => .error (.memory fault)

def move (scene : Scene) : Move → Except AbortReason (Flow × Scene)
  | .up =>
      match scene.view.trail with
      | [] => .ok (.exit, scene)
      | _ :: up => scene.arrive (.ok ⟨scene.view.content, up⟩)
  | .down =>
      if scene.view.here.value ≤ 0 then
        .error (.emptyDescent scene.view.here.value)
      else
        scene.goTo scene.view.descend
  | .previous => scene.goTo (scene.view.stride (-1))
  | .next => scene.goTo (scene.view.stride 1)
  | .back count => scene.goTo (scene.view.stride (-(scene.valueOf count).toInt))
  | .forward count => scene.goTo (scene.view.stride (scene.valueOf count).toInt)
  | .restart => scene.goTo scene.view.restart
  | .rotate => scene.goTo scene.view.rotate

def edit (scene : Scene) : Edit → Except AbortReason (Flow × Scene)
  | .insertBefore => scene.arrive (scene.view.insert fun size index => if index = 0 then size else index)
  | .insertAfter => scene.arrive (scene.view.insert fun _ index => index + 1)
  | .deleteBefore => scene.arrive (scene.view.delete (-1))
  | .deleteAfter => scene.arrive (scene.view.delete 1)

/-- Another content under the head. -/
def write (scene : Scene) (shown : Content) : Scene :=
  { scene with view := scene.view.put shown }

/-- Read something, and put under the head what it shows. -/
def read {α : Type} (scene : Scene) (program : StreamM α) (shown : α → Content) :
    Except AbortReason (Flow × Scene) :=
  match program scene.streams with
  | .ok result streams => .ok (.okay, { scene with streams := streams }.write (shown result))
  | .error message _ => .error (.stream message)

/-- What a byte shows, or the end of the input. -/
def byteContent : Option UInt8 → Content
  | some byte => Content.blank (Num.ofByte byte)
  | none => Content.blank 0

def input (scene : Scene) : Format → Except AbortReason (Flow × Scene)
  | .byte => scene.read Streams.readByte byteContent
  | .number => scene.read Streams.readNumber Content.blank
  | .line => scene.read Streams.readLine fun line => (CellTree.ofBytes line).snapshot.content

def print (scene : Scene) (bytes : List UInt8) : Except AbortReason (Flow × Scene) :=
  match Streams.write bytes scene.streams with
  | .ok () streams => .ok (.okay, { scene with streams := streams })
  | .error message _ => .error (.stream message)

def output (scene : Scene) : Format → Except AbortReason (Flow × Scene)
  | .byte =>
      match scene.view.here.value.toByte? with
      | some byte => scene.print [byte]
      | none => .error (.invalidCharacter scene.view.here.value)
  | .number => scene.print (Text.Utf8.encode scene.view.here.value.text.toList)
  | .line =>
      if 0 < scene.view.here.value then
        scene.print ((scene.view.here.children.map Content.value).map Num.lowByte)
      else
        .ok (.okay, scene)

def perform (scene : Scene) : Op → Except AbortReason (Flow × Scene)
  | .leave => .ok (.leave, scene)
  | .increment => .ok (.okay, { scene with accumulator := scene.accumulator + 1 })
  | .decrement =>
      if scene.accumulator ≤ 0 then
        .error .decrementPastZero
      else
        .ok (.okay, { scene with accumulator := scene.accumulator - 1 })
  | .invert => .ok (.okay, { scene with condition := !scene.condition })
  | .setAccumulator operand => .ok (.okay, { scene with accumulator := scene.valueOf operand })
  | .setCondition operand => .ok (.okay, { scene with condition := scene.valueOf operand != 0 })
  | .setValue operand => .ok (.okay, scene.write (Content.blank (scene.valueOf operand)))
  | .setMemory literal => .ok (.okay, scene.write literal.snapshot.content)
  | .arithmetic operation operand =>
      match operation.apply scene.accumulator (scene.valueOf operand) with
      | .ok value => .ok (.okay, { scene with accumulator := value })
      | .error reason => .error reason
  | .connect connective operand =>
      .ok (.okay, { scene with condition := connective.apply scene.condition (scene.valueOf operand) })
  | .compare comparison operand =>
      .ok (.okay, { scene with condition := comparison.holds scene.accumulator (scene.valueOf operand) })
  | .move direction => scene.move direction
  | .edit change => scene.edit change
  | .input format => scene.input format
  | .output format => scene.output format

end Scene

namespace Machine

/-- The machine looks like this from outside. -/
structure Plays (machine : Machine) (scene : Scene) : Prop where
  shows : machine.store.Shows scene.view machine.registers.head
  accumulator : machine.registers.accumulator = scene.accumulator
  condition : machine.registers.condition = scene.condition
  streams : machine.streams = scene.streams

/-- The machine came out as the scene did, or both failed for one reason, but perhaps about other cells. -/
def Follows (outcome : EStateM.Result AbortReason Machine Flow) : Except AbortReason (Flow × Scene) → Prop
  | .ok (flow, next) => ∃ after, outcome = .ok flow after ∧ after.Plays next
  | .error reason => ∃ refusal after, outcome = .error refusal after ∧ refusal.Akin reason

section Follows

variable {α β : Type} {machine : Machine} {scene : Scene}

theorem follows_ok {flow : Flow} {next : Scene} {outcome : EStateM.Result AbortReason Machine Flow} {after : Machine}
    (ran : outcome = .ok flow after) (plays : after.Plays next) : Follows outcome (.ok (flow, next)) :=
  ⟨after, ran, plays⟩

theorem follows_error {reason : AbortReason} {outcome : EStateM.Result AbortReason Machine Flow} {after : Machine}
    (ran : outcome = .error reason after) : Follows outcome (.error reason) :=
  ⟨reason, after, ran, rfl⟩

theorem run_resolve (plays : machine.Plays scene) (operand : Operand) :
    resolve operand machine = .ok (scene.valueOf operand) machine := by
  match operand with
  | .constant value => rfl
  | .register .accumulator =>
      rw [Scene.valueOf, ← plays.accumulator]
      rfl
  | .register .active => exact run_activeValue plays.shows

/-- A refusal on the store is the same but for the cells it names. -/
theorem akin_memory {refusal fault : Fault} (same : refusal.unnumbered = fault) :
    (AbortReason.memory refusal).Akin (.memory fault) := by
  rw [← same]
  cases refusal <;> rfl

/-- The head goes where a program leads from it. -/
theorem follows_goTo (plays : machine.Plays scene) {program : CellId → StoreM CellId} {aim : Except Fault View}
    (leads : scene.view.Leads program aim) :
    Follows ((do
      setHead (← onStore (program (← head)))
      return Flow.okay) machine) (scene.goTo aim) := by
  have attains := leads _ _ plays.shows
  rw [run_bind_ok (run_head machine)]
  cases aim with
  | ok next =>
      obtain ⟨target, reached, ran, shows⟩ := attains
      rw [run_bind_ok (run_onStore_ok ran)]
      exact follows_ok rfl ⟨shows, plays.accumulator, plays.condition, plays.streams⟩
  | error fault =>
      obtain ⟨refusal, reached, ran, same, _⟩ := attains
      exact ⟨_, _, run_bind_error (run_onStore_error ran), akin_memory same⟩

theorem follows_arrive (plays : machine.Plays scene) {program : CellId → StoreM CellId} {aim : Except Fault View}
    (leads : scene.view.Leads program aim) :
    Follows ((do
      let target ← onStore (program (← head))
      setHead target
      return if ← onStore (Store.isTop target) then Flow.exit else Flow.okay) machine) (scene.arrive aim) := by
  have attains := leads _ _ plays.shows
  rw [run_bind_ok (run_head machine)]
  cases aim with
  | ok next =>
      obtain ⟨target, reached, ran, shows⟩ := attains
      have asked : onStore (Store.isTop target)
          ({ machine with store := reached, registers := { machine.registers with head := target } } : Machine) =
          .ok next.trail.isEmpty _ := run_onStore_ok shows.run_isTop
      rw [run_bind_ok (run_onStore_ok ran)]
      exact follows_ok (run_bind_ok asked) ⟨shows, plays.accumulator, plays.condition, plays.streams⟩
  | error fault =>
      obtain ⟨refusal, reached, ran, same, _⟩ := attains
      exact ⟨_, _, run_bind_error (run_onStore_error ran), akin_memory same⟩

/-- The head stays in its slot, and what it shows may change. -/
theorem follows_serve (plays : machine.Plays scene) {program : CellId → StoreM Unit} {aim : Except Fault View}
    (serves : scene.view.Serves program () aim) :
    Follows ((do
      onStore (program (← head))
      return Flow.okay) machine) (scene.goTo aim) := by
  have attains := serves _ _ plays.shows
  rw [run_bind_ok (run_head machine)]
  cases aim with
  | ok next =>
      obtain ⟨_, reached, ran, _, shows⟩ := attains
      rw [run_bind_ok (run_onStore_ok ran)]
      exact follows_ok rfl ⟨shows, plays.accumulator, plays.condition, plays.streams⟩
  | error fault =>
      obtain ⟨refusal, reached, ran, same, _⟩ := attains
      exact ⟨_, _, run_bind_error (run_onStore_error ran), akin_memory same⟩

theorem follows_move (plays : machine.Plays scene) (direction : Move) :
    Follows (move direction machine) (scene.move direction) := by
  have walk {step : CellId → StoreM CellId} {distance : Int} (strides : Store.Strides step distance)
      (refused : ∀ (store : Store) id fault, Store.parentOf id store = .error fault store →
        step id store = .error fault store) := follows_goTo plays (strides.leads refused scene.view)
  cases direction with
  | up =>
      rw [Scene.move]
      cases trail : scene.view.trail with
      | nil => exact follows_ok (run_up_top plays.shows trail) plays
      | cons index up =>
          obtain ⟨parent, above, ran⟩ := run_up_below plays.shows trail
          exact follows_ok ran ⟨above, plays.accumulator, plays.condition, plays.streams⟩
  | down =>
      rw [move, run_bind_ok (run_activeValue plays.shows), Scene.move]
      by_cases barren : scene.view.here.value ≤ 0
      · simp only [if_pos barren]
        exact follows_error rfl
      · simp only [if_neg barren]
        exact follows_goTo plays (Store.leads_child scene.view)
  | previous => exact walk Store.strides_prev fun _ _ _ => run_bind_error
  | next => exact walk Store.strides_next fun _ _ _ => run_bind_error
  | back count =>
      rw [move, run_bind_ok (run_resolve plays count)]
      exact walk (Store.strides_shiftBack _) fun _ _ _ refused => run_bind_error (run_bind_error refused)
  | forward count =>
      rw [move, run_bind_ok (run_resolve plays count)]
      exact walk (Store.strides_shiftForward _) fun _ _ _ refused => run_bind_error (run_bind_error refused)
  | restart =>
      have restarts := follows_goTo plays (Store.leads_restart scene.view)
      simp only [onStore_bind, bind_assoc] at restarts
      exact restarts
  | rotate => exact follows_serve plays (Store.serves_makeFirst scene.view)

theorem follows_edit (plays : machine.Plays scene) (change : Edit) (roomy : machine.hasRoom (.edit change) = true) :
    Follows (edit change machine) (scene.edit change) := by
  cases change with
  | insertBefore => exact follows_arrive plays (Store.leads_insertBefore (hasRoom_view plays.shows roomy))
  | insertAfter => exact follows_arrive plays (Store.leads_insertAfter (hasRoom_view plays.shows roomy))
  | deleteBefore => exact follows_arrive plays (Store.leads_deleteAlong Store.strides_prev (.inr rfl) scene.view)
  | deleteAfter => exact follows_arrive plays (Store.leads_deleteAlong Store.strides_next (.inl rfl) scene.view)

theorem serves_tree {tree : CellTree} (intact : tree.Intact) (view : View) :
    view.Serves (fun id => Store.copyFrom id tree.store tree.root) () (.ok (view.put tree.snapshot.content)) := by
  obtain ⟨image, present, same⟩ := Store.exists_node_of_mem_ids intact.root_mem
  have found : tree.cell? = some image := by
    rw [CellTree.cell?, ← same]
    exact Store.cell?_of_mem intact.sound.distinct present
  have shown : tree.snapshot.content = image.content := by
    rw [CellTree.snapshot, found]
    exact Cell.content_snapshot image
  rw [shown, ← same]
  exact Store.serves_copyFrom view intact.sound present

/-- Reading goes on as the streams have it, and then the head's cell is written. -/
theorem follows_read (plays : machine.Plays scene) {program : StreamM α} {write : α → CellId → StoreM Unit}
    {shown : α → Content}
    (serves : ∀ result streams, program machine.streams = .ok result streams →
      scene.view.Serves (write result) () (.ok (scene.view.put (shown result)))) :
    Follows ((do
      let result ← onStreams program
      onStore (write result (← head))
      return Flow.okay) machine) (scene.read program shown) := by
  rw [Scene.read, ← plays.streams]
  cases outcome : program machine.streams with
  | ok result streams =>
      have ran : onStreams program machine = .ok result { machine with streams := streams } := by
        simp only [onStreams, outcome]
      have next : ({ machine with streams := streams } : Machine).Plays { scene with streams := streams } :=
        ⟨plays.shows, plays.accumulator, plays.condition, rfl⟩
      rw [run_bind_ok ran]
      exact follows_serve next (serves result streams outcome)
  | error message streams =>
      have ran : onStreams program machine = .error (.stream message) { machine with streams := streams } := by
        simp only [onStreams, outcome]
      exact follows_error (run_bind_error ran)

theorem follows_input (plays : machine.Plays scene) (short : machine.streams.LinesBelow (2 ^ 63)) (format : Format) :
    Follows ((do
      input format
      return Flow.okay) machine) (scene.input format) := by
  cases format with
  | byte =>
      simp only [input, bind_assoc]
      apply follows_read plays
      intro byte streams _
      cases byte <;> exact Store.serves_setValue scene.view _
  | number =>
      simp only [input, bind_assoc]
      exact follows_read plays fun value _ _ => Store.serves_setValue scene.view value
  | line =>
      simp only [input, bind_assoc]
      apply follows_read plays
      intro line streams ran
      have bounded := Streams.bounded_readLine machine.streams short
      rw [ran] at bounded
      have rooted := Store.rooted_plantBytes line bounded.2
      exact serves_tree (CellTree.intact_of_rooted rooted) scene.view

theorem follows_print (plays : machine.Plays scene) (bytes : List UInt8) :
    Follows ((do
      onStreams (Streams.write bytes)
      return Flow.okay) machine) (scene.print bytes) := by
  rw [Scene.print, ← plays.streams]
  exact follows_ok rfl ⟨plays.shows, plays.accumulator, plays.condition, rfl⟩

theorem follows_output (plays : machine.Plays scene) (format : Format) :
    Follows ((do
      output format
      return Flow.okay) machine) (scene.output format) := by
  simp only [output, bind_assoc]
  rw [run_bind_ok (run_activeValue plays.shows)]
  cases format with
  | byte =>
      rw [Scene.output]
      cases scene.view.here.value.toByte? with
      | some byte => exact follows_print plays [byte]
      | none => exact follows_error rfl
  | number => exact follows_print plays _
  | line =>
      rw [Scene.output]
      by_cases positive : 0 < scene.view.here.value
      · have several : 0 < scene.view.here.value.places := by
          have above := Int64.lt_iff_toInt_lt.mp positive
          rw [Int64.toInt_zero] at above
          unfold Num.places
          omega
        obtain ⟨values, reached, ran, same, shows⟩ := Store.serves_values scene.view several _ _ plays.shows
        have next : ({ machine with store := reached } : Machine).Plays scene :=
          ⟨shows, plays.accumulator, plays.condition, plays.streams⟩
        have read : Follows ((do
            let values ← onStore (Store.child machine.registers.head >>= Store.valuesFrom scene.view.here.value.places)
            onStreams (Streams.write (values.map Num.lowByte))
            return Flow.okay) machine)
              (scene.print ((scene.view.here.children.map Content.value).map Num.lowByte)) := by
          rw [run_bind_ok (run_onStore_ok ran), same]
          exact follows_print next _
        simp only [onStore_bind, bind_assoc] at read
        simp only [if_pos positive, bind_assoc]
        exact read
      · simp only [if_neg positive]
        exact follows_ok rfl plays

/-- Whatever the machine does, its scene does too, if no member is added to a ring of the greatest size. -/
theorem follows_perform (plays : machine.Plays scene) (op : Op) (intact : op.Intact)
    (short : machine.streams.LinesBelow (2 ^ 63)) (roomy : machine.hasRoom op = true) :
    Follows (perform op machine) (scene.perform op) := by
  cases op with
  | leave => exact follows_ok rfl plays
  | increment =>
      rw [Scene.perform, ← plays.accumulator]
      exact follows_ok rfl ⟨plays.shows, rfl, plays.condition, plays.streams⟩
  | decrement =>
      rw [Scene.perform, ← plays.accumulator, perform, run_bind_ok (run_registersNow machine)]
      by_cases past : machine.registers.accumulator ≤ 0
      · simp only [if_pos past]
        exact follows_error rfl
      · simp only [if_neg past]
        exact follows_ok rfl ⟨plays.shows, rfl, plays.condition, plays.streams⟩
  | invert =>
      rw [Scene.perform, ← plays.condition]
      exact follows_ok rfl ⟨plays.shows, plays.accumulator, rfl, plays.streams⟩
  | setAccumulator operand =>
      rw [perform, run_bind_ok (run_resolve plays operand)]
      exact follows_ok rfl ⟨plays.shows, rfl, plays.condition, plays.streams⟩
  | setCondition operand =>
      rw [perform, run_bind_ok (run_resolve plays operand)]
      exact follows_ok rfl ⟨plays.shows, plays.accumulator, rfl, plays.streams⟩
  | setValue operand =>
      rw [perform, run_bind_ok (run_resolve plays operand)]
      exact follows_serve plays (Store.serves_setValue scene.view (scene.valueOf operand))
  | setMemory literal => exact follows_serve plays (serves_tree intact scene.view)
  | arithmetic operation operand =>
      rw [perform, run_bind_ok (run_resolve plays operand), run_bind_ok (run_registersNow machine), Scene.perform,
        ← plays.accumulator]
      cases operation.apply machine.registers.accumulator (scene.valueOf operand) with
      | ok value => exact follows_ok rfl ⟨plays.shows, rfl, plays.condition, plays.streams⟩
      | error reason => exact follows_error rfl
  | connect connective operand =>
      rw [perform, run_bind_ok (run_resolve plays operand), Scene.perform, ← plays.condition]
      exact follows_ok rfl ⟨plays.shows, plays.accumulator, rfl, plays.streams⟩
  | compare comparison operand =>
      rw [perform, run_bind_ok (run_resolve plays operand), Scene.perform, ← plays.accumulator]
      exact follows_ok rfl ⟨plays.shows, rfl, rfl, plays.streams⟩
  | move direction => exact follows_move plays direction
  | edit change => exact follows_edit plays change roomy
  | input format => exact follows_input plays short format
  | output format => exact follows_output plays format

end Follows

end Machine

namespace Instruction

/-- What can come of visiting an instruction, told of the scene. -/
inductive Shown (limit : Option Nat) (single : Instruction) (machine : Machine) (scene : Scene) :
    Verdict → Machine → Prop where
  /-- The limit is used up. -/
  | cut {bound : Nat} {after : Machine} (idle : single.takesEffect limit machine = false) (plays : after.Plays scene) :
      Shown limit single machine scene (.abort ⟨.stepLimit bound, single.location⟩) after
  /-- The gate does not let the instruction through. -/
  | heldBack {after : Machine} (idle : single.takesEffect limit machine = false) (plays : after.Plays scene) :
      Shown limit single machine scene (.flow .okay) after
  | done {flow : Flow} {next : Scene} {after : Machine} (effect : single.takesEffect limit machine = true)
      (performed : scene.perform single.op = .ok (flow, next)) (plays : after.Plays next) :
      Shown limit single machine scene (.flow flow) after
  /-- Nothing has happened but that input may have been consumed. -/
  | refused {reason refusal : AbortReason} {after : Machine} (effect : single.takesEffect limit machine = true)
      (performed : scene.perform single.op = .error reason) (akin : refusal.Akin reason)
      (plays : after.Plays { scene with streams := after.streams }) :
      Shown limit single machine scene (.abort ⟨refusal, single.location⟩) after

theorem takesEffect_of_late {limit : Option Nat} {bound : Nat} {single : Instruction} {machine : Machine}
    (late : (limit.filter fun limit => limit < machine.steps + 1) = some bound) :
    single.takesEffect limit machine = false := by
  obtain ⟨same, beyond⟩ := Option.filter_eq_some_iff.mp late
  have used : ¬ machine.steps < bound := by
    have more := of_decide_eq_true beyond
    omega
  simp [takesEffect, same, used]

/-- Every visit is one of these. -/
theorem shown_visit {limit : Option Nat} {single : Instruction} {machine : Machine} {scene : Scene}
    (intact : single.op.Intact) (plays : machine.Plays scene) (short : machine.streams.LinesBelow (2 ^ 63))
    (room : single.takesEffect limit machine = true → machine.hasRoom single.op = true) :
    single.Shown limit machine scene (single.visit limit machine).1 (single.visit limit machine).2 := by
  have counted : ({ machine with steps := machine.steps + 1 } : Machine).Plays scene :=
    ⟨plays.shows, plays.accumulator, plays.condition, plays.streams⟩
  cases cut : limit.filter fun limit => limit < machine.steps + 1 with
  | some bound =>
      have visited : single.visit limit machine =
          (.abort ⟨.stepLimit bound, single.location⟩, { machine with steps := machine.steps + 1 }) := by
        simp only [visit, cut]
      rw [visited]
      exact .cut (takesEffect_of_late cut) counted
  | none =>
      by_cases admitted : single.gate.admits machine.registers.condition = true
      · have effect := takesEffect_of_admitted cut admitted
        have follows := Machine.follows_perform counted single.op intact short (room effect)
        cases performed : scene.perform single.op with
        | ok result =>
            rw [performed] at follows
            obtain ⟨after, ran, shown⟩ := follows
            have visited : single.visit limit machine = (.flow result.1, after) := by
              simp only [visit, cut, admitted, if_true, ran]
            rw [visited]
            exact .done effect performed shown
        | error reason =>
            rw [performed] at follows
            obtain ⟨refusal, after, ran, akin⟩ := follows
            have visited : single.visit limit machine = (.abort ⟨refusal, single.location⟩, after) := by
              simp only [visit, cut, admitted, if_true, ran]
            obtain ⟨host, depicts, _⟩ := plays.shows
            have ⟨spared, _⟩ := single.spared_of_abort depicts.sound visited
            rw [visited]
            refine .refused effect performed akin ⟨?_, ?_, ?_, rfl⟩
            · rw [spared.store, spared.registers]
              exact plays.shows
            · rw [spared.registers]
              exact plays.accumulator
            · rw [spared.registers]
              exact plays.condition
      · have idle : single.takesEffect limit machine = false := by simp [takesEffect, admitted]
        have visited : single.visit limit machine = (.flow .okay, { machine with steps := machine.steps + 1 }) := by
          simp only [visit, cut, admitted, Bool.false_eq_true, if_false]
        rw [visited]
        exact .heldBack idle counted

end Instruction

end RingTape
