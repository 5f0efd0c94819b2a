import Mathlib
import RingTape.Proofs.BelowTop
import RingTape.Proofs.Constants

/-!
The accumulator and the cells stay non-negative. They begin so, since no number in a source text is negative;
what could lead below 0 is refused, and a sum or a product can only leave the range upward. So unless a run
counts or computes past the greatest number, or reads a negative one, every value in it is from 0 up.
-/

namespace RingTape

set_option autoImplicit false

namespace Arithmetic

variable {accumulator operand value dividend divisor minuend subtrahend : Num}

theorem natural_difference (made : difference minuend subtrahend = .ok value) : 0 ≤ value.toInt := by
  rw [difference_eq] at made
  split at made
  case isFalse => cases made
  case isTrue inside =>
    cases made
    unfold Num.greatest at inside
    rw [Int64.toInt_ofInt_of_le (by omega) (by omega)]
    exact inside.1

theorem natural_quotient (above : 0 ≤ dividend.toInt) (below : 0 ≤ divisor.toInt)
    (made : quotient dividend divisor = .ok value) : 0 ≤ value.toInt := by
  unfold quotient at made
  split at made <;> cases made
  have positive := Int.tdiv_nonneg above below
  have smaller := Int.tdiv_le_self divisor.toInt above
  have upper := Int64.toInt_lt dividend
  rw [Int64.toInt_div, Int.bmod_eq_of_le (by omega) (by omega)]
  exact positive

theorem natural_modulus (above : 0 ≤ dividend.toInt) (made : modulus dividend divisor = .ok value) :
    0 ≤ value.toInt := by
  unfold modulus at made
  split at made <;> cases made
  rw [Int64.toInt_mod]
  exact Int.tmod_nonneg _ above

/-- Of the operations on two numbers from 0 up only sums and products can leave the range, and only upward. -/
theorem natural_apply {operation : Arithmetic} (first : 0 ≤ accumulator.toInt) (second : 0 ≤ operand.toInt)
    (sum : operation = .add → accumulator.toInt + operand.toInt ≤ Num.greatest)
    (product : operation = .multiply → accumulator.toInt * operand.toInt ≤ Num.greatest)
    (applied : operation.apply accumulator operand = .ok value) : 0 ≤ value.toInt := by
  cases operation with
  | add =>
      cases applied
      have fits := sum rfl
      unfold Num.greatest at fits
      rw [Int64.toInt_add, Int.bmod_eq_of_le (by omega) (by omega)]
      omega
  | multiply =>
      cases applied
      have fits := product rfl
      have positive := Int.mul_nonneg first second
      unfold Num.greatest at fits
      rw [Int64.toInt_mul, Int.bmod_eq_of_le (by omega) (by omega)]
      exact positive
  | subtract => exact natural_difference applied
  | subtractFrom => exact natural_difference applied
  | divide => exact natural_quotient first second applied
  | divideFrom => exact natural_quotient second first applied
  | remainder => exact natural_modulus first applied
  | remainderFrom => exact natural_modulus second applied

end Arithmetic

namespace Content

theorem Natural.value {content : Content} (natural : content.Natural) : 0 ≤ content.value.toInt := by
  cases natural with
  | node own below => exact own

theorem Natural.children {content : Content} (natural : content.Natural) :
    ∀ child ∈ content.children, child.Natural := by
  cases natural with
  | node own below => exact below

theorem Natural.at? {content shown : Content} {path : List Nat} (natural : content.Natural)
    (there : content.at? path = some shown) : shown.Natural := by
  induction path generalizing content with
  | nil =>
      cases there
      exact natural
  | cons index path induction =>
      rcases content with ⟨value, children⟩
      obtain ⟨child, seated, below⟩ := Option.bind_eq_some_iff.mp there
      exact induction (natural.children child (List.mem_of_getElem? seated)) below

theorem Natural.put {content shown : Content} (natural : content.Natural) (path : List Nat)
    (new : shown.Natural) : (content.put path shown).Natural := by
  induction path generalizing content with
  | nil =>
      rw [Content.put]
      exact new
  | cons index path induction =>
      rcases content with ⟨value, children⟩
      rw [Content.put]
      apply Natural.node natural.value
      intro child among
      obtain ⟨place, found⟩ := List.mem_iff_getElem?.mp among
      rw [List.getElem?_modify] at found
      obtain ⟨old, seated, changed⟩ := Option.map_eq_some_iff.mp found
      have kept := natural.children old (List.mem_of_getElem? seated)
      by_cases same : index = place
      · rw [← changed, if_pos same]
        exact induction kept
      · rw [← changed, if_neg same]
        exact kept

end Content

namespace View

variable {view next : View}

theorem natural_here (natural : view.content.Natural) : view.here.Natural := by
  unfold here
  cases there : view.content.at? view.trail.reverse with
  | none => exact Content.natural_zero
  | some shown => exact natural.at? there

theorem natural_put (natural : view.content.Natural) {shown : Content} (new : shown.Natural) :
    (view.put shown).content.Natural :=
  natural.put _ new

theorem natural_inRing {act : View → Nat → View}
    (acts : ∀ index up, view.trail = index :: up → (act ⟨view.content, up⟩ index).content.Natural)
    (reached : view.inRing act = .ok next) : next.content.Natural := by
  unfold inRing at reached
  split at reached
  case h_1 => cases reached
  case h_2 index up trail =>
    cases reached
    exact acts index up trail

theorem content_down (view : View) (index : Nat) : (view.down index).content = view.content :=
  rfl

theorem natural_stride (natural : view.content.Natural) {distance : Int} (reached : view.stride distance = .ok next) :
    next.content.Natural :=
  natural_inRing (fun _ _ _ => natural) reached

theorem natural_restart (natural : view.content.Natural) (reached : view.restart = .ok next) : next.content.Natural :=
  natural_inRing (fun _ _ _ => natural) reached

theorem natural_descend (natural : view.content.Natural) (reached : view.descend = .ok next) :
    next.content.Natural := by
  unfold descend at reached
  split at reached <;> cases reached
  exact natural

theorem natural_rotate (natural : view.content.Natural) (reached : view.rotate = .ok next) :
    next.content.Natural := by
  apply natural_inRing _ reached
  intro index up _
  have above : (⟨view.content, up⟩ : View).content.Natural := natural
  have ring := natural_here above
  rw [content_down]
  apply natural_put above
  apply Content.Natural.node ring.value
  intro child among
  exact ring.children child (List.mem_rotate.mp among)

theorem natural_insert (natural : view.content.Natural) (roomy : view.HasRoom) {place : Nat → Nat → Nat}
    (reached : view.insert place = .ok next) : next.content.Natural := by
  apply natural_inRing _ reached
  intro index up trail
  have above : (⟨view.content, up⟩ : View).content.Natural := natural
  have ring := natural_here above
  have own := ring.value
  simp only [content_down]
  apply natural_put above
  apply Content.Natural.node
  · rw [Num.toInt_add_one (roomy index up trail)]
    omega
  · intro child among
    rcases List.eq_or_mem_of_mem_insertIdx among with new | old
    · rw [new]
      exact Content.natural_zero
    · exact ring.children child old

theorem mem_of_mem_without {α : Type} {items : List α} {gone heir : Nat} {item : α}
    (among : item ∈ without items gone heir) : item ∈ items := by
  unfold without at among
  split at among
  · exact List.mem_of_mem_eraseIdx (List.mem_rotate.mp among)
  · exact List.mem_of_mem_eraseIdx among

/-- A ring that has a member has a positive size, so it can lose one. -/
theorem natural_delete (natural : view.content.Natural)
    (seated : ∀ index up, view.trail = index :: up → 0 < (⟨view.content, up⟩ : View).here.value.toInt) {unit : Int}
    (reached : view.delete unit = .ok next) : next.content.Natural := by
  apply natural_inRing _ reached
  intro index up trail
  have above : (⟨view.content, up⟩ : View).content.Natural := natural
  have ring := natural_here above
  split
  · exact natural_put above Content.natural_zero
  · have positive := seated index up trail
    simp only [content_down]
    apply natural_put above
    apply Content.Natural.node
    · rw [Num.toInt_sub_one positive]
      omega
    · intro child among
      exact ring.children child (mem_of_mem_without among)

end View

/-- The ring that the head is in has the head's cell at least. -/
theorem Store.Shows.ring_pos {store : Store} {view : View} {head : CellId} (shows : store.Shows view head)
    {index : Nat} {up : List Nat} (trail : view.trail = index :: up) :
    0 < (⟨view.content, up⟩ : View).here.value.toInt := by
  obtain ⟨host, depicts, _⟩ := shows
  obtain ⟨parent, above, seat⟩ := depicts.above trail
  rw [above.here_value]
  exact (value_pos_of_seat above.sound above.mem seat).1

/-- Every cell shows its value somewhere in the content. -/
theorem Cell.natural_nodes {cell : Cell} (natural : cell.content.Natural) :
    ∀ node ∈ cell.nodes, 0 ≤ node.value.toInt := by
  induction cell using treeInduction with
  | step cell induction =>
      intro node inside
      rw [nodes_eq, List.mem_cons, List.mem_flatMap] at inside
      rcases cell with ⟨id, value, ⟨forward, backward⟩⟩
      rw [content, contents_eq, contents_eq] at natural
      rcases inside with rfl | ⟨child, member, below⟩
      · exact natural.value
      · apply induction child member _ node below
        apply natural.children
        rcases List.mem_append.mp member with ahead | behind
        · exact List.mem_append_left _ (List.mem_append_left _ (List.mem_map_of_mem ahead))
        · exact List.mem_append_right _ (List.mem_reverse.mpr (List.mem_map_of_mem behind))

namespace Machine

/-- The exact result of the operation is greater than every number. -/
def exceeds (machine : Machine) : Op → Bool
  | .increment => Num.greatest < machine.registers.accumulator.toInt + 1
  | .arithmetic .add operand =>
      Num.greatest < machine.registers.accumulator.toInt + (machine.valueOf operand).toInt
  | .arithmetic .multiply operand =>
      Num.greatest < machine.registers.accumulator.toInt * (machine.valueOf operand).toInt
  | _ => false

/-- The operation reads a number, which is negative. -/
def readsNegative (machine : Machine) : Op → Bool
  | .input .number =>
      match Streams.readNumber machine.streams with
      | .ok value _ => value.toInt < 0
      | .error _ _ => false
  | _ => false

/-- The operation can bring a number out of the range: it adds to a full ring, exceeds, or reads a negative number. -/
def strays (machine : Machine) (op : Op) : Bool :=
  !machine.hasRoom op || machine.exceeds op || machine.readsNegative op

theorem strays_eq_false_iff {machine : Machine} {op : Op} :
    machine.strays op = false ↔
      machine.hasRoom op = true ∧ machine.exceeds op = false ∧ machine.readsNegative op = false := by
  simp only [strays, Bool.or_eq_false_iff, Bool.not_eq_false', and_assoc]

end Machine

namespace Scene

/-- No value in sight is negative. -/
structure Natural (scene : Scene) : Prop where
  accumulator : 0 ≤ scene.accumulator.toInt
  content : scene.view.content.Natural

variable {scene next : Scene} {flow : Flow}

theorem Natural.valueOf (natural : scene.Natural) {operand : Operand}
    (constant : ∀ value, operand = .constant value → 0 ≤ value.toInt) : 0 ≤ (scene.valueOf operand).toInt := by
  match operand with
  | .constant value => exact constant value rfl
  | .register .accumulator => exact natural.accumulator
  | .register .active => exact (View.natural_here natural.content).value

theorem Natural.write (natural : scene.Natural) {shown : Content} (new : shown.Natural) :
    (scene.write shown).Natural :=
  ⟨natural.accumulator, View.natural_put natural.content new⟩

theorem natural_goTo (natural : scene.Natural) {aim : Except Fault View}
    (kept : ∀ view, aim = .ok view → view.content.Natural) (performed : scene.goTo aim = .ok (flow, next)) :
    next.Natural := by
  cases aim with
  | error fault => cases performed
  | ok view =>
      cases performed
      exact ⟨natural.accumulator, kept view rfl⟩

theorem natural_arrive (natural : scene.Natural) {aim : Except Fault View}
    (kept : ∀ view, aim = .ok view → view.content.Natural) (performed : scene.arrive aim = .ok (flow, next)) :
    next.Natural := by
  cases aim with
  | error fault => cases performed
  | ok view =>
      cases performed
      exact ⟨natural.accumulator, kept view rfl⟩

theorem natural_move (natural : scene.Natural) {direction : Move}
    (performed : scene.move direction = .ok (flow, next)) : next.Natural := by
  cases direction with
  | up =>
      rw [move] at performed
      split at performed
      case h_1 =>
        cases performed
        exact natural
      case h_2 =>
        cases performed
        exact ⟨natural.accumulator, natural.content⟩
  | down =>
      rw [move] at performed
      split at performed
      case isTrue => cases performed
      case isFalse =>
        exact natural_goTo natural (fun _ => View.natural_descend natural.content) performed
  | previous | next | back count | forward count =>
      exact natural_goTo natural (fun _ => View.natural_stride natural.content) performed
  | restart => exact natural_goTo natural (fun _ => View.natural_restart natural.content) performed
  | rotate => exact natural_goTo natural (fun _ => View.natural_rotate natural.content) performed

theorem natural_read {α : Type} (natural : scene.Natural) {program : StreamM α} {shown : α → Content}
    (new : ∀ result streams, program scene.streams = .ok result streams → (shown result).Natural)
    (performed : scene.read program shown = .ok (flow, next)) : next.Natural := by
  unfold read at performed
  split at performed
  case h_1 result streams ran =>
    cases performed
    have later : ({ scene with streams := streams } : Scene).Natural := ⟨natural.accumulator, natural.content⟩
    exact later.write (new result streams ran)
  case h_2 => cases performed

theorem natural_print (natural : scene.Natural) {bytes : List UInt8}
    (performed : scene.print bytes = .ok (flow, next)) : next.Natural := by
  cases performed
  exact ⟨natural.accumulator, natural.content⟩

theorem natural_output (natural : scene.Natural) {format : Format}
    (performed : scene.output format = .ok (flow, next)) : next.Natural := by
  cases format with
  | byte =>
      rw [output] at performed
      split at performed
      · exact natural_print natural performed
      · cases performed
  | number => exact natural_print natural performed
  | line =>
      rw [output] at performed
      split at performed
      · exact natural_print natural performed
      · cases performed
        exact natural

section Machine

variable {machine : Machine} (plays : machine.Plays scene) (natural : scene.Natural)

include plays natural

theorem natural_edit {change : Edit} (roomy : machine.hasRoom (.edit change) = true)
    (performed : scene.edit change = .ok (flow, next)) : next.Natural := by
  have shrinks {unit : Int} (deleted : scene.arrive (scene.view.delete unit) = .ok (flow, next)) : next.Natural := by
    apply natural_arrive natural _ deleted
    exact fun _ => View.natural_delete natural.content fun _ _ => plays.shows.ring_pos
  have grows (room : scene.view.HasRoom) {place : Nat → Nat → Nat}
      (inserted : scene.arrive (scene.view.insert place) = .ok (flow, next)) : next.Natural := by
    apply natural_arrive natural _ inserted
    exact fun _ => View.natural_insert natural.content room
  cases change with
  | insertBefore => exact grows (Machine.hasRoom_view plays.shows roomy) performed
  | insertAfter => exact grows (Machine.hasRoom_view plays.shows roomy) performed
  | deleteBefore => exact shrinks performed
  | deleteAfter => exact shrinks performed

theorem natural_input {format : Format} (short : machine.streams.LinesBelow (2 ^ 63))
    (positive : machine.readsNegative (.input format) = false)
    (performed : scene.input format = .ok (flow, next)) : next.Natural := by
  cases format with
  | byte =>
      apply natural_read natural _ performed
      intro byte streams _
      cases byte with
      | none => exact Content.natural_blank (by decide)
      | some byte => exact Content.natural_blank (Num.ofByte_natural byte)
  | number =>
      apply natural_read natural _ performed
      intro value streams ran
      rw [← plays.streams] at ran
      rw [Machine.readsNegative, ran] at positive
      apply Content.natural_blank
      simpa using positive
  | line =>
      apply natural_read natural _ performed
      intro line streams ran
      rw [← plays.streams] at ran
      have bounded := Streams.bounded_readLine machine.streams short
      rw [ran] at bounded
      rw [CellTree.snapshot_ofBytes]
      exact Snapshot.natural_bytes bounded.2

/-- Each operation keeps the values from 0 up, unless it strays. -/
theorem natural_perform {op : Op} (constants : op.Natural) (short : machine.streams.LinesBelow (2 ^ 63))
    (tame : machine.strays op = false) (performed : scene.perform op = .ok (flow, next)) : next.Natural := by
  obtain ⟨roomy, fits, positive⟩ := Machine.strays_eq_false_iff.mp tame
  cases op with
  | leave =>
      cases performed
      exact natural
  | invert | setCondition operand | connect connective operand | compare comparison operand =>
      cases performed
      exact ⟨natural.accumulator, natural.content⟩
  | increment =>
      cases performed
      have below : scene.accumulator.toInt < Num.greatest := by
        simp only [Machine.exceeds, decide_eq_false_iff_not, plays.accumulator] at fits
        omega
      have own := natural.accumulator
      constructor
      · change 0 ≤ (scene.accumulator + 1).toInt
        rw [Num.toInt_add_one below]
        omega
      · exact natural.content
  | decrement =>
      rw [perform] at performed
      split at performed
      case isTrue => cases performed
      case isFalse past =>
        cases performed
        rw [Int64.le_iff_toInt_le, Int64.toInt_zero] at past
        constructor
        · change 0 ≤ (scene.accumulator - 1).toInt
          rw [Num.toInt_sub_one (by omega)]
          omega
        · exact natural.content
  | setAccumulator operand =>
      cases performed
      exact ⟨natural.valueOf fun value same => constants.constant value (congrArg some same), natural.content⟩
  | setValue operand =>
      cases performed
      have own := natural.valueOf fun value same => constants.constant value (congrArg some same)
      exact natural.write (Content.natural_blank own)
  | setMemory literal =>
      cases performed
      exact natural.write (constants.literal literal rfl)
  | arithmetic operation operand =>
      have second := natural.valueOf fun value same => constants.constant value (congrArg some same)
      rw [perform] at performed
      split at performed
      case h_2 => cases performed
      case h_1 value applied =>
        cases performed
        constructor
        · apply Arithmetic.natural_apply natural.accumulator second _ _ applied
          · intro same
            subst same
            simpa [Machine.exceeds, plays.accumulator, plays.valueOf_eq] using fits
          · intro same
            subst same
            simpa [Machine.exceeds, plays.accumulator, plays.valueOf_eq] using fits
        · exact natural.content
  | move direction => exact natural_move natural performed
  | edit change => exact natural_edit plays natural roomy performed
  | input format => exact natural_input plays natural short positive performed
  | output format => exact natural_output natural performed

end Machine

end Scene

namespace Machine

/-- No value that the machine holds is negative. -/
def Natural (machine : Machine) : Prop :=
  ∃ scene, machine.Plays scene ∧ scene.Natural

variable {machine : Machine}

theorem Natural.accumulator (natural : machine.Natural) : 0 ≤ machine.registers.accumulator.toInt := by
  obtain ⟨scene, plays, seen⟩ := natural
  rw [plays.accumulator]
  exact seen.accumulator

theorem Natural.nodes (natural : machine.Natural) : ∀ cell ∈ machine.store.nodes, 0 ≤ cell.value.toInt := by
  obtain ⟨scene, plays, seen⟩ := natural
  obtain ⟨host, depicts, _⟩ := plays.shows
  obtain ⟨top, alone, shown, _⟩ := depicts.tree
  intro cell inside
  obtain ⟨tree, among, below⟩ := (Cell.mem_forestNodes _ _).mp inside
  rw [alone, List.mem_singleton] at among
  subst among
  apply Cell.natural_nodes _ cell below
  rw [shown]
  exact seen.content

theorem Natural.headValue (natural : machine.Natural) : 0 ≤ machine.headValue.toInt := by
  obtain ⟨scene, plays, seen⟩ := natural
  rw [plays.headValue_eq]
  exact (View.natural_here seen.content).value

/-- An operand has a value, and it is not negative. -/
theorem Natural.resolve (natural : machine.Natural) {op : Op} (constants : op.Natural) {operand : Operand}
    (among : op.operand? = some operand) : ∃ value, resolve operand machine = .ok value machine ∧ 0 ≤ value.toInt := by
  obtain ⟨scene, plays, seen⟩ := natural
  refine ⟨_, run_resolve plays operand, seen.valueOf ?_⟩
  intro value same
  subst same
  exact constants.constant value among

end Machine

/-- A visit keeps the values from 0 up, unless the instruction strays. -/
theorem Instruction.natural_visit {limit : Option Nat} {single : Instruction} {machine : Machine}
    (intact : single.op.Intact) (constants : single.op.Natural) (short : machine.streams.LinesBelow (2 ^ 63))
    (tame : single.takesEffect limit machine = true → machine.strays single.op = false) (natural : machine.Natural) :
    (single.visit limit machine).2.Natural := by
  obtain ⟨scene, plays, seen⟩ := natural
  have room : single.takesEffect limit machine = true → machine.hasRoom single.op = true :=
    fun effect => (Machine.strays_eq_false_iff.mp (tame effect)).1
  have shown := single.shown_visit intact plays short room
  generalize (single.visit limit machine).1 = verdict, (single.visit limit machine).2 = after at shown
  cases shown with
  | cut idle still => exact ⟨scene, still, seen⟩
  | heldBack idle still => exact ⟨scene, still, seen⟩
  | done effect performed later =>
      exact ⟨_, later, Scene.natural_perform plays seen constants short (tame effect) performed⟩
  | refused effect performed akin still => exact ⟨_, still, seen.accumulator, seen.content⟩

namespace Config

/-- The next step carries out an operation that strays. -/
def strays (limit : Option Nat) : Config → Bool
  | .running (.instruction single) _ machine => single.takesEffect limit machine && machine.strays single.op
  | _ => false

theorem crams_of_not_strays {limit : Option Nat} {config : Config} (tame : config.strays limit = false) :
    config.crams limit = false := by
  match config with
  | .ended verdict machine => rfl
  | .running (.block loop) stack machine => rfl
  | .running (.instruction single) stack machine =>
      simp only [strays, Bool.and_eq_false_iff, Machine.strays_eq_false_iff] at tame
      simp only [crams, Bool.and_eq_false_iff, Bool.not_eq_false']
      exact tame.imp_right fun kept => kept.1

/-- What a step passes on, besides where the head is: no constant and no value is negative. -/
structure Natural (root : CellId) (config : Config) : Prop extends config.Steady root where
  constants : config.Throughout (fun single => single.op.Natural) fun _ => True
  values : config.machine.Natural

theorem natural_step {root : CellId} {limit : Option Nat} {config : Config} (natural : config.Natural root)
    (tame : config.strays limit = false) : (config.step limit).Natural root := by
  have steady := steady_step natural.toSteady (crams_of_not_strays tame)
  refine ⟨steady, throughout_step limit natural.constants, ?_⟩
  match config with
  | .ended verdict machine => exact natural.values
  | .running (.block loop) stack machine =>
      rw [step]
      split
      · exact natural.values
      · rw [machine_resume]
        exact natural.values
  | .running (.instruction single) stack machine =>
      have kept : single.takesEffect limit machine = true → machine.strays single.op = false := by
        simpa [strays] using tame
      rw [step, machine_resume]
      cases natural.intact.1 with
      | instruction _ intact =>
          cases natural.constants.1 with
          | instruction _ constants =>
              exact single.natural_visit intact constants natural.safe.short kept natural.values

end Config

theorem Program.natural_iterate {source : String} {program : Program} {streams : Streams}
    (parsed : parse source = .ok program) (shortSource : source.utf8ByteSize < 2 ^ 63)
    (shortInput : streams.LinesBelow (2 ^ 63)) {limit : Option Nat} {count : Nat}
    (tame : ∀ earlier < count, ((Config.step limit)^[earlier] (program.start streams)).strays limit = false) :
    ((Config.step limit)^[count] (program.start streams)).Natural program.memoryRoot := by
  obtain ⟨draft, read, same, plays⟩ := plays_start streams parsed shortSource
  have drafted := Draft.natural_of_read shortSource read
  have begun : (program.start streams).Natural program.memoryRoot := by
    refine ⟨steady_start parsed shortSource shortInput, ⟨?_, by simp⟩, _, plays, drafted.accumulator, drafted.memory⟩
    rw [same]
    exact drafted.root
  exact iterate_kept (fun _ => Config.natural_step) begun tame

/-- The accumulator and the cells are numbers from 0 up. -/
theorem Machine.Natural.inRange {machine : Machine} (natural : machine.Natural) :
    ∀ value ∈ machine.registers.accumulator :: machine.store.nodes.map Cell.value,
      0 ≤ value.toInt ∧ value.toInt ≤ Num.greatest := by
  intro value among
  constructor
  · rcases List.mem_cons.mp among with rfl | inside
    · exact natural.accumulator
    · obtain ⟨cell, there, rfl⟩ := List.mem_map.mp inside
      exact natural.nodes cell there
  · have upper := Int64.toInt_lt value
    unfold Num.greatest
    omega

/-- A byte is refused only if it is too great, since it is not negative. -/
theorem Instruction.refuses_byte_iff {limit : Option Nat} {single : Instruction} {machine : Machine} {scene : Scene}
    (intact : single.op.Intact) (plays : machine.Plays scene) (short : machine.streams.LinesBelow (2 ^ 63))
    (below : scene.view.trail ≠ []) (natural : machine.Natural) (writes : single.op = .output .byte)
    (effect : single.takesEffect limit machine = true) :
    (∃ cause, (single.visit limit machine).1 = .abort cause) ↔ 255 < machine.headValue.toInt := by
  have roomy : machine.hasRoom single.op = true := by
    rw [writes]
    rfl
  have positive := natural.headValue
  simp only [single.visit_eq_abort_iff intact plays short (fun _ => roomy) below effect, writes]
  constructor
  · intro aborts
    obtain ⟨cause, _, overreaches | broken⟩ := aborts
    · generalize cause.reason = reason at overreaches
      cases overreaches with
      | character outside => omega
    · generalize cause.reason = reason at broken
      cases broken
  · intro great
    exact ⟨⟨.invalidCharacter machine.headValue, single.location⟩, rfl, .inl (.character (by omega))⟩

/--
At every step of a run of a parsed program, up to the first operation that strays: the accumulator and all cells
are from 0 to the greatest number. So no arithmetic, a division or remainder in particular, sees a negative
operand, no shift goes by a negative count, and a byte is refused just if it is above 255.
-/
theorem values_stay_in_range (limit : Option Nat) (source : String) (program : Program) (streams : Streams)
    (parsed : Program.parse source = .ok program) (shortSource : source.utf8ByteSize < 2 ^ 63)
    (shortInput : streams.LinesBelow (2 ^ 63)) :
    (∀ count config, (Config.step limit)^[count] (program.start streams) = config →
      (∀ earlier < count, ((Config.step limit)^[earlier] (program.start streams)).strays limit = false) →
      (∀ value ∈ config.machine.registers.accumulator :: config.machine.store.nodes.map Cell.value,
        0 ≤ value.toInt ∧ value.toInt ≤ Num.greatest) ∧
      ∀ single stack machine, config = .running (.instruction single) stack machine →
        (∀ operation operand, single.op = .arithmetic operation operand →
          0 ≤ machine.registers.accumulator.toInt ∧
            ∃ value, Machine.resolve operand machine = .ok value machine ∧ 0 ≤ value.toInt) ∧
        (∀ distance, single.op = .move (.back distance) ∨ single.op = .move (.forward distance) →
          ∃ value, Machine.resolve distance machine = .ok value machine ∧ 0 ≤ value.toInt) ∧
        (single.op = .output .byte → single.takesEffect limit machine = true →
          ((∃ cause, (single.visit limit machine).1 = .abort cause) ↔ 255 < machine.headValue.toInt))) ∧
    ((∀ count, ((Config.step limit)^[count] (program.start streams)).strays limit = false) →
      ∀ budget ending after rest, program.run streams limit budget = .ok (some (ending, after, rest)) →
        ∀ value ∈ after.registers.accumulator :: after.store.nodes.map Cell.value,
          0 ≤ value.toInt ∧ value.toInt ≤ Num.greatest) := by
  constructor
  · intro count config reached tame
    have natural := Program.natural_iterate parsed shortSource shortInput tame
    rw [reached] at natural
    refine ⟨natural.values.inRange, ?_⟩
    intro single stack machine same
    subst same
    cases natural.constants.1 with
    | instruction _ constants =>
        refine ⟨?_, ?_, ?_⟩
        · intro operation operand known
          exact ⟨natural.values.accumulator, natural.values.resolve constants (by rw [known, Op.operand?])⟩
        · intro distance known
          apply natural.values.resolve constants
          rcases known with back | forward
          · rw [back, Op.operand?]
          · rw [forward, Op.operand?]
        · intro writes effect
          obtain ⟨scene, plays, below⟩ := natural.grounded
          cases natural.intact.1 with
          | instruction _ intact =>
              exact single.refuses_byte_iff intact plays natural.safe.short below natural.values writes effect
  · intro tame budget ending after rest ran
    obtain ⟨count, verdict, machine, ended, same⟩ := (Program.run_iff (Program.hasRun_of_parse parsed)).mp ⟨budget, ran⟩
    have natural := Program.natural_iterate parsed shortSource shortInput fun earlier (_ : earlier < count) =>
      tame earlier
    rw [ended] at natural
    cases same
    exact natural.values.inRange

/-- A constant is halved, the head goes so far around its ring, and a value that is no byte is written. -/
def Program.halving : Program :=
  ⟨⟨.always, .instruction ⟨.setAccumulator (.constant 300), .always, ⟨1, 3⟩⟩,
      [.instruction ⟨.arithmetic .divide (.constant 2), .always, ⟨1, 9⟩⟩,
        .instruction ⟨.move (.forward (.register .accumulator)), .always, ⟨1, 13⟩⟩,
        .instruction ⟨.setValue (.constant 300), .always, ⟨1, 17⟩⟩,
        .instruction ⟨.output .byte, .always, ⟨1, 23⟩⟩], ⟨1, 1⟩⟩,
    CellTree.initial.store, ⟨0⟩, ⟨0, false, ⟨1⟩⟩, false, 0, none⟩

/-- Where its run on no input stands after so many steps. -/
def Program.halvingStep (count : Nat) : Config :=
  (Config.step none)^[count] (halving.start (Streams.ofInput [] .stop))

theorem halving_stays_in_range :
    Program.parse "{ A 300 / 2 > a . 300 chout }" = .ok .halving ∧
      (0 ≤ (Program.halvingStep 2).machine.registers.accumulator.toInt ∧
        ∃ value, Machine.resolve (.constant 2) (Program.halvingStep 2).machine =
          .ok value (Program.halvingStep 2).machine ∧ 0 ≤ value.toInt) ∧
      (∃ value, Machine.resolve (.register .accumulator) (Program.halvingStep 3).machine =
        .ok value (Program.halvingStep 3).machine ∧ 0 ≤ value.toInt) ∧
      (∀ value ∈ (Program.halvingStep 5).machine.registers.accumulator ::
          (Program.halvingStep 5).machine.store.nodes.map Cell.value, 0 ≤ value.toInt ∧ value.toInt ≤ Num.greatest) ∧
      255 < (Program.halvingStep 5).machine.headValue.toInt ∧
      ∃ cause, (Instruction.visit none ⟨.output .byte, .always, ⟨1, 23⟩⟩ (Program.halvingStep 5).machine).1 =
        .abort cause := by
  have parsed : Program.parse "{ A 300 / 2 > a . 300 chout }" = .ok .halving := by cbv
  have tame : ∀ earlier < 5, (Program.halvingStep earlier).strays none = false := by decide +kernel
  have great : 255 < (Program.halvingStep 5).machine.headValue.toInt := by decide +kernel
  obtain ⟨steps, _⟩ := values_stay_in_range none _ .halving (Streams.ofInput [] .stop) parsed (by decide)
    (Streams.linesBelow_of_length (by decide))
  obtain ⟨_, divides⟩ := steps 2 (Program.halvingStep 2) rfl fun earlier less => tame earlier (by omega)
  obtain ⟨_, shifts⟩ := steps 3 (Program.halvingStep 3) rfl fun earlier less => tame earlier (by omega)
  obtain ⟨values, writes⟩ := steps 5 (Program.halvingStep 5) rfl tame
  obtain ⟨dividing, _⟩ := divides _ _ _ rfl
  obtain ⟨_, shifting, _⟩ := shifts _ _ _ rfl
  obtain ⟨_, _, writing⟩ := writes _ _ _ rfl
  exact ⟨parsed, dividing _ _ rfl, shifting _ (.inr rfl), values, great, (writing rfl rfl).mpr great⟩

end RingTape
