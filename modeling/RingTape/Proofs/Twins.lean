import RingTape.Proofs.Eager
import RingTape.Proofs.SafeRun

/-!
Two machines that look alike. Their memories show the same view, though their cells may be in other slots and
other cells may have been made; their registers agree but for the slot of the head, and so does what is left of
their inputs. Whatever the machine does it does to both, and no run can tell them apart.
-/

namespace RingTape

set_option autoImplicit false

section Blind

variable {ε σ α β : Type}

/-- The same result or akin errors, in alike states. -/
inductive Matched (akin : ε → ε → Prop) (alike : σ → σ → Prop) :
    EStateM.Result ε σ α → EStateM.Result ε σ α → Prop where
  | ok (result : α) {left right : σ} (same : alike left right) :
      Matched akin alike (.ok result left) (.ok result right)
  | error {error error' : ε} {left right : σ} (related : akin error error') (same : alike left right) :
      Matched akin alike (.error error left) (.error error' right)

/-- The program does the same in alike states. -/
def Blind (akin : ε → ε → Prop) (alike : σ → σ → Prop) (program : EStateM ε σ α) : Prop :=
  ∀ left right, alike left right → Matched akin alike (program left) (program right)

variable {akin : ε → ε → Prop} {alike : σ → σ → Prop}

/-- What follows is the same too, given what is known of the first result. -/
theorem Matched.bind {first : EStateM ε σ α} {rest : α → EStateM ε σ β} {left right : σ}
    (matched : Matched akin alike (first left) (first right))
    (onward : ∀ result reached, first left = .ok result reached → Blind akin alike (rest result)) :
    Matched akin alike ((first >>= rest) left) ((first >>= rest) right) := by
  change Matched akin alike (EStateM.bind first rest left) (EStateM.bind first rest right)
  unfold EStateM.bind
  generalize first left = outcome, first right = outcome' at matched onward
  cases matched with
  | ok result same => exact onward result _ rfl _ _ same
  | error related same => exact .error related same

theorem Blind.bind {first : EStateM ε σ α} {rest : α → EStateM ε σ β} (blind : Blind akin alike first)
    (onward : ∀ result, Blind akin alike (rest result)) : Blind akin alike (first >>= rest) :=
  fun left right same => (blind left right same).bind fun result _ _ => onward result

theorem blind_pure (result : α) : Blind akin alike (pure result : EStateM ε σ α) :=
  fun _ _ same => .ok result same

theorem blind_throw {error : ε} (self : akin error error) : Blind akin alike (throw error : EStateM ε σ α) :=
  fun _ _ same => .error self same

theorem matched_get_bind {rest : σ → EStateM ε σ α} {left right : σ}
    (matched : Matched akin alike (rest left left) (rest right right)) :
    Matched akin alike ((get >>= rest) left) ((get >>= rest) right) :=
  matched

/-- A program may look at what is the same in alike states. -/
theorem blind_get_bind {rest : σ → EStateM ε σ α}
    (agree : ∀ left right, alike left right → rest left = rest right)
    (onward : ∀ state, Blind akin alike (rest state)) : Blind akin alike (get >>= rest) := by
  intro left right same
  apply matched_get_bind
  rw [← agree left right same]
  exact onward left left right same

end Blind

namespace Streams

/-- The same is left of the input, and the same has been written since the outputs were as given. -/
structure Twins (before before' : Array UInt8) (left right : Streams) : Prop where
  input : left.input = right.input
  inputEnd : left.inputEnd = right.inputEnd
  written : ∃ bytes, left.output = before ++ bytes ∧ right.output = before' ++ bytes
  short : left.LinesBelow (2 ^ 63)

section Twins

variable {before before' : Array UInt8}

theorem blind_countRead : Blind Eq (Twins before before') countRead :=
  fun _ _ twins => .ok () ⟨twins.input, twins.inputEnd, twins.written, twins.short⟩

theorem blind_consume (count : Nat) : Blind Eq (Twins before before') (consume count) := by
  intro left right twins
  refine .ok () ⟨?_, twins.inputEnd, twins.written, twins.short.later (List.drop_suffix count left.input)⟩
  exact congrArg (List.drop count) twins.input

theorem blind_look : Blind Eq (Twins before before') look := by
  apply blind_get_bind
  · intro left right twins
    rw [twins.input, twins.inputEnd]
  · intro streams
    split
    · exact blind_throw rfl
    · exact blind_pure _

theorem blind_readByte : Blind Eq (Twins before before') readByte := by
  refine blind_countRead.bind fun _ => blind_look.bind fun input => ?_
  split
  · exact (blind_consume 1).bind fun _ => blind_pure _
  · exact blind_pure _

theorem blind_readNumber : Blind Eq (Twins before before') readNumber := by
  refine blind_countRead.bind fun _ => blind_get_bind ?_ fun streams => ?_
  · intro left right twins
    rw [twins.input]
  · exact (blind_consume _).bind fun _ => blind_look.bind fun _ => (blind_consume _).bind fun _ =>
      (blind_consume _).bind fun _ => blind_look.bind fun _ => blind_pure _

theorem blind_readLine : Blind Eq (Twins before before') readLine := by
  refine blind_countRead.bind fun _ left right twins => ?_
  apply matched_get_bind
  rw [← twins.input]
  by_cases ends : (left.input.takeWhile fun byte => byte ≠ 0x0A).length < left.input.length
  · rw [if_pos ends, if_pos ends]
    exact (blind_consume _).bind (fun _ => blind_pure _) left right twins
  · rw [if_neg ends, if_neg ends, ← twins.inputEnd]
    cases left.inputEnd with
    | stop => exact (blind_consume _).bind (fun _ => blind_pure _) left right twins
    | fail message => exact .error rfl ⟨rfl, rfl, twins.written, twins.short.later List.nil_suffix⟩

theorem blind_write (bytes : List UInt8) : Blind Eq (Twins before before') (write bytes) := by
  intro left right twins
  obtain ⟨written, same, same'⟩ := twins.written
  refine .ok () ⟨twins.input, twins.inputEnd, ⟨written ++ bytes.toArray, ?_, ?_⟩, twins.short⟩
  · apply Array.toList_inj.mp
    simp [same]
  · apply Array.toList_inj.mp
    simp [same']

end Twins

end Streams

/-- The reason without the numbers of cells. -/
def AbortReason.unnumbered : AbortReason → AbortReason
  | .memory fault => .memory fault.unnumbered
  | reason => reason

/-- The verdict without the numbers of cells. -/
def Verdict.unnumbered : Verdict → Verdict
  | .flow result => .flow result
  | .abort cause => .abort ⟨cause.reason.unnumbered, cause.location⟩

namespace AbortReason

/-- The same reason, but perhaps about other cells. -/
def Akin (reason reason' : AbortReason) : Prop :=
  reason.unnumbered = reason'.unnumbered

theorem akin_self (reason : AbortReason) : reason.Akin reason :=
  rfl

end AbortReason

namespace Machine

/-- The machines look alike, and have written the same since their outputs were as given. -/
structure Twins (before before' : Array UInt8) (left right : Machine) : Prop where
  view : ∃ view, left.store.Shows view left.registers.head ∧ right.store.Shows view right.registers.head
  accumulator : left.registers.accumulator = right.registers.accumulator
  condition : left.registers.condition = right.registers.condition
  steps : left.steps = right.steps
  streams : Streams.Twins before before' left.streams right.streams

/-- The program does the same to machines that look alike. -/
abbrev Oblivious {α : Type} (before before' : Array UInt8) (program : MachineM α) : Prop :=
  Blind AbortReason.Akin (Twins before before') program

/-- Both ended the same, and the machines still look alike. -/
abbrev Paired {α : Type} (before before' : Array UInt8)
    (outcome outcome' : EStateM.Result AbortReason Machine α) : Prop :=
  Matched AbortReason.Akin (Twins before before') outcome outcome'

section Twins

variable {α : Type} {before before' : Array UInt8} {left right : Machine}

/-- Both memories may change, as long as they show one view again. -/
theorem Twins.relocate (twins : Twins before before' left right) {view : View} {store store' : Store}
    {head head' : CellId} (shows : store.Shows view head) (shows' : store'.Shows view head') :
    Twins before before' { left with store := store, registers := { left.registers with head := head } }
      { right with store := store', registers := { right.registers with head := head' } } :=
  ⟨⟨view, shows, shows'⟩, twins.accumulator, twins.condition, twins.steps, twins.streams⟩

theorem oblivious_setAccumulator (value : Num) : Oblivious before before' (setAccumulator value) :=
  fun _ _ twins => .ok () ⟨twins.view, rfl, twins.condition, twins.steps, twins.streams⟩

theorem oblivious_setCondition (value : Bool) : Oblivious before before' (setCondition value) :=
  fun _ _ twins => .ok () ⟨twins.view, twins.accumulator, rfl, twins.steps, twins.streams⟩

/-- A program may look at the registers, but not at the slot of the head. -/
theorem oblivious_registersNow_bind {rest : Registers → MachineM α}
    (agree : ∀ left right : Registers, left.accumulator = right.accumulator → left.condition = right.condition →
      rest left = rest right)
    (onward : ∀ registers, Oblivious before before' (rest registers)) :
    Oblivious before before' (registersNow >>= rest) :=
  blind_get_bind (fun left right twins => agree left.registers right.registers twins.accumulator twins.condition)
    fun machine => onward machine.registers

theorem oblivious_onStreams {program : StreamM α} (blind : Blind Eq (Streams.Twins before before') program) :
    Oblivious before before' (onStreams program) := by
  intro left right twins
  have matched := blind _ _ twins.streams
  unfold onStreams
  generalize program left.streams = outcome, program right.streams = outcome' at matched
  cases matched with
  | ok result same => exact .ok result ⟨twins.view, twins.accumulator, twins.condition, twins.steps, same⟩
  | error same twins' =>
      cases same
      exact .error rfl ⟨twins.view, twins.accumulator, twins.condition, twins.steps, twins'⟩

/-- A program at the head, of which is known what it attains on both sides. -/
theorem paired_atHead {β γ : Type} {view : View} {program : CellId → StoreM β} {rest : β → MachineM α}
    {aim : Except Fault γ} {meets meets' : γ → β → Store → Prop} (twins : Twins before before' left right)
    (attains : left.store.Attains view left.registers.head (program left.registers.head) aim meets)
    (attains' : right.store.Attains view right.registers.head (program right.registers.head) aim meets')
    (onward : ∀ goal result result' reached reached', meets goal result reached → meets' goal result' reached' →
      Paired before before' (rest result { left with store := reached })
        (rest result' { right with store := reached' })) :
    Paired before before' ((do rest (← onStore (program (← head)))) left)
      ((do rest (← onStore (program (← head)))) right) := by
  change Paired before before' (EStateM.bind (onStore (program left.registers.head)) rest left)
    (EStateM.bind (onStore (program right.registers.head)) rest right)
  unfold EStateM.bind onStore
  cases aim with
  | ok goal =>
      obtain ⟨result, reached, ran, met⟩ := attains
      obtain ⟨result', reached', ran', met'⟩ := attains'
      rw [ran, ran']
      exact onward goal result result' reached reached' met met'
  | error fault =>
      obtain ⟨refusal, reached, ran, same, shows⟩ := attains
      obtain ⟨refusal', reached', ran', same', shows'⟩ := attains'
      rw [ran, ran']
      refine .error ?_ (twins.relocate shows shows')
      simp only [AbortReason.Akin, AbortReason.unnumbered, same, same']

/-- The head goes where a program leads from it. -/
theorem paired_goTo {view : View} {program : CellId → StoreM CellId} {aim : Except Fault View}
    {rest : CellId → MachineM α} (twins : Twins before before' left right)
    (shows : left.store.Shows view left.registers.head) (shows' : right.store.Shows view right.registers.head)
    (leads : view.Leads program aim) (onward : Oblivious before before' (do rest (← head))) :
    Paired before before'
      ((do
        let target ← onStore (program (← head))
        setHead target
        rest target) left)
      ((do
        let target ← onStore (program (← head))
        setHead target
        rest target) right) := by
  apply paired_atHead twins (leads _ _ shows) (leads _ _ shows')
  intro next target target' reached reached' there there'
  exact onward _ _ (twins.relocate there there')

theorem oblivious_goTo {program : CellId → StoreM CellId} {act : View → Except Fault View}
    (leads : ∀ view : View, view.Leads program (act view)) :
    Oblivious before before' (do
      setHead (← onStore (program (← head)))
      return Flow.okay) := by
  intro left right twins
  obtain ⟨view, shows, shows'⟩ := twins.view
  exact paired_goTo twins shows shows' (leads view) fun _ _ twins => .ok Flow.okay twins

/-- The head stays, and the program answers the same on both sides. -/
theorem paired_serve {β : Type} {view : View} {program : CellId → StoreM β} {answer : β} {aim : Except Fault View}
    {rest : β → MachineM α} (twins : Twins before before' left right)
    (shows : left.store.Shows view left.registers.head) (shows' : right.store.Shows view right.registers.head)
    (serves : view.Serves program answer aim)
    (onward : Oblivious before before' (rest answer)) :
    Paired before before' ((do rest (← onStore (program (← head)))) left)
      ((do rest (← onStore (program (← head)))) right) := by
  apply paired_atHead twins (serves _ _ shows) (serves _ _ shows')
  rintro next _ _ reached reached' ⟨rfl, there⟩ ⟨rfl, there'⟩
  exact onward _ _ (twins.relocate there there')

theorem oblivious_serve {β : Type} {program : CellId → StoreM β} {answer : View → β} {act : View → Except Fault View}
    {rest : β → MachineM α} (serves : ∀ view : View, view.Serves program (answer view) (act view))
    (onward : ∀ result, Oblivious before before' (rest result)) :
    Oblivious before before' (do rest (← onStore (program (← head)))) := by
  intro left right twins
  obtain ⟨view, shows, shows'⟩ := twins.view
  exact paired_serve twins shows shows' (serves view) (onward _)

theorem oblivious_serve_last {program : CellId → StoreM α} {answer : View → α} {act : View → Except Fault View}
    (serves : ∀ view : View, view.Serves program (answer view) (act view)) :
    Oblivious before before' (do onStore (program (← head))) := by
  have blind : Oblivious before before' _ := oblivious_serve serves blind_pure
  simpa only [bind_pure] using blind

/-- The value under the head is that of the view. -/
theorem run_activeValue {view : View} {machine : Machine}
    (shows : machine.store.Shows view machine.registers.head) :
    activeValue machine = .ok view.here.value machine := by
  obtain ⟨host, ran, same⟩ := shows.run_cell
  change EStateM.bind (onStore (Store.cell machine.registers.head)) (fun cell => pure cell.value) machine = _
  unfold EStateM.bind onStore
  rw [ran, ← same]
  rfl

theorem paired_activeValue_bind {view : View} {rest : Num → MachineM α}
    (shows : left.store.Shows view left.registers.head) (shows' : right.store.Shows view right.registers.head)
    (onward : Paired before before' (rest view.here.value left) (rest view.here.value right)) :
    Paired before before' ((activeValue >>= rest) left) ((activeValue >>= rest) right) := by
  change Paired before before' (EStateM.bind activeValue rest left) (EStateM.bind activeValue rest right)
  unfold EStateM.bind
  rw [run_activeValue shows, run_activeValue shows']
  exact onward

theorem oblivious_activeValue : Oblivious before before' activeValue := by
  intro left right twins
  obtain ⟨view, shows, shows'⟩ := twins.view
  rw [run_activeValue shows, run_activeValue shows']
  exact .ok _ twins

theorem oblivious_resolve (operand : Operand) : Oblivious before before' (resolve operand) := by
  match operand with
  | .constant value => exact blind_pure value
  | .register .accumulator =>
      exact oblivious_registersNow_bind (fun _ _ same _ => by rw [same]) fun _ => blind_pure _
  | .register .active => exact oblivious_activeValue

/-- Going up starts with a look for the parent. -/
theorem run_up {view : View} {machine : Machine} (shows : machine.store.Shows view machine.registers.head) :
    move .up machine =
      (match machine.store.parent? machine.registers.head with
        | none => return .exit
        | some parent => do
            setHead parent.id
            return if ← onStore (Store.isTop parent.id) then .exit else .okay : MachineM Flow) machine := by
  obtain ⟨_, ran, _⟩ := shows.run_cell
  change EStateM.bind (onStore (Store.cell machine.registers.head)) _ machine = _
  simp only [EStateM.bind, onStore, ran]
  rfl

theorem run_up_top {view : View} {machine : Machine} (shows : machine.store.Shows view machine.registers.head)
    (atTop : view.trail = []) : move .up machine = .ok .exit machine := by
  rw [run_up shows]
  obtain ⟨host, depicts, same⟩ := shows
  rw [← same, depicts.parent?_eq_none atTop]
  rfl

theorem run_up_below {view : View} {machine : Machine} (shows : machine.store.Shows view machine.registers.head)
    {index : Nat} {up : List Nat} (below : view.trail = index :: up) :
    ∃ parent, machine.store.Shows ⟨view.content, up⟩ parent ∧
      move .up machine = .ok (if up.isEmpty then .exit else .okay)
        { machine with registers := { machine.registers with head := parent } } := by
  rw [run_up shows]
  obtain ⟨host, depicts, same⟩ := shows
  obtain ⟨parent, above, seat⟩ := depicts.above below
  have there : machine.store.Shows ⟨view.content, up⟩ parent.id := ⟨parent, above, rfl⟩
  refine ⟨parent.id, there, ?_⟩
  rw [← same, (Store.parent?_of_seat above.sound above.mem seat).1]
  change EStateM.bind (onStore (Store.isTop parent.id)) _ _ = _
  simp only [EStateM.bind, onStore, there.run_isTop]
  rfl

theorem oblivious_move (direction : Move) : Oblivious before before' (move direction) := by
  cases direction with
  | up =>
      intro left right twins
      obtain ⟨view, shows, shows'⟩ := twins.view
      cases trail : view.trail with
      | nil =>
          rw [run_up_top shows trail, run_up_top shows' trail]
          exact .ok _ twins
      | cons index up =>
          obtain ⟨parent, above, ran⟩ := run_up_below shows trail
          obtain ⟨parent', above', ran'⟩ := run_up_below shows' trail
          rw [ran, ran']
          exact .ok _ (twins.relocate above above')
  | down =>
      refine oblivious_activeValue.bind fun value => ?_
      split
      · exact (blind_throw (AbortReason.akin_self _)).bind fun _ => oblivious_goTo Store.leads_child
      · exact oblivious_goTo Store.leads_child
  | previous => exact oblivious_goTo (Store.strides_prev.leads fun _ _ _ => run_bind_error)
  | next => exact oblivious_goTo (Store.strides_next.leads fun _ _ _ => run_bind_error)
  | back count =>
      exact (oblivious_resolve count).bind fun value => oblivious_goTo <| (Store.strides_shiftBack value).leads
        fun _ _ _ refused => run_bind_error (run_bind_error refused)
  | forward count =>
      exact (oblivious_resolve count).bind fun value => oblivious_goTo <| (Store.strides_shiftForward value).leads
        fun _ _ _ refused => run_bind_error (run_bind_error refused)
  | restart =>
      have blind : Oblivious before before' _ := oblivious_goTo Store.leads_restart
      simp only [onStore_bind, bind_assoc] at blind
      exact blind
  | rotate => exact oblivious_serve Store.serves_makeFirst fun _ => blind_pure _

/-- If the machine has room for an insertion, so has every machine that looks like it. -/
theorem hasRoom_view {view : View} {machine : Machine} (shows : machine.store.Shows view machine.registers.head)
    (roomy : Operation.countable (machine.store.parent? machine.registers.head) = true) : view.HasRoom := by
  obtain ⟨host, depicts, same⟩ := shows
  intro index up below
  obtain ⟨parent, above, seat⟩ := depicts.above below
  rw [above.here_value]
  apply Operation.room_of_countable roomy
  rw [← same]
  exact (Store.parent?_of_seat above.sound above.mem seat).1

theorem paired_edit (change : Edit) (twins : Twins before before' left right)
    (roomy : left.hasRoom (.edit change) = true) :
    Paired before before' (edit change left) (edit change right) := by
  have onward : Oblivious before before' (do
      return if ← onStore (Store.isTop (← head)) then Flow.exit else Flow.okay) :=
    oblivious_serve Store.serves_isTop fun _ => blind_pure _
  obtain ⟨view, shows, shows'⟩ := twins.view
  cases change with
  | insertBefore => exact paired_goTo twins shows shows' (Store.leads_insertBefore (hasRoom_view shows roomy)) onward
  | insertAfter => exact paired_goTo twins shows shows' (Store.leads_insertAfter (hasRoom_view shows roomy)) onward
  | deleteBefore =>
      exact paired_goTo twins shows shows' (Store.leads_deleteAlong Store.strides_prev (.inr rfl) view) onward
  | deleteAfter =>
      exact paired_goTo twins shows shows' (Store.leads_deleteAlong Store.strides_next (.inl rfl) view) onward

theorem length_of_readLine {machine reached : Machine} {line : List UInt8}
    (short : machine.streams.LinesBelow (2 ^ 63)) (ran : onStreams Streams.readLine machine = .ok line reached) :
    line.length < 2 ^ 63 := by
  have bounded := Streams.bounded_readLine machine.streams short
  unfold onStreams at ran
  cases outcome : Streams.readLine machine.streams with
  | ok result streams =>
      rw [outcome] at ran bounded
      cases ran
      exact bounded.2
  | error message streams =>
      rw [outcome] at ran
      cases ran

theorem oblivious_input (format : Format) : Oblivious before before' (input format) := by
  cases format with
  | byte =>
      exact (oblivious_onStreams Streams.blind_readByte).bind fun _ =>
        oblivious_serve_last fun view => Store.serves_setValue view _
  | number =>
      exact (oblivious_onStreams Streams.blind_readNumber).bind fun value =>
        oblivious_serve_last fun view => Store.serves_setValue view value
  | line =>
      intro left right twins
      apply (oblivious_onStreams Streams.blind_readLine left right twins).bind
      intro line reached ran
      have rooted := Store.rooted_plantBytes line (length_of_readLine twins.streams.short ran)
      obtain ⟨image, present, same⟩ := Store.exists_node_of_mem_ids rooted.root_mem
      have blind : Oblivious before before' _ :=
        oblivious_serve_last fun view => Store.serves_copyFrom view rooted.sound present
      rw [same] at blind
      exact blind

theorem oblivious_write (bytes : List UInt8) : Oblivious before before' (onStreams (Streams.write bytes)) :=
  oblivious_onStreams (Streams.blind_write bytes)

theorem oblivious_output (format : Format) : Oblivious before before' (output format) := by
  cases format with
  | byte =>
      refine oblivious_activeValue.bind fun value => ?_
      dsimp only
      split
      · exact oblivious_write _
      · exact blind_throw (AbortReason.akin_self _)
  | number => exact oblivious_activeValue.bind fun value => oblivious_write _
  | line =>
      intro left right twins
      obtain ⟨view, shows, shows'⟩ := twins.view
      apply paired_activeValue_bind shows shows'
      by_cases positive : 0 < view.here.value
      · have several : 0 < view.here.value.places := by
          have above := Int64.lt_iff_toInt_lt.mp positive
          rw [Int64.toInt_zero] at above
          unfold Num.places
          omega
        have served : Paired before before'
            ((do
              let values ← onStore (Store.child (← head) >>= Store.valuesFrom view.here.value.places)
              onStreams (Streams.write (values.map Num.lowByte))) left)
            ((do
              let values ← onStore (Store.child (← head) >>= Store.valuesFrom view.here.value.places)
              onStreams (Streams.write (values.map Num.lowByte))) right) :=
          paired_serve twins shows shows' (Store.serves_values view several) (oblivious_write _)
        simp only [onStore_bind, bind_assoc] at served
        simp only [if_pos positive]
        exact served
      · simp only [if_neg positive]
        exact .ok () twins

/-- Every operation does the same to both machines, if it does not add to a ring of the greatest size. -/
theorem paired_perform (op : Op) (intact : op.Intact) (twins : Twins before before' left right)
    (roomy : left.hasRoom op = true) :
    Paired before before' (perform op left) (perform op right) := by
  have always {program : MachineM Flow} (oblivious : Oblivious before before' program) :
      Paired before before' (program left) (program right) := oblivious left right twins
  cases op with
  | edit change => exact paired_edit change twins roomy
  | leave => exact always (blind_pure _)
  | increment =>
      exact always (oblivious_registersNow_bind (fun _ _ same _ => by rw [same]) fun _ =>
        (oblivious_setAccumulator _).bind fun _ => blind_pure _)
  | decrement =>
      refine always (oblivious_registersNow_bind (fun _ _ same _ => by rw [same]) fun registers => ?_)
      dsimp only
      split
      · exact (blind_throw (AbortReason.akin_self _)).bind fun _ =>
          (oblivious_setAccumulator _).bind fun _ => blind_pure _
      · exact (oblivious_setAccumulator _).bind fun _ => blind_pure _
  | invert =>
      exact always (oblivious_registersNow_bind (fun _ _ _ same => by rw [same]) fun _ =>
        (oblivious_setCondition _).bind fun _ => blind_pure _)
  | setAccumulator operand =>
      exact always ((oblivious_resolve operand).bind fun _ => (oblivious_setAccumulator _).bind fun _ => blind_pure _)
  | setCondition operand =>
      exact always ((oblivious_resolve operand).bind fun _ => (oblivious_setCondition _).bind fun _ => blind_pure _)
  | setValue operand =>
      exact always ((oblivious_resolve operand).bind fun value =>
        oblivious_serve (fun view => Store.serves_setValue view value) fun _ => blind_pure _)
  | setMemory literal =>
      obtain ⟨image, present, same⟩ := Store.exists_node_of_mem_ids intact.root_mem
      apply always
      rw [perform, ← same]
      exact oblivious_serve (fun view => Store.serves_copyFrom view intact.sound present) fun _ => blind_pure _
  | arithmetic operation operand =>
      refine always ((oblivious_resolve operand).bind fun value =>
        oblivious_registersNow_bind (fun _ _ same _ => by rw [same]) fun registers => ?_)
      cases operation.apply registers.accumulator value with
      | ok result => exact (oblivious_setAccumulator _).bind fun _ => blind_pure _
      | error reason => exact blind_throw (AbortReason.akin_self _)
  | connect connective operand =>
      exact always ((oblivious_resolve operand).bind fun _ =>
        oblivious_registersNow_bind (fun _ _ _ same => by rw [same]) fun _ =>
          (oblivious_setCondition _).bind fun _ => blind_pure _)
  | compare comparison operand =>
      exact always ((oblivious_resolve operand).bind fun _ =>
        oblivious_registersNow_bind (fun _ _ same _ => by rw [same]) fun _ =>
          (oblivious_setCondition _).bind fun _ => blind_pure _)
  | move direction => exact always (oblivious_move direction)
  | input format => exact always ((oblivious_input format).bind fun _ => blind_pure _)
  | output format => exact always ((oblivious_output format).bind fun _ => blind_pure _)

end Twins

/--
The machines look alike: their memories show one view, their registers agree but for the slot of the head, they
have counted as many steps, and as much is left to read.
-/
structure Alike (left right : Machine) : Prop where
  view : ∃ view, left.store.Shows view left.registers.head ∧ right.store.Shows view right.registers.head
  accumulator : left.registers.accumulator = right.registers.accumulator
  condition : left.registers.condition = right.registers.condition
  steps : left.steps = right.steps
  input : left.streams.input = right.streams.input
  inputEnd : left.streams.inputEnd = right.streams.inputEnd

theorem Alike.twins {left right : Machine} (alike : left.Alike right) (short : left.streams.LinesBelow (2 ^ 63)) :
    Twins left.streams.output right.streams.output left right :=
  ⟨alike.view, alike.accumulator, alike.condition, alike.steps, alike.input, alike.inputEnd,
    ⟨#[], Array.append_empty.symm, Array.append_empty.symm⟩, short⟩

theorem Twins.alike {before before' : Array UInt8} {left right : Machine} (twins : Twins before before' left right) :
    left.Alike right :=
  ⟨twins.view, twins.accumulator, twins.condition, twins.steps, twins.streams.input, twins.streams.inputEnd⟩

end Machine

theorem Instruction.twins_visit {before before' : Array UInt8} {limit : Option Nat} {single : Instruction}
    {left right : Machine} (intact : single.op.Intact) (twins : Machine.Twins before before' left right)
    (room : single.takesEffect limit left = true → left.hasRoom single.op = true) :
    (single.visit limit left).1.unnumbered = (single.visit limit right).1.unnumbered ∧
      Machine.Twins before before' (single.visit limit left).2 (single.visit limit right).2 := by
  have counted : Machine.Twins before before' { left with steps := left.steps + 1 }
      { right with steps := right.steps + 1 } :=
    ⟨twins.view, twins.accumulator, twins.condition, congrArg (· + 1) twins.steps, twins.streams⟩
  have bound : (limit.filter fun limit => limit < right.steps + 1) =
      limit.filter fun limit => limit < left.steps + 1 := by rw [twins.steps]
  unfold visit
  dsimp only
  rw [bound, ← twins.condition]
  cases within : limit.filter fun limit => limit < left.steps + 1 with
  | some limit => exact ⟨rfl, counted⟩
  | none =>
      by_cases admitted : single.gate.admits left.registers.condition = true
      · simp only [if_pos admitted]
        have performed := Machine.paired_perform single.op intact counted
          (room (takesEffect_of_admitted within admitted))
        generalize Machine.perform single.op { left with steps := left.steps + 1 } = outcome,
          Machine.perform single.op { right with steps := right.steps + 1 } = outcome' at performed
        cases performed with
        | ok flow same => exact ⟨rfl, same⟩
        | error related same =>
            refine ⟨?_, same⟩
            simp only [Verdict.unnumbered]
            rw [related]
      · rw [if_neg admitted, if_neg admitted]
        exact ⟨rfl, counted⟩

namespace Config

/-- Both are about to run the same, or both have ended alike. -/
inductive Twins (before before' : Array UInt8) : Config → Config → Prop where
  | running (code : Code) (stack : List Frame) {left right : Machine}
      (twins : Machine.Twins before before' left right) :
      Twins before before' (.running code stack left) (.running code stack right)
  | ended {verdict verdict' : Verdict} {left right : Machine} (same : verdict.unnumbered = verdict'.unnumbered)
      (twins : Machine.Twins before before' left right) :
      Twins before before' (.ended verdict left) (.ended verdict' right)

section Twins

variable {before before' : Array UInt8} {limit : Option Nat}

theorem twins_resume (stack : List Frame) {verdict verdict' : Verdict}
    (same : verdict.unnumbered = verdict'.unnumbered) {left right : Machine}
    (twins : Machine.Twins before before' left right) :
    Twins before before' (resume stack verdict left) (resume stack verdict' right) := by
  induction stack generalizing verdict verdict' with
  | nil => exact .ended same twins
  | cons frame stack induction =>
      match verdict, verdict', same with
      | .flow .okay, .flow .okay, _ => exact .running _ _ twins
      | .flow .leave, .flow .leave, _ => exact induction rfl
      | .flow .exit, .flow .exit, _ => exact .ended rfl twins
      | .abort _, .abort _, same => exact .ended same twins

theorem Twins.hasEnded_eq {config config' : Config} (twins : Twins before before' config config') :
    config.hasEnded = config'.hasEnded := by
  cases twins <;> rfl

theorem twins_step {config config' : Config} (twins : Twins before before' config config')
    (intact : config.Throughout (fun instruction => instruction.op.Intact) fun _ => True)
    (room : config.crams limit = false) : Twins before before' (config.step limit) (config'.step limit) := by
  cases twins with
  | ended same twins => exact .ended same twins
  | running code stack twins =>
      cases code with
      | instruction single =>
          have literal : single.op.Intact := by
            cases intact.1 with
            | instruction _ literal => exact literal
          obtain ⟨same, after⟩ := single.twins_visit literal twins (by simpa [crams] using room)
          exact twins_resume stack same after
      | block loop =>
          rw [step, step, ← twins.condition]
          split
          · exact .running _ _ twins
          · exact twins_resume stack rfl twins

/-- The induction goes along the run; the code that is left stays intact on the way. -/
theorem twins_iterate {config config' : Config} (twins : Twins before before' config config')
    (intact : config.Throughout (fun instruction => instruction.op.Intact) fun _ => True)
    (room : ∀ count, ((step limit)^[count] config).crams limit = false) (count : Nat) :
    Twins before before' ((step limit)^[count] config) ((step limit)^[count] config') := by
  induction count generalizing config config' with
  | zero => exact twins
  | succ count induction =>
      exact induction (twins_step twins intact (room 0)) (throughout_step limit intact) fun later => room (later + 1)

end Twins

end Config

namespace Code

theorem run_eq_none {limit : Option Nat} {code : Code} {machine : Machine}
    (runs : ∀ count, ((Config.step limit)^[count] (.running code [] machine)).hasEnded = false) (budget : Nat) :
    run limit budget code machine = none := by
  cases ran : run limit budget code machine with
  | none => rfl
  | some result =>
      obtain ⟨count, ended⟩ := run_iff_ended.mp ⟨budget, ran⟩
      have still := runs count
      rw [ended] at still
      cases still

/--
How memory is laid out never shows: slots, free slots and how far a ring is materialised make no difference to
a run. Alike machines either both run on for ever or both end, with the same verdict but for the numbers of
cells, alike, and having written the same.
-/
theorem layout_is_unobservable (limit : Option Nat) (code : Code) (intact : code.Intact) (left right : Machine)
    (alike : left.Alike right) (short : left.streams.LinesBelow (2 ^ 63))
    (roomy : ∀ count, ((Config.step limit)^[count] (.running code [] left)).crams limit = false) :
    (∀ budget, run limit budget code left = none ∧ run limit budget code right = none) ∨
      ∃ verdict verdict' after after' bytes,
        EndsIn limit code left verdict after ∧ EndsIn limit code right verdict' after' ∧
        verdict.unnumbered = verdict'.unnumbered ∧ after.Alike after' ∧
        after.streams.output = left.streams.output ++ bytes ∧
        after'.streams.output = right.streams.output ++ bytes := by
  have always (count : Nat) := Config.twins_iterate (.running code [] (alike.twins short))
    ⟨intact, by simp⟩ roomy count
  by_cases ends : ∃ count, ((Config.step limit)^[count] (.running code [] left)).hasEnded = true
  · right
    obtain ⟨count, ended⟩ := ends
    have twins := always count
    generalize final : (Config.step limit)^[count] (.running code [] left) = config,
      final' : (Config.step limit)^[count] (.running code [] right) = config' at twins ended
    cases twins with
    | running => cases ended
    | ended same twins =>
        obtain ⟨bytes, written, written'⟩ := twins.streams.written
        exact ⟨_, _, _, _, bytes, run_iff_ended.mpr ⟨count, final⟩, run_iff_ended.mpr ⟨count, final'⟩, same,
          twins.alike, written, written'⟩
  · left
    have goes (count : Nat) : ((Config.step limit)^[count] (.running code [] left)).hasEnded = false := by
      simpa using not_exists.mp ends count
    have goes' (count : Nat) : ((Config.step limit)^[count] (.running code [] right)).hasEnded = false := by
      rw [← (always count).hasEnded_eq]
      exact goes count
    exact fun budget => ⟨run_eq_none goes budget, run_eq_none goes' budget⟩

section Samples

/-- Five children, of which only the first is materialised. -/
def sparseRing : Store :=
  Deed.performAll (fun _ => Store.empty) [⟨0, .alloc 5⟩, ⟨0, .child ⟨0⟩⟩] 0

/-- Five children, all materialised and in other slots. -/
def denseRing : Store :=
  Deed.performAll (fun _ => Store.empty)
    [⟨0, .alloc 7⟩, ⟨0, .alloc 5⟩, ⟨0, .discard ⟨0⟩⟩, ⟨0, .child ⟨1⟩⟩, ⟨0, .prev ⟨0⟩⟩, ⟨0, .next ⟨0⟩⟩,
      ⟨0, .next ⟨3⟩⟩, ⟨0, .next ⟨4⟩⟩] 0

/-- Go back and insert a cell, read into it and write it, delete the next cell, and go up to the top. -/
def tinker : Code :=
  .block ⟨.always, .instruction ⟨.move .previous, .always, ⟨1, 3⟩⟩,
    [.instruction ⟨.edit .insertAfter, .always, ⟨1, 5⟩⟩, .instruction ⟨.input .line, .always, ⟨1, 8⟩⟩,
      .instruction ⟨.output .line, .always, ⟨1, 14⟩⟩, .instruction ⟨.edit .deleteAfter, .always, ⟨1, 21⟩⟩,
      .instruction ⟨.move .up, .always, ⟨1, 24⟩⟩], ⟨1, 1⟩⟩

/-- A machine that starts on a store, with the head in the given slot. -/
def tinkerer (store : Store) (head : CellId) : Machine :=
  ⟨store, ⟨0, false, head⟩, Streams.ofInput [104, 105, 10] .stop, 0⟩

theorem alike_rings : (tinkerer sparseRing ⟨1⟩).Alike (tinkerer denseRing ⟨0⟩) := by
  have formed (deeds : List Deed) (roomy : Deed.haveRoom (fun _ => Store.empty) deeds = true) :
      (Deed.performAll (fun _ => Store.empty) deeds 0).WellFormed :=
    (Store.wellFormed_iff_sound _).mpr (Deed.sound_performAll (fun _ => Store.sound_empty) deeds roomy 0)
  refine ⟨⟨⟨.node 5 (List.replicate 5 .zero), [0]⟩, ?_, ?_⟩, rfl, rfl, rfl, rfl, rfl⟩
  · exact ⟨Cell.leaf ⟨1⟩ 0,
      ⟨formed _ (by decide +kernel), ⟨⟨0⟩, 5, ⟨[Cell.leaf ⟨1⟩ 0], []⟩⟩, by rfl, by rfl, by rfl⟩, rfl⟩
  · exact ⟨Cell.leaf ⟨0⟩ 0,
      ⟨formed _ (by decide +kernel),
        ⟨⟨1⟩, 5, ⟨[Cell.leaf ⟨0⟩ 0, Cell.leaf ⟨3⟩ 0, Cell.leaf ⟨4⟩ 0, Cell.leaf ⟨5⟩ 0, Cell.leaf ⟨2⟩ 0], []⟩⟩,
        by rfl, by rfl, by rfl⟩, rfl⟩

theorem layout_is_unobservable_rings :
    (tinkerer sparseRing ⟨1⟩).Alike (tinkerer denseRing ⟨0⟩) ∧ tinker.Intact ∧
      (∀ count, ((Config.step none)^[count] (.running tinker [] (tinkerer sparseRing ⟨1⟩))).crams none = false) ∧
      ((run none 9 tinker (tinkerer sparseRing ⟨1⟩)).map fun result => result.2.store.live) = some 6 ∧
      ((run none 9 tinker (tinkerer denseRing ⟨0⟩)).map fun result => result.2.store.live) = some 8 ∧
      ∃ verdict verdict' after after' bytes,
        EndsIn none tinker (tinkerer sparseRing ⟨1⟩) verdict after ∧
        EndsIn none tinker (tinkerer denseRing ⟨0⟩) verdict' after' ∧
        verdict.unnumbered = verdict'.unnumbered ∧ after.Alike after' ∧
        after.streams.output = #[] ++ bytes ∧ after'.streams.output = #[] ++ bytes := by
  have intact : tinker.Intact := by
    refine .block _ trivial ?_
    simp only [Block.members, List.forall_mem_cons]
    exact ⟨.instruction _ trivial, .instruction _ trivial, .instruction _ trivial, .instruction _ trivial,
      .instruction _ trivial, .instruction _ trivial, by simp⟩
  have roomy (count : Nat) :
      ((Config.step none)^[count] (.running tinker [] (tinkerer sparseRing ⟨1⟩))).crams none = false := by
    have idle : ((Session.step none)^[8] ⟨.running tinker [] (tinkerer sparseRing ⟨1⟩), []⟩).isIdle = true := by
      decide +kernel
    have never := Session.never_crams idle (by decide +kernel) count
    rwa [Session.iterate_alone] at never
  have sparse : ((run none 9 tinker (tinkerer sparseRing ⟨1⟩)).map fun result => result.2.store.live) = some 6 := by
    decide +kernel
  refine ⟨alike_rings, intact, roomy, sparse, by decide +kernel, ?_⟩
  have short : (tinkerer sparseRing ⟨1⟩).streams.LinesBelow (2 ^ 63) := Streams.linesBelow_of_length (by decide)
  rcases layout_is_unobservable none tinker intact _ _ alike_rings short roomy with never | ends
  · rw [(never 9).1] at sparse
    cases sparse
  · exact ends

end Samples

end Code

end RingTape
