import RingTape.Proofs.Residence

/-!
Failing without a trace. Several operations make cells or read input before the point where they could fail.
Each part of an operation that can fail comes before anything is changed, so an instruction that aborts leaves
the memory, the registers and the output as they were; only input may have been consumed.

Nothing is assumed here but that the store is well formed: there may be several trees, the head may be on a
top or on no cell at all, and a ring may be of the greatest size.
-/

namespace RingTape

set_option autoImplicit false

namespace Store

/-- On the given store the program succeeds as described, or it fails and the store is as it was. -/
def Atomic {α : Type} (store : Store) (program : StoreM α) (holds : α → Store → Prop) : Prop :=
  Meets (· = store) program holds fun _ reached => reached = store

section Atomic

variable {α : Type} {store : Store} {program : StoreM α} {holds : α → Store → Prop}

theorem atomic_of_ok (ran : ∃ result reached, program store = .ok result reached ∧ holds result reached) :
    Atomic store program holds := by
  intro state same
  obtain ⟨result, reached, ran, fulfilled⟩ := ran
  rw [same, ran]
  exact fulfilled

theorem atomic_of_error {fault : Fault} (ran : program store = .error fault store) :
    Atomic store program holds := by
  intro state same
  rw [same, ran]

/-- An operation on siblings: without a parent it fails as the search for one does, and at every seat it succeeds. -/
structure NeedsParent (store : Store) (id : CellId) (program : StoreM α) (holds : α → Store → Prop) : Prop where
  refused : ∀ fault, parentOf id store = .error fault store → program store = .error fault store
  seated : ∀ host member index, host ∈ store.nodes → host.Seats index member → member.id = id →
    ∃ result reached, program store = .ok result reached ∧ holds result reached

variable (sound : store.Sound)

include sound

theorem NeedsParent.atomic {id : CellId} (needs : NeedsParent store id program holds) :
    Atomic store program holds := by
  cases found : store.parent? id with
  | none =>
      obtain ⟨fault, ran⟩ := run_parentOf_of_none found
      exact atomic_of_error (needs.refused fault ran)
  | some host =>
      obtain ⟨inside, index, member, seat, same⟩ := seat_of_parent? sound found
      exact atomic_of_ok (needs.seated host member index inside seat same)

omit sound in
theorem atomic_of_cell {id : CellId}
    (refused : ∀ fault, cell id store = .error fault store → program store = .error fault store)
    (present : ∀ host ∈ store.nodes, host.id = id → Atomic store program holds) : Atomic store program holds := by
  cases found : store.cell? id with
  | none => exact atomic_of_error (refused _ (run_cell_of_none found))
  | some host =>
      have ⟨inside, same⟩ := mem_nodes_of_cell? found
      exact present host inside same

theorem needsParent_walk {step : CellId → StoreM CellId} {distance : Int} {id : CellId} (leads : Strides step distance)
    (refused : ∀ fault, parentOf id store = .error fault store → step id store = .error fault store) :
    NeedsParent store id (step id) fun _ _ => True := by
  refine ⟨refused, ?_⟩
  intro host member index inside seat same
  obtain ⟨target, ring, pool, ran, _, _⟩ := leads store host member index sound inside seat
  rw [same] at ran
  exact ⟨target.id, _, ran, trivial⟩

theorem needsParent_prev (id : CellId) : NeedsParent store id (prev id) fun _ _ => True :=
  needsParent_walk sound strides_prev fun _ => run_bind_error

theorem needsParent_next (id : CellId) : NeedsParent store id (next id) fun _ _ => True :=
  needsParent_walk sound strides_next fun _ => run_bind_error

theorem needsParent_shiftBack (id : CellId) (count : Num) :
    NeedsParent store id (shiftBack id count) fun _ _ => True :=
  needsParent_walk sound (strides_shiftBack count) fun _ refused => run_bind_error (run_bind_error refused)

theorem needsParent_shiftForward (id : CellId) (count : Num) :
    NeedsParent store id (shiftForward id count) fun _ _ => True :=
  needsParent_walk sound (strides_shiftForward count) fun _ refused => run_bind_error (run_bind_error refused)

/-- Going down fails at once, or it makes a ring that the rest finds a child seated in. -/
theorem atomic_child_bind (id : CellId) {rest : CellId → StoreM α}
    (onward : ∀ reached : Store, reached.Sound → ∀ host member index, host ∈ reached.nodes →
      host.Seats index member → ∃ result final, rest member.id reached = .ok result final ∧ holds result final) :
    Atomic store (child id >>= rest) holds := by
  apply atomic_of_cell
  · exact fun _ refused => run_bind_error (run_bind_error refused)
  intro host inside same
  rw [← same]
  by_cases barren : host.value.places = 0
  · exact atomic_of_error (run_bind_error (run_child_barren sound.distinct inside (sound.rings host inside) barren))
  · obtain ⟨member, ring, pool, ran, grown, seat⟩ := run_child sound inside (Nat.pos_of_ne_zero barren)
    apply atomic_of_ok
    rw [run_bind_ok ran]
    exact onward _ (sound.grow inside grown) _ member 0
      (host_mem_replace sound.distinct inside host.value ring pool) seat

theorem atomic_child (id : CellId) : Atomic store (child id) fun _ _ => True := by
  have entered : Atomic store (child id >>= pure) fun _ _ => True :=
    atomic_child_bind sound id fun reached _ _ member _ _ _ => ⟨member.id, reached, rfl, trivial⟩
  rwa [bind_pure] at entered

theorem needsParent_restart (id : CellId) :
    NeedsParent store id (parentOf id >>= fun parent => child parent.id) fun _ _ => True := by
  refine ⟨fun _ => run_bind_error, ?_⟩
  intro host member index inside seat same
  have ⟨found, _⟩ := parent?_of_seat sound inside seat
  have ⟨positive, less⟩ := value_pos_of_seat sound inside seat
  obtain ⟨first, ring, pool, ran, _, _⟩ := run_child sound inside (by omega)
  rw [same] at found
  rw [run_bind_ok (run_parentOf_of_some found)]
  exact ⟨first.id, _, ran, trivial⟩

/-- Reading along a ring makes the members that are missing, so it always comes to its end. -/
theorem exists_run_valuesFrom (count : Nat) {host member : Cell} {index : Nat} (inside : host ∈ store.nodes)
    (seat : host.Seats index member) : ∃ values reached, valuesFrom count member.id store = .ok values reached := by
  induction count generalizing store host member index with
  | zero => exact ⟨[], store, rfl⟩
  | succ count induction =>
      have child := member_mem_nodes inside (seat.member (sound.rings host inside))
      have read := run_cell_of_some (cell?_of_mem sound.distinct child)
      cases count with
      | zero =>
          refine ⟨[member.value], store, ?_⟩
          rw [valuesFrom, run_bind_ok read]
          rfl
      | succ count =>
          obtain ⟨following, ring, pool, stepped, grown, there⟩ :=
            strides_next store host member index sound inside seat
          obtain ⟨values, reached, rest⟩ := induction (sound.grow inside grown)
            (host_mem_replace sound.distinct inside host.value ring pool) there
          refine ⟨member.value :: values, reached, ?_⟩
          rw [valuesFrom, run_bind_ok read, run_bind_ok stepped, run_bind_ok rest]
          rfl

theorem atomic_values (id : CellId) (count : Nat) : Atomic store (child id >>= valuesFrom count) fun _ _ => True := by
  apply atomic_child_bind sound id
  intro reached reachedSound host member index inside seat
  obtain ⟨values, final, ran⟩ := exists_run_valuesFrom reachedSound count inside seat
  exact ⟨values, final, ran, trivial⟩

theorem needsParent_makeFirst (id : CellId) : NeedsParent store id (makeFirst id) fun _ _ => True := by
  refine ⟨fun _ => run_bind_error, ?_⟩
  intro host member index inside seat same
  obtain ⟨ring, ran, _⟩ := run_makeFirst sound inside seat
  rw [same] at ran
  exact ⟨(), _, ran, trivial⟩

/-- An insertion succeeds at every seated cell, also where the value of the parent wraps. -/
theorem exists_run_insertBefore {host member : Cell} {index : Nat} (inside : host ∈ store.nodes)
    (seat : host.Seats index member) (value : Num) :
    ∃ fresh reached, insertBefore member.id value store = .ok fresh reached ∧ fresh ∈ reached.ids := by
  obtain ⟨preceding, wide, between, stepped, grown, _⟩ := strides_prev store host member index sound inside seat
  have wideSound := sound.grow inside grown
  have present := host_mem_replace sound.distinct inside host.value wide between
  have still := grown.kept index member seat
  have entered := (members_put_perm (wideSound.rings _ present) still
    (Cell.leaf (store.replace host.id host.value wide between).pool.take.1 value)
    (host.value + 1)).mem_iff.mpr List.mem_cons_self
  have put := run_put wideSound present still value
  exact ⟨_, _, (run_bind_ok stepped).trans put, member_mem_ids wideSound present entered⟩

theorem needsParent_insertBefore (id : CellId) (value : Num) :
    NeedsParent store id (insertBefore id value) fun target reached => target ∈ reached.ids := by
  refine ⟨fun _ refused => run_bind_error (run_bind_error refused), ?_⟩
  intro host member index inside seat same
  rw [← same]
  exact exists_run_insertBefore sound inside seat value

theorem needsParent_insertAfter (id : CellId) (value : Num) :
    NeedsParent store id (insertAfter id value) fun target reached => target ∈ reached.ids := by
  refine ⟨fun _ refused => run_bind_error (run_bind_error refused), ?_⟩
  intro host member index inside seat same
  obtain ⟨following, ring, pool, stepped, grown, there⟩ := strides_next store host member index sound inside seat
  rw [← same, insertAfter, run_bind_ok stepped]
  exact exists_run_insertBefore (sound.grow inside grown)
    (host_mem_replace sound.distinct inside host.value ring pool) there value

theorem needsParent_deleteAlong (id : CellId) {step : CellId → StoreM CellId} {unit : Int}
    (leads : Strides step unit) (sign : unit = 1 ∨ unit = -1) :
    NeedsParent store id (deleteAlong step id) fun target reached => target ∈ reached.ids := by
  refine ⟨fun _ => run_bind_error, ?_⟩
  intro host member index inside seat same
  rw [← same]
  by_cases last : host.value = 1
  · exact ⟨_, _, run_deleteAlong_last sound inside seat last step, host_mem_ids sound inside⟩
  · obtain ⟨gone, survivor, wide, ring, between, ran, _, _, stays, _⟩ :=
      run_deleteAlong sound inside seat last leads sign
    exact ⟨_, _, ran, member_mem_ids sound inside stays⟩

theorem atomic_setValue (id : CellId) (value : Num) : Atomic store (setValue id value) fun _ _ => True := by
  apply atomic_of_cell
  · exact fun _ refused => run_bind_error (run_bind_error refused)
  intro host inside same
  rw [← same]
  exact atomic_of_ok ⟨(), _, run_setValue sound inside value, trivial⟩

/-- Whether there is anything to copy is known before anything is discarded. -/
theorem atomic_copyFrom (id : CellId) (other : Store) (source : CellId) :
    Atomic store (copyFrom id other source) fun _ _ => True := by
  cases found : other.cell? source with
  | none =>
      apply atomic_of_error
      rw [copyFrom, found]
      rfl
  | some image =>
      rw [copyFrom, found]
      apply atomic_of_cell
      · exact fun _ refused => run_bind_error (run_bind_error refused)
      intro host inside same
      rw [← same]
      exact atomic_of_ok ⟨(), _, run_overwrite sound inside image, trivial⟩

end Atomic

theorem atomic_cell (store : Store) (id : CellId) : Atomic store (cell id) fun _ reached => reached = store := by
  cases found : store.cell? id with
  | none => exact atomic_of_error (run_cell_of_none found)
  | some node => exact atomic_of_ok ⟨node, store, run_cell_of_some found, rfl⟩

theorem exists_run_isTop {store : Store} {id : CellId} (live : id ∈ store.ids) :
    ∃ top, isTop id store = .ok top store := by
  cases found : store.cell? id with
  | none => exact absurd live ((cell?_eq_none_iff id).mp found)
  | some node =>
      refine ⟨(store.parent? id).isNone, ?_⟩
      rw [isTop, run_bind_ok (run_cell_of_some found)]
      rfl

end Store

namespace Streams

/-- Nothing has happened to the streams but that input was consumed, and counted as read. -/
structure Consumed (before after : Streams) : Prop where
  input : after.input <:+ before.input
  inputEnd : after.inputEnd = before.inputEnd
  output : after.output = before.output
  writes : after.traffic.writes = before.traffic.writes
  bytesWritten : after.traffic.bytesWritten = before.traffic.bytesWritten

theorem Consumed.refl (streams : Streams) : Consumed streams streams :=
  ⟨List.suffix_rfl, rfl, rfl, rfl, rfl⟩

/-- Whatever comes of it, the program only consumes input. -/
def Reads {α : Type} (origin : Streams) (program : StreamM α) : Prop :=
  Meets (Consumed origin) program (fun _ => Consumed origin) fun _ => Consumed origin

section Reads

variable {α β : Type} {origin : Streams}

theorem Reads.bind {first : StreamM α} {rest : α → StreamM β} (reads : Reads origin first)
    (onward : ∀ result, Reads origin (rest result)) : Reads origin (first >>= rest) :=
  Meets.bind reads onward

theorem reads_pure (result : α) : Reads origin (pure result) :=
  meets_pure fun _ consumed => consumed

theorem reads_get : Reads origin (get : StreamM Streams) :=
  fun _ consumed => consumed

theorem reads_countRead : Reads origin countRead :=
  fun _ consumed => ⟨consumed.input, consumed.inputEnd, consumed.output, consumed.writes, consumed.bytesWritten⟩

theorem reads_consume (count : Nat) : Reads origin (consume count) := by
  intro streams consumed
  exact ⟨(List.drop_suffix count streams.input).trans consumed.input, consumed.inputEnd, consumed.output,
    consumed.writes, consumed.bytesWritten⟩

theorem reads_look : Reads origin look := by
  apply reads_get.bind
  intro streams
  split
  · exact meets_throw fun _ consumed => consumed
  · exact reads_pure _

theorem reads_readByte : Reads origin readByte := by
  apply reads_countRead.bind
  intro _
  apply reads_look.bind
  intro input
  split
  · exact (reads_consume 1).bind fun _ => reads_pure _
  · exact reads_pure _

theorem reads_readNumber : Reads origin readNumber :=
  reads_countRead.bind fun _ => reads_get.bind fun _ => (reads_consume _).bind fun _ => reads_look.bind fun _ =>
    (reads_consume _).bind fun _ => (reads_consume _).bind fun _ => reads_look.bind fun _ => reads_pure _

theorem reads_readLine : Reads origin readLine := by
  apply reads_countRead.bind
  intro _
  -- What a broken input is replaced by is what was seen of it, so the state is not forgotten here.
  have seen : Meets (Consumed origin) (get : StreamM Streams)
      (fun seen streams => seen = streams ∧ Consumed origin seen) fun _ => Consumed origin :=
    fun _ consumed => ⟨rfl, consumed⟩
  apply seen.bind
  intro streams
  have whole {program : StreamM (List UInt8)} (reads : Reads origin program) :
      Meets (fun now => streams = now ∧ Consumed origin streams) program (fun _ => Consumed origin)
        fun _ => Consumed origin :=
    reads.imp (fun _ holds => holds.1 ▸ holds.2) fun _ _ consumed => consumed
  dsimp only
  split
  · exact whole ((reads_consume _).bind fun _ => reads_pure _)
  · split
    · exact whole ((reads_consume _).bind fun _ => reads_pure _)
    · intro _ holds
      exact ⟨List.nil_suffix, holds.2.inputEnd, holds.2.output, holds.2.writes, holds.2.bytesWritten⟩

end Reads

end Streams

namespace Machine

/-- Nothing has happened to the machine but that input was consumed and steps were counted. -/
structure Spared (before after : Machine) : Prop where
  store : after.store = before.store
  registers : after.registers = before.registers
  streams : Streams.Consumed before.streams after.streams

/-- If the program fails then nothing has happened. -/
def Spares {α : Type} (origin : Machine) (program : MachineM α) (after : α → Machine → Prop) : Prop :=
  Meets (Spared origin) program after fun _ => Spared origin

section Spares

variable {α β : Type} {origin : Machine} {after : α → Machine → Prop}

/-- A program that only looks hands over to the next one. -/
theorem Spares.bind {first : MachineM β} {rest : β → MachineM α}
    (looks : Spares origin first fun _ => Spared origin) (onward : ∀ result, Spares origin (rest result) after) :
    Spares origin (first >>= rest) after :=
  Meets.bind looks onward

theorem spares_pure (result : α) : Spares origin (pure result) fun _ => Spared origin :=
  meets_pure fun _ spared => spared

theorem spares_throw (reason : AbortReason) : Spares origin (throw reason : MachineM α) after :=
  meets_throw fun _ spared => spared

theorem spares_registersNow : Spares origin registersNow fun _ => Spared origin :=
  fun _ spared => spared

/-- As long as nothing has happened, the head is where it was. -/
theorem spares_head_bind {rest : CellId → MachineM α} (onward : Spares origin (rest origin.registers.head) after) :
    Spares origin (head >>= rest) after := by
  intro machine spared
  have outcome := onward machine spared
  rw [← spared.registers] at outcome
  exact outcome

theorem spares_onStore {program : StoreM α} {holds : α → Store → Prop} (atomic : origin.store.Atomic program holds) :
    Spares origin (onStore program) fun result machine => holds result machine.store ∧
      machine.registers = origin.registers ∧ origin.streams.Consumed machine.streams := by
  apply meets_onStore
  intro machine spared store same
  have outcome := atomic store (same.trans spared.store)
  cases ran : program store with
  | ok result reached =>
      rw [ran] at outcome
      exact ⟨outcome, spared.registers, spared.streams⟩
  | error fault reached =>
      rw [ran] at outcome
      exact ⟨outcome, spared.registers, spared.streams⟩

theorem spares_onStreams {program : StreamM α} (reads : Streams.Reads origin.streams program) :
    Spares origin (onStreams program) fun _ => Spared origin := by
  apply meets_onStreams
  intro machine spared streams same
  have outcome := reads streams (same ▸ spared.streams)
  cases ran : program streams with
  | ok result reached =>
      rw [ran] at outcome
      exact ⟨spared.store, spared.registers, outcome⟩
  | error message reached =>
      rw [ran] at outcome
      exact ⟨spared.store, spared.registers, outcome⟩

theorem spares_cell (id : CellId) : Spares origin (onStore (Store.cell id)) fun _ => Spared origin :=
  (spares_onStore (Store.atomic_cell origin.store id)).imp (fun _ spared => spared)
    fun _ _ holds => ⟨holds.1, holds.2.1, holds.2.2⟩

theorem spares_activeValue : Spares origin activeValue fun _ => Spared origin :=
  spares_head_bind ((spares_cell _).bind fun _ => spares_pure _)

theorem spares_resolve (operand : Operand) : Spares origin (resolve operand) fun _ => Spared origin := by
  match operand with
  | .constant value => exact spares_pure value
  | .register .accumulator => exact spares_registersNow.bind fun _ => spares_pure _
  | .register .active => exact spares_activeValue

/-- What comes after the one thing that can fail does not fail. -/
theorem Spares.last {first : MachineM β} {rest : β → MachineM α} {between : β → Machine → Prop}
    (spares : Spares origin first between)
    (onward : ∀ result machine, between result machine → ∃ value reached, rest result machine = .ok value reached) :
    Spares origin (first >>= rest) fun _ _ => True := by
  apply Meets.bind spares
  intro result machine holds
  obtain ⟨value, reached, ran⟩ := onward result machine holds
  rw [ran]
  trivial

/-- The head goes where an atomic program leads from it. -/
theorem spares_goTo {program : CellId → StoreM CellId}
    (atomic : ∀ id, origin.store.Atomic (program id) fun _ _ => True) :
    Spares origin (do
      setHead (← onStore (program (← head)))
      return Flow.okay) fun _ _ => True := by
  apply spares_head_bind
  apply (spares_onStore (atomic _)).last
  intro target machine _
  exact ⟨.okay, { machine with registers := { machine.registers with head := target } }, rfl⟩

/-- The cell under the head is written in one go. -/
theorem spares_write {program : CellId → StoreM Unit}
    (atomic : ∀ id, origin.store.Atomic (program id) fun _ _ => True) :
    Spares origin (do onStore (program (← head))) fun _ _ => True :=
  spares_head_bind ((spares_onStore (atomic _)).imp (fun _ spared => spared) fun _ _ _ => trivial)

/-- A cell that the head has come to can be asked whether it is a top. -/
theorem exists_run_arrive {target : CellId} {machine : Machine} (live : target ∈ machine.store.ids) :
    ∃ flow reached, (do
      setHead target
      return if ← onStore (Store.isTop target) then Flow.exit else Flow.okay : MachineM Flow) machine =
        .ok flow reached := by
  obtain ⟨top, ran⟩ := Store.exists_run_isTop live
  have asked : onStore (Store.isTop target)
      ({ machine with registers := { machine.registers with head := target } } : Machine) = .ok top _ :=
    run_onStore_ok ran
  exact ⟨if top then .exit else .okay, _, run_bind_ok asked⟩

variable (sound : origin.store.Sound)

include sound

theorem spares_move (direction : Move) : Spares origin (move direction) fun _ _ => True := by
  cases direction with
  | up =>
      apply spares_head_bind
      apply (spares_cell _).bind
      intro _
      have seen : Spares origin (get : MachineM Machine) fun seen machine => seen = machine ∧ Spared origin machine :=
        fun _ spared => ⟨rfl, spared⟩
      apply seen.last
      intro seen machine holds
      obtain ⟨same, _⟩ := holds
      subst same
      cases found : seen.store.parent? origin.registers.head with
      | none => exact ⟨.exit, seen, rfl⟩
      | some parent =>
          exact exists_run_arrive (Store.mem_ids_of_mem_nodes (Store.mem_nodes_of_parent? found).1)
  | down =>
      apply spares_activeValue.bind
      intro value
      have onward := spares_goTo (Store.atomic_child sound)
      split
      · exact (spares_throw _).bind fun _ => onward
      · exact onward
  | previous => exact spares_goTo fun id => (Store.needsParent_prev sound id).atomic sound
  | next => exact spares_goTo fun id => (Store.needsParent_next sound id).atomic sound
  | back count =>
      apply (spares_resolve count).bind
      intro value
      exact spares_goTo fun id => (Store.needsParent_shiftBack sound id value).atomic sound
  | forward count =>
      apply (spares_resolve count).bind
      intro value
      exact spares_goTo fun id => (Store.needsParent_shiftForward sound id value).atomic sound
  | restart =>
      have restarts := spares_goTo fun id => (Store.needsParent_restart sound id).atomic sound
      simp only [onStore_bind, bind_assoc] at restarts
      exact restarts
  | rotate =>
      have atomic := (Store.needsParent_makeFirst sound origin.registers.head).atomic sound
      exact spares_head_bind ((spares_onStore atomic).last fun _ machine _ => ⟨.okay, machine, rfl⟩)

theorem spares_edit (change : Edit) : Spares origin (edit change) fun _ _ => True := by
  apply spares_head_bind
  apply Spares.last
  · apply spares_onStore
    cases change with
    | insertBefore => exact (Store.needsParent_insertBefore sound _ 0).atomic sound
    | insertAfter => exact (Store.needsParent_insertAfter sound _ 0).atomic sound
    | deleteBefore => exact (Store.needsParent_deleteAlong sound _ Store.strides_prev (Or.inr rfl)).atomic sound
    | deleteAfter => exact (Store.needsParent_deleteAlong sound _ Store.strides_next (Or.inl rfl)).atomic sound
  · intro target machine holds
    exact exists_run_arrive holds.1

theorem spares_input (format : Format) : Spares origin (input format) fun _ _ => True := by
  cases format with
  | byte =>
      apply (spares_onStreams Streams.reads_readByte).bind
      exact fun byte => spares_write fun id => Store.atomic_setValue sound id _
  | number =>
      apply (spares_onStreams Streams.reads_readNumber).bind
      exact fun value => spares_write fun id => Store.atomic_setValue sound id value
  | line =>
      apply (spares_onStreams Streams.reads_readLine).bind
      exact fun line => spares_write fun id => Store.atomic_copyFrom sound id _ _

theorem spares_output (format : Format) : Spares origin (output format) fun _ _ => True := by
  apply spares_activeValue.bind
  intro value
  cases format with
  | byte =>
      dsimp only
      split
      · exact fun _ _ => trivial
      · exact spares_throw _
  | number => exact fun _ _ => trivial
  | line =>
      dsimp only
      split
      · apply spares_head_bind
        have values := (spares_onStore (Store.atomic_values sound origin.registers.head value.toInt.toNat)).last
          fun values machine _ => ⟨(), _, (rfl : onStreams (Streams.write (values.map Num.lowByte)) machine = _)⟩
        rw [onStore_bind, bind_assoc] at values
        exact values
      · exact fun _ _ => trivial

/-- Every operation fails before it changes anything, or not at all. -/
theorem spares_perform (op : Op) : Spares origin (perform op) fun _ _ => True := by
  cases op with
  | leave | increment | invert => exact fun _ _ => trivial
  | decrement =>
      apply spares_registersNow.bind
      intro registers
      dsimp only
      split
      · exact (spares_throw _).bind fun _ _ _ => trivial
      · exact fun _ _ => trivial
  | setAccumulator operand | setCondition operand => exact (spares_resolve operand).bind fun _ _ _ => trivial
  | connect connective operand | compare comparison operand =>
      exact (spares_resolve operand).bind fun _ => spares_registersNow.bind fun _ _ _ => trivial
  | arithmetic operation operand =>
      apply (spares_resolve operand).bind
      intro value
      apply spares_registersNow.bind
      intro registers
      cases operation.apply registers.accumulator value with
      | ok result => exact fun _ _ => trivial
      | error reason => exact spares_throw reason
  | setValue operand =>
      apply (spares_resolve operand).bind
      intro value
      exact spares_head_bind ((spares_onStore (Store.atomic_setValue sound _ value)).last fun _ machine _ =>
        ⟨.okay, machine, rfl⟩)
  | setMemory literal =>
      exact spares_head_bind ((spares_onStore (Store.atomic_copyFrom sound _ literal.store literal.root)).last
        fun _ machine _ => ⟨.okay, machine, rfl⟩)
  | move direction => exact spares_move sound direction
  | edit change => exact spares_edit sound change
  | input format => exact (spares_input sound format).last fun _ machine _ => ⟨.okay, machine, rfl⟩
  | output format => exact (spares_output sound format).last fun _ machine _ => ⟨.okay, machine, rfl⟩

end Spares

end Machine

/-- An instruction that aborts, for whatever reason, has done nothing but count as a step and consume input. -/
theorem Instruction.spared_of_abort {limit : Option Nat} {single : Instruction} {machine after : Machine}
    {cause : Abort} (sound : machine.store.Sound) (aborted : single.visit limit machine = (.abort cause, after)) :
    machine.Spared after ∧ after.steps = machine.steps + 1 := by
  have counted : machine.Spared { machine with steps := machine.steps + 1 } :=
    ⟨rfl, rfl, Streams.Consumed.refl machine.streams⟩
  have spared := Machine.spares_perform sound single.op { machine with steps := machine.steps + 1 } counted
  have untimed := Machine.untimed_perform single.op (machine.steps + 1) { machine with steps := machine.steps + 1 } rfl
  unfold visit at aborted
  dsimp only at aborted
  split at aborted
  · cases aborted
    exact ⟨counted, rfl⟩
  split at aborted
  · cases ran : Machine.perform single.op { machine with steps := machine.steps + 1 } with
    | ok flow reached =>
        rw [ran] at aborted
        cases aborted
    | error reason reached =>
        rw [ran] at aborted spared untimed
        cases aborted
        exact ⟨spared, untimed.1⟩
  · cases aborted

/--
An instruction that aborts leaves the registers, the whole memory with its free slots, the output and the
counts of what was written as they were. It has counted as a step, and it may have consumed some of the input.
-/
theorem abort_spares_machine (limit : Option Nat) (single : Instruction) (machine after : Machine) (cause : Abort)
    (formed : machine.store.WellFormed) (aborted : single.visit limit machine = (.abort cause, after)) :
    after.registers = machine.registers ∧ after.store = machine.store ∧
      after.streams.output = machine.streams.output ∧
      after.streams.traffic.writes = machine.streams.traffic.writes ∧
      after.streams.traffic.bytesWritten = machine.streams.traffic.bytesWritten ∧
      after.streams.inputEnd = machine.streams.inputEnd ∧
      (∃ consumed, machine.streams.input = consumed ++ after.streams.input) ∧ after.steps = machine.steps + 1 := by
  have ⟨spared, counted⟩ := single.spared_of_abort ((Store.wellFormed_iff_sound _).mp formed) aborted
  obtain ⟨consumed, whole⟩ := spared.streams.input
  exact ⟨spared.registers, spared.store, spared.streams.output, spared.streams.writes, spared.streams.bytesWritten,
    spared.streams.inputEnd, ⟨consumed, whole.symm⟩, counted⟩

/-- The input breaks down in the middle of a line that was to go into the second of two cells. -/
def Machine.brokenLine : Machine :=
  ⟨(Store.empty.plantBytes [7, 8]).2, ⟨5, true, ⟨2⟩⟩, Streams.ofInput [72, 105] (.fail "gone"), 3⟩

theorem brokenLine_spared :
    let single : Instruction := ⟨.input .line, .whenTrue, ⟨1, 1⟩⟩
    let after := (single.visit (some 9) Machine.brokenLine).2
    (single.visit (some 9) Machine.brokenLine).1 = .abort ⟨.stream "gone", ⟨1, 1⟩⟩ ∧
      after.store = Machine.brokenLine.store ∧ after.streams.input = [] ∧ after.steps = 4 := by
  intro single after
  have formed : Machine.brokenLine.store.WellFormed :=
    (Store.wellFormed_iff_sound _).mpr (Store.sound_plantBytes Store.sound_empty _ (by decide))
  have aborted : single.visit (some 9) Machine.brokenLine = (.abort ⟨.stream "gone", ⟨1, 1⟩⟩, after) := rfl
  have ⟨_, kept, _, _, _, _, _, counted⟩ :=
    abort_spares_machine (some 9) single Machine.brokenLine after _ formed aborted
  exact ⟨rfl, kept, rfl, counted⟩

end RingTape
