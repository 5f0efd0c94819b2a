import Mathlib.Data.List.TakeWhile
import RingTape.Proofs.Operations
import RingTape.Proofs.Residence

/-!
What the machine keeps. As long as no member is added to a ring of the greatest size, every operation leaves
one sound tree with the head on one of its cells, and none fails for a slot without a cell.
-/

namespace RingTape

set_option autoImplicit false

namespace Streams

/-- Every stretch of the input without a line break is shorter than the bound. -/
def LinesBelow (bound : Nat) (streams : Streams) : Prop :=
  ∀ line, line <:+: streams.input → 0x0A ∉ line → line.length < bound

/-- Whatever the program does, the lines of the input stay shorter than the bound. -/
def Bounded {α : Type} (bound : Nat) (program : StreamM α) (holds : α → Prop) : Prop :=
  Meets (LinesBelow bound) program (fun result streams => streams.LinesBelow bound ∧ holds result)
    (fun _ => LinesBelow bound)

section Bounded

variable {α β : Type} {bound : Nat}

theorem linesBelow_of_length {streams : Streams} (short : streams.input.length < bound) :
    streams.LinesBelow bound :=
  fun _ part _ => Nat.lt_of_le_of_lt part.length_le short

theorem LinesBelow.later {streams reached : Streams} (short : streams.LinesBelow bound)
    (left : reached.input <:+ streams.input) : reached.LinesBelow bound :=
  fun line part => short line (part.trans left.isInfix)

theorem Bounded.bind {first : StreamM α} {rest : α → StreamM β} {between : α → Prop} {after : β → Prop}
    (bounded : Bounded bound first between)
    (onward : ∀ result, between result → Bounded bound (rest result) after) :
    Bounded bound (first >>= rest) after :=
  Meets.bind bounded fun result streams holds => onward result holds.2 streams holds.1

theorem bounded_pure {result : α} {holds : α → Prop} (fulfilled : holds result) :
    Bounded bound (pure result) holds :=
  fun _ short => ⟨short, fulfilled⟩

theorem bounded_countRead : Bounded bound countRead fun _ => True :=
  fun _ short => ⟨short, trivial⟩

theorem bounded_consume (count : Nat) : Bounded bound (consume count) fun _ => True := by
  intro streams short
  exact ⟨short.later (List.drop_suffix count streams.input), trivial⟩

theorem bounded_get : Bounded bound (get : StreamM Streams) (LinesBelow bound) :=
  fun _ short => ⟨short, short⟩

theorem bounded_look : Bounded bound look fun _ => True := by
  refine bounded_get.bind fun streams _ => ?_
  split
  · exact meets_throw fun _ short => short
  · exact bounded_pure trivial

theorem bounded_readByte : Bounded bound readByte fun _ => True := by
  refine bounded_countRead.bind fun _ _ => bounded_look.bind fun input _ => ?_
  split
  · exact (bounded_consume 1).bind fun _ _ => bounded_pure trivial
  · exact bounded_pure trivial

theorem bounded_readNumber : Bounded bound readNumber fun _ => True :=
  bounded_countRead.bind fun _ _ => bounded_get.bind fun _ _ => (bounded_consume _).bind fun _ _ =>
    bounded_look.bind fun _ _ => (bounded_consume _).bind fun _ _ => (bounded_consume _).bind fun _ _ =>
      bounded_look.bind fun _ _ => bounded_pure trivial

theorem bounded_readLine : Bounded bound readLine fun line => line.length < bound := by
  refine bounded_countRead.bind fun _ _ => bounded_get.bind fun streams short => ?_
  have line : (streams.input.takeWhile fun byte => byte ≠ 0x0A).length < bound := by
    apply short _ (List.takeWhile_prefix _).isInfix
    intro among
    simpa using List.mem_takeWhile_imp among
  dsimp only
  split
  · exact (bounded_consume _).bind fun _ _ => bounded_pure line
  · split
    · exact (bounded_consume _).bind fun _ _ => bounded_pure line
    · exact fun _ _ => short.later List.nil_suffix

theorem bounded_write (bytes : List UInt8) : Bounded bound (write bytes) fun _ => True :=
  fun _ short => ⟨short, trivial⟩

end Bounded

end Streams

/-- The tree is in its store, and nothing is wrong with the store. -/
structure CellTree.Intact (tree : CellTree) : Prop where
  formed : tree.store.WellFormed
  present : tree.store.contains tree.root = true

theorem CellTree.Intact.sound {tree : CellTree} (intact : tree.Intact) : tree.store.Sound :=
  (Store.wellFormed_iff_sound _).mp intact.formed

theorem CellTree.Intact.root_mem {tree : CellTree} (intact : tree.Intact) : tree.root ∈ tree.store.ids :=
  (Store.contains_iff _).mp intact.present

/-- If the operation writes a memory literal, the literal is intact. -/
def Op.Intact : Op → Prop
  | .setMemory literal => literal.Intact
  | _ => True

namespace Machine

/-- The memory is one sound tree. What is left of the input can be counted, so any line of it fits a ring. -/
structure Housed (root : CellId) (machine : Machine) : Prop where
  rooted : machine.store.Rooted root
  short : machine.streams.LinesBelow (2 ^ 63)

/-- The head, too, is on a cell of the tree. -/
structure Safe (root : CellId) (machine : Machine) : Prop extends machine.Housed root where
  head : machine.registers.head ∈ machine.store.ids

/-- A failure leaves the machine safe, and is not for want of a cell in a slot. -/
def Unharmed (root : CellId) (reason : AbortReason) (machine : Machine) : Prop :=
  machine.Safe root ∧ ∀ id, reason ≠ .memory (.stale id)

/-- A safe machine stays safe. -/
def Secures {α : Type} (root : CellId) (program : MachineM α) : Prop :=
  Meets (Safe root) program (fun _ => Safe root) (Unharmed root)

section Rules

variable {α β : Type} {root : CellId}

theorem Secures.bind {first : MachineM α} {rest : α → MachineM β} (secures : Secures root first)
    (onward : ∀ result, Secures root (rest result)) : Secures root (first >>= rest) :=
  Meets.bind secures onward

theorem secures_pure (result : α) : Secures root (pure result) :=
  meets_pure fun _ safe => safe

theorem secures_throw {reason : AbortReason} (other : ∀ id, reason ≠ .memory (.stale id)) :
    Secures root (throw reason : MachineM α) :=
  meets_throw fun _ safe => ⟨safe, other⟩

theorem secures_registersNow : Secures root registersNow :=
  fun _ safe => safe

theorem secures_setAccumulator (value : Num) : Secures root (setAccumulator value) :=
  fun _ safe => ⟨⟨safe.rooted, safe.short⟩, safe.head⟩

theorem secures_setCondition (value : Bool) : Secures root (setCondition value) :=
  fun _ safe => ⟨⟨safe.rooted, safe.short⟩, safe.head⟩

theorem meets_setHead (target : CellId) :
    Meets (fun machine => machine.Housed root ∧ target ∈ machine.store.ids) (setHead target)
      (fun _ machine => machine.Safe root ∧ target ∈ machine.store.ids) (Unharmed root) :=
  fun _ ⟨housed, live⟩ => ⟨⟨⟨housed.rooted, housed.short⟩, live⟩, live⟩

/-- Going on from the head, the program may rely on its being on a cell. -/
theorem secures_head_bind {rest : CellId → MachineM α}
    (onward : ∀ id, Meets (fun machine => machine.Safe root ∧ machine.registers.head = id) (rest id)
      (fun _ => Safe root) (Unharmed root)) : Secures root (head >>= rest) := by
  have reads : Meets (Safe root) head (fun id machine => machine.Safe root ∧ machine.registers.head = id)
      (Unharmed root) := fun _ safe => ⟨safe, rfl⟩
  exact reads.bind onward

theorem secures_onStreams {program : StreamM α} {holds : α → Prop}
    (bounded : Streams.Bounded (2 ^ 63) program holds) :
    Meets (Safe root) (onStreams program) (fun result machine => machine.Safe root ∧ holds result)
      (Unharmed root) := by
  apply meets_onStreams
  rintro machine safe _ rfl
  have outcome := bounded machine.streams safe.short
  cases ran : program machine.streams with
  | ok result streams =>
      rw [ran] at outcome
      exact ⟨⟨⟨safe.rooted, outcome.1⟩, safe.head⟩, outcome.2⟩
  | error message streams =>
      rw [ran] at outcome
      exact ⟨⟨⟨safe.rooted, outcome⟩, safe.head⟩, by simp⟩

/-- What a program on the store keeps there, it keeps in a safe machine; the registers are as before. -/
theorem meets_onStore_of_keeps {before : Machine → Prop} {program : StoreM α}
    {holds : Machine → α → Store → Prop} (safe : ∀ machine, before machine → machine.Safe root)
    (keeps : ∀ machine, before machine → machine.store.Keeps root program (holds machine)) :
    Meets before (onStore program)
      (fun result machine => machine.Housed root ∧ ∃ earlier, before earlier ∧
        machine.registers = earlier.registers ∧ holds earlier result machine.store) (Unharmed root) := by
  apply meets_onStore
  rintro machine begun _ rfl
  have isSafe := safe machine begun
  have outcome := keeps machine begun machine.store rfl
  cases ran : program machine.store with
  | ok result store =>
      rw [ran] at outcome
      exact ⟨⟨outcome.1, isSafe.short⟩, machine, begun, rfl, outcome.2⟩
  | error fault store =>
      rw [ran] at outcome
      refine ⟨⟨⟨outcome.1, isSafe.short⟩, outcome.2.1 isSafe.head⟩, ?_⟩
      intro id same
      exact outcome.2.2 id (AbortReason.memory.inj same)

theorem meets_find {program : StoreM α} {id : CellId} {cell : α → CellId}
    (keeps : ∀ store : Store, store.Rooted root → id ∈ store.ids →
      store.Keeps root program fun result => store.Finds (cell result)) :
    Meets (fun machine => machine.Safe root ∧ id ∈ machine.store.ids) (onStore program)
      (fun result machine => machine.Safe root ∧ cell result ∈ machine.store.ids) (Unharmed root) := by
  apply (meets_onStore_of_keeps (fun _ holds => holds.1)
    fun machine holds => keeps machine.store holds.1.rooted holds.2).imp (fun _ holds => holds)
  rintro result machine ⟨housed, earlier, ⟨safe, _⟩, same, found, grown⟩
  refine ⟨⟨housed, ?_⟩, found⟩
  rw [same]
  exact grown safe.head

theorem meets_read {program : StoreM α} {id : CellId}
    (keeps : ∀ store : Store, store.Rooted root → id ∈ store.ids →
      store.Keeps root program fun _ reached => store.ids ⊆ reached.ids) :
    Meets (fun machine => machine.Safe root ∧ id ∈ machine.store.ids) (onStore program)
      (fun _ machine => machine.Safe root ∧ id ∈ machine.store.ids) (Unharmed root) :=
  meets_find fun store rooted live => (keeps store rooted live).imp fun _ _ grown => ⟨grown live, grown⟩

theorem meets_stay {program : StoreM α} {id : CellId}
    (keeps : ∀ store : Store, store.Rooted root → id ∈ store.ids →
      store.Keeps root program fun _ reached => id ∈ reached.ids) :
    Meets (fun machine => machine.Safe root ∧ machine.registers.head = id) (onStore program)
      (fun _ => Safe root) (Unharmed root) := by
  have each : ∀ machine : Machine, machine.Safe root ∧ machine.registers.head = id →
      machine.store.Keeps root program fun _ reached => id ∈ reached.ids := by
    rintro machine ⟨safe, rfl⟩
    exact keeps machine.store safe.rooted safe.head
  apply (meets_onStore_of_keeps (fun _ holds => holds.1) each).imp (fun _ holds => holds)
  rintro _ machine ⟨housed, earlier, ⟨safe, there⟩, same, live⟩
  refine ⟨housed, ?_⟩
  rw [same, there]
  exact live

/-- A program that comes out at a cell takes the head there. -/
theorem meets_goTo {before : Machine → Prop} {program : StoreM CellId} {rest : CellId → MachineM α}
    (safe : ∀ machine, before machine → machine.Safe root)
    (keeps : ∀ machine, before machine →
      machine.store.Keeps root program fun target reached => target ∈ reached.ids)
    (onward : ∀ target, Meets (fun machine => machine.Safe root ∧ target ∈ machine.store.ids) (rest target)
      (fun _ => Safe root) (Unharmed root)) :
    Meets before (do
      let target ← onStore program
      setHead target
      rest target) (fun _ => Safe root) (Unharmed root) := by
  apply (meets_onStore_of_keeps safe keeps).bind
  intro target
  apply Meets.bind _ fun _ => onward target
  exact (meets_setHead target).imp (fun _ ⟨housed, _, _, _, live⟩ => ⟨housed, live⟩) fun _ _ holds => holds

theorem live_of_head {id : CellId} (machine : Machine) (holds : machine.Safe root ∧ machine.registers.head = id) :
    machine.Safe root ∧ id ∈ machine.store.ids := by
  obtain ⟨safe, rfl⟩ := holds
  exact ⟨safe, safe.head⟩

theorem secures_activeValue : Secures root activeValue := by
  apply secures_head_bind
  intro id
  apply ((meets_read fun _ rooted live => Store.keeps_cell rooted live).imp live_of_head fun _ _ holds => holds).bind
  exact fun _ => meets_pure fun _ holds => holds.1

theorem secures_resolve (operand : Operand) : Secures root (resolve operand) := by
  match operand with
  | .constant value => exact secures_pure value
  | .register .accumulator => exact secures_registersNow.bind fun _ => secures_pure _
  | .register .active => exact secures_activeValue

/-- The head goes where a program leads from it. -/
theorem secures_goTo {program : CellId → StoreM CellId}
    (keeps : ∀ (store : Store) id, store.Rooted root → id ∈ store.ids →
      store.Keeps root (program id) fun target reached => target ∈ reached.ids) :
    Secures root (do
      setHead (← onStore (program (← head)))
      return Flow.okay) := by
  apply secures_head_bind
  intro id
  apply meets_goTo (fun _ holds => holds.1)
  · rintro machine ⟨safe, rfl⟩
    exact keeps _ _ safe.rooted safe.head
  · exact fun _ => meets_pure fun _ holds => holds.1

theorem secures_move (direction : Move) : Secures root (move direction) := by
  cases direction with
  | up =>
      apply secures_head_bind
      intro id
      apply ((meets_read fun _ rooted live => Store.keeps_cell rooted live).imp live_of_head
        fun _ _ holds => holds).bind
      intro _
      have reads : Meets (fun machine : Machine => machine.Safe root ∧ id ∈ machine.store.ids)
          (get : MachineM Machine)
          (fun seen machine => machine.Safe root ∧ seen = machine) (Unharmed root) :=
        fun _ holds => ⟨holds.1, rfl⟩
      apply reads.bind
      intro seen
      cases found : seen.store.parent? id with
      | none => exact meets_pure fun _ holds => holds.1
      | some parent =>
          have above (machine : Machine) (holds : machine.Safe root ∧ seen = machine) :
              machine.Housed root ∧ parent.id ∈ machine.store.ids := by
            obtain ⟨safe, rfl⟩ := holds
            exact ⟨safe.toHoused, Store.mem_ids_of_mem_nodes (Store.mem_nodes_of_parent? found).1⟩
          apply ((meets_setHead parent.id).imp above fun _ _ holds => holds).bind
          intro _
          apply (meets_read fun _ rooted live => Store.keeps_isTop rooted live).bind
          exact fun _ => meets_pure fun _ holds => holds.1
  | down =>
      refine secures_activeValue.bind fun value => ?_
      have onward : Secures root (do
          setHead (← onStore (Store.child (← head)))
          return Flow.okay) :=
        secures_goTo fun _ _ rooted live => (Store.keeps_child rooted live).imp fun _ _ found => found.1
      split
      · exact (secures_throw (by simp)).bind fun _ => onward
      · exact onward
  | previous => exact secures_goTo fun _ _ rooted live => (Store.keeps_prev rooted live).imp fun _ _ found => found.1
  | next => exact secures_goTo fun _ _ rooted live => (Store.keeps_next rooted live).imp fun _ _ found => found.1
  | back count =>
      exact (secures_resolve count).bind fun value => secures_goTo fun _ _ rooted live =>
        (Store.keeps_shiftBack rooted live value).imp fun _ _ found => found.1
  | forward count =>
      exact (secures_resolve count).bind fun value => secures_goTo fun _ _ rooted live =>
        (Store.keeps_shiftForward rooted live value).imp fun _ _ found => found.1
  | restart =>
      apply secures_head_bind
      intro id
      apply ((meets_find fun _ rooted live => Store.keeps_parentOf rooted live).imp live_of_head
        fun _ _ holds => holds).bind
      intro parent
      apply meets_goTo (fun _ holds => holds.1)
      · intro machine holds
        exact (Store.keeps_child holds.1.rooted holds.2).imp fun _ _ found => found.1
      · exact fun _ => meets_pure fun _ holds => holds.1
  | rotate =>
      apply secures_head_bind
      intro id
      apply (meets_stay fun _ rooted live => Store.keeps_makeFirst rooted live).bind
      exact fun _ => secures_pure _

/-- An edit is safe if it does not add to a ring of the greatest size. -/
def hasRoom (machine : Machine) : Op → Bool
  | .edit .insertBefore => Operation.countable (machine.store.parent? machine.registers.head)
  | .edit .insertAfter => Operation.countable (machine.store.parent? machine.registers.head)
  | _ => true

theorem meets_edit (change : Edit) :
    Meets (fun machine => machine.Safe root ∧ machine.hasRoom (.edit change)) (edit change) (fun _ => Safe root)
      (Unharmed root) := by
  have reads : Meets (fun machine : Machine => machine.Safe root ∧ machine.hasRoom (.edit change)) head
      (fun id machine => machine.Safe root ∧ machine.hasRoom (.edit change) ∧ machine.registers.head = id)
      (Unharmed root) := fun _ holds => ⟨holds.1, holds.2, rfl⟩
  apply reads.bind
  intro id
  apply meets_goTo (fun _ holds => holds.1)
  · rintro machine ⟨safe, roomy, rfl⟩
    cases change with
    | insertBefore =>
        exact (Store.keeps_insertBefore safe.rooted safe.head 0 (Operation.room_of_countable roomy)).imp
          fun _ _ found => found.1
    | insertAfter =>
        exact (Store.keeps_insertAfter safe.rooted safe.head 0 (Operation.room_of_countable roomy)).imp
          fun _ _ found => found.1
    | deleteBefore => exact Store.keeps_deleteAlong safe.rooted safe.head Store.strides_prev (Or.inr rfl)
    | deleteAfter => exact Store.keeps_deleteAlong safe.rooted safe.head Store.strides_next (Or.inl rfl)
  · intro target
    apply (meets_read fun _ rooted live => Store.keeps_isTop rooted live).bind
    exact fun _ => meets_pure fun _ holds => holds.1

/-- A change of the head's own cell leaves the head on it. -/
theorem secures_atHead {program : CellId → StoreM α}
    (keeps : ∀ (store : Store) id, store.Rooted root → id ∈ store.ids →
      store.Keeps root (program id) fun _ reached => id ∈ reached.ids) :
    Secures root (do onStore (program (← head))) := by
  apply secures_head_bind
  intro id
  exact meets_stay fun store rooted live => keeps store id rooted live

theorem secures_setValue (value : Num) : Secures root (do onStore (Store.setValue (← head) value)) :=
  secures_atHead fun _ _ rooted live => Store.keeps_setValue rooted live value

theorem secures_copyFrom {tree : CellTree} (sound : tree.store.Sound) (present : tree.root ∈ tree.store.ids) :
    Secures root (do onStore (Store.copyFrom (← head) tree.store tree.root)) :=
  secures_atHead fun _ _ rooted live => Store.keeps_copyFrom rooted live sound present

theorem secures_input (format : Format) : Secures root (input format) := by
  cases format with
  | byte =>
      apply (secures_onStreams Streams.bounded_readByte).bind
      exact fun byte => (secures_setValue _).imp (fun _ holds => holds.1) fun _ _ safe => safe
  | number =>
      apply (secures_onStreams Streams.bounded_readNumber).bind
      exact fun value => (secures_setValue value).imp (fun _ holds => holds.1) fun _ _ safe => safe
  | line =>
      apply (secures_onStreams Streams.bounded_readLine).bind
      rintro line machine ⟨safe, short⟩
      have rooted := Store.rooted_plantBytes line short
      exact secures_copyFrom rooted.sound rooted.root_mem machine safe

theorem secures_write (bytes : List UInt8) : Secures root (onStreams (Streams.write bytes)) :=
  (secures_onStreams (Streams.bounded_write bytes)).imp (fun _ safe => safe) fun _ _ holds => holds.1

theorem secures_output (format : Format) : Secures root (output format) := by
  refine secures_activeValue.bind fun value => ?_
  cases format with
  | byte =>
      dsimp only
      split
      · exact secures_write _
      · exact secures_throw (by simp)
  | number => exact secures_write _
  | line =>
      dsimp only
      split
      · apply secures_head_bind
        intro id
        apply ((meets_find fun _ rooted live => Store.keeps_child rooted live).imp live_of_head
          fun _ _ holds => holds).bind
        intro first
        apply (meets_read fun _ rooted live => Store.keeps_valuesFrom rooted _ live).bind
        exact fun values => (secures_write _).imp (fun _ holds => holds.1) fun _ _ safe => safe
      · exact secures_pure _

/-- Every operation is safe that does not add to a ring of the greatest size. -/
theorem meets_perform (op : Op) (intact : op.Intact) :
    Meets (fun machine => machine.Safe root ∧ machine.hasRoom op) (perform op) (fun _ => Safe root)
      (Unharmed root) := by
  have always {program : MachineM Flow} (secures : Secures root program) :
      Meets (fun machine => machine.Safe root ∧ machine.hasRoom op) program (fun _ => Safe root)
        (Unharmed root) := secures.imp (fun _ holds => holds.1) fun _ _ safe => safe
  cases op with
  | edit change => exact meets_edit change
  | leave => exact always (secures_pure _)
  | increment =>
      exact always (secures_registersNow.bind fun _ => (secures_setAccumulator _).bind fun _ => secures_pure _)
  | decrement =>
      refine always (secures_registersNow.bind fun registers => ?_)
      dsimp only
      split
      · exact (secures_throw (by simp)).bind fun _ => (secures_setAccumulator _).bind fun _ => secures_pure _
      · exact (secures_setAccumulator _).bind fun _ => secures_pure _
  | invert =>
      exact always (secures_registersNow.bind fun _ => (secures_setCondition _).bind fun _ => secures_pure _)
  | setAccumulator operand =>
      exact always ((secures_resolve operand).bind fun _ => (secures_setAccumulator _).bind fun _ => secures_pure _)
  | setCondition operand =>
      exact always ((secures_resolve operand).bind fun _ => (secures_setCondition _).bind fun _ => secures_pure _)
  | setValue operand =>
      refine always ((secures_resolve operand).bind fun value => ?_)
      apply secures_head_bind
      intro id
      apply (meets_stay fun _ rooted live => Store.keeps_setValue rooted live value).bind
      exact fun _ => secures_pure _
  | setMemory literal =>
      apply always
      apply secures_head_bind
      intro id
      apply (meets_stay fun _ rooted live => Store.keeps_copyFrom rooted live intact.sound intact.root_mem).bind
      exact fun _ => secures_pure _
  | arithmetic operation operand =>
      refine always ((secures_resolve operand).bind fun value => secures_registersNow.bind fun registers => ?_)
      cases outcome : operation.apply registers.accumulator value with
      | ok result => exact (secures_setAccumulator _).bind fun _ => secures_pure _
      | error reason =>
          apply secures_throw
          rcases Arithmetic.error_cases outcome with ⟨_, _, rfl⟩ | ⟨_, rfl⟩ | ⟨_, rfl⟩ <;> simp
  | connect connective operand | compare comparison operand =>
      exact always ((secures_resolve operand).bind fun _ => secures_registersNow.bind fun _ =>
        (secures_setCondition _).bind fun _ => secures_pure _)
  | move direction => exact always (secures_move direction)
  | input format => exact always ((secures_input format).bind fun _ => secures_pure _)
  | output format => exact always ((secures_output format).bind fun _ => secures_pure _)

end Rules

end Machine

end RingTape
