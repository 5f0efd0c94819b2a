import RingTape.Proofs.Clamping
import RingTape.Proofs.Constants
import RingTape.Proofs.DeepCopy
import RingTape.Proofs.Eager

/-!
Lines of bytes. A line that is read becomes a complete ring with a cell for each byte. A ring that is written gives a
byte for each child, whether the child is materialised or not; the ring is complete then, which shows nowhere. So what
was read is written again, and what was written is read again if no line feed is in it.
-/

namespace RingTape

set_option autoImplicit false

namespace Num

/-- The low eight bits of two's complement are the residue modulo 256. -/
theorem toNat_lowByte (value : Num) : (value.lowByte.toNat : Int) = value.toInt % 256 := by
  have residue : value.lowByte.toNat = value.toUInt64.toNat % 256 := by
    rw [lowByte, UInt64.toNat_toUInt8]
  have signed : value.toInt = (value.toUInt64.toNat : Int).bmod (2 ^ 64) :=
    value.toBitVec.toInt_eq_toNat_bmod
  rw [residue, signed, Int.bmod]
  omega

theorem lowByte_ofByte (byte : UInt8) : (ofByte byte).lowByte = byte := by
  have small := byte.toNat_lt
  have same := toNat_lowByte (ofByte byte)
  rw [ofByte, Int64.toInt_ofNat_of_lt (by omega)] at same
  apply UInt8.toNat_inj.mp
  rw [ofByte]
  omega

end Num

namespace Cell

/-- The low bytes of all children, from the anchor on. -/
def lowBytes (cell : Cell) : List UInt8 :=
  (cell.content.children.map Content.value).map Num.lowByte

theorem length_lowBytes {cell : Cell} (fits : cell.Fits) : cell.lowBytes.length = cell.value.places := by
  rw [lowBytes, List.length_map, List.length_map, length_children fits]

/-- A child that is not materialised has the value 0. -/
theorem value_of_child {cell : Cell} {index : Nat} {child : Content}
    (there : cell.content.children[index]? = some child) :
    child.value = ((cell.child? index).map Cell.value).getD 0 := by
  rw [content_eq, Content.children, seats, List.map_map, List.getElem?_map] at there
  obtain ⟨occupant, seated, same⟩ := Option.map_eq_some_iff.mp there
  rw [child?, seated, ← same]
  cases occupant with
  | none => rfl
  | some member =>
      change member.content.value = member.value
      rw [content_eq]
      rfl

theorem toNat_lowBytes {cell : Cell} {index : Nat} (inside : index < cell.lowBytes.length) :
    (cell.lowBytes[index].toNat : Int) = (((cell.child? index).map Cell.value).getD 0).toInt % 256 := by
  have bound : index < cell.content.children.length := by
    simpa [lowBytes] using inside
  have valued := value_of_child (List.getElem?_eq_getElem bound)
  simp only [lowBytes, List.getElem_map]
  rw [Num.toNat_lowByte, valued]

end Cell

namespace Snapshot

/-- The members of a complete ring of leaves have the values it is made of. -/
theorem values_ringOf {values : List Num} (short : values.length < 2 ^ 63) :
    (ringOf values).content.children.map Content.value = values := by
  have complete : Num.places (Int64.ofNat values.length) - values.length = 0 := by
    rw [Num.places, Int64.toInt_ofNat_of_lt short]
    omega
  have valued (value : Num) : (leaf value).content.value = value := by
    rw [leaf, content]
    rfl
  rw [ringOf, content, contents_eq, Content.children]
  simp [complete, contents, Function.comp_def, valued]

end Snapshot

/-- The cells made from bytes have them as their low bytes. -/
theorem Cell.lowBytes_of_ringOf {cell : Cell} {bytes : List UInt8} (short : bytes.length < 2 ^ 63)
    (shape : cell.snapshot = Snapshot.ringOf (bytes.map Num.ofByte)) : cell.lowBytes = bytes := by
  have few : (bytes.map Num.ofByte).length < 2 ^ 63 := by
    rw [List.length_map]
    exact short
  rw [lowBytes, ← content_snapshot, shape, Snapshot.values_ringOf few, List.map_map]
  simp [Function.comp_def, Num.lowByte_ofByte]

namespace Streams

/-- The bytes that the input has before a line feed or before its end, what is taken with them and what is left. -/
inductive Offers (streams : Streams) (line : List UInt8) : List UInt8 → List UInt8 → Prop where
  | broken (rest : List UInt8) (unread : line ++ 0x0A :: rest = streams.input) :
      Offers streams line (line ++ [0x0A]) rest
  | last (ends : streams.inputEnd = .stop) (unread : line = streams.input) : Offers streams line line []

theorem run_readLine_of_offers {streams : Streams} {line taken rest : List UInt8}
    (offers : streams.Offers line taken rest) (unbroken : 0x0A ∉ line) :
    readLine streams = .ok line (streams.booked [.line] taken rest) := by
  cases offers with
  | broken rest unread => exact run_readLine_of_break unread unbroken
  | last ends unread =>
      subst unread
      exact run_readLine_of_unbroken ends unbroken

theorem exists_offers {streams : Streams} (ends : streams.inputEnd = .stop) :
    ∃ line taken rest, 0x0A ∉ line ∧ streams.Offers line taken rest := by
  by_cases broken : 0x0A ∈ streams.input
  · obtain ⟨line, rest, split, unbroken⟩ := List.eq_append_cons_of_mem broken
    exact ⟨line, _, rest, unbroken, .broken rest split.symm⟩
  · exact ⟨streams.input, _, _, broken, .last ends rfl⟩

end Streams

namespace Store

/-- A cell holds just the bytes of a line: a complete ring of them, or nothing if there are none. -/
structure HoldsLine (store : Store) (id : CellId) (line : List UInt8) : Prop where
  shape : store.snapshot? id = some (Snapshot.ringOf (line.map Num.ofByte))
  ring : ∃ cell, store.cell? id = some cell ∧ cell.value.toInt = line.length ∧ cell.instantiated = line.length ∧
    cell.isClosed = !line.isEmpty

theorem holdsLine_of_shape {store : Store} {id : CellId} {line : List UInt8} (short : line.length < 2 ^ 63)
    (shape : store.snapshot? id = some (Snapshot.ringOf (line.map Num.ofByte))) : store.HoldsLine id line := by
  obtain ⟨cell, found, shown⟩ := Option.map_eq_some_iff.mp shape
  have ring : cell.snapshot = Snapshot.ringOfShapes ((line.map Num.ofByte).map Snapshot.leaf) := by
    rw [shown]
    simp [Snapshot.ringOf, Snapshot.ringOfShapes]
  have lengths : ((line.map Num.ofByte).map Snapshot.leaf).length = line.length := by simp
  have valued := Cell.toInt_value_of_shapes ring (by rw [lengths]; exact short)
  have sized := Cell.size_of_shapes ring (by rw [lengths]; exact short)
  obtain ⟨_, behind, _⟩ := Cell.of_snapshot_ringOfShapes ring
  rw [lengths] at valued
  have number : cell.ring.forward.length = line.length := by
    rw [Ring.size, behind, List.length_nil, Num.places, valued] at sized
    simpa using sized
  refine ⟨shape, cell, found, valued, ?_, ?_⟩
  · rw [Cell.instantiated, Ring.size, behind, number]
    rfl
  · have full : cell.ring.isFull cell.value = true := by
      simp [Ring.isFull, Ring.size, behind, number, valued]
    have bare : cell.ring.forward.isEmpty = line.isEmpty := by
      rw [Bool.eq_iff_iff, List.isEmpty_iff_length_eq_zero, List.isEmpty_iff_length_eq_zero, number]
    rw [Cell.isClosed, Ring.isClosed, full, Bool.and_true, bare]

/-- All children of a cell have been materialised, and nothing else has happened. -/
structure Completes (before after : Store) (id : CellId) (cell : Cell) : Prop where
  formed : after.WellFormed
  contents : ∀ other, before.contains other = true → after.content? other = before.content? other
  ring : ∃ complete, after.cell? id = some complete ∧ complete.value = cell.value ∧ complete.isClosed = true ∧
    (complete.instantiated : Int) = cell.value.toInt

theorem completes_of_grown {store : Store} (sound : store.Sound) {host : Cell} (inside : host ∈ store.nodes)
    (several : 0 < host.value.places) {ring : Ring Cell} {pool : Pool} (grown : host.Grown ring store.pool pool)
    (size : ring.size = host.value.places) :
    store.Completes (store.replace host.id host.value ring pool) host.id host := by
  have unfolds := unfolds_of_grown sound inside grown
  have found := cell?_replace sound.distinct inside (sound.grow inside grown).distinct
  refine ⟨unfolds.wellFormed, unfolds.contents, _, found, Cell.value_withRing .., ?_, ?_⟩
  · rw [Cell.isClosed, Cell.value_withRing, Cell.ring_withRing]
    exact (Ring.isClosed_iff grown.fits (by omega)).mpr size
  · rw [Cell.instantiated, Cell.ring_withRing, size]
    unfold Num.places at several ⊢
    omega

end Store

namespace Machine

theorem exists_run_input_line {machine : Machine} (formed : machine.store.WellFormed)
    (live : machine.store.contains machine.registers.head = true) {line : List UInt8} (short : line.length < 2 ^ 63)
    {reached : Streams} (read : Streams.readLine machine.streams = .ok line reached) :
    ∃ store, perform (.input .line) machine = .ok .okay { machine with store := store, streams := reached } ∧
      store.WellFormed ∧ store.HoldsLine machine.registers.head line ∧
      machine.store.Assigns store machine.registers.head (· ∈ machine.store.below machine.registers.head) := by
  have sound := (Store.wellFormed_iff_sound _).mp formed
  have rooted := CellTree.rooted_ofBytes short
  have present := (Store.contains_iff _).mpr rooted.root_mem
  obtain ⟨store, ran, copied⟩ := Store.copied_copyFrom sound live rooted.sound present
  have shape : store.snapshot? machine.registers.head = some (Snapshot.ringOf (line.map Num.ofByte)) := by
    obtain ⟨root, found⟩ := Option.isSome_iff_exists.mp present
    have shown := CellTree.snapshot_ofBytes line
    rw [CellTree.snapshot, CellTree.cell?, found] at shown
    rw [copied.shape, Store.snapshot?, found, Option.map_some]
    exact congrArg some shown
  have assigns := Store.assigns_copyFrom sound machine.registers.head (CellTree.ofBytes line).store
    (CellTree.ofBytes line).root
  rw [Store.leave_of_ok ran] at assigns
  refine ⟨store, ?_, copied.formed, Store.holdsLine_of_shape short shape,
    assigns.mono fun _ _ freed => freed.2⟩
  have stored : input .line machine = .ok () { machine with store := store, streams := reached } := by
    rw [input, run_bind_ok (run_onStreams_ok read), run_bind_ok (run_head _)]
    exact run_onStore_ok ran
  rw [perform, run_bind_ok stored]
  rfl

theorem exists_run_output_line {machine : Machine} (formed : machine.store.WellFormed) {cell : Cell}
    (found : machine.store.cell? machine.registers.head = some cell) (positive : 0 < cell.value) :
    ∃ store,
      perform (.output .line) machine = .ok .okay
          { machine with
            store := store
            streams := machine.streams.booked [.write cell.lowBytes] [] machine.streams.input } ∧
        machine.store.Completes store machine.registers.head cell := by
  have sound := (Store.wellFormed_iff_sound _).mp formed
  obtain ⟨inside, same⟩ := Store.mem_nodes_of_cell? found
  have several : 0 < cell.value.places := by
    rw [Int64.lt_iff_toInt_lt, Int64.toInt_zero] at positive
    unfold Num.places
    omega
  obtain ⟨ring, pool, read, grown, size⟩ := Store.run_values sound inside several
  rw [same] at read
  have wrote : output .line machine = .ok ()
      { machine with
        store := machine.store.replace machine.registers.head cell.value ring pool
        streams := machine.streams.booked [.write cell.lowBytes] [] machine.streams.input } := by
    have written : (do
        let values ← onStore (Store.child machine.registers.head >>= Store.valuesFrom cell.value.places)
        onStreams (Streams.write (values.map Num.lowByte)) : MachineM Unit) machine = .ok ()
          { machine with
            store := machine.store.replace machine.registers.head cell.value ring pool
            streams := machine.streams.booked [.write cell.lowBytes] [] machine.streams.input } := by
      rw [run_bind_ok (run_onStore_ok read)]
      exact run_onStreams_ok (Streams.run_write _ _)
    simp only [onStore_bind, bind_assoc] at written
    rw [output, run_bind_ok (run_activeValue_of_some found)]
    simp only [if_pos positive]
    rw [run_bind_ok (run_head machine)]
    exact written
  refine ⟨_, ?_, same ▸ Store.completes_of_grown sound inside several grown size⟩
  rw [perform, run_bind_ok wrote]
  rfl

theorem run_output_line_barren {machine : Machine} {cell : Cell}
    (found : machine.store.cell? machine.registers.head = some cell) (barren : ¬ 0 < cell.value) :
    perform (.output .line) machine = .ok .okay machine := by
  have nothing : output .line machine = .ok () machine := by
    rw [output, run_bind_ok (run_activeValue_of_some found)]
    simp only [if_neg barren]
    rfl
  rw [perform, run_bind_ok nothing]
  rfl

/-- A line that a cell holds is written as it is. -/
theorem exists_run_output_held (machine : Machine) (formed : machine.store.WellFormed) {line : List UInt8}
    (short : line.length < 2 ^ 63) (holds : machine.store.HoldsLine machine.registers.head line) :
    ∃ store written,
      perform (.output .line) machine = .ok .okay { machine with store := store, streams := written } ∧
        written.input = machine.streams.input ∧ written.output = machine.streams.output ++ line := by
  obtain ⟨cell, found, valued, _, _⟩ := holds.ring
  have shape := holds.shape
  rw [Store.snapshot?, found, Option.map_some, Option.some.injEq] at shape
  by_cases positive : 0 < cell.value
  · obtain ⟨store, wrote, _⟩ := exists_run_output_line formed found positive
    refine ⟨store, _, wrote, rfl, ?_⟩
    rw [Cell.lowBytes_of_ringOf short shape]
    simp [Streams.booked, Streams.slices, Streams.Call.slice?]
  · have empty : line = [] := by
      rw [Int64.lt_iff_toInt_lt, Int64.toInt_zero, valued] at positive
      exact List.eq_nil_of_length_eq_zero (by omega)
    refine ⟨machine.store, machine.streams, run_output_line_barren found positive, rfl, ?_⟩
    simp [empty]

/--
Lines are read and written byte for byte. The next line of the input replaces what the cell under the head holds, and is
written as it was read. A cell of positive value writes a byte for each child, the low one of its value, and has a
complete ring then, while every cell shows what it showed; if no line feed is among these bytes, they are read back.
-/
theorem lines_are_byte_exact :
    (∀ streams : Streams, streams.inputEnd = .stop →
      ∃ line taken rest, 0x0A ∉ line ∧ streams.Offers line taken rest) ∧
    (∀ (machine : Machine) (line taken rest : List UInt8), machine.store.WellFormed →
      machine.store.contains machine.registers.head = true → machine.streams.Offers line taken rest →
      0x0A ∉ line → line.length < 2 ^ 63 →
      ∃ store again written,
        perform (.input .line) machine = .ok .okay
            { machine with store := store, streams := machine.streams.booked [.line] taken rest } ∧
          store.WellFormed ∧ store.HoldsLine machine.registers.head line ∧
          machine.store.Assigns store machine.registers.head (· ∈ machine.store.below machine.registers.head) ∧
          perform (.output .line)
              { machine with store := store, streams := machine.streams.booked [.line] taken rest } =
            .ok .okay { machine with store := again, streams := written } ∧
          written.input = rest ∧ written.output = machine.streams.output ++ line) ∧
    ∀ (machine : Machine) (cell : Cell), machine.store.WellFormed →
      machine.store.cell? machine.registers.head = some cell → 0 < cell.value →
      ∃ bytes store,
        perform (.output .line) machine = .ok .okay
            { machine with
              store := store
              streams := machine.streams.booked [.write bytes] [] machine.streams.input } ∧
          (bytes.length : Int) = cell.value.toInt ∧
          (∀ (index : Nat) (inside : index < bytes.length),
            (bytes[index].toNat : Int) = (((cell.child? index).map Cell.value).getD 0).toInt % 256) ∧
          machine.store.Completes store machine.registers.head cell ∧
          (0x0A ∉ bytes → ∀ (reader : Machine) (taken rest : List UInt8), reader.store.WellFormed →
            reader.store.contains reader.registers.head = true → reader.streams.Offers bytes taken rest →
            ∃ held,
              perform (.input .line) reader = .ok .okay
                  { reader with store := held, streams := reader.streams.booked [.line] taken rest } ∧
                held.HoldsLine reader.registers.head bytes) := by
  refine ⟨fun _ ends => Streams.exists_offers ends, ?_, ?_⟩
  · intro machine line taken rest formed live offers unbroken short
    obtain ⟨store, read, after, holds, assigns⟩ :=
      exists_run_input_line formed live short (Streams.run_readLine_of_offers offers unbroken)
    obtain ⟨again, written, wrote, unread, output⟩ := exists_run_output_held
      { machine with store := store, streams := machine.streams.booked [.line] taken rest } after short holds
    have silent : (machine.streams.booked [.line] taken rest).output = machine.streams.output := by
      simp [Streams.booked, show Streams.slices [.line] = [] from rfl]
    refine ⟨store, again, written, read, after, holds, assigns, wrote, unread, ?_⟩
    rw [output, silent]
  · intro machine cell formed found positive
    have inside := (Store.mem_nodes_of_cell? found).1
    have fits := ((Store.wellFormed_iff_sound _).mp formed).rings cell inside
    have lengths := Cell.length_lowBytes fits
    have number : (cell.lowBytes.length : Int) = cell.value.toInt := by
      rw [Int64.lt_iff_toInt_lt, Int64.toInt_zero] at positive
      rw [lengths, Num.places]
      omega
    have short : cell.lowBytes.length < 2 ^ 63 := by
      have bounded := cell.value.toInt_lt
      omega
    obtain ⟨store, wrote, completes⟩ := exists_run_output_line formed found positive
    refine ⟨cell.lowBytes, store, wrote, number, fun _ within => Cell.toNat_lowBytes within, completes, ?_⟩
    intro unbroken reader taken rest readerFormed live offers
    obtain ⟨held, read, _, holds, _⟩ :=
      exists_run_input_line readerFormed live short (Streams.run_readLine_of_offers offers unbroken)
    exact ⟨held, read, holds⟩

/-- A ring of three that lacks the child between the anchor and the last one. -/
def gappedRing : Store :=
  Deed.performAll (fun _ => Store.empty)
    [⟨0, .alloc 3⟩, ⟨0, .child ⟨0⟩⟩, ⟨0, .prev ⟨1⟩⟩, ⟨0, .setValue ⟨1⟩ 300⟩, ⟨0, .setValue ⟨2⟩ (-1)⟩] 0

def gapped (input : List UInt8) : Machine :=
  ⟨gappedRing, ⟨0, false, ⟨0⟩⟩, Streams.ofInput input .stop, 0⟩

/-- A line of one byte replaces the ring; the ring itself is written with the missing child as 0, and is read back. -/
theorem lines_are_byte_exact_gapped :
    (gappedRing.WellFormed ∧ gappedRing.contains ⟨0⟩ = true) ∧
      (∃ store, perform (.input .line) (gapped [0x80, 0x0A, 0x41]) = .ok .okay
          { gapped [0x80, 0x0A, 0x41] with
            store := store
            streams := (gapped [0x80, 0x0A, 0x41]).streams.booked [.line] [0x80, 0x0A] [0x41] } ∧
        store.HoldsLine ⟨0⟩ [0x80]) ∧
      ∃ store held reached,
        perform (.output .line) (gapped []) = .ok .okay
            { gapped [] with store := store, streams := (gapped []).streams.booked [.write [44, 0, 255]] [] [] } ∧
          perform (.input .line) (single 7 [44, 0, 255]) = .ok .okay
            { single 7 [44, 0, 255] with store := held, streams := reached } ∧
          held.HoldsLine ⟨0⟩ [44, 0, 255] := by
  have formed : gappedRing.WellFormed :=
    (Store.wellFormed_iff_sound _).mpr (Deed.sound_performAll (fun _ => Store.sound_empty) _ (by decide +kernel) 0)
  have live : gappedRing.contains ⟨0⟩ = true := by decide +kernel
  have found : gappedRing.cell? ⟨0⟩ =
      some ⟨⟨0⟩, 3, ⟨[Cell.leaf ⟨1⟩ 300], [Cell.leaf ⟨2⟩ (-1)]⟩⟩ := rfl
  have alone : (single 7 [44, 0, 255]).store.WellFormed :=
    (Store.wellFormed_iff_sound _).mpr (Store.sound_plant Store.sound_empty 7)
  obtain ⟨_, lines, rings⟩ := lines_are_byte_exact
  obtain ⟨store, _, _, read, _, holds, _⟩ := lines (gapped [0x80, 0x0A, 0x41]) [0x80] _ [0x41] formed live
    (.broken [0x41] rfl) (by decide) (by decide)
  obtain ⟨bytes, complete, wrote, number, low, _, back⟩ := rings (gapped []) _ formed found (by decide)
  have three : bytes = [44, 0, 255] := by
    obtain ⟨first, second, third, rfl⟩ := List.length_eq_three.mp (Int.ofNat_inj.mp number)
    have anchor : first.toNat = 44 := Int.ofNat_inj.mp (low 0 (by simp))
    have missing : second.toNat = 0 := Int.ofNat_inj.mp (low 1 (by simp))
    have last : third.toNat = 255 := Int.ofNat_inj.mp (low 2 (by simp))
    rw [← UInt8.ofNat_toNat (x := first), ← UInt8.ofNat_toNat (x := second), ← UInt8.ofNat_toNat (x := third), anchor,
      missing, last]
    rfl
  subst three
  obtain ⟨held, reread, kept⟩ := back (by decide) (single 7 [44, 0, 255]) _ _ alone rfl (.last rfl rfl)
  exact ⟨⟨formed, live⟩, ⟨store, read, holds⟩, complete, held, _, wrote, reread, kept⟩

end Machine

end RingTape
