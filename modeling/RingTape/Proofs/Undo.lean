import RingTape.Proofs.Locality

/-!
Insertion and deletion are inverse. A ring is determined by its roster, so that it is enough to follow the three indices
that matter: the new cell stands between the two neighbours that the step has materialised, the walk back to it changes
nothing, and without it the roster is the old one. It never is the anchor, wherever the ring is closed or open.
-/

namespace RingTape

set_option autoImplicit false

namespace Ring

variable {α : Type}

theorem filterMap_roster (value : Num) (ring : Ring α) :
    (ring.roster value).filterMap id = ring.forward ++ ring.backward.reverse := by
  simp [roster, List.filterMap_append, List.filterMap_replicate_of_none, List.filterMap_map]

/-- Two rings that fit are equal if they have the same roster. -/
theorem Fits.eq_of_roster {value : Num} {left right : Ring α} (leftFits : left.Fits value)
    (rightFits : right.Fits value) (same : left.roster value = right.roster value) : left = right := by
  have shown : left.forward ++ left.backward.reverse = right.forward ++ right.backward.reverse := by
    rw [← filterMap_roster value, ← filterMap_roster value, same]
  have sizes : left.size = right.size := by
    have lengths := congrArg List.length shown
    simpa [size] using lengths
  have forward : left.forward = right.forward := by
    by_cases full : left.size = value.places
    · have leftClosed := (roster_of_full leftFits full).1
      have rightClosed := (roster_of_full rightFits (sizes ▸ full)).1
      rw [leftClosed, rightClosed] at shown
      simpa using shown
    · -- The forward arc is what comes before the first gap.
      have short := leftFits.size_le
      have arc (ring : Ring α) (size : ring.size = left.size) :
          (ring.roster value).takeWhile Option.isSome = ring.forward.map some := by
        obtain ⟨gap, counted⟩ : ∃ gap, value.places - ring.size = gap + 1 := ⟨value.places - ring.size - 1, by omega⟩
        rw [roster, counted, List.replicate_succ, List.append_assoc, List.takeWhile_append_of_pos]
        · simp
        · simp
      have arcs := arc left rfl
      rw [same, arc right sizes.symm] at arcs
      exact (List.map_injective_iff.mpr (Option.some_injective α) arcs).symm
  have backward : left.backward = right.backward := by
    rw [forward] at shown
    exact List.reverse_injective (List.append_cancel_left shown)
  cases left
  cases right
  simp only at forward backward
  rw [forward, backward]

/-- In a ring of more than one, a step leads elsewhere. -/
theorem turn_ne_self {size index : Nat} (less : index < size) (several : 1 < size) {unit : Int}
    (sign : unit = 1 ∨ unit = -1) : turn size index unit ≠ index := by
  rcases sign with rfl | rfl
  · rw [turn_one _ _ less]
    split_ifs <;> omega
  · rw [turn_neg_one _ _ less]
    split_ifs <;> omega

end Ring

namespace Store

section Neighbours

variable {store : Store} (sound : store.Sound) {host : Cell} (inside : host ∈ store.nodes) {member other : Cell}
  {index : Nat} (seated : host.Seats index member)

include sound inside seated

/-- A step to a neighbour that is there changes nothing. -/
theorem run_prev_of_seat (near : host.Seats (Ring.turn host.value.places index (-1)) other) :
    prev member.id store = .ok other.id store := by
  obtain ⟨found, place⟩ := parent?_of_seat sound inside seated
  rw [prev, run_bind_ok (run_parentOf_of_some found), place,
    Ring.before?_eq_roster (sound.rings host inside) seated, near]
  rfl

theorem run_next_of_seat (near : host.Seats (Ring.turn host.value.places index 1) other) :
    next member.id store = .ok other.id store := by
  obtain ⟨found, place⟩ := parent?_of_seat sound inside seated
  rw [next, run_bind_ok (run_parentOf_of_some found), place,
    Ring.after?_eq_roster (sound.rings host inside) seated, near]
  rfl

end Neighbours

end Store

namespace Cell

/-- Where a new cell stands that is put in front of the one at an index: in front of the anchor is the end. -/
def gapBefore (host : Cell) (index : Nat) : Nat :=
  if index = 0 then host.value.places else index

theorem gapBefore_bounds (host : Cell) {index : Nat} (less : index < host.value.places) :
    0 < host.gapBefore index ∧ host.gapBefore index < host.value.places + 1 := by
  unfold gapBefore
  split_ifs <;> omega

/-- The new cell and the two neighbours that it separates follow each other in the longer roster. -/
theorem Spliced.seats {host left right : Cell} {index : Nat} {fresh : CellId} {value : Num} {ring : Ring Cell}
    {before after : Pool} (fits : host.Fits) (seated : host.Seats index right)
    (preceded : host.Seats (Ring.turn host.value.places index (-1)) left)
    (spliced : host.Spliced (host.gapBefore index) fresh value ring before after) :
    let size := host.value.places + 1
    let wider := host.withRing (host.value + 1) ring
    wider.Seats (host.gapBefore index) (leaf fresh value) ∧
      wider.Seats (Ring.turn size (host.gapBefore index) 1) right ∧
      wider.Seats (Ring.turn size (host.gapBefore index) (-1)) left := by
  intro size wider
  have bounded := Ring.Fits.size_le fits
  have length := Ring.length_roster host.value host.ring bounded
  have ⟨less, _, _⟩ := Ring.placeAt_lt_of_mem bounded seated
  have gapBound := (host.gapBefore_bounds less).2
  have roster : wider.ring.roster wider.value =
      (host.ring.roster host.value).insertIdx (host.gapBefore index) (some (leaf fresh value)) := spliced.roster
  rw [Ring.turn_neg_one _ _ less] at preceded
  rw [Ring.turn_one _ _ gapBound, Ring.turn_neg_one _ _ gapBound]
  unfold Seats at *
  rw [roster]
  refine ⟨?_, ?_, ?_⟩
  · rw [List.getElem?_insertIdx_self, if_pos (by omega)]
  · unfold gapBefore
    by_cases first : index = 0
    · rw [if_pos first, if_pos rfl, List.getElem?_insertIdx_of_lt (by omega), ← first]
      exact seated
    · rw [if_neg first, if_neg (by omega), List.getElem?_insertIdx_of_gt (by omega), Nat.add_sub_cancel]
      exact seated
  · unfold gapBefore
    by_cases first : index = 0
    · rw [if_pos first] at preceded ⊢
      rw [if_neg (by omega), List.getElem?_insertIdx_of_lt (by omega)]
      exact preceded
    · rw [if_neg first] at preceded ⊢
      rw [if_neg first, List.getElem?_insertIdx_of_lt (by omega)]
      exact preceded

end Cell

namespace Store

/--
A new leaf stands between two neighbours of a ring: they are next to it, the ring and its intended size are larger by
one, and when the leaf is removed the cells are those of the store before.
-/
structure Wedged (store : Store) (parent left right fresh : CellId) (inserted : Store) : Prop where
  prev_right : prev right inserted = .ok fresh inserted
  prev_fresh : prev fresh inserted = .ok left inserted
  next_left : next left inserted = .ok fresh inserted
  next_fresh : next fresh inserted = .ok right inserted
  larger : ∃ host ring, store.cell? parent = some host ∧
    inserted.cell? parent = some (host.withRing (host.value + 1) ring) ∧
    (host.value + 1).toInt = host.value.toInt + 1 ∧ 0 < host.value.toInt ∧ ring.size = host.ring.size + 1 ∧
    ∀ id ∈ [left, right], inserted.parent? id = some (host.withRing (host.value + 1) ring)
  fresh_new : fresh ∉ store.ids
  fresh_live : fresh ∈ inserted.ids
  removes : ∀ heir ∈ [left, right], ∃ pool, remove fresh heir inserted = .ok () ⟨store.trees, pool⟩ ∧
    Sound ⟨store.trees, pool⟩

section Wedge

variable {store : Store} (sound : store.Sound) {host left right : Cell} {index : Nat} (inside : host ∈ store.nodes)
  (seated : host.Seats index right) (preceded : host.Seats (Ring.turn host.value.places index (-1)) left)

include sound inside

/-- Without the new leaf the ring is what it was. -/
theorem run_remove_spliced {position successor : Nat} {fresh : CellId} {value : Num} {ring : Ring Cell} {after : Pool}
    {heir : Cell} (spliced : host.Spliced position fresh value ring store.pool after) (positive : 0 < position)
    (seat : (host.withRing (host.value + 1) ring).Seats position (Cell.leaf fresh value))
    (heirSeat : (host.withRing (host.value + 1) ring).Seats successor heir) (other : successor ≠ position) :
    ∃ pool, remove fresh heir.id (store.replace host.id (host.value + 1) ring after) = .ok () ⟨store.trees, pool⟩ ∧
      Sound ⟨store.trees, pool⟩ := by
  have inserted := sound.insert inside spliced.fits spliced.members spliced.taken
  have present := host_mem_replace sound.distinct inside (host.value + 1) ring after
  obtain ⟨old, removed, _, severed⟩ := run_remove inserted present seat heirSeat other
  have erased := inserted.erase present severed.fits severed.members
  have value_eq : (host.withRing (host.value + 1) ring).value - 1 = host.value := Int64.add_sub_cancel _ _
  have roster := severed.roster
  have fits := severed.fits
  rw [value_eq] at roster fits removed erased
  rw [if_neg (by omega), Cell.ring_withRing, Cell.value_withRing, spliced.roster, List.eraseIdx_insertIdx_self] at roster
  obtain rfl : old = host.ring := fits.eq_of_roster (sound.rings host inside) roster
  rw [Cell.id_withRing, replace_replace] at removed erased
  have same (pool : Pool) : store.replace host.id host.value host.ring pool = ⟨store.trees, pool⟩ := by
    have kept := replace_self sound.distinct inside
    exact congrArg (fun kept : Store => (⟨kept.trees, pool⟩ : Store)) kept
  rw [same] at removed erased
  exact ⟨_, removed, erased⟩

include seated preceded

theorem exists_wedged (value : Num) (room : host.value.toInt < Num.greatest) :
    ∃ (fresh : CellId) (inserted : Store),
      (do
          let fresh ← takeSlot
          let parent ← parentOf right.id
          install parent.id (parent.value + 1)
            (parent.ring.insertAt (parent.placeOf right.id) (Cell.leaf fresh value))
          return fresh : StoreM CellId) store = .ok fresh inserted ∧
        Wedged store host.id left.id right.id fresh inserted := by
  have fits := sound.rings host inside
  have ⟨positive, less⟩ := value_pos_of_seat sound inside seated
  have places := Num.places_add_one (Int.le_of_lt positive) room
  obtain ⟨fresh, ring, after, put, spliced⟩ := run_putBefore sound inside seated value room
  have inserted := sound.insert inside spliced.fits spliced.members spliced.taken
  have present := host_mem_replace sound.distinct inside (host.value + 1) ring after
  obtain ⟨gapPositive, gapBound⟩ := host.gapBefore_bounds less
  obtain ⟨middle, ahead, behind⟩ := spliced.seats fits seated preceded
  have back {there home : Int} (opposite : there + home = 0) : Ring.turn (host.value.places + 1)
      (Ring.turn (host.value.places + 1) (host.gapBefore index) there) home = host.gapBefore index := by
    rw [Ring.turn_turn _ _ _ _ (by omega), opposite, Ring.turn_zero _ _ gapBound]
  rw [← places] at ahead behind back
  have apart {unit : Int} (sign : unit = 1 ∨ unit = -1) :
      Ring.turn (host.value + 1).places (host.gapBefore index) unit ≠ host.gapBefore index :=
    Ring.turn_ne_self (by omega) (by omega) sign
  refine ⟨fresh, _, put, ?_, ?_, ?_, ?_, ⟨host, ring, ?_, ?_, Num.toInt_add_one room, positive, ?_, ?_⟩, ?_, ?_, ?_⟩
  · exact run_prev_of_seat inserted present ahead ((back (Int.add_right_neg 1)).symm ▸ middle)
  · exact run_prev_of_seat inserted present middle behind
  · exact run_next_of_seat inserted present behind ((back (Int.add_left_neg 1)).symm ▸ middle)
  · exact run_next_of_seat inserted present middle ahead
  · exact cell?_of_mem sound.distinct inside
  · exact cell?_replace sound.distinct inside inserted.distinct
  · have counted := spliced.members.length_eq
    rw [List.length_cons, ← Ring.size_eq_length_members, ← Ring.size_eq_length_members] at counted
    exact counted
  · intro id neighbour
    rcases List.mem_pair.mp neighbour with rfl | rfl
    · exact (parent?_of_seat inserted present behind).1
    · exact (parent?_of_seat inserted present ahead).1
  · exact sound.not_mem_of_taken spliced.taken (List.mem_singleton_self fresh)
  · have among := middle.member (inserted.rings _ present)
    exact mem_ids_of_below (member_mem_nodes present among) (Cell.id_mem_ids _)
  · intro heir neighbour
    rcases List.mem_pair.mp neighbour with rfl | rfl
    · exact run_remove_spliced sound inside spliced gapPositive middle behind (apart (Or.inr rfl))
    · exact run_remove_spliced sound inside spliced gapPositive middle ahead (apart (Or.inl rfl))

end Wedge

section Undo

variable {store : Store} {parent left right fresh : CellId} {inserted : Store}
  (wedged : Wedged store parent left right fresh inserted)

include wedged

/-- From one neighbour the leaf is the first cell on the way and the other neighbour the second. -/
theorem Wedged.run_deleteAlong {step : CellId → StoreM CellId} {cell survivor : CellId} (start : cell ∈ [left, right])
    (target : survivor ∈ [left, right]) (toward : step cell inserted = .ok fresh inserted)
    (onward : step fresh inserted = .ok survivor inserted) :
    ∃ pool, deleteAlong step cell inserted = .ok survivor ⟨store.trees, pool⟩ ∧ Sound ⟨store.trees, pool⟩ := by
  obtain ⟨host, ring, _, _, value, positive, _, parents⟩ := wedged.larger
  obtain ⟨pool, removed, sound⟩ := wedged.removes survivor target
  have several : ¬ (host.withRing (host.value + 1) ring).value = 1 := by
    intro single
    have same := congrArg Int64.toInt single
    rw [Cell.value_withRing, Int64.toInt_one] at same
    omega
  refine ⟨pool, ?_, sound⟩
  rw [deleteAlong, run_bind_ok (run_parentOf_of_some (parents cell start)), if_neg several, run_bind_ok toward,
    run_bind_ok onward, run_bind_ok removed]
  rfl

end Undo

theorem fields?_of_cell? {store : Store} {id : CellId} {cell : Cell} (found : store.cell? id = some cell) :
    store.fields? id = some ⟨cell.value, cell.instantiated, store.anchorLink id, store.prevLink id,
      store.nextLink id, store.parentLink id⟩ := by
  rw [fields?, found, Option.map_some]

/-- A cell has got one more child, and its value counts it. -/
def Longer (before after : Store) (parent : CellId) : Prop :=
  ∃ short long, before.fields? parent = some short ∧ after.fields? parent = some long ∧
    long.value.toInt = short.value.toInt + 1 ∧ long.instantiated = short.instantiated + 1

theorem Wedged.longer {store : Store} {parent left right fresh : CellId} {inserted : Store}
    (wedged : Wedged store parent left right fresh inserted) : Longer store inserted parent := by
  obtain ⟨host, ring, here, there, value, _, size, _⟩ := wedged.larger
  exact ⟨_, _, fields?_of_cell? here, fields?_of_cell? there, value, size⟩

/-- Every cell of a store is there again as it was, and the one that was put in between is gone. -/
structure Restores (before between : Store) (fresh : CellId) (after : Store) : Prop where
  formed : after.WellFormed
  cells : ∀ id, before.contains id = true → after.contains id = true ∧ after.snapshot? id = before.snapshot? id
  fields : ∀ id, after.fields? id = before.fields? id
  anchors : ∀ id, after.anchorLink id = before.anchorLink id
  live : after.live = before.live
  made : before.contains fresh = false ∧ between.contains fresh = true
  gone : after.contains fresh = false

theorem Wedged.restores {store : Store} (sound : store.Sound) {parent left right fresh : CellId} {inserted : Store}
    (wedged : Wedged store parent left right fresh inserted) {pool : Pool} (restored : Sound ⟨store.trees, pool⟩) :
    Restores store inserted fresh ⟨store.trees, pool⟩ := by
  have formed := (wellFormed_iff_sound _).mpr restored
  have absent : store.contains fresh = false := by
    rw [← Bool.not_eq_true, contains_iff]
    exact wedged.fresh_new
  refine ⟨formed, fun id live => ⟨live, rfl⟩, fun _ => rfl, fun _ => rfl, ?_, ?_, absent⟩
  · rw [formed.live_eq, ((wellFormed_iff_sound store).mpr sound).live_eq]
    rfl
  · exact ⟨absent, (contains_iff _).mpr wedged.fresh_live⟩

/--
An insertion next to a cell is undone by the deletion on the same side: what is left is the store after a mere step to
that side, and the deletion returns the cell that the step leads to. In between, the new cell is next to the old one,
and the ring is longer by one.
-/
def Cancels (store : Store) (parent cell : CellId) (step back : CellId → StoreM CellId)
    (insert delete : StoreM CellId) : Prop :=
  ∃ neighbour stepped fresh inserted restored,
    step cell store = .ok neighbour stepped ∧ insert store = .ok fresh inserted ∧
      back fresh inserted = .ok cell inserted ∧ step cell inserted = .ok fresh inserted ∧
      Longer stepped inserted parent ∧ delete inserted = .ok neighbour restored ∧
      Restores stepped inserted fresh restored

/-- Insertion and deletion on one side of a cell are inverse, from every shape of its ring. -/
theorem deletion_undoes_insertion (store : Store) (formed : store.WellFormed) (parent cell : CellId) (size value : Num)
    (child : store.parentLink cell = some parent) (valued : store.value? parent = some size)
    (room : size.toInt < Num.greatest) :
    Cancels store parent cell prev next (insertBefore cell value) (deleteBefore cell) ∧
      Cancels store parent cell next prev (insertAfter cell value) (deleteAfter cell) := by
  have sound := (wellFormed_iff_sound store).mp formed
  obtain ⟨host, found, rfl⟩ := Option.map_eq_some_iff.mp child
  obtain ⟨inside, index, member, seated, rfl⟩ := seat_of_parent? sound found
  rw [value?, cell?_of_mem sound.distinct inside] at valued
  obtain rfl : host.value = size := by simpa using valued
  obtain ⟨_, less⟩ := value_pos_of_seat sound inside seated
  constructor
  · obtain ⟨preceding, ring, pool, stepped, grown, there⟩ := strides_prev store host member index sound inside seated
    have present := host_mem_replace sound.distinct inside host.value ring pool
    obtain ⟨fresh, inserted, put, wedged⟩ := exists_wedged (sound.grow inside grown) present
      (grown.kept index member seated) there value room
    obtain ⟨rest, deleted, restored⟩ := wedged.run_deleteAlong (List.mem_pair.mpr (Or.inr rfl))
      (List.mem_pair.mpr (Or.inl rfl)) wedged.prev_right wedged.prev_fresh
    refine ⟨preceding.id, _, fresh, inserted, _, stepped, ?_, wedged.next_fresh, wedged.prev_right, wedged.longer,
      deleted, wedged.restores (sound.grow inside grown) restored⟩
    rw [insertBefore, run_bind_ok stepped]
    exact put
  · obtain ⟨following, ring, pool, stepped, grown, there⟩ := strides_next store host member index sound inside seated
    have stepSound := sound.grow inside grown
    have present := host_mem_replace sound.distinct inside host.value ring pool
    -- The cell itself is what stands before the next one, so nothing more has to be made.
    have before : (host.withRing host.value ring).Seats
        (Ring.turn host.value.places (Ring.turn host.value.places index 1) (-1)) member := by
      rw [Ring.turn_turn _ _ _ _ (by omega), Int.add_right_neg, Ring.turn_zero _ _ less]
      exact grown.kept index member seated
    obtain ⟨fresh, inserted, put, wedged⟩ := exists_wedged stepSound present there before value room
    obtain ⟨rest, deleted, restored⟩ := wedged.run_deleteAlong (List.mem_pair.mpr (Or.inl rfl))
      (List.mem_pair.mpr (Or.inr rfl)) wedged.next_left wedged.next_fresh
    refine ⟨following.id, _, fresh, inserted, _, stepped, ?_, wedged.prev_fresh, wedged.next_left, wedged.longer,
      deleted, wedged.restores stepSound restored⟩
    rw [insertAfter, run_bind_ok stepped, insertBefore, run_bind_ok (run_prev_of_seat stepSound present there before)]
    exact put

/-- A ring of three whose third member is missing, so that a step closes it. -/
def nearlyClosed : Store :=
  Deed.performAll (fun _ => Store.empty) [⟨0, .alloc 3⟩, ⟨0, .child ⟨0⟩⟩, ⟨0, .prev ⟨1⟩⟩] 0

theorem deletion_undoes_insertion_nearlyClosed :
    nearlyClosed.WellFormed ∧ nearlyClosed.parentLink ⟨2⟩ = some ⟨0⟩ ∧ nearlyClosed.value? ⟨0⟩ = some 3 ∧
      (3 : Num).toInt < Num.greatest ∧
      Cancels nearlyClosed ⟨0⟩ ⟨2⟩ prev next (insertBefore ⟨2⟩ (-7)) (deleteBefore ⟨2⟩) ∧
      Cancels nearlyClosed ⟨0⟩ ⟨2⟩ next prev (insertAfter ⟨2⟩ (-7)) (deleteAfter ⟨2⟩) := by
  have formed : nearlyClosed.WellFormed :=
    (wellFormed_iff_sound _).mpr (Deed.sound_performAll (fun _ => sound_empty) _ (by decide +kernel) 0)
  have child : nearlyClosed.parentLink ⟨2⟩ = some ⟨0⟩ := by decide +kernel
  have valued : nearlyClosed.value? ⟨0⟩ = some 3 := by decide +kernel
  have room : (3 : Num).toInt < Num.greatest := by decide
  exact ⟨formed, child, valued, room, deletion_undoes_insertion nearlyClosed formed ⟨0⟩ ⟨2⟩ 3 (-7) child valued room⟩

end Store

end RingTape
