import RingTape.Proofs.Walk

/-!
Editing. An insertion or a removal first makes the neighbours it needs, which only lets the ring grow, and
then changes the value of the parent and the roster by one place. What is discarded goes back to the pool.
-/

namespace RingTape

set_option autoImplicit false

namespace Num

theorem toInt_add_one {value : Num} (room : value.toInt < greatest) : (value + 1).toInt = value.toInt + 1 := by
  have lower := Int64.le_toInt value
  unfold greatest at room
  rw [Int64.toInt_add, Int64.toInt_one, Int.bmod_eq_of_le (by omega) (by omega)]

theorem toInt_sub_one {value : Num} (positive : 0 < value.toInt) : (value - 1).toInt = value.toInt - 1 := by
  have upper := Int64.toInt_lt value
  rw [Int64.toInt_sub, Int64.toInt_one, Int.bmod_eq_of_le (by omega) (by omega)]

theorem places_add_one {value : Num} (nonnegative : 0 ≤ value.toInt) (room : value.toInt < greatest) :
    (value + 1).places = value.places + 1 := by
  have sum := toInt_add_one room
  unfold places
  omega

theorem places_sub_one {value : Num} (positive : 0 < value.toInt) :
    (value - 1).places + 1 = value.places := by
  have difference := toInt_sub_one positive
  unfold places
  omega

end Num

namespace Ring

variable {α : Type}

theorem members_insertAt_perm (ring : Ring α) (place : Nat) (member : α) (bounded : place ≤ ring.size) :
    (ring.insertAt place member).members.Perm (member :: ring.members) := by
  refine (line_perm_members _).symm.trans ?_
  rw [line_insertAt]
  rw [size_eq_length_line] at bounded
  exact (List.perm_insertIdx member ring.line bounded).trans ((line_perm_members ring).cons member)

theorem fits_insertAt {value later : Num} {ring : Ring α} (fits : ring.Fits value)
    (grown : later.places = value.places + 1) (some : 0 < ring.size) {place : Nat} (within : place ≤ ring.size)
    (member : α) : ((ring.insertAt place member).settle later).Fits later := by
  have bounded := fits.size_le
  have anchorBound := anchor_lt_size fits some
  have length : (ring.line.insertIdx place member).length = ring.size + 1 := by
    rw [size_eq_length_line] at within
    rw [List.length_insertIdx_of_le_length within, ← size_eq_length_line]
  apply fits_settle
  · intro none
    have all := List.drop_eq_nil_iff.mp none
    rw [length] at all
    split_ifs at all <;> omega
  · rw [size_eq_length_line, line_insertAt, length]
    unfold Num.places at *
    omega

/-- The first member of all closes its ring at once. -/
theorem settle_insertAt_empty {later : Num} (single : later.places = 1) (member : α) :
    ((empty : Ring α).insertAt 0 member).settle later = Ring.single member := by
  have full : (⟨[], [member]⟩ : Ring α).isFull later = true := by
    unfold Num.places at single
    simp only [isFull, size, List.length_nil, List.length_cons, beq_iff_eq]
    omega
  show (⟨[], [member]⟩ : Ring α).settle later = _
  rw [settle, if_pos full]
  rfl

theorem members_eraseAt_perm (ring : Ring α) {place : Nat} (heir : Nat) {gone : α}
    (there : ring.line[place]? = some gone) :
    ring.members.Perm (gone :: (ring.eraseAt place heir).members) := by
  obtain ⟨bounded, same⟩ := List.getElem?_eq_some_iff.mp there
  have erased := List.getElem_cons_eraseIdx_perm bounded
  rw [same, ← line_eraseAt ring place heir] at erased
  exact ((line_perm_members ring).symm.trans erased.symm).trans ((line_perm_members _).cons gone)

theorem fits_eraseAt {value later : Num} {ring : Ring α} (fits : ring.Fits value)
    (shrunk : later.places + 1 = value.places) {place heir : Nat} (within : place < ring.size)
    (heirWithin : heir < ring.size) (other : heir ≠ place) :
    ((ring.eraseAt place heir).settle later).Fits later := by
  have bounded := fits.size_le
  have anchorBound := anchor_lt_size fits (by omega)
  have length : (ring.line.eraseIdx place).length = ring.size - 1 := by
    rw [size_eq_length_line] at within ⊢
    exact List.length_eraseIdx_of_lt within
  apply fits_settle
  · intro none
    have all := List.drop_eq_nil_iff.mp none
    rw [length] at all
    split_ifs at all <;> omega
  · rw [size_eq_length_line, line_eraseAt, length]
    unfold Num.places at *
    omega

end Ring

namespace Cell

/-- A ring that has one leaf more than a cell's own, at the given index, in a slot taken from the pool. -/
structure Spliced (host : Cell) (position : Nat) (fresh : CellId) (value : Num) (ring : Ring Cell)
    (before after : Pool) : Prop where
  fits : ring.Fits (host.value + 1)
  roster : ring.roster (host.value + 1) =
    (host.ring.roster host.value).insertIdx position (some (leaf fresh value))
  members : ring.members.Perm (leaf fresh value :: host.ring.members)
  taken : ∀ id, after.usage id = before.usage id + [fresh].count id

/-- A ring that lacks one child of a cell's own, read from `successor` on if the child was the anchor. -/
structure Severed (host : Cell) (position successor : Nat) (gone : Cell) (ring : Ring Cell) : Prop where
  seated : host.Seats position gone
  fits : ring.Fits (host.value - 1)
  roster : ring.roster (host.value - 1) =
    if position = 0 then ((host.ring.roster host.value).eraseIdx 0).rotate (successor - 1)
    else (host.ring.roster host.value).eraseIdx position
  members : host.ring.members.Perm (gone :: ring.members)

end Cell

namespace Store

/-- A new leaf among the children of a cell, in a slot taken from the pool. -/
theorem Sound.insert {store : Store} (sound : store.Sound) {host : Cell} (inside : host ∈ store.nodes)
    {later value : Num} {ring : Ring Cell} {pool : Pool} {fresh : CellId} (fits : ring.Fits later)
    (members : ring.members.Perm (Cell.leaf fresh value :: host.ring.members))
    (taken : ∀ id, pool.usage id = store.pool.usage id + [fresh].count id) :
    (store.replace host.id later ring pool).Sound := by
  refine sound.replace inside fits ?_ ?_
  · intro member ofRing node below
    rcases List.mem_cons.mp (members.mem_iff.mp ofRing) with same | child
    · rw [same] at below
      exact Cell.fits_leaf _ _ node below
    · exact sound.rings node (Cell.forestNodes_subset _ _ (member_mem_nodes inside child) _ below)
  · intro id
    have count := (Cell.forestIds_perm members).count_eq id
    have used := taken id
    rw [Cell.forestIds_cons, Cell.ids_leaf, List.count_append] at count
    omega

/-- One child less, with all its slots given back. -/
theorem Sound.erase {store : Store} (sound : store.Sound) {host : Cell} (inside : host ∈ store.nodes)
    {later : Num} {ring : Ring Cell} {gone : Cell} (fits : ring.Fits later)
    (members : host.ring.members.Perm (gone :: ring.members)) :
    (store.replace host.id later ring (store.pool.give (gone.id :: gone.descendants))).Sound := by
  refine sound.replace inside fits ?_ ?_
  · intro member ofRing node below
    have child := members.mem_iff.mpr (List.mem_cons_of_mem gone ofRing)
    exact sound.rings node (Cell.forestNodes_subset _ _ (member_mem_nodes inside child) _ below)
  · intro id
    have count := (Cell.forestIds_perm members).count_eq id
    have given := (((Cell.descendants_perm gone).cons gone.id)).count_eq id
    rw [← Cell.ids_eq] at given
    rw [Cell.forestIds_cons, List.count_append] at count
    rw [Pool.usage_give, given]
    omega

/-- No child left, with all their slots given back. -/
theorem Sound.clear {store : Store} (sound : store.Sound) {host : Cell} (inside : host ∈ store.nodes)
    (later : Num) : (store.replace host.id later Ring.empty (store.pool.give host.descendants)).Sound := by
  refine sound.replace inside (Ring.fits_empty later) ?_ ?_
  · intro member ofRing
    simp [Ring.empty, Ring.members] at ofRing
  · intro id
    have given := (Cell.descendants_perm host).count_eq id
    rw [Pool.usage_give, given]
    simp [Ring.empty, Ring.members]

theorem run_reset {store : Store} (sound : store.Sound) {host : Cell} (inside : host ∈ store.nodes) :
    reset host.id store =
      .ok () (store.replace host.id host.value Ring.empty (store.pool.give host.descendants)) := by
  have distinct : ({ store with pool := store.pool.give host.descendants } : Store).ids.Nodup := sound.distinct
  have emptied := run_setRing distinct inside Ring.empty
  rw [reset, run_bind_ok (run_cell_of_some (cell?_of_mem sound.distinct inside)),
    run_bind_ok (run_giveSlots _ store)]
  exact emptied

theorem run_setValue {store : Store} (sound : store.Sound) {host : Cell} (inside : host ∈ store.nodes)
    (value : Num) :
    setValue host.id value store =
      .ok () (store.replace host.id value Ring.empty (store.pool.give host.descendants)) := by
  have emptied := sound.clear inside host.value
  have present := host_mem_replace sound.distinct inside host.value Ring.empty
    (store.pool.give host.descendants)
  have changed := run_change emptied.distinct present (fun cell => { cell with value := value }) value
    Ring.empty rfl
  rw [Cell.id_withRing, replace_replace, pool_replace] at changed
  rw [setValue, run_bind_ok (run_reset sound inside)]
  exact changed

theorem Sound.splice {store : Store} (sound : store.Sound) {host : Cell} (inside : host ∈ store.nodes)
    {wide ring : Ring Cell} {between after : Pool} {position : Nat} {fresh : CellId} {value : Num}
    (grown : host.Grown wide store.pool between)
    (spliced : (host.withRing host.value wide).Spliced position fresh value ring between after) :
    (store.replace host.id (host.value + 1) ring after).Sound := by
  have present := host_mem_replace sound.distinct inside host.value wide between
  have inserted := (sound.grow inside grown).insert present spliced.fits spliced.members spliced.taken
  rw [Cell.id_withRing, Cell.value_withRing, replace_replace] at inserted
  exact inserted

theorem Sound.sever {store : Store} (sound : store.Sound) {host gone : Cell} (inside : host ∈ store.nodes)
    {wide ring : Ring Cell} {between : Pool} {position successor : Nat}
    (grown : host.Grown wide store.pool between)
    (severed : (host.withRing host.value wide).Severed position successor gone ring) :
    (store.replace host.id (host.value - 1) ring (between.give (gone.id :: gone.descendants))).Sound := by
  have present := host_mem_replace sound.distinct inside host.value wide between
  have erased := (sound.grow inside grown).erase present severed.fits severed.members
  rw [Cell.id_withRing, Cell.value_withRing, replace_replace] at erased
  exact erased

/-- A new leaf goes in front of a cell, even where the ring has become too large for its size to be told. -/
theorem run_put {store : Store} (sound : store.Sound) {host member : Cell} {index : Nat}
    (inside : host ∈ store.nodes) (seated : host.Seats index member) (value : Num) :
    (do
        let fresh ← takeSlot
        let parent ← parentOf member.id
        install parent.id (parent.value + 1)
          (parent.ring.insertAt (parent.placeOf member.id) (Cell.leaf fresh value))
        return fresh : StoreM CellId) store =
      .ok store.pool.take.1 (store.replace host.id (host.value + 1)
        ((host.ring.insertAt (host.ring.placeAt host.value index) (Cell.leaf store.pool.take.1 value)).settle
          (host.value + 1)) store.pool.take.2) := by
  have ⟨found, place⟩ := parent?_of_seat sound inside seated
  have taken : ({ store with pool := store.pool.take.2 } : Store).ids.Nodup := sound.distinct
  have parent : parentOf member.id { store with pool := store.pool.take.2 } =
      .ok host { store with pool := store.pool.take.2 } := run_parentOf_of_some found
  rw [run_bind_ok (run_takeSlot store), run_bind_ok parent, place,
    run_bind_ok (run_install taken inside _ _)]
  rfl

theorem members_put_perm {host member : Cell} {index : Nat} (fits : host.Fits) (seated : host.Seats index member)
    (leaf : Cell) (later : Num) :
    ((host.ring.insertAt (host.ring.placeAt host.value index) leaf).settle later).members.Perm
      (leaf :: host.ring.members) := by
  have ⟨_, within, _⟩ := Ring.placeAt_lt_of_mem (Ring.Fits.size_le fits) seated
  exact (Ring.members_settle_perm _ _).trans (Ring.members_insertAt_perm _ _ _ (by omega))

/-- The new leaf is just in front of the cell; in front of the anchor is the end of the roster. -/
theorem run_putBefore {store : Store} (sound : store.Sound) {host member : Cell} {index : Nat}
    (inside : host ∈ store.nodes) (seated : host.Seats index member) (value : Num)
    (room : host.value.toInt < Num.greatest) :
    ∃ (fresh : CellId) (ring : Ring Cell) (after : Pool),
      (do
          let fresh ← takeSlot
          let parent ← parentOf member.id
          install parent.id (parent.value + 1)
            (parent.ring.insertAt (parent.placeOf member.id) (Cell.leaf fresh value))
          return fresh : StoreM CellId) store =
        .ok fresh (store.replace host.id (host.value + 1) ring after) ∧
      host.Spliced (if index = 0 then host.value.places else index) fresh value ring store.pool after := by
  have fits := sound.rings host inside
  have ⟨positive, _⟩ := value_pos_of_seat sound inside seated
  have ⟨_, within, _⟩ := Ring.placeAt_lt_of_mem (Ring.Fits.size_le fits) seated
  have larger := Num.places_add_one (Int.le_of_lt positive) room
  refine ⟨_, _, _, run_put sound inside seated value, ?_, ?_, ?_, Pool.usage_take store.pool⟩
  · exact Ring.fits_insertAt fits larger (by omega) (by omega) _
  · rw [Ring.roster_settle]
    exact Ring.roster_insertAt fits larger seated _
  · exact members_put_perm fits seated _ _

theorem run_insertBefore {store : Store} (sound : store.Sound) {host member : Cell} {index : Nat}
    (inside : host ∈ store.nodes) (seated : host.Seats index member) (value : Num)
    (room : host.value.toInt < Num.greatest) :
    ∃ (fresh : CellId) (wide ring : Ring Cell) (between after : Pool),
      insertBefore member.id value store = .ok fresh (store.replace host.id (host.value + 1) ring after) ∧
        host.Grown wide store.pool between ∧
        (host.withRing host.value wide).Spliced (if index = 0 then host.value.places else index) fresh value
          ring between after := by
  obtain ⟨preceding, wide, between, stepped, grown, _⟩ :=
    strides_prev store host member index sound inside seated
  have present := host_mem_replace sound.distinct inside host.value wide between
  obtain ⟨fresh, ring, after, put, spliced⟩ := run_putBefore (sound.grow inside grown) present
    (grown.kept index member seated) value room
  refine ⟨fresh, wide, ring, between, after, ?_, grown, spliced⟩
  rw [insertBefore, run_bind_ok stepped, put, Cell.id_withRing, Cell.value_withRing, replace_replace]

/-- Behind a cell is in front of the next one. -/
theorem run_insertAfter {store : Store} (sound : store.Sound) {host member : Cell} {index : Nat}
    (inside : host ∈ store.nodes) (seated : host.Seats index member) (value : Num)
    (room : host.value.toInt < Num.greatest) :
    ∃ (fresh : CellId) (wide ring : Ring Cell) (between after : Pool),
      insertAfter member.id value store = .ok fresh (store.replace host.id (host.value + 1) ring after) ∧
        host.Grown wide store.pool between ∧
        (host.withRing host.value wide).Spliced (index + 1) fresh value ring between after := by
  have fits := sound.rings host inside
  have ⟨_, less⟩ := value_pos_of_seat sound inside seated
  obtain ⟨following, grownRing, pool, stepped, grown, there⟩ :=
    strides_next store host member index sound inside seated
  have present := host_mem_replace sound.distinct inside host.value grownRing pool
  obtain ⟨fresh, wide, ring, between, after, inserted, wider, spliced⟩ :=
    run_insertBefore (sound.grow inside grown) present there value room
  have position : (if Ring.turn host.value.places index 1 = 0 then host.value.places
      else Ring.turn host.value.places index 1) = index + 1 := by
    rw [Ring.turn_one _ _ less]
    by_cases last : index + 1 = host.value.places
    · simp [last]
    · simp [last]
  refine ⟨fresh, wide, ring, between, after, ?_, grown.trans fits wider, ?_⟩
  · rw [insertAfter, run_bind_ok stepped, inserted, Cell.id_withRing, Cell.value_withRing, replace_replace]
  · rw [← position]
    exact spliced

theorem run_remove {store : Store} (sound : store.Sound) {host gone heir : Cell} {position successor : Nat}
    (inside : host ∈ store.nodes) (seated : host.Seats position gone) (heirSeated : host.Seats successor heir)
    (other : successor ≠ position) :
    ∃ ring : Ring Cell,
      remove gone.id heir.id store = .ok () (store.replace host.id (host.value - 1) ring
        (store.pool.give (gone.id :: gone.descendants))) ∧
      heir ∈ ring.members ∧ host.Severed position successor gone ring := by
  have fits := sound.rings host inside
  have bounded := Ring.Fits.size_le fits
  have ⟨positive, _⟩ := value_pos_of_seat sound inside seated
  have ⟨found, place⟩ := parent?_of_seat sound inside seated
  have ⟨_, heirPlace⟩ := parent?_of_seat sound inside heirSeated
  have ⟨_, within, there⟩ := Ring.placeAt_lt_of_mem bounded seated
  have ⟨_, heirWithin, heirThere⟩ := Ring.placeAt_lt_of_mem bounded heirSeated
  have smaller := Num.places_sub_one positive
  have anchorBound := Ring.anchor_lt_size fits (by omega)
  have apart : host.ring.placeAt host.value successor ≠ host.ring.placeAt host.value position := by
    unfold Ring.placeAt
    split_ifs <;> omega
  have present := cell?_of_mem sound.distinct (member_mem_nodes inside (seated.member fits))
  have members := (Ring.members_eraseAt_perm host.ring (host.ring.placeAt host.value successor) there).trans
    ((Ring.members_settle_perm (host.value - 1) _).symm.cons _)
  refine ⟨(host.ring.eraseAt (host.ring.placeAt host.value position)
    (host.ring.placeAt host.value successor)).settle (host.value - 1), ?_, ?_, seated, ?_, ?_, members⟩
  · rw [remove, run_bind_ok (run_cell_of_some present), run_bind_ok (run_parentOf_of_some found), place,
      heirPlace, run_bind_ok (run_install sound.distinct inside _ _)]
    rfl
  · rcases List.mem_cons.mp (members.mem_iff.mp (heirSeated.member fits)) with same | stays
    · rw [same, place] at heirPlace
      exact absurd heirPlace.symm apart
    · exact stays
  · exact Ring.fits_eraseAt fits smaller within heirWithin apart
  · rw [Ring.roster_settle]
    exact Ring.roster_eraseAt fits smaller seated heirSeated other

/-- The only member of a ring goes with the ring: its parent becomes a leaf of value 0. -/
theorem run_deleteAlong_last {store : Store} (sound : store.Sound) {host member : Cell} {index : Nat}
    (inside : host ∈ store.nodes) (seated : host.Seats index member) (last : host.value = 1)
    (step : CellId → StoreM CellId) :
    deleteAlong step member.id store =
      .ok host.id (store.replace host.id 0 Ring.empty (store.pool.give host.descendants)) := by
  have ⟨found, _⟩ := parent?_of_seat sound inside seated
  rw [deleteAlong, run_bind_ok (run_parentOf_of_some found)]
  simp only [last, if_true]
  rw [run_bind_ok (run_setValue sound inside 0)]
  rfl

theorem two_le_places_of_seat {store : Store} (sound : store.Sound) {host member : Cell} {index : Nat}
    (inside : host ∈ store.nodes) (seated : host.Seats index member) (several : host.value ≠ 1) :
    2 ≤ host.value.places := by
  have ⟨positive, _⟩ := value_pos_of_seat sound inside seated
  have different : host.value.toInt ≠ 1 := by
    intro same
    exact several (Int64.toInt_inj.mp (by rw [same, Int64.toInt_one]))
  unfold Num.places
  omega

/-- In a larger ring the neighbour goes, and the one behind it takes over. -/
theorem run_deleteAlong {store : Store} (sound : store.Sound) {host member : Cell} {index : Nat}
    (inside : host ∈ store.nodes) (seated : host.Seats index member) (several : host.value ≠ 1)
    {step : CellId → StoreM CellId} {unit : Int} (leads : Strides step unit) (sign : unit = 1 ∨ unit = -1) :
    ∃ (gone survivor : Cell) (wide ring : Ring Cell) (between : Pool),
      deleteAlong step member.id store = .ok survivor.id (store.replace host.id (host.value - 1) ring
        (between.give (gone.id :: gone.descendants))) ∧
      host.Grown wide store.pool between ∧
      (host.withRing host.value wide).Seats (Ring.turn host.value.places index (unit + unit)) survivor ∧
      survivor ∈ ring.members ∧
      (host.withRing host.value wide).Severed (Ring.turn host.value.places index unit)
        (Ring.turn host.value.places index (unit + unit)) gone ring := by
  have fits := sound.rings host inside
  have ⟨found, _⟩ := parent?_of_seat sound inside seated
  have ring := two_le_places_of_seat sound inside seated several
  obtain ⟨gone, near, nearPool, stepped, grown, goneSeat⟩ := leads store host member index sound inside seated
  have nearSound := sound.grow inside grown
  have nearPresent := host_mem_replace sound.distinct inside host.value near nearPool
  obtain ⟨survivor, wide, between, again, wider, survivorSeat⟩ :=
    leads (store.replace host.id host.value near nearPool) (host.withRing host.value near) gone _ nearSound
      nearPresent goneSeat
  have goneStill := wider.kept _ _ goneSeat
  rw [Cell.value_withRing, Ring.turn_turn _ _ _ _ (by omega)] at survivorSeat
  rw [Cell.id_withRing, Cell.value_withRing, replace_replace] at again
  have grownWide := grown.trans fits wider
  have present := host_mem_replace sound.distinct inside host.value wide between
  have apart := Ring.turn_twice_ne host.value.places index sign ring
  obtain ⟨ring, removed, stays, severed⟩ :=
    run_remove (sound.grow inside grownWide) present goneStill survivorSeat apart
  refine ⟨gone, survivor, wide, ring, between, ?_, grownWide, survivorSeat, stays, severed⟩
  rw [Cell.id_withRing, Cell.value_withRing, replace_replace] at removed
  rw [deleteAlong, run_bind_ok (run_parentOf_of_some found)]
  simp only [several, if_false]
  rw [run_bind_ok stepped, run_bind_ok again, run_bind_ok removed]
  rfl

end Store

end RingTape
