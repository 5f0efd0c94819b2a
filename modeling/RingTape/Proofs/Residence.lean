import RingTape.Proofs.Contract
import RingTape.Proofs.Copy

/-!
Stores that hold one tree. An operation on a cell of the tree keeps the store sound and the tree one, comes
out at a cell of the tree, and never meets a slot without a cell.
-/

namespace RingTape

set_option autoImplicit false

namespace Store

/-- The store is sound and holds one tree, which starts at the given cell. -/
structure Rooted (root : CellId) (store : Store) : Prop where
  sound : store.Sound
  single : store.trees.map Cell.id = [root]

theorem Sound.mem_ids_iff {store : Store} (sound : store.Sound) (id : CellId) :
    id ∈ store.ids ↔ 0 < store.pool.usage id := by
  have used : (store.ids.count id : Int) = store.pool.usage id := sound.slots id
  rw [← used, ← List.count_pos_iff]
  omega

/-- No cell is lost if no slot is given back. -/
theorem ids_subset_of_usage {store reached : Store} (sound : store.Sound) (reachedSound : reached.Sound)
    (more : ∀ id, store.pool.usage id ≤ reached.pool.usage id) : store.ids ⊆ reached.ids := by
  intro id live
  rw [reachedSound.mem_ids_iff]
  have before := (sound.mem_ids_iff id).mp live
  have after := more id
  omega

theorem mem_ids_of_mem_nodes {store : Store} {node : Cell} (inside : node ∈ store.nodes) : node.id ∈ store.ids :=
  (Cell.mem_forestIds _ _).mpr ⟨node, inside, rfl⟩

theorem exists_node_of_mem_ids {store : Store} {id : CellId} (live : id ∈ store.ids) :
    ∃ node ∈ store.nodes, node.id = id :=
  (Cell.mem_forestIds _ _).mp live

theorem map_id_trees_replace (store : Store) (id : CellId) (value : Num) (ring : Ring Cell) (pool : Pool) :
    (store.replace id value ring pool).trees.map Cell.id = store.trees.map Cell.id := by
  simp only [replace, Cell.forestReplace, Cell.forestAmend_eq, List.map_map]
  apply List.map_congr_left
  intro tree _
  exact Cell.id_amend id (Cell.withRing value ring) tree fun _ => rfl

/-- What happens within the tree does not touch its top. -/
theorem Rooted.replace {root : CellId} {store : Store} (rooted : store.Rooted root) {id : CellId} {value : Num}
    {ring : Ring Cell} {pool : Pool} (sound : (store.replace id value ring pool).Sound) :
    (store.replace id value ring pool).Rooted root := by
  refine ⟨sound, ?_⟩
  rw [map_id_trees_replace]
  exact rooted.single

section Present

variable {store : Store} (sound : store.Sound) {host : Cell} (inside : host ∈ store.nodes)

include sound inside

theorem host_mem_ids {value : Num} {ring : Ring Cell} {pool : Pool} :
    host.id ∈ (store.replace host.id value ring pool).ids := by
  have present := mem_ids_of_mem_nodes (host_mem_replace sound.distinct inside value ring pool)
  exact present

theorem member_mem_ids {value : Num} {ring : Ring Cell} {pool : Pool} {member : Cell}
    (ofRing : member ∈ ring.members) : member.id ∈ (store.replace host.id value ring pool).ids := by
  have present := host_mem_replace sound.distinct inside value ring pool
  have child : member ∈ (host.withRing value ring).ring.members := ofRing
  exact mem_ids_of_mem_nodes (member_mem_nodes present child)

end Present

theorem Rooted.root_mem {root : CellId} {store : Store} (rooted : store.Rooted root) : root ∈ store.ids := by
  have first : root ∈ store.trees.map Cell.id := by simp [rooted.single]
  obtain ⟨top, isTop, rfl⟩ := List.mem_map.mp first
  exact mem_ids_of_mem_nodes (tree_mem_nodes isTop)

theorem rooted_plantBytes (bytes : List UInt8) (short : bytes.length < 2 ^ 63) :
    (Store.empty.plantBytes bytes).2.Rooted (Store.empty.plantBytes bytes).1 :=
  ⟨sound_plantBytes sound_empty bytes short, rfl⟩

/--
On the given store of one tree the program keeps the tree, and its result is as described. If it fails it has
lost no cell, and it has not met a slot without a cell.
-/
def Keeps {α : Type} (root : CellId) (store : Store) (program : StoreM α) (holds : α → Store → Prop) :
    Prop :=
  Meets (· = store) program (fun result reached => reached.Rooted root ∧ holds result reached)
    (fun fault reached => reached.Rooted root ∧ store.ids ⊆ reached.ids ∧ ∀ id, fault ≠ .stale id)

/-- The result is a cell, and no cell has been lost. -/
def Finds (store : Store) (result : CellId) (reached : Store) : Prop :=
  result ∈ reached.ids ∧ store.ids ⊆ reached.ids

section Keeps

variable {α : Type} {root : CellId} {store reached : Store} {program : StoreM α} {holds : α → Store → Prop}

theorem keeps_of_ok {result : α} (ran : program store = .ok result reached) (rooted : reached.Rooted root)
    (fulfilled : holds result reached) : Keeps root store program holds := by
  rintro _ rfl
  rw [ran]
  exact ⟨rooted, fulfilled⟩

theorem keeps_of_error {fault : Fault} (rooted : store.Rooted root) (ran : program store = .error fault store)
    (other : ∀ id, fault ≠ .stale id) : Keeps root store program holds := by
  rintro _ rfl
  rw [ran]
  exact ⟨rooted, List.Subset.refl _, other⟩

theorem Keeps.imp {weaker : α → Store → Prop} (keeps : Keeps root store program holds)
    (implies : ∀ result reached, holds result reached → weaker result reached) :
    Keeps root store program weaker :=
  Meets.imp keeps (fun _ same => same) fun result reached outcome =>
    ⟨outcome.1, implies result reached outcome.2⟩

theorem keeps_pure {result : α} (rooted : store.Rooted root) (fulfilled : holds result store) :
    Keeps root store (pure result) holds :=
  keeps_of_ok rfl rooted fulfilled

/-- A first part that loses no cell leaves the rest to keep what it finds. -/
theorem Keeps.bind {β : Type} {rest : α → StoreM β} {after : β → Store → Prop}
    (keeps : Keeps root store program holds)
    (grows : ∀ result reached, holds result reached → store.ids ⊆ reached.ids)
    (onward : ∀ result reached, reached.Rooted root → holds result reached →
      Keeps root reached (rest result) after) : Keeps root store (program >>= rest) after := by
  apply Meets.bind keeps
  rintro result reached ⟨rooted, fulfilled⟩
  have outcome := onward result reached rooted fulfilled reached rfl
  cases ran : rest result reached with
  | ok value final =>
      rw [ran] at outcome
      exact outcome
  | error fault final =>
      rw [ran] at outcome
      exact ⟨outcome.1, List.Subset.trans (grows result reached fulfilled) outcome.2.1, outcome.2.2⟩

end Keeps

section Operations

variable {root : CellId} {store : Store} (rooted : store.Rooted root) {id : CellId} (live : id ∈ store.ids)

include rooted live

theorem run_parentOf_of_top (none : store.parent? id = none) :
    parentOf id store = .error (.detached id) store := by
  obtain ⟨node, inside, rfl⟩ := exists_node_of_mem_ids live
  have present := cell?_of_mem rooted.sound.distinct inside
  rw [parentOf, run_bind_ok (run_get store), none]
  exact run_bind_ok (run_cell_of_some present)

/-- An operation on siblings is refused at the top, and elsewhere finds its cell seated. -/
theorem keeps_of_seat {α : Type} {program : StoreM α} {holds : α → Store → Prop}
    (refused : ∀ fault, parentOf id store = .error fault store → program store = .error fault store)
    (seated : ∀ host member index, host ∈ store.nodes → host.Seats index member → member.id = id →
      store.parent? id = some host → Keeps root store program holds) : Keeps root store program holds := by
  cases found : store.parent? id with
  | none =>
      exact keeps_of_error rooted (refused _ (run_parentOf_of_top rooted live found)) (by simp)
  | some host =>
      obtain ⟨inside, index, member, seat, same⟩ := seat_of_parent? rooted.sound found
      exact seated host member index inside seat same found

theorem keeps_walk {step : CellId → StoreM CellId} {distance : Int} (leads : Strides step distance)
    (refused : ∀ fault, parentOf id store = .error fault store → step id store = .error fault store) :
    Keeps root store (step id) (Finds store) := by
  apply keeps_of_seat rooted live refused
  intro host member index inside seat same _
  obtain ⟨target, ring, pool, ran, grown, there⟩ := leads store host member index rooted.sound inside seat
  have sound := rooted.sound.grow inside grown
  have fits : (host.withRing host.value ring).Fits := grown.fits
  rw [same] at ran
  refine keeps_of_ok ran (rooted.replace sound) ⟨member_mem_ids rooted.sound inside (there.member fits), ?_⟩
  exact ids_subset_of_usage rooted.sound sound grown.usage_le

theorem keeps_child : Keeps root store (child id) (Finds store) := by
  obtain ⟨host, inside, rfl⟩ := exists_node_of_mem_ids live
  have hostFits := rooted.sound.rings host inside
  rcases Nat.eq_zero_or_pos host.value.places with barren | positive
  · exact keeps_of_error rooted (run_child_barren rooted.sound.distinct inside hostFits barren) (by simp)
  · obtain ⟨target, ring, pool, ran, grown, there⟩ := run_child rooted.sound inside positive
    have sound := rooted.sound.grow inside grown
    have fits : (host.withRing host.value ring).Fits := grown.fits
    refine keeps_of_ok ran (rooted.replace sound) ⟨member_mem_ids rooted.sound inside (there.member fits), ?_⟩
    exact ids_subset_of_usage rooted.sound sound grown.usage_le

theorem keeps_prev : Keeps root store (prev id) (Finds store) :=
  keeps_walk rooted live strides_prev fun _ => run_bind_error

theorem keeps_next : Keeps root store (next id) (Finds store) :=
  keeps_walk rooted live strides_next fun _ => run_bind_error

theorem keeps_shiftBack (count : Num) : Keeps root store (shiftBack id count) (Finds store) :=
  keeps_walk rooted live (strides_shiftBack count) fun _ refused => run_bind_error (run_bind_error refused)

theorem keeps_shiftForward (count : Num) : Keeps root store (shiftForward id count) (Finds store) :=
  keeps_walk rooted live (strides_shiftForward count) fun _ refused => run_bind_error (run_bind_error refused)

theorem keeps_makeFirst : Keeps root store (makeFirst id) (fun _ reached => id ∈ reached.ids) := by
  apply keeps_of_seat rooted live fun _ => run_bind_error
  intro host member index inside seat same _
  obtain ⟨ring, ran, fits, members, _⟩ := run_makeFirst rooted.sound inside seat
  have sound := rooted.sound.rearrange inside fits members
  rw [same] at ran
  refine keeps_of_ok ran (rooted.replace sound) ?_
  rw [← same]
  exact member_mem_ids rooted.sound inside (members.mem_iff.mpr (seat.member (rooted.sound.rings host inside)))

omit live in
/-- A growth and then an insertion give back no slot. -/
theorem keeps_of_spliced {host : Cell} (inside : host ∈ store.nodes) {program : StoreM CellId} {fresh : CellId}
    {wide ring : Ring Cell} {between after : Pool} {position : Nat} {value : Num}
    (ran : program store = .ok fresh (store.replace host.id (host.value + 1) ring after))
    (grown : host.Grown wide store.pool between)
    (spliced : (host.withRing host.value wide).Spliced position fresh value ring between after) :
    Keeps root store program (Finds store) := by
  have sound := rooted.sound.splice inside grown spliced
  have entered : Cell.leaf fresh value ∈ ring.members := spliced.members.mem_iff.mpr List.mem_cons_self
  refine keeps_of_ok ran (rooted.replace sound) ⟨member_mem_ids rooted.sound inside entered, ?_⟩
  apply ids_subset_of_usage rooted.sound sound
  intro other
  have first := grown.usage_le other
  rw [pool_replace, spliced.taken other]
  omega

theorem keeps_insertBefore (value : Num)
    (room : ∀ host, store.parent? id = some host → host.value.toInt < Num.greatest) :
    Keeps root store (insertBefore id value) (Finds store) := by
  apply keeps_of_seat rooted live fun _ refused => run_bind_error (run_bind_error refused)
  intro host member index inside seat same found
  obtain ⟨fresh, wide, ring, between, after, ran, grown, spliced⟩ :=
    run_insertBefore rooted.sound inside seat value (room host found)
  rw [same] at ran
  exact keeps_of_spliced rooted inside ran grown spliced

theorem keeps_insertAfter (value : Num)
    (room : ∀ host, store.parent? id = some host → host.value.toInt < Num.greatest) :
    Keeps root store (insertAfter id value) (Finds store) := by
  apply keeps_of_seat rooted live fun _ refused => run_bind_error (run_bind_error refused)
  intro host member index inside seat same found
  obtain ⟨fresh, wide, ring, between, after, ran, grown, spliced⟩ :=
    run_insertAfter rooted.sound inside seat value (room host found)
  rw [same] at ran
  exact keeps_of_spliced rooted inside ran grown spliced

/-- A deletion comes out at the cell that follows, or at the parent if it took the only child. -/
theorem keeps_deleteAlong {step : CellId → StoreM CellId} {unit : Int} (leads : Strides step unit)
    (sign : unit = 1 ∨ unit = -1) :
    Keeps root store (deleteAlong step id) (fun target reached => target ∈ reached.ids) := by
  apply keeps_of_seat rooted live fun _ => run_bind_error
  intro host member index inside seat same _
  rw [← same]
  by_cases last : host.value = 1
  · exact keeps_of_ok (run_deleteAlong_last rooted.sound inside seat last step)
      (rooted.replace (rooted.sound.clear inside 0)) (host_mem_ids rooted.sound inside)
  · obtain ⟨gone, survivor, wide, ring, between, ran, grown, _, stays, severed⟩ :=
      run_deleteAlong rooted.sound inside seat last leads sign
    exact keeps_of_ok ran (rooted.replace (rooted.sound.sever inside grown severed))
      (member_mem_ids rooted.sound inside stays)

theorem keeps_setValue (value : Num) :
    Keeps root store (setValue id value) (fun _ reached => id ∈ reached.ids) := by
  obtain ⟨host, inside, rfl⟩ := exists_node_of_mem_ids live
  exact keeps_of_ok (run_setValue rooted.sound inside value) (rooted.replace (rooted.sound.clear inside value))
    (host_mem_ids rooted.sound inside)

theorem keeps_copyFrom {other : Store} {source : CellId} (otherSound : other.Sound)
    (present : source ∈ other.ids) :
    Keeps root store (copyFrom id other source) (fun _ reached => id ∈ reached.ids) := by
  obtain ⟨host, inside, rfl⟩ := exists_node_of_mem_ids live
  obtain ⟨image, imageInside, rfl⟩ := exists_node_of_mem_ids present
  have sound := rooted.sound.overwrite inside fun node below =>
    otherSound.rings node (Cell.forestNodes_subset _ _ imageInside _ below)
  have ran := run_overwrite rooted.sound inside image
  rw [copyFrom, cell?_of_mem otherSound.distinct imageInside]
  exact keeps_of_ok ran (rooted.replace sound) (host_mem_ids rooted.sound inside)

theorem keeps_cell : Keeps root store (cell id) (fun _ reached => store.ids ⊆ reached.ids) := by
  obtain ⟨host, inside, rfl⟩ := exists_node_of_mem_ids live
  have ran := run_cell_of_some (cell?_of_mem rooted.sound.distinct inside)
  exact keeps_of_ok ran rooted (List.Subset.refl _)

theorem keeps_isTop : Keeps root store (isTop id) (fun _ reached => store.ids ⊆ reached.ids) := by
  obtain ⟨host, inside, rfl⟩ := exists_node_of_mem_ids live
  exact keeps_of_ok (run_isTop rooted.sound inside) rooted (List.Subset.refl _)

theorem keeps_parentOf : Keeps root store (parentOf id) (fun parent => Finds store parent.id) := by
  apply keeps_of_seat rooted live fun _ refused => refused
  intro host member index inside seat same found
  exact keeps_of_ok (run_parentOf_of_some found) rooted ⟨mem_ids_of_mem_nodes inside, List.Subset.refl _⟩

omit live in
/-- Reading off a ring makes the members that were not there. -/
theorem keeps_valuesFrom (count : Nat) (live : id ∈ store.ids) :
    Keeps root store (valuesFrom count id) (fun _ reached => store.ids ⊆ reached.ids) := by
  induction count generalizing store id with
  | zero => exact keeps_pure rooted (List.Subset.refl _)
  | succ count induction =>
      cases count with
      | zero =>
          apply (keeps_cell rooted live).bind
          · exact fun _ _ grown => grown
          · exact fun _ _ rooted grown => keeps_pure rooted grown
      | succ count =>
          apply (keeps_cell rooted live).bind
          · exact fun _ _ grown => grown
          intro _ between rooted before
          apply (keeps_next rooted (before live)).bind
          · exact fun _ _ found => found.2
          intro target reached rooted found
          apply (induction rooted found.1).bind
          · exact fun _ _ grown => grown
          · exact fun _ _ rooted grown =>
              keeps_pure rooted (List.Subset.trans before (List.Subset.trans found.2 grown))

end Operations

end Store

end RingTape
