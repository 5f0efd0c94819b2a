import RingTape.Proofs.Footprint

/-!
The frame law of the store. Each operation touches its subject, or the ring of its subject, and frees what lies below
a cell that it touches. All fields of every other cell stay, and so does every subtree without a touched cell. In
particular, a copy and its original are independent from then on.
-/

namespace RingTape

set_option autoImplicit false

namespace Ring

variable {α : Type}

/-- The next member of a ring is at the next index of the roster, if there is one. -/
theorem after?_eq_roster {value : Num} {ring : Ring α} (fits : ring.Fits value) {index : Nat} {member : α}
    (seated : (ring.roster value)[index]? = some (some member)) :
    ring.after? value (ring.placeAt value index) = (ring.roster value)[turn value.places index 1]?.join := by
  cases after : ring.after? value (ring.placeAt value index) with
  | some following =>
      rw [roster_after? fits seated after]
      rfl
  | none =>
      obtain ⟨short, beyond⟩ := roster_after?_none fits seated after
      unfold size at short
      rw [beyond, roster_gap (Nat.le_refl _) (by omega)]
      rfl

theorem before?_eq_roster {value : Num} {ring : Ring α} (fits : ring.Fits value) {index : Nat} {member : α}
    (seated : (ring.roster value)[index]? = some (some member)) :
    ring.before? value (ring.placeAt value index) = (ring.roster value)[turn value.places index (-1)]?.join := by
  cases before : ring.before? value (ring.placeAt value index) with
  | some preceding =>
      rw [roster_before? fits seated before]
      rfl
  | none =>
      obtain ⟨short, beyond⟩ := roster_before?_none fits seated before
      unfold size at short
      rw [beyond, roster_gap (by omega) (by omega)]
      rfl

theorem turn_natCast (size index count : Nat) : turn size index count = (index + count) % size := by
  rw [turn, ← Int.natCast_add, ← Int.natCast_emod, Int.toNat_natCast]

/-- In a list that is turned, everything comes so many indices earlier. -/
theorem getElem?_rotate_turn {items : List α} (positive : 0 < items.length) (index count : Nat) (distance : Int) :
    (items.rotate count)[turn items.length index distance]? = items[turn items.length index (distance + count)]? := by
  have less := turn_lt items.length index distance positive
  have further := turn_turn items.length index distance count positive
  rw [List.getElem?_rotate less, ← further, ← turn_natCast]

end Ring

namespace Store

/-- The children of a cell that are in the store. -/
def children (store : Store) (id : CellId) : List CellId :=
  ((store.cell? id).map fun cell => cell.ring.members.map Cell.id).getD []

/-- A cell and its children. -/
def family (store : Store) (id : CellId) : List CellId :=
  id :: store.children id

/-- The parent of a cell and all cells of the ring that the cell is in. -/
def kindred (store : Store) (id : CellId) : List CellId :=
  (store.parentLink id).toList.flatMap store.family

/-- The cells below a cell. -/
def below (store : Store) (id : CellId) : List CellId :=
  ((store.cell? id).map Cell.descendants).getD []

/-- The shape of a cell, if it is there. -/
def snapshot? (store : Store) (id : CellId) : Option Snapshot :=
  (store.cell? id).map Cell.snapshot

theorem mem_branch_of_below {store : Store} {top id : CellId} (below : id ∈ store.below top) :
    id ∈ store.branch top := by
  cases found : store.cell? top with
  | none => simp [Store.below, found] at below
  | some root =>
      rw [Store.below, found] at below
      rw [branch, found, Option.map_some, Option.getD_some, Cell.ids_eq]
      exact List.mem_cons_of_mem _ ((Cell.descendants_perm root).mem_iff.mp below)

section Accounts

variable {store : Store} (sound : store.Sound) {host : Cell} (inside : host ∈ store.nodes)

theorem Accounts.of_grown {ring : Ring Cell} {before after : Pool} (grown : host.Grown ring before after) :
    ∃ fresh : List CellId, Accounts host ring before after (fresh.map fun id => Cell.leaf id 0) [] := by
  obtain ⟨fresh, members, taken⟩ := grown.extra
  refine ⟨fresh, members, ?_⟩
  intro id
  have total := taken id
  rw [Cell.forestIds_leaves, Cell.forestIds_nil, List.count_nil]
  omega

theorem Accounts.clear (host : Cell) (pool : Pool) :
    Accounts host Ring.empty pool (pool.give host.descendants) [] host.ring.members := by
  refine ⟨?_, ?_⟩
  · simp [Ring.empty, Ring.members]
  · intro id
    have given := (Cell.descendants_perm host).count_eq id
    rw [Pool.usage_give, given, Cell.forestIds_nil, List.count_nil]
    omega

theorem Accounts.overwrite (store : Store) (host image : Cell) :
    Accounts host (store.copyOver host image).1.ring store.pool (store.copyOver host image).2
      (store.copyOver host image).1.ring.members host.ring.members := by
  have cloned := Cell.cloned_cloneAs image host.id (store.pool.give host.descendants)
  refine ⟨List.perm_append_comm, ?_⟩
  intro id
  have counted := cloned.counted id
  have given := (Cell.descendants_perm host).count_eq id
  rw [Pool.usage_give, given] at counted
  simp only [copyOver]
  omega

theorem Accounts.put {wide ring : Ring Cell} {before between after : Pool} {new : List Cell} {fresh : CellId}
    {value : Num} (accounts : Accounts host wide before between new [])
    (members : ring.members.Perm (Cell.leaf fresh value :: wide.members))
    (taken : ∀ id, after.usage id = between.usage id + [fresh].count id) :
    Accounts host ring before after (Cell.leaf fresh value :: new) [] := by
  refine ⟨?_, ?_⟩
  · exact members.trans (accounts.members.cons _)
  · intro id
    have one := taken id
    have others := accounts.counted id
    rw [Cell.forestIds_cons, Cell.ids_leaf, List.count_append]
    omega

/-- The neighbour that goes may be one that was only made to be taken out again. -/
theorem Accounts.sever {wide ring : Ring Cell} {before between : Pool} {new : List Cell} {gone : Cell}
    (accounts : Accounts host wide before between new []) (members : wide.members.Perm (gone :: ring.members)) :
    Accounts host ring before (between.give (gone.id :: gone.descendants)) new [gone] := by
  refine ⟨members.symm.trans accounts.members, ?_⟩
  intro id
  have total := accounts.counted id
  have given := ((Cell.descendants_perm gone).cons gone.id).count_eq id
  rw [← Cell.ids_eq] at given
  rw [Pool.usage_give, given, Cell.forestIds_cons, Cell.forestIds_nil, List.append_nil]
  rw [Cell.forestIds_nil, List.count_nil] at total
  omega

include sound in
/-- Where nothing is lost, the new members are made of slots that were not in use. -/
theorem Accounts.unused {ring : Ring Cell} {after : Pool} {new : List Cell}
    (accounts : Accounts host ring store.pool after new []) : ∀ id ∈ store.ids, id ∉ Cell.forestIds new := by
  intro id live fresh
  have used : (store.ids.count id : Int) = store.pool.usage id := sound.slots id
  have first := List.count_pos_iff.mpr live
  have second := List.count_pos_iff.mpr fresh
  have balance := accounts.counted id
  have most := Pool.usage_le_one after id
  rw [Cell.forestIds_nil, List.count_nil] at balance
  omega

include sound inside

theorem family_of_mem : store.family host.id = host.id :: host.ring.members.map Cell.id := by
  rw [family, children, cell?_of_mem sound.distinct inside]
  rfl

theorem Accounts.spares_family {value : Num} {ring : Ring Cell} {pool : Pool} {new gone : List Cell}
    (accounts : Accounts host ring store.pool pool new gone) :
    Spares store (store.replace host.id value ring pool) (store.family host.id) (Lost host gone) := by
  rw [family_of_mem sound inside]
  apply accounts.spares sound inside List.mem_cons_self
  intro member child
  exact Or.inr (List.mem_cons_of_mem _ (List.mem_map.mpr ⟨member, child, rfl⟩))

/-- Where nothing is lost, nothing is freed. -/
theorem Accounts.spares_growing {value : Num} {ring : Ring Cell} {pool : Pool} {new : List Cell}
    (accounts : Accounts host ring store.pool pool new []) (freed : CellId → Prop) :
    Spares store (store.replace host.id value ring pool) (store.family host.id) freed := by
  apply (accounts.spares_family sound inside).mono
  intro id _ lost
  exact absurd lost (not_lost_nil host id)

end Accounts

section Operations

variable {store : Store} (sound : store.Sound)

include sound

theorem spares_of_refused {α : Type} {program : StoreM α} (refused : Refused program store)
    (touched : List CellId) (freed : CellId → Prop) : Spares store (leave program store) touched freed := by
  obtain ⟨fault, ran⟩ := refused
  rw [leave_of_error ran]
  exact spares_refl sound.distinct touched freed

theorem assigns_of_refused {α : Type} {program : StoreM α} (refused : Refused program store) (target : CellId)
    (freed : CellId → Prop) : Assigns store (leave program store) target freed := by
  obtain ⟨fault, ran⟩ := refused
  rw [leave_of_error ran]
  exact assigns_refl sound.distinct target freed

/-- An operation on siblings is refused, or it touches the ring in which it finds its cell. -/
theorem spares_of_seat {α : Type} {id : CellId} {program : StoreM α} {freed : CellId → Prop}
    (refused : store.parent? id = none → Refused program store)
    (seated : ∀ host member index, host ∈ store.nodes → host.Seats index member → member.id = id →
      Spares store (leave program store) (store.family host.id) freed) :
    Spares store (leave program store) (store.kindred id) freed := by
  cases found : store.parent? id with
  | none => exact spares_of_refused sound (refused found) _ _
  | some host =>
      obtain ⟨inside, index, member, seat, same⟩ := seat_of_parent? sound found
      have ring : store.kindred id = store.family host.id := by
        simp [kindred, parentLink, found]
      rw [ring]
      exact seated host member index inside seat same

theorem spares_walk {step : CellId → StoreM CellId} {distance : Int} (leads : Strides step distance) (id : CellId)
    (refused : store.parent? id = none → Refused (step id) store) (freed : CellId → Prop) :
    Spares store (leave (step id) store) (store.kindred id) freed := by
  apply spares_of_seat sound refused
  intro host member index inside seated same
  obtain ⟨reached, ring, pool, ran, grown, _⟩ := leads store host member index sound inside seated
  obtain ⟨fresh, accounts⟩ := Accounts.of_grown grown
  rw [← same, leave_of_ok ran]
  exact accounts.spares_growing sound inside freed

theorem spares_child (id : CellId) (freed : CellId → Prop) :
    Spares store (leave (child id) store) (store.family id) freed := by
  cases found : store.cell? id with
  | none => exact spares_of_refused sound ((refused_cell found).bind _) _ _
  | some host =>
      obtain ⟨inside, same⟩ := mem_nodes_of_cell? found
      rw [← same]
      rcases Nat.eq_zero_or_pos host.value.places with barren | positive
      · exact spares_of_refused sound ⟨_, run_child_barren sound.distinct inside (sound.rings host inside) barren⟩ _ _
      · obtain ⟨reached, ring, pool, ran, grown, _⟩ := run_child sound inside positive
        obtain ⟨fresh, accounts⟩ := Accounts.of_grown grown
        rw [leave_of_ok ran]
        exact accounts.spares_growing sound inside freed

/-- Nothing is assumed of the size of the ring: its value may wrap. -/
theorem spares_put {host member : Cell} {index : Nat} (inside : host ∈ store.nodes) {wide : Ring Cell}
    {between : Pool} (grown : host.Grown wide store.pool between)
    (seated : (host.withRing host.value wide).Seats index member) (value : Num) (freed : CellId → Prop) :
    Spares store (leave (do
        let fresh ← takeSlot
        let parent ← parentOf member.id
        install parent.id (parent.value + 1)
          (parent.ring.insertAt (parent.placeOf member.id) (Cell.leaf fresh value))
        return fresh : StoreM CellId) (store.replace host.id host.value wide between)) (store.family host.id) freed := by
  have wideSound := sound.grow inside grown
  have present := host_mem_replace sound.distinct inside host.value wide between
  have put := run_put wideSound present seated value
  have members := members_put_perm (wideSound.rings _ present) seated
    (Cell.leaf (store.replace host.id host.value wide between).pool.take.1 value) (host.value + 1)
  obtain ⟨leaves, wideAccounts⟩ := Accounts.of_grown grown
  have accounts := wideAccounts.put members (Pool.usage_take between)
  rw [leave_of_ok put, Cell.id_withRing, replace_replace]
  exact accounts.spares_growing sound inside freed

theorem spares_insertBefore_of_seat {host member : Cell} {index : Nat} (inside : host ∈ store.nodes)
    {wide : Ring Cell} {between : Pool} (grown : host.Grown wide store.pool between)
    (seated : (host.withRing host.value wide).Seats index member) (value : Num) (freed : CellId → Prop) :
    Spares store (leave (insertBefore member.id value) (store.replace host.id host.value wide between))
      (store.family host.id) freed := by
  have wideSound := sound.grow inside grown
  have present := host_mem_replace sound.distinct inside host.value wide between
  obtain ⟨preceding, wider, later, stepped, further, _⟩ :=
    strides_prev (store.replace host.id host.value wide between) _ member index wideSound present seated
  -- The ring may grow twice, before this and on the way to the place, and that is one growth.
  have still := further.kept index member seated
  have put := spares_put sound inside (grown.trans (sound.rings host inside) further) still value freed
  rw [Cell.id_withRing, Cell.value_withRing, replace_replace] at stepped
  unfold leave at put ⊢
  rw [insertBefore, run_bind_ok stepped]
  exact put

theorem spares_insertBefore (id : CellId) (value : Num) (freed : CellId → Prop) :
    Spares store (leave (insertBefore id value) store) (store.kindred id) freed := by
  have refused (none : store.parent? id = none) : Refused (insertBefore id value) store :=
    ((refused_parentOf none).bind _).bind _
  apply spares_of_seat sound refused
  intro host member index inside seated same
  have inserted := spares_insertBefore_of_seat sound inside
    (Cell.Grown.refl (sound.rings host inside) store.pool) seated value freed
  rw [replace_self sound.distinct inside, same] at inserted
  exact inserted

theorem spares_insertAfter (id : CellId) (value : Num) (freed : CellId → Prop) :
    Spares store (leave (insertAfter id value) store) (store.kindred id) freed := by
  have refused (none : store.parent? id = none) : Refused (insertAfter id value) store :=
    ((refused_parentOf none).bind _).bind _
  apply spares_of_seat sound refused
  intro host member index inside seated same
  obtain ⟨following, wide, between, stepped, grown, there⟩ :=
    strides_next store host member index sound inside seated
  have inserted := spares_insertBefore_of_seat sound inside grown there value freed
  unfold leave at inserted ⊢
  rw [← same, insertAfter, run_bind_ok stepped]
  exact inserted

/-- The neighbours of a cell are next to it in the roster. -/
theorem kin_of_seat {host member : Cell} {index : Nat} (inside : host ∈ store.nodes)
    (seated : host.Seats index member) :
    store.kin member.id =
      (((host.ring.roster host.value)[Ring.turn host.value.places index (-1)]?.join).map Cell.id,
        ((host.ring.roster host.value)[Ring.turn host.value.places index 1]?.join).map Cell.id, some host.id) := by
  have fits := sound.rings host inside
  obtain ⟨found, place⟩ := parent?_of_seat sound inside seated
  rw [kin, prevLink, nextLink, parentLink, found, ← Ring.before?_eq_roster fits seated,
    ← Ring.after?_eq_roster fits seated, ← place]
  rfl

/-- A ring that is read from another cell on has the same neighbours. -/
theorem kin_rearrange {host member : Cell} {index start : Nat} (inside : host ∈ store.nodes)
    (seated : host.Seats index member) {ring : Ring Cell} (fits : ring.Fits host.value)
    (members : ring.members.Perm host.ring.members)
    (turned : ring.roster host.value = (host.ring.roster host.value).rotate start) :
    (store.replace host.id host.value ring store.pool).kin member.id = store.kin member.id := by
  have rearranged := sound.rearrange inside fits members
  have present := host_mem_replace sound.distinct inside host.value ring store.pool
  have bounded := (sound.rings host inside).size_le
  have length := Ring.length_roster host.value host.ring bounded
  have less : index < host.value.places := (Ring.placeAt_lt_of_mem bounded seated).1
  have positive : 0 < (host.ring.roster host.value).length := by omega
  have turning (distance : Int) :
      (ring.roster host.value)[Ring.turn host.value.places index distance]? =
        (host.ring.roster host.value)[Ring.turn host.value.places index (distance + start)]? := by
    rw [turned, ← length]
    exact Ring.getElem?_rotate_turn positive index start distance
  have moved : (host.withRing host.value ring).Seats (Ring.turn host.value.places index (-start)) member := by
    have here := turning (-start)
    rw [Int.add_left_neg, Ring.turn_zero _ _ less] at here
    exact here.trans seated
  have further (distance : Int) :
      Ring.turn host.value.places (Ring.turn host.value.places index (-start)) distance =
        Ring.turn host.value.places index (-start + distance) :=
    Ring.turn_turn _ _ _ _ (by omega)
  rw [kin_of_seat sound inside seated, kin_of_seat rearranged present moved]
  simp only [Cell.value_withRing, Cell.ring_withRing, Cell.id_withRing, further, turning]
  simp

/-- Making a cell the anchor touches only the parent. -/
theorem spares_makeFirst (id : CellId) (freed : CellId → Prop) :
    Spares store (leave (makeFirst id) store) (store.parentLink id).toList freed := by
  cases found : store.parent? id with
  | none => exact spares_of_refused sound ((refused_parentOf found).bind _) _ _
  | some host =>
      obtain ⟨inside, index, member, seated, rfl⟩ := seat_of_parent? sound found
      obtain ⟨ring, ran, fits, members, turned⟩ := run_makeFirst sound inside seated
      have accounts : Accounts host ring store.pool store.pool [] [] := ⟨members, fun _ => rfl⟩
      have distinct := sound.distinct
      have afterDistinct := (sound.rearrange inside fits members).distinct
      have rewrites : Rewrites store (store.replace host.id host.value ring store.pool) (fun id => id = host.id)
          (Lost host []) := accounts.rewrites sound inside
      have stays := not_lost_nil host
      have parent : (store.parentLink member.id).toList = [host.id] := by
        simp [parentLink, found]
      rw [leave_of_ok ran, parent]
      refine ⟨afterDistinct, ?_, ?_⟩
      · intro other live _ untouched
        rw [List.mem_singleton] at untouched
        apply rewrites.fields? distinct afterDistinct live (stays other) untouched
        -- The entry of the parent changes, but what it says of the neighbours of a child does not.
        by_cases sibling : other ∈ host.ring.members.map Cell.id
        · obtain ⟨cell, ofRing, rfl⟩ := List.mem_map.mp sibling
          obtain ⟨place, seat⟩ := Cell.exists_seat (sound.rings host inside) ofRing
          exact kin_rearrange sound inside seat fits members turned
        · apply rewrites.kin distinct afterDistinct live (stays other)
          rintro _ entry rfl has ofRing
          rcases accounts.child_cases sound inside has ofRing live with lost | old
          · exact stays other lost
          · exact sibling old
      · intro other live _ apart
        apply rewrites.cell? distinct afterDistinct live (stays other)
        rintro _ under rfl
        exact apart host.id List.mem_cons_self under

/-- Clearing a cell touches no other cell, since all its children go. -/
theorem assigns_clear {host : Cell} (inside : host ∈ store.nodes) (value : Num) :
    Assigns store (store.replace host.id value Ring.empty (store.pool.give host.descendants)) host.id
      (fun id => id ∉ (store.replace host.id value Ring.empty (store.pool.give host.descendants)).ids) := by
  have accounts := Accounts.clear host store.pool
  apply (accounts.assigns sound inside fun member child => child).mono
  intro id _ lost
  exact accounts.dropped sound inside (by simp) lost

theorem assigns_reset (id : CellId) :
    Assigns store (leave (reset id) store) id (fun other => other ∉ (leave (reset id) store).ids) := by
  cases found : store.cell? id with
  | none => exact assigns_of_refused sound ((refused_cell found).bind _) _ _
  | some host =>
      obtain ⟨inside, same⟩ := mem_nodes_of_cell? found
      rw [← same, leave_of_ok (run_reset sound inside)]
      exact assigns_clear sound inside host.value

theorem assigns_setValue (id : CellId) (value : Num) :
    Assigns store (leave (setValue id value) store) id
      (fun other => other ∉ (leave (setValue id value) store).ids) := by
  cases found : store.cell? id with
  | none => exact assigns_of_refused sound (((refused_cell found).bind _).bind _) _ _
  | some host =>
      obtain ⟨inside, same⟩ := mem_nodes_of_cell? found
      rw [← same, leave_of_ok (run_setValue sound inside value)]
      exact assigns_clear sound inside value

theorem spares_deleteAlong {step : CellId → StoreM CellId} {unit : Int} (leads : Strides step unit)
    (sign : unit = 1 ∨ unit = -1) (id : CellId) :
    Spares store (leave (deleteAlong step id) store) (store.kindred id)
      (fun other => other ∉ (leave (deleteAlong step id) store).ids) := by
  have refused (none : store.parent? id = none) : Refused (deleteAlong step id) store :=
    (refused_parentOf none).bind _
  apply spares_of_seat sound refused
  intro host member index inside seated same
  rw [← same]
  by_cases last : host.value = 1
  · have accounts := Accounts.clear host store.pool
    rw [leave_of_ok (run_deleteAlong_last sound inside seated last step)]
    apply (accounts.spares_family sound inside).mono
    intro other _ lost
    exact accounts.dropped sound inside (by simp) lost
  · obtain ⟨gone, survivor, wide, ring, between, ran, grown, _, _, severed⟩ :=
      run_deleteAlong sound inside seated last leads sign
    obtain ⟨fresh, wideAccounts⟩ := Accounts.of_grown grown
    have accounts := wideAccounts.sever severed.members
    rw [leave_of_ok ran]
    apply (accounts.spares_family sound inside).mono
    intro other _ lost
    exact accounts.dropped sound inside (wideAccounts.unused sound) lost

/-- What was below the target of a copy is freed, even where the copy takes a slot of it again. -/
theorem assigns_copyFrom (target : CellId) (other : Store) (source : CellId) :
    Assigns store (leave (copyFrom target other source) store) target
      (fun id => other.contains source = true ∧ id ∈ store.below target) := by
  cases imageFound : other.cell? source with
  | none => exact assigns_of_refused sound ⟨_, by rw [copyFrom, imageFound]; rfl⟩ _ _
  | some image =>
      have copy : copyFrom target other source = overwrite target image := by
        rw [copyFrom, imageFound]
      rw [copy]
      cases found : store.cell? target with
      | none => exact assigns_of_refused sound (((refused_cell found).bind _).bind _) _ _
      | some host =>
          obtain ⟨inside, same⟩ := mem_nodes_of_cell? found
          subst same
          have accounts := Accounts.overwrite store host image
          rw [leave_of_ok (run_overwrite sound inside image)]
          apply (accounts.assigns sound inside fun member child => child).mono
          rintro id _ ⟨old, child, _, under⟩
          refine ⟨by rw [contains, imageFound]; rfl, ?_⟩
          rw [below, found]
          exact (Cell.descendants_perm host).mem_iff.mpr ((Cell.mem_forestIds_iff_mem_ids _ _).mpr ⟨old, child, under⟩)

theorem assigns_copyWithin (target source : CellId) :
    Assigns store (leave (copyWithin target source) store) target
      (fun id => (target ≠ source ∧ store.contains source = true) ∧ id ∈ store.below target) := by
  unfold copyWithin
  by_cases different : target ≠ source
  · rw [if_pos different]
    simp only [different, ne_eq, not_false_iff, true_and]
    exact assigns_copyFrom sound target store source
  · rw [if_neg different]
    exact assigns_refl sound.distinct target _

end Operations

end Store

end RingTape
