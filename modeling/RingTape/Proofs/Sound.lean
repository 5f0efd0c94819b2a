import RingTape.Proofs.Forest

/-!
Sound stores. Two conditions carry everything else: every slot below the high-water mark is either that of one
cell or free once, and every ring is one that its cell's value allows. The first is kept as an equation
between two counts for each slot, so that an operation is accounted for by adding up what it takes from the
pool and what it gives back.
-/

namespace RingTape

set_option autoImplicit false

/-- The materialised part of a ring is one that a cell of this value can have. -/
structure Ring.Fits {α : Type} (value : Num) (ring : Ring α) : Prop where
  anchored : ring.forward = [] → ring.backward = []
  bounded : (ring.size : Int) ≤ max value.toInt 0
  sealed : ring.isFull value = true → ring.backward = []

theorem Ring.fits_empty {α : Type} (value : Num) : (Ring.empty : Ring α).Fits value := by
  constructor
  · intro _
    rfl
  · exact Int.le_max_right _ _
  · intro _
    rfl

theorem Ring.Fits.map {α β : Type} {value : Num} {ring : Ring α} (fits : ring.Fits value)
    (change : α → β) : (ring.map change).Fits value := by
  constructor
  · intro none
    have noForward : ring.forward = [] := by simpa [Ring.map] using none
    simp [Ring.map, fits.anchored noForward]
  · simpa using fits.bounded
  · intro full
    have wasFull : ring.isFull value = true := by simpa [Ring.isFull] using full
    simp [Ring.map, fits.sealed wasFull]

def Cell.Fits (cell : Cell) : Prop :=
  cell.ring.Fits cell.value

namespace Pool

/-- How often a slot is in use: once if it has been handed out and not given back. -/
def usage (pool : Pool) (id : CellId) : Int :=
  (if id.slot < pool.slots then 1 else 0) - pool.free.count id

theorem usage_le_one (pool : Pool) (id : CellId) : pool.usage id ≤ 1 := by
  unfold usage
  split <;> omega

theorem usage_empty (id : CellId) : Pool.empty.usage id = 0 := by
  simp [usage, Pool.empty]

theorem usage_take (pool : Pool) (id : CellId) :
    pool.take.2.usage id = pool.usage id + [pool.take.1].count id := by
  rcases pool with ⟨free, slots⟩
  cases free with
  | nil =>
      have fresh : ([(⟨slots⟩ : CellId)].count id : Int) = if id.slot = slots then 1 else 0 := by
        rcases id with ⟨slot⟩
        by_cases same : slot = slots
        · simp [same]
        · have other : ¬ slots = slot := fun equal => same equal.symm
          simp [same, other]
      simp only [take, usage, fresh, List.count_nil]
      split_ifs <;> omega
  | cons first rest =>
      simp only [take, usage, List.count_cons, List.count_nil]
      split_ifs <;> simp <;> omega

theorem usage_takeMany (count : Nat) (pool : Pool) (id : CellId) :
    (pool.takeMany count).2.usage id = pool.usage id + (pool.takeMany count).1.count id := by
  induction count generalizing pool with
  | zero => simp [takeMany]
  | succ count induction =>
      have first := usage_take pool id
      have others := induction pool.take.2
      simp only [takeMany, List.count_cons, List.count_nil] at first others ⊢
      split_ifs at first ⊢ <;> push_cast at first ⊢ <;> omega

theorem length_takeMany (count : Nat) (pool : Pool) : (pool.takeMany count).1.length = count := by
  induction count generalizing pool with
  | zero => rfl
  | succ count induction => simp [takeMany, induction]

theorem usage_give (ids : List CellId) (pool : Pool) (id : CellId) :
    (pool.give ids).usage id = pool.usage id - ids.count id := by
  simp only [give, usage, List.count_append]
  omega

end Pool

namespace Cell

/-- Replace the value and the ring of a cell. -/
def withRing (value : Num) (ring : Ring Cell) (cell : Cell) : Cell :=
  { cell with value := value, ring := ring }

@[simp]
theorem id_withRing (value : Num) (ring : Ring Cell) (cell : Cell) : (cell.withRing value ring).id = cell.id := rfl

@[simp]
theorem value_withRing (value : Num) (ring : Ring Cell) (cell : Cell) :
    (cell.withRing value ring).value = value := rfl

@[simp]
theorem ring_withRing (value : Num) (ring : Ring Cell) (cell : Cell) :
    (cell.withRing value ring).ring = ring := rfl

theorem withRing_self (cell : Cell) : cell.withRing cell.value cell.ring = cell := by
  simp [withRing]

def forestReplace (id : CellId) (value : Num) (ring : Ring Cell) (cells : List Cell) : List Cell :=
  forestAmend id (withRing value ring) cells

/-- Every slot is used as often as `usage` says, never twice, and every ring fits. -/
structure ForestSound (cells : List Cell) (usage : CellId → Int) : Prop where
  slots : ∀ id, ((forestIds cells).count id : Int) = usage id
  once : ∀ id, usage id ≤ 1
  rings : ∀ node ∈ forestNodes cells, node.Fits

theorem ForestSound.distinct {cells : List Cell} {usage : CellId → Int} (sound : ForestSound cells usage) :
    (forestIds cells).Nodup := by
  rw [List.nodup_iff_count_le_one]
  intro id
  have used := sound.slots id
  have most := sound.once id
  omega

theorem fits_amend (target : CellId) (change : Cell → Cell) (cell : Cell) (other : cell.id ≠ target)
    (fits : cell.Fits) : (cell.amend target change).Fits := by
  rw [amend_of_ne target change cell other]
  exact Ring.Fits.map fits (amend target change)

section Replace

variable {cells : List Cell} {host : Cell} (distinct : (forestIds cells).Nodup)
  (inside : host ∈ forestNodes cells) (value : Num) (ring : Ring Cell)

include distinct

theorem outer_ids_ne (outer : List Cell) (split : Splits cells host outer) :
    ∀ node ∈ outer, node.id ∉ host.ids := by
  intro node member present
  have spread : ((host.nodes ++ outer).map Cell.id).Nodup := (split.1.map Cell.id).nodup_iff.mp distinct
  rw [List.map_append] at spread
  exact (List.nodup_append.mp spread).2.2 node.id present node.id
    (List.mem_map.mpr ⟨node, member, rfl⟩) rfl

theorem ids_nodup (inside : host ∈ forestNodes cells) : host.ids.Nodup := by
  obtain ⟨outer, split⟩ := exists_splits cells host distinct inside
  have spread : ((host.nodes ++ outer).map Cell.id).Nodup := (split.1.map Cell.id).nodup_iff.mp distinct
  rw [List.map_append] at spread
  exact (List.nodup_append.mp spread).1

/-- No cell lies below its own children. -/
theorem id_not_mem_of_below (inside : host ∈ forestNodes cells) {member node : Cell}
    (child : member ∈ host.ring.members) (below : node ∈ member.nodes) : host.id ∉ node.ids := by
  intro present
  have spread := ids_nodup distinct inside
  rw [ids_eq, List.nodup_cons] at spread
  obtain ⟨same, lies, equal⟩ := (mem_ids node host.id).mp present
  apply spread.1
  rw [mem_forestIds_iff_mem_ids]
  exact ⟨member, child, (mem_ids _ _).mpr ⟨same, nodes_subset member node below same lies, equal⟩⟩

/-- The nodes of a forest in which one cell got a new value and a new ring. -/
theorem mem_forestReplace (node : Cell) (inside : host ∈ forestNodes cells) :
    node ∈ forestNodes (forestReplace host.id value ring cells) ↔
      node = host.withRing value ring ∨ (∃ member ∈ ring.members, node ∈ member.nodes) ∨
        ∃ old ∈ forestNodes cells, old.id ∉ host.ids ∧
          node = old.amend host.id (withRing value ring) := by
  obtain ⟨outer, split⟩ := exists_splits cells host distinct inside
  have outside := outer_ids_ne distinct outer split
  rw [forestReplace, (split.2 (withRing value ring)).mem_iff, List.mem_append, nodes_eq, List.mem_cons,
    List.mem_flatMap, or_assoc]
  have amended : node ∈ outer.map (amend host.id (withRing value ring)) ↔
      ∃ old ∈ forestNodes cells, old.id ∉ host.ids ∧
        node = old.amend host.id (withRing value ring) := by
    rw [List.mem_map]
    constructor
    · rintro ⟨old, member, same⟩
      exact ⟨old, split.1.mem_iff.mpr (List.mem_append_right _ member), outside old member, same.symm⟩
    · rintro ⟨old, member, absent, same⟩
      rcases List.mem_append.mp (split.1.mem_iff.mp member) with below | beyond
      · exact absurd ((mem_ids host old.id).mpr ⟨old, below, rfl⟩) absent
      · exact ⟨old, beyond, same.symm⟩
  rw [amended]
  rfl

theorem count_forestReplace (id : CellId) (inside : host ∈ forestNodes cells) :
    (forestIds (forestReplace host.id value ring cells)).count id + (forestIds host.ring.members).count id =
      (forestIds cells).count id + (forestIds ring.members).count id := by
  obtain ⟨outer, split⟩ := exists_splits cells host distinct inside
  have before : (forestIds cells).count id = (host.ids ++ outer.map Cell.id).count id := by
    rw [forestIds, ids, ← List.map_append]
    exact (split.1.map Cell.id).count_eq id
  have keeps : (Cell.id ∘ amend host.id (withRing value ring)) = Cell.id := by
    funext node
    exact id_amend host.id _ node fun _ => rfl
  have after : (forestIds (forestReplace host.id value ring cells)).count id =
      ((host.withRing value ring).ids ++ outer.map Cell.id).count id := by
    have same := ((split.2 (withRing value ring)).map Cell.id).count_eq id
    rw [List.map_append, List.map_map, keeps] at same
    exact same
  rw [before, after, ids_eq, ids_eq]
  simp only [List.count_append, withRing, List.cons_append, List.count_cons]
  omega

omit distinct in
/-- A replacement is sound if what it adds and drops is what the use of the slots gains and loses. -/
theorem ForestSound.replace {usage after : CellId → Int} (sound : ForestSound cells usage)
    (inside : host ∈ forestNodes cells) (fits : ring.Fits value)
    (inner : ∀ member ∈ ring.members, ∀ node ∈ member.nodes, node.Fits)
    (counted : ∀ id, after id + (forestIds host.ring.members).count id =
      usage id + (forestIds ring.members).count id)
    (once : ∀ id, after id ≤ 1) :
    ForestSound (forestReplace host.id value ring cells) after := by
  have distinct := sound.distinct
  constructor
  · intro id
    have counts := count_forestReplace distinct value ring id inside
    have used := sound.slots id
    have change := counted id
    omega
  · exact once
  · intro node member
    rw [mem_forestReplace distinct value ring node inside] at member
    rcases member with same | ⟨child, ofRing, below⟩ | ⟨old, wasThere, absent, same⟩
    · rw [same]
      exact fits
    · exact inner child ofRing node below
    · rw [same]
      apply fits_amend
      · intro equal
        apply absent
        rw [equal]
        exact host.id_mem_ids
      · exact sound.rings old wasThere

end Replace

theorem owns_iff (cell : Cell) (child : CellId) :
    cell.owns child = true ↔ child ∈ cell.ring.members.map Cell.id := by
  simp [owns, Ring.members]

end Cell

namespace Store

/-- The slots of all cells. -/
def ids (store : Store) : List CellId :=
  Cell.forestIds store.trees

/-- Every slot handed out holds one cell or has been given back once, and every ring fits. -/
def Sound (store : Store) : Prop :=
  Cell.ForestSound store.trees store.pool.usage

theorem Sound.distinct {store : Store} (sound : store.Sound) : store.ids.Nodup :=
  Cell.ForestSound.distinct sound

theorem sound_empty : Store.empty.Sound := by
  constructor
  · intro id
    simp [Store.empty, Pool.usage_empty]
  · exact Pool.usage_le_one _
  · simp [Store.empty, Cell.forestNodes]

section LookUp

variable {store : Store} (distinct : store.ids.Nodup)

theorem mem_nodes_of_cell? {id : CellId} {cell : Cell} (found : store.cell? id = some cell) :
    cell ∈ store.nodes ∧ cell.id = id := by
  rw [cell?, Cell.forestFind?_eq] at found
  exact ⟨List.mem_of_find?_eq_some found, by simpa using List.find?_some found⟩

theorem cell?_eq_none_iff (id : CellId) : store.cell? id = none ↔ id ∉ store.ids := by
  rw [cell?, Cell.forestFind?_eq, List.find?_eq_none, ids, Cell.mem_forestIds]
  simp

theorem contains_iff (id : CellId) : store.contains id = true ↔ id ∈ store.ids := by
  rw [contains, Option.isSome_iff_ne_none, Ne, cell?_eq_none_iff, Classical.not_not]

theorem contains_of_mem {node : Cell} (inside : node ∈ store.nodes) : store.contains node.id = true :=
  (contains_iff _).mpr ((Cell.mem_forestIds _ _).mpr ⟨node, inside, rfl⟩)

theorem tree_mem_nodes {tree : Cell} (isTree : tree ∈ store.trees) : tree ∈ store.nodes :=
  (Cell.mem_forestNodes _ _).mpr ⟨tree, isTree, Cell.mem_nodes_self tree⟩

theorem member_mem_nodes {parent member : Cell} (inside : parent ∈ store.nodes)
    (ofRing : member ∈ parent.ring.members) : member ∈ store.nodes :=
  Cell.forestNodes_subset _ _ inside _
    (Cell.mem_nodes_of_member parent member member ofRing (Cell.mem_nodes_self member))

theorem line_mem_nodes {parent member : Cell} {place : Nat} (inside : parent ∈ store.nodes)
    (there : parent.ring.line[place]? = some member) : member ∈ store.nodes :=
  member_mem_nodes inside ((Ring.mem_members_iff _ _).mpr (List.mem_of_getElem? there))

theorem mem_nodes_of_parent? {id : CellId} {parent : Cell} (found : store.parent? id = some parent) :
    parent ∈ store.nodes ∧ id ∈ parent.ring.members.map Cell.id := by
  rw [parent?, Cell.forestFind?_eq] at found
  have owner : parent.owns id = true := by simpa using List.find?_some found
  exact ⟨List.mem_of_find?_eq_some found, (Cell.owns_iff parent id).mp owner⟩

theorem parent?_eq_none_iff (id : CellId) :
    store.parent? id = none ↔ ∀ node ∈ store.nodes, id ∉ node.ring.members.map Cell.id := by
  rw [parent?, Cell.forestFind?_eq, List.find?_eq_none]
  constructor
  · intro none node inside present
    exact none node inside ((Cell.owns_iff _ _).mpr present)
  · intro none node inside present
    exact none node inside ((Cell.owns_iff _ _).mp present)

include distinct

theorem node_unique {left right : Cell} (leftInside : left ∈ store.nodes) (rightInside : right ∈ store.nodes)
    (same : left.id = right.id) : left = right :=
  List.inj_on_of_nodup_map distinct leftInside rightInside same

theorem cell?_of_mem {cell : Cell} (inside : cell ∈ store.nodes) : store.cell? cell.id = some cell := by
  cases found : store.cell? cell.id with
  | none =>
      rw [cell?_eq_none_iff] at found
      exact absurd ((Cell.mem_forestIds _ _).mpr ⟨cell, inside, rfl⟩) found
  | some other =>
      have ⟨otherInside, same⟩ := mem_nodes_of_cell? found
      rw [node_unique distinct otherInside inside same]

theorem parent?_of_mem {parent : Cell} {id : CellId} (inside : parent ∈ store.nodes)
    (child : id ∈ parent.ring.members.map Cell.id) : store.parent? id = some parent := by
  cases found : store.parent? id with
  | none =>
      rw [parent?_eq_none_iff] at found
      exact absurd child (found parent inside)
  | some other =>
      have ⟨otherInside, ofOther⟩ := mem_nodes_of_parent? found
      rw [Cell.parent_unique store.trees distinct other parent otherInside inside id ofOther child]

end LookUp

/-- Replace the value and the ring of one cell, and the pool. -/
def replace (store : Store) (id : CellId) (value : Num) (ring : Ring Cell) (pool : Pool) : Store :=
  ⟨Cell.forestReplace id value ring store.trees, pool⟩

@[simp]
theorem pool_replace (store : Store) (id : CellId) (value : Num) (ring : Ring Cell) (pool : Pool) :
    (store.replace id value ring pool).pool = pool := rfl

@[simp]
theorem replace_replace (store : Store) (id : CellId) (value later : Num) (ring next : Ring Cell)
    (pool rest : Pool) :
    (store.replace id value ring pool).replace id later next rest = store.replace id later next rest := by
  simp only [replace, Cell.forestReplace]
  rw [Cell.forestAmend_forestAmend]
  · rfl
  · intro node
    rfl

theorem mem_nodes_replace {store : Store} (distinct : store.ids.Nodup) {host : Cell}
    (inside : host ∈ store.nodes) (value : Num) (ring : Ring Cell) (pool : Pool) (node : Cell) :
    node ∈ (store.replace host.id value ring pool).nodes ↔
      node = host.withRing value ring ∨ (∃ member ∈ ring.members, node ∈ member.nodes) ∨
        ∃ old ∈ store.nodes, old.id ∉ host.ids ∧
          node = old.amend host.id (Cell.withRing value ring) :=
  Cell.mem_forestReplace distinct value ring node inside

theorem host_mem_replace {store : Store} (distinct : store.ids.Nodup) {host : Cell}
    (inside : host ∈ store.nodes) (value : Num) (ring : Ring Cell) (pool : Pool) :
    host.withRing value ring ∈ (store.replace host.id value ring pool).nodes :=
  (mem_nodes_replace distinct inside value ring pool _).mpr (Or.inl rfl)

/-- A change of one cell is a replacement, if no other cell has its slot. -/
theorem forestAmend_eq_replace {store : Store} (distinct : store.ids.Nodup) {host : Cell}
    (inside : host ∈ store.nodes) (change : Cell → Cell) (value : Num) (ring : Ring Cell)
    (same : change host = host.withRing value ring) :
    Cell.forestAmend host.id change store.trees = Cell.forestReplace host.id value ring store.trees := by
  apply Cell.forestAmend_congr
  intro node member equal
  rw [node_unique distinct member inside equal]
  exact same

theorem replace_self {store : Store} (distinct : store.ids.Nodup) {host : Cell}
    (inside : host ∈ store.nodes) : store.replace host.id host.value host.ring store.pool = store := by
  have kept : Cell.forestAmend host.id (fun cell => cell) store.trees = store.trees := by
    rw [Cell.forestAmend_eq, funext (Cell.amend_unchanged host.id), List.map_id']
  have same := forestAmend_eq_replace distinct inside (fun cell => cell) host.value host.ring
    (by simp [Cell.withRing])
  rw [kept] at same
  rw [replace, ← same]

/-- What a replacement must account for to keep a store sound. -/
theorem Sound.replace {store : Store} (sound : store.Sound) {host : Cell} (inside : host ∈ store.nodes)
    {value : Num} {ring : Ring Cell} {pool : Pool} (fits : ring.Fits value)
    (inner : ∀ member ∈ ring.members, ∀ node ∈ member.nodes, node.Fits)
    (counted : ∀ id, pool.usage id + (Cell.forestIds host.ring.members).count id =
      store.pool.usage id + (Cell.forestIds ring.members).count id) :
    (store.replace host.id value ring pool).Sound :=
  Cell.ForestSound.replace value ring sound inside fits inner counted (Pool.usage_le_one pool)

/-- A slot that has just been taken was not in use. -/
theorem Sound.not_mem_of_taken {store : Store} (sound : store.Sound) {fresh : List CellId} {pool : Pool}
    (taken : ∀ id, pool.usage id = store.pool.usage id + fresh.count id) {id : CellId} (listed : id ∈ fresh) :
    id ∉ store.ids := by
  intro live
  have used : (store.ids.count id : Int) = store.pool.usage id := sound.slots id
  have first := List.count_pos_iff.mpr live
  have more := List.count_pos_iff.mpr listed
  have most := Pool.usage_le_one pool id
  have total := taken id
  omega

end Store

end RingTape
