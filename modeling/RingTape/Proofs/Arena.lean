import RingTape.Proofs.Isomorphism
import RingTape.Proofs.Recursion

/-!
The store as an arena: every slot holds the six fields of its cell, and cells refer to each other by slots. What the
store does to trees is done here by loops that follow links until there is none. No loop counts its rounds: each is
given by one round of it and may go on forever. A loop that does, or that comes to an empty slot, has no result.

A loop that follows one link is told by `Chains`, the slots that the link leads through. `Lays` says that the children
of a cell are linked up as its ring demands, and all loops that only read an arena end on trees that it lays out: the
walks along a ring, the capture of a subtree, and the climb to the top.
-/

namespace RingTape

set_option autoImplicit false

structure Arena where
  slots : CellId → Option Fields
  pool : Pool

/-- All cells of a store by their fields. -/
def Store.arena (store : Store) : Arena :=
  ⟨store.fields?, store.pool⟩

/-- A cell without children and siblings, as it is made. -/
def Fields.blank (parent : CellId) : Fields :=
  ⟨0, 0, none, none, none, some parent⟩

/-- Whether a cell has as many children as its value says. -/
def Fields.isFull (fields : Fields) : Bool :=
  (fields.instantiated : Int) == fields.value.toInt

namespace Arena

def put (arena : Arena) (id : CellId) (fields : Option Fields) : Arena :=
  { arena with slots := fun other => if other = id then fields else arena.slots other }

/-- Change the fields of a cell, if it is there. -/
def amend (arena : Arena) (id : CellId) (change : Fields → Fields) : Arena :=
  { arena with slots := fun other => if other = id then (arena.slots other).map change else arena.slots other }

/-- Change the fields of a cell that must be there. -/
def edit (arena : Arena) (id : CellId) (change : Fields → Fields) : Option Arena :=
  (arena.slots id).map fun _ => arena.amend id change

/-- A new cell below another one. -/
def alloc (arena : Arena) (parent : CellId) : CellId × Arena :=
  let (id, pool) := arena.pool.take
  (id, { arena.put id (some (Fields.blank parent)) with pool := pool })

def discard (arena : Arena) (id : CellId) : Arena :=
  match arena.slots id with
  | some _ => { arena.put id none with pool := arena.pool.give [id] }
  | none => arena

/-- Make two cells neighbours. -/
def link (arena : Arena) (before after : CellId) : Option Arena := do
  let arena ← arena.edit before fun fields => { fields with next := some after }
  arena.edit after fun fields => { fields with prev := some before }

/-- One step along a link, and what comes after it. -/
def chaseRound (arena : Arena) (link : Fields → Option CellId) (stop : Option CellId)
    (onward : Option CellId → Option (List CellId × Bool)) : Option CellId → Option (List CellId × Bool)
  | none => some ([], false)
  | some current =>
      if stop = some current then
        some ([], true)
      else do
        let fields ← arena.slots current
        let (rest, met) ← onward (link fields)
        return (current :: rest, met)

/-- Follow a link from a slot on, until it ends or comes to `stop`: the slots met, and whether `stop` was met. -/
noncomputable def chase (arena : Arena) (link : Fields → Option CellId) (stop cursor : Option CellId) :
    Option (List CellId × Bool) :=
  Recursion.solve (arena.chaseRound link stop) cursor

/-- Whether the climb from a cell comes to `ancestor`. -/
noncomputable def isAncestor (arena : Arena) (ancestor id : CellId) : Option Bool :=
  (arena.chase Fields.parent (some ancestor) (some id)).map Prod.snd

/-- The children of a cell, forward from the anchor and, if that does not lead around, backward from it. -/
noncomputable def materialized (arena : Arena) (id : CellId) : Option (Ring CellId × Bool) := do
  let fields ← arena.slots id
  match fields.firstChild with
  | none => return (Ring.empty, false)
  | some first =>
      let anchor ← arena.slots first
      let (ahead, closed) ← arena.chase Fields.next (some first) anchor.next
      if closed then
        return (⟨first :: ahead, []⟩, true)
      let (behind, _) ← arena.chase Fields.prev none anchor.prev
      return (⟨first :: ahead, behind⟩, false)

/-- The shape of a cell, with the shapes of its children. -/
noncomputable def captureRound (arena : Arena) (below : CellId → Option Snapshot) (id : CellId) : Option Snapshot := do
  let (children, _) ← arena.materialized id
  let fields ← arena.slots id
  let forward ← children.forward.mapM below
  let backward ← children.backward.mapM below
  return ⟨fields.value, Int64.ofNat fields.instantiated, forward, backward⟩

/-- The shape of a cell and of everything below it. -/
noncomputable def capture (arena : Arena) (id : CellId) : Option Snapshot :=
  Recursion.solve arena.captureRound id

section Slots

variable (arena : Arena) {id other : CellId}

theorem slots_put_of_ne (fields : Option Fields) (apart : other ≠ id) :
    (arena.put id fields).slots other = arena.slots other :=
  if_neg apart

theorem slots_amend_self (id : CellId) (change : Fields → Fields) :
    (arena.amend id change).slots id = (arena.slots id).map change :=
  if_pos rfl

theorem slots_amend_of_ne (change : Fields → Fields) (apart : other ≠ id) :
    (arena.amend id change).slots other = arena.slots other :=
  if_neg apart

theorem edit_eq (live : arena.slots id ≠ none) (change : Fields → Fields) :
    arena.edit id change = some (arena.amend id change) := by
  obtain ⟨fields, found⟩ := Option.ne_none_iff_exists'.mp live
  rw [edit, found]
  rfl

end Slots

section Chasing

variable {arena : Arena} {link : Fields → Option CellId} {stop : Option CellId}

theorem chase_eq (cursor : Option CellId) :
    arena.chase link stop cursor = arena.chaseRound link stop (arena.chase link stop) cursor := by
  refine Recursion.solve_eq (fun cursor => ?_) cursor
  cases cursor with
  | none => exact Recursion.finitary_const _
  | some current =>
      simp only [chaseRound]
      split
      case isTrue => exact Recursion.finitary_const _
      case isFalse =>
        exact (Recursion.finitary_const _).bind fun _ => (Recursion.finitary_call _).bind fun _ =>
          Recursion.finitary_const _

theorem chase_none : arena.chase link stop none = some ([], false) := by
  rw [chase_eq, chaseRound]

theorem chase_stop (id : CellId) : arena.chase link (some id) (some id) = some ([], true) := by
  rw [chase_eq, chaseRound, if_pos rfl]

theorem chase_step {id : CellId} {fields : Fields} (apart : stop ≠ some id) (found : arena.slots id = some fields) :
    arena.chase link stop (some id) =
      (arena.chase link stop (link fields)).map fun result => (id :: result.1, result.2) := by
  rw [chase_eq, chaseRound, if_neg apart, found, Option.map_eq_bind]
  rfl

/-- A link leads through the given slots, from each to the next, and from the last of them to `beyond`. -/
def Chains (arena : Arena) (link : Fields → Option CellId) (ids : List CellId) (beyond : Option CellId) : Prop :=
  ∀ place id, ids[place]? = some id →
    ∃ fields, arena.slots id = some fields ∧ link fields = ids[place + 1]?.or beyond

variable {ids : List CellId} {beyond : Option CellId}

theorem Chains.drop (chains : arena.Chains link ids beyond) (count : Nat) :
    arena.Chains link (ids.drop count) beyond := by
  intro place id there
  rw [List.getElem?_drop] at there
  rw [List.getElem?_drop, ← Nat.add_assoc]
  exact chains _ id there

theorem Chains.congr {later : Arena} (chains : arena.Chains link ids beyond)
    (same : ∀ id ∈ ids, (later.slots id).map link = (arena.slots id).map link) : later.Chains link ids beyond := by
  intro place id there
  obtain ⟨fields, found, leads⟩ := chains place id there
  have kept := same id (List.mem_of_getElem? there)
  rw [found, Option.map_some, Option.map_eq_some_iff] at kept
  obtain ⟨fields', found', leads'⟩ := kept
  exact ⟨fields', found', leads'.trans leads⟩

/-- The loop goes through the slots that its link leads through, and goes on behind them. -/
theorem chase_of_chains (chains : arena.Chains link ids beyond) (apart : ∀ id ∈ ids, stop ≠ some id) :
    arena.chase link stop (ids.head?.or beyond) =
      (arena.chase link stop beyond).map fun result => (ids ++ result.1, result.2) := by
  induction ids with
  | nil => simp
  | cons id rest induction =>
      obtain ⟨fields, found, leads⟩ := chains 0 id rfl
      have onward : link fields = rest.head?.or beyond := by
        rw [leads, List.head?_eq_getElem?]
        rfl
      rw [List.head?_cons, Option.some_or, chase_step (apart id List.mem_cons_self) found, onward,
        induction (chains.drop 1) fun other later => apart other (List.mem_cons_of_mem _ later), Option.map_map]
      rfl

/-- A link that leads to an end is followed to that end. -/
theorem chase_to_end (chains : arena.Chains link ids none) (apart : ∀ id ∈ ids, stop ≠ some id) :
    arena.chase link stop ids.head? = some (ids, false) := by
  have walked := chase_of_chains chains apart
  rw [chase_none, Option.or_none] at walked
  simpa using walked

/-- A link that leads to the stop is followed to the stop. -/
theorem chase_to_stop {id : CellId} (chains : arena.Chains link ids (some id)) (apart : ∀ other ∈ ids, other ≠ id) :
    arena.chase link (some id) (ids.head?.or (some id)) = some (ids, true) := by
  rw [chase_of_chains chains fun other among same => apart other among (Option.some.inj same).symm, chase_stop]
  simp

end Chasing

end Arena

theorem Arena.eq_mk {arena : Arena} {slots : CellId → Option Fields} {pool : Pool} (sameSlots : arena.slots = slots)
    (samePool : arena.pool = pool) : arena = ⟨slots, pool⟩ := by
  rw [← sameSlots, ← samePool]

theorem Cell.forestIds_singleton (cell : Cell) : forestIds [cell] = cell.ids := by
  rw [forestIds_cons, forestIds_nil, List.append_nil]

theorem Cell.id_mem_forestIds {cell : Cell} {cells : List Cell} (among : cell ∈ cells) : cell.id ∈ forestIds cells :=
  (mem_forestIds_iff_mem_ids _ _).mpr ⟨cell, among, cell.id_mem_ids⟩

/-- What lies below a cell are the children of the cell and of what lies below it. -/
theorem Cell.mem_forestNodes_members (host node : Cell) :
    node ∈ forestNodes host.ring.members ↔ ∃ parent ∈ host.nodes, node ∈ parent.ring.members := by
  have lower (parent : Cell) : parent ∈ host.nodes ↔ parent = host ∨ parent ∈ forestNodes host.ring.members := by
    rw [nodes_eq, List.mem_cons, forestNodes_eq]
  constructor
  · intro below
    rcases top_or_child _ node below with ofHost | ⟨parent, among, ofRing⟩
    · exact ⟨host, mem_nodes_self host, ofHost⟩
    · exact ⟨parent, (lower parent).mpr (Or.inr among), ofRing⟩
  · rintro ⟨parent, among, ofRing⟩
    rcases (lower parent).mp among with rfl | under
    · exact (mem_forestNodes _ _).mpr ⟨node, ofRing, mem_nodes_self node⟩
    · exact forestNodes_subset _ _ under _ (mem_nodes_of_member parent node node ofRing (mem_nodes_self node))

/-- The fields of a child: what it holds itself, and what the ring of its parent says. -/
def Cell.childFields (parent child : Cell) : Fields :=
  ⟨child.value, child.instantiated, child.ring.forward.head?.map Cell.id, parent.entry.prev? child.id,
    parent.entry.next? child.id, some parent.id⟩

namespace Arena

/-- The children of a cell are in their slots and linked up as the ring of the cell demands. -/
def Lays (arena : Arena) (parent : Cell) : Prop :=
  ∀ child ∈ parent.ring.members, arena.slots child.id = some (parent.childFields child)

/-- The slot of a cell has the value of the cell and leads to its children. -/
def Bears (arena : Arena) (cell : Cell) : Prop :=
  ∃ fields, arena.slots cell.id = some fields ∧ fields.value = cell.value ∧
    fields.instantiated = cell.instantiated ∧ fields.firstChild = cell.ring.forward.head?.map Cell.id

theorem Lays.bears {arena : Arena} {parent child : Cell} (lays : arena.Lays parent)
    (ofRing : child ∈ parent.ring.members) : arena.Bears child :=
  ⟨_, lays child ofRing, rfl, rfl, rfl⟩

/-- Nothing needs to be linked up below a cell without children. -/
theorem lays_of_bare {arena : Arena} {cell node : Cell} (bare : cell.ring = Ring.empty) (below : node ∈ cell.nodes) :
    arena.Lays node := by
  rw [Cell.nodes_eq, bare] at below
  rw [List.mem_singleton.mp below]
  intro child ofRing
  rw [bare] at ofRing
  exact absurd ofRing List.not_mem_nil

theorem Lays.congr {arena later : Arena} {parent : Cell} (lays : arena.Lays parent)
    (same : ∀ child ∈ parent.ring.members, later.slots child.id = arena.slots child.id) : later.Lays parent :=
  fun child ofRing => (same child ofRing).trans (lays child ofRing)

section Rings

theorem closed_backward {cell : Cell} (fits : cell.Fits) (closed : cell.isClosed = true) : cell.ring.backward = [] := by
  have isClosed : cell.ring.isClosed cell.value = true := closed
  rw [Ring.isClosed, Bool.and_eq_true] at isClosed
  exact Ring.Fits.sealed fits isClosed.2

theorem forward_nodup {cell : Cell} (distinct : (cell.ring.line.map Cell.id).Nodup) :
    (cell.ring.forward.map Cell.id).Nodup := by
  rw [Ring.line, List.map_append] at distinct
  exact distinct.of_append_right

variable {arena : Arena} {parent : Cell} (lays : arena.Lays parent) (distinct : (parent.ring.line.map Cell.id).Nodup)

include lays distinct

/-- The links of a child lead to its neighbours in the line. -/
theorem Lays.at_place {child : Cell} {place : Nat} (there : parent.ring.line[place]? = some child) :
    ∃ fields, arena.slots child.id = some fields ∧
      fields.prev = (parent.ring.before? parent.value place).map Cell.id ∧
      fields.next = (parent.ring.after? parent.value place).map Cell.id := by
  have ofRing := (Ring.mem_members_iff _ _).mpr (List.mem_of_getElem? there)
  refine ⟨_, lays child ofRing, ?_, ?_⟩
  · rw [Cell.childFields, Cell.prev?_entry, Cell.placeOf_eq distinct there]
  · rw [Cell.childFields, Cell.next?_entry, Cell.placeOf_eq distinct there]

/-- In an arc, the links forward lead from one end to the other. -/
theorem Lays.chains_line (opened : parent.isClosed = false) :
    arena.Chains Fields.next (parent.ring.line.map Cell.id) none := by
  intro place id there
  rw [List.getElem?_map, Option.map_eq_some_iff] at there
  obtain ⟨child, atPlace, rfl⟩ := there
  obtain ⟨fields, found, _, next⟩ := lays.at_place distinct atPlace
  refine ⟨fields, found, ?_⟩
  have isOpen : parent.ring.isClosed parent.value = false := opened
  rw [next, Ring.after?, isOpen, Ring.size_eq_length_line, Option.or_none, List.getElem?_map]
  split
  case isTrue => rfl
  case isFalse beyond =>
    rw [List.getElem?_eq_none (by omega)]
    simp

/-- And the links backward lead back. -/
theorem Lays.chains_line_reverse (opened : parent.isClosed = false) :
    arena.Chains Fields.prev (parent.ring.line.reverse.map Cell.id) none := by
  intro place id there
  rw [List.getElem?_map, Option.map_eq_some_iff] at there
  obtain ⟨child, atPlace, rfl⟩ := there
  obtain ⟨bounded, _⟩ := List.getElem?_eq_some_iff.mp atPlace
  rw [List.length_reverse] at bounded
  rw [List.getElem?_reverse bounded] at atPlace
  obtain ⟨fields, found, prev, _⟩ := lays.at_place distinct atPlace
  refine ⟨fields, found, ?_⟩
  have isOpen : parent.ring.isClosed parent.value = false := opened
  rw [prev, Ring.before?, isOpen, Option.or_none, List.getElem?_map]
  split
  case isTrue more =>
    rw [List.getElem?_reverse (by omega)]
    congr 2
  case isFalse start =>
    rw [List.getElem?_eq_none (by rw [List.length_reverse]; omega)]
    simp

/-- In a closed ring, the links forward lead from the anchor around to the anchor. -/
theorem Lays.chains_ring (fits : parent.Fits) (closed : parent.isClosed = true) :
    arena.Chains Fields.next (parent.ring.forward.map Cell.id) (parent.ring.forward.head?.map Cell.id) := by
  have isClosed : parent.ring.isClosed parent.value = true := closed
  have straight : parent.ring.line = parent.ring.forward := by
    rw [Ring.line, closed_backward fits closed]
    rfl
  intro place id there
  rw [List.getElem?_map, Option.map_eq_some_iff] at there
  obtain ⟨child, atPlace, rfl⟩ := there
  rw [← straight] at atPlace
  obtain ⟨fields, found, _, next⟩ := lays.at_place distinct atPlace
  refine ⟨fields, found, ?_⟩
  rw [next, Ring.after?, isClosed, Ring.size_eq_length_line, straight, List.getElem?_map]
  split
  case isTrue more =>
    rw [List.getElem?_eq_getElem more]
    rfl
  case isFalse beyond =>
    rw [List.getElem?_eq_none (by omega)]
    rfl

/-- From the anchor on, the links forward lead through one list of the ring. -/
theorem Lays.chains_forward (fits : parent.Fits) :
    arena.Chains Fields.next (parent.ring.forward.map Cell.id)
      (if parent.isClosed then parent.ring.forward.head?.map Cell.id else none) := by
  split
  case isTrue closed => exact lays.chains_ring distinct fits closed
  case isFalse opened =>
    have ahead := (lays.chains_line distinct (Bool.eq_false_iff.mpr opened)).drop parent.ring.anchor
    rw [← List.map_drop] at ahead
    simpa [Ring.line, Ring.anchor] using ahead

/-- In an arc, the links backward lead through the other one. -/
theorem Lays.chains_backward (opened : parent.isClosed = false) :
    arena.Chains Fields.prev (parent.ring.backward.map Cell.id) none := by
  have behind := (lays.chains_line_reverse distinct opened).drop parent.ring.forward.length
  rw [← List.map_drop] at behind
  simpa [Ring.line] using behind

/-- Behind the anchor stands the last cell of a closed ring, or the first of the other list. -/
theorem Lays.anchor_prev (fits : parent.Fits) {first : Cell} (head : parent.ring.forward.head? = some first) :
    ∃ fields, arena.slots first.id = some fields ∧
      fields.prev = if parent.isClosed then parent.ring.forward.getLast?.map Cell.id
        else parent.ring.backward.head?.map Cell.id := by
  have there : parent.ring.line[parent.ring.anchor]? = some first := by
    rw [← head, List.head?_eq_getElem?, Ring.line, Ring.anchor, List.getElem?_append_right (by simp)]
    simp
  obtain ⟨fields, found, prev, _⟩ := lays.at_place distinct there
  refine ⟨fields, found, ?_⟩
  rw [prev]
  cases closed : parent.isClosed with
  | true =>
      have isClosed : parent.ring.isClosed parent.value = true := closed
      have nothing := closed_backward fits closed
      rw [Ring.before?, isClosed, Ring.anchor, Ring.line, nothing]
      rfl
  | false =>
      have isOpen : parent.ring.isClosed parent.value = false := closed
      rw [Ring.before?, isOpen, Ring.anchor, Ring.line]
      cases behind : parent.ring.backward with
      | nil => rfl
      | cons nearest rest => simp

/-- The walk forward from the anchor goes through the rest of the list, and comes back in a closed ring. -/
theorem Lays.chase_forward (fits : parent.Fits) {first : Cell} {rest : List Cell}
    (front : parent.ring.forward = first :: rest) :
    ∃ fields, arena.slots first.id = some fields ∧
      arena.chase Fields.next (some first.id) fields.next = some (rest.map Cell.id, parent.isClosed) := by
  have apart : ∀ id ∈ rest.map Cell.id, id ≠ first.id := by
    have once := forward_nodup distinct
    rw [front, List.map_cons, List.nodup_cons] at once
    exact fun id among same => once.1 (same ▸ among)
  have ahead := lays.chains_forward distinct fits
  rw [front, List.map_cons, List.head?_cons, Option.map_some] at ahead
  obtain ⟨fields, found, next⟩ := ahead 0 first.id rfl
  rw [List.getElem?_cons_succ, ← List.head?_eq_getElem?] at next
  have onward := ahead.drop 1
  refine ⟨fields, found, ?_⟩
  cases closed : parent.isClosed with
  | true =>
      rw [closed, if_pos rfl] at next onward
      rw [next]
      exact chase_to_stop onward apart
  | false =>
      rw [closed, if_neg Bool.false_ne_true] at next onward
      rw [next, Option.or_none]
      exact chase_to_end onward fun id among same => apart id among (Option.some.inj same).symm

/-- The walks of `materialized` end, and list the ring of the cell. -/
theorem Lays.materialized (fits : parent.Fits) (bears : arena.Bears parent) :
    arena.materialized parent.id = some (parent.ring.map Cell.id, parent.isClosed) := by
  obtain ⟨fields, found, _, _, enters⟩ := bears
  rw [Arena.materialized, found]
  cases front : parent.ring.forward with
  | nil =>
      have ring : parent.ring = Ring.empty := by
        rw [← Ring.ofLine_line parent.ring]
        simp [Ring.line, Ring.ofLine, Ring.empty, front, fits.anchored front]
      rw [front] at enters
      simp only [Option.bind_eq_bind, Option.bind_some, enters, List.head?_nil, Option.map_none]
      rw [ring, Cell.isClosed, ring]
      rfl
  | cons first rest =>
      obtain ⟨anchor, anchorFound, ahead⟩ := lays.chase_forward distinct fits front
      have head : parent.ring.forward.head? = some first := by rw [front]; rfl
      obtain ⟨anchor', anchorFound', prev⟩ := lays.anchor_prev distinct fits head
      obtain rfl : anchor' = anchor := Option.some.inj (anchorFound'.symm.trans anchorFound)
      rw [head] at enters
      simp only [Option.bind_eq_bind, Option.bind_some, enters, Option.map_some, anchorFound, ahead]
      cases closed : parent.isClosed with
      | true => simp [Ring.map, front, closed_backward fits closed]
      | false =>
          have behind : arena.chase Fields.prev none (parent.ring.backward.map Cell.id).head? =
              some (parent.ring.backward.map Cell.id, false) :=
            chase_to_end (lays.chains_backward distinct closed) (by simp)
          rw [closed, if_neg Bool.false_ne_true, ← List.head?_map] at prev
          rw [prev, behind, Ring.map, front]
          rfl

end Rings

/-- An arena in which a forest is laid out. -/
structure LaysOut (arena : Arena) (cells : List Cell) : Prop where
  distinct : (Cell.forestIds cells).Nodup
  rings : ∀ node ∈ Cell.forestNodes cells, node.Fits
  bears : ∀ cell ∈ cells, arena.Bears cell
  lays : ∀ node ∈ Cell.forestNodes cells, arena.Lays node

section Reading

variable {arena : Arena} {cells : List Cell} (laid : arena.LaysOut cells)

include laid

theorem LaysOut.bears_node {node : Cell} (inside : node ∈ Cell.forestNodes cells) : arena.Bears node := by
  rcases Cell.top_or_child cells node inside with isTop | ⟨parent, among, ofRing⟩
  · exact laid.bears node isTop
  · exact (laid.lays parent among).bears ofRing

theorem LaysOut.subtree {node : Cell} (inside : node ∈ Cell.forestNodes cells) : arena.LaysOut [node] := by
  have below (lower : Cell) (under : lower ∈ Cell.forestNodes [node]) : lower ∈ Cell.forestNodes cells := by
    obtain ⟨top, isTop, among⟩ := (Cell.mem_forestNodes _ _).mp under
    exact Cell.forestNodes_subset _ _ inside _ (List.mem_singleton.mp isTop ▸ among)
  refine ⟨?_, fun lower under => laid.rings lower (below lower under), ?_, fun lower under =>
    laid.lays lower (below lower under)⟩
  · rw [Cell.forestIds_singleton]
    exact Cell.ids_nodup laid.distinct inside
  · intro cell isTop
    rw [List.mem_singleton.mp isTop]
    exact laid.bears_node inside

theorem LaysOut.materialized {node : Cell} (inside : node ∈ Cell.forestNodes cells) :
    arena.materialized node.id = some (node.ring.map Cell.id, node.isClosed) :=
  (laid.lays node inside).materialized (Cell.line_ids_nodup laid.distinct inside) (laid.rings node inside)
    (laid.bears_node inside)

omit laid in
theorem capture_eq (id : CellId) : arena.capture id = arena.captureRound arena.capture id := by
  refine Recursion.solve_eq (fun id => ?_) id
  have each (children : List CellId) : Recursion.Finitary fun below : CellId → Option Snapshot => children.mapM below :=
    Recursion.finitary_mapM Recursion.finitary_call children
  exact (Recursion.finitary_const _).bind fun _ => (Recursion.finitary_const _).bind fun _ =>
    (each _).bind fun _ => (each _).bind fun _ => Recursion.finitary_const _

omit laid in
theorem mapM_ids {read : CellId → Option Snapshot} (children : List Cell)
    (each : ∀ child ∈ children, read child.id = some child.snapshot) :
    (children.map Cell.id).mapM read = some (children.map Cell.snapshot) := by
  induction children with
  | nil => rfl
  | cons child rest induction =>
      rw [List.map_cons, List.mapM_cons, each child List.mem_cons_self,
        induction fun other later => each other (List.mem_cons_of_mem _ later)]
      rfl

/-- The capture of a subtree goes down to its leaves and ends. -/
theorem LaysOut.capture {node : Cell} (inside : node ∈ Cell.forestNodes cells) :
    arena.capture node.id = some node.snapshot := by
  induction node using Cell.treeInduction with
  | step node induction =>
      have each (child : Cell) (ofRing : child ∈ node.ring.members) : arena.capture child.id = some child.snapshot :=
        induction child ofRing (Cell.forestNodes_subset _ _ inside _
          (Cell.mem_nodes_of_member node child child ofRing (Cell.mem_nodes_self child)))
      have ahead := mapM_ids node.ring.forward fun child among => each child (List.mem_append_left _ among)
      have behind := mapM_ids node.ring.backward fun child among => each child (List.mem_append_right _ among)
      obtain ⟨fields, found, value, count, _⟩ := laid.bears_node inside
      rw [capture_eq, captureRound, laid.materialized inside, found, Cell.snapshot_eq]
      simp only [Option.bind_eq_bind, Option.bind_some, Ring.map]
      rw [ahead, behind, value, count]
      rfl

end Reading

end Arena

namespace Store

section Slots

variable {store : Store} (distinct : store.ids.Nodup)

include distinct

theorem fields?_of_mem {node : Cell} (inside : node ∈ store.nodes) :
    store.fields? node.id = some ⟨node.value, node.instantiated, node.ring.forward.head?.map Cell.id,
      (store.kin node.id).1, (store.kin node.id).2.1, (store.kin node.id).2.2⟩ := by
  have has : store.Has node.id node.entry := Cell.told_of_mem inside
  rw [has.fields? distinct]
  simp [Cell.entry, Cell.instantiated, Ring.map, Ring.size]

theorem lays_arena {parent : Cell} (inside : parent ∈ store.nodes) : store.arena.Lays parent := by
  intro child ofRing
  have has : store.Has parent.id parent.entry := Cell.told_of_mem inside
  have kin := has.kin distinct ((parent.mem_members_entry _).mpr (List.mem_map.mpr ⟨child, ofRing, rfl⟩))
  refine (fields?_of_mem distinct (member_mem_nodes inside ofRing)).trans ?_
  rw [kin]
  rfl

omit distinct in
theorem fields?_eq_none {id : CellId} (absent : id ∉ store.ids) : store.fields? id = none := by
  rw [fields?, (cell?_eq_none_iff id).mpr absent]
  rfl

end Slots

section Laid

variable {store : Store} (sound : store.Sound)

include sound

/-- The arena of a store lays out its trees. -/
theorem Sound.laysOut : store.arena.LaysOut store.trees := by
  refine ⟨sound.distinct, sound.rings, ?_, fun _ => lays_arena sound.distinct⟩
  intro cell isTop
  have inside : cell ∈ store.nodes := (Cell.mem_forestNodes _ _).mpr ⟨cell, isTop, Cell.mem_nodes_self cell⟩
  exact ⟨_, fields?_of_mem sound.distinct inside, rfl, rfl, rfl⟩

/-- Above a cell other than the given one stands what is above its parent. -/
theorem mem_branch_parent {top id child : CellId} (linked : store.parentLink child = some id) (other : top ≠ child) :
    child ∈ store.branch top ↔ id ∈ store.branch top := by
  constructor
  · intro under
    obtain ⟨root, inside, same, branch⟩ := exists_top_of_mem_branch under
    obtain ⟨entry, has, ofRing⟩ := (parentLink_eq_some_iff_has sound.distinct id child).mp linked
    rw [branch] at under ⊢
    exact has.mem_ids_of_child sound.distinct ofRing inside under fun equal => other (same.symm.trans equal.symm)
  · intro under
    exact child_mem_branch sound.distinct under linked

theorem not_mem_branch_of_top {top child : CellId} (linked : store.parentLink child = none) (other : top ≠ child) :
    child ∉ store.branch top := by
  have hung : ∀ id ∈ store.branch top, id = top ∨ store.parentLink id ≠ none := by
    apply branch_induction sound.distinct (fun id => id = top ∨ store.parentLink id ≠ none) (Or.inl rfl)
    intro id child _ _ linked
    exact Or.inr (by simp [linked])
  intro under
  rcases hung child under with same | attached
  · exact other same.symm
  · exact attached linked

theorem exists_fields {id : CellId} (live : id ∈ store.ids) :
    ∃ fields, store.arena.slots id = some fields ∧ fields.parent = store.parentLink id := by
  obtain ⟨entry, has⟩ := exists_has live
  exact ⟨_, has.fields? sound.distinct, rfl⟩

/-- The climb from a live cell ends, and it comes to just the cells that are above the cell. -/
theorem chase_parent (ancestor : CellId) {id : CellId} (live : id ∈ store.ids) :
    ∃ met, store.arena.chase Fields.parent (some ancestor) (some id) =
      some (met, decide (id ∈ store.branch ancestor)) := by
  obtain ⟨top, isTop, under⟩ := (Cell.mem_forestIds_iff_mem_ids _ _).mp live
  have inside : top ∈ store.nodes := (Cell.mem_forestNodes _ _).mpr ⟨top, isTop, Cell.mem_nodes_self top⟩
  have branch : store.branch top.id = top.ids := by simp [Store.branch, cell?_of_mem sound.distinct inside]
  have here {id : CellId} (live : id ∈ store.ids) (same : ancestor = id) :
      ∃ met, store.arena.chase Fields.parent (some ancestor) (some id) =
        some (met, decide (id ∈ store.branch ancestor)) := by
    have itself := mem_branch_self live
    rw [same, Arena.chase_stop]
    exact ⟨[], by simp [itself]⟩
  -- The induction goes down from the top of the tree, and the climb of a child goes on as that of its parent.
  apply branch_induction sound.distinct (fun id => ∃ met,
    store.arena.chase Fields.parent (some ancestor) (some id) = some (met, decide (id ∈ store.branch ancestor)))
    ?_ ?_ id (branch ▸ under)
  · by_cases same : ancestor = top.id
    · exact here ((Cell.mem_forestIds _ _).mpr ⟨top, inside, rfl⟩) same
    · have linked : store.parentLink top.id = none := by
        rw [parentLink, (mem_trees_iff sound inside).mp isTop]
        rfl
      obtain ⟨fields, found, parent⟩ := exists_fields sound ((Cell.mem_forestIds _ _).mpr ⟨top, inside, rfl⟩)
      rw [Arena.chase_step (fun equal => same (Option.some.inj equal)) found, parent, linked, Arena.chase_none]
      exact ⟨[top.id], by simp [not_mem_branch_of_top sound linked same]⟩
  · rintro id child - ⟨met, climbed⟩ linked
    have childLive : child ∈ store.ids := by
      obtain ⟨parent, inside, _, ofRing⟩ := (parentLink_eq_some_iff sound _ _).mp linked
      obtain ⟨member, among, rfl⟩ := List.mem_map.mp ofRing
      exact (Cell.mem_forestIds _ _).mpr ⟨member, member_mem_nodes inside among, rfl⟩
    by_cases same : ancestor = child
    · exact here childLive same
    · obtain ⟨fields, found, parent⟩ := exists_fields sound childLive
      rw [Arena.chase_step (fun equal => same (Option.some.inj equal)) found, parent, linked, climbed]
      exact ⟨child :: met, by simp [mem_branch_parent sound linked same]⟩

/-- The climb gives the answer of the store. -/
theorem isAncestor_arena (ancestor : CellId) {id : CellId} (live : id ∈ store.ids) :
    ∃ answer, store.arena.isAncestor ancestor id = some answer ∧ isAncestor ancestor id store = .ok answer store := by
  obtain ⟨met, climbed⟩ := chase_parent sound ancestor live
  refine ⟨decide (id ∈ store.branch ancestor), by rw [Arena.isAncestor, climbed]; rfl, ?_⟩
  obtain ⟨cell, inside, rfl⟩ := (Cell.mem_forestIds _ _).mp live
  cases found : store.cell? ancestor with
  | some above =>
      obtain ⟨aboveInside, rfl⟩ := mem_nodes_of_cell? found
      rw [run_isAncestor sound aboveInside inside]
      simp [branch, found]
  | none =>
      have other : ancestor ≠ cell.id := by
        rintro rfl
        rw [cell?_of_mem sound.distinct inside] at found
        cases found
      have nothing : store.branch ancestor = [] := by simp [branch, found]
      rw [isAncestor, if_neg other, run_bind_ok (run_cell_of_some (cell?_of_mem sound.distinct inside)),
        run_bind_ok (run_get store), found, nothing]
      rfl

end Laid

section Replacing

variable {store : Store} (distinct : store.ids.Nodup) {host : Cell} (inside : host ∈ store.nodes) {value : Num}
  {ring : Ring Cell} {pool : Pool} (afterDistinct : (store.replace host.id value ring pool).ids.Nodup)

include distinct inside afterDistinct

/-- A new ring changes the ties of its members and of what was in the old ring, and of no other cell. -/
theorem kin_replace {id : CellId} (outside : id ∉ Cell.forestIds ring.members)
    (apart : id = host.id ∨ id ∉ host.ids) :
    (store.replace host.id value ring pool).kin id = store.kin id := by
  apply kin_congr distinct afterDistinct
  intro parent entry ofEntry
  have told := Cell.told_forestReplace distinct inside value ring parent entry
  constructor
  · intro has
    rcases told.mp has with ⟨rfl, rfl⟩ | ⟨node, among, rfl, rfl⟩ | ⟨was, _⟩
    · rw [Ring.members_map] at ofEntry
      obtain ⟨member, among, rfl⟩ := List.mem_map.mp ofEntry
      exact absurd (Cell.id_mem_forestIds among) outside
    · obtain ⟨top, ofRing, under⟩ := (Cell.mem_forestNodes _ _).mp among
      exact absurd ((Cell.mem_forestIds_iff_mem_ids _ _).mpr ⟨top, ofRing, Cell.mem_ids_of_entry under ofEntry⟩) outside
    · exact was
  · intro has
    refine told.mpr (Or.inr (Or.inr ⟨has, ?_⟩))
    intro under
    obtain ⟨node, lower, rfl, rfl⟩ := has.node distinct inside under
    rcases apart with rfl | beyond
    · obtain ⟨member, among, same⟩ := List.mem_map.mp ((node.mem_members_entry _).mp ofEntry)
      have once := Cell.ids_nodup distinct inside
      rw [Cell.ids_eq, List.nodup_cons] at once
      exact once.1 ((Cell.mem_forestIds _ _).mpr
        ⟨member, (Cell.mem_forestNodes_members _ _).mpr ⟨node, lower, among⟩, same⟩)
    · exact beyond (Cell.mem_ids_of_entry lower ofEntry)

/-- The arena of a store in which one cell got a new value and a new ring. -/
theorem arena_replace {arena : Arena} (sameSlots : arena.pool = pool)
    (own : arena.slots host.id = (store.arena.slots host.id).map fun fields =>
      { fields with value := value, instantiated := ring.size, firstChild := ring.forward.head?.map Cell.id })
    (below : ∀ node ∈ (host.withRing value ring).nodes, arena.Lays node)
    (gone : ∀ id ∈ Cell.forestIds host.ring.members, id ∉ Cell.forestIds ring.members → arena.slots id = none)
    (elsewhere : ∀ id, id ∉ host.ids → id ∉ Cell.forestIds ring.members → arena.slots id = store.arena.slots id) :
    arena = (store.replace host.id value ring pool).arena := by
  have present := host_mem_replace distinct inside value ring pool
  have told (id : CellId) (entry : Entry) := Cell.told_forestReplace distinct inside value ring id entry
  have slots : arena.slots = (store.replace host.id value ring pool).fields? := by
    funext id
    by_cases inRing : id ∈ Cell.forestIds ring.members
    · obtain ⟨child, among, rfl⟩ := (Cell.mem_forestIds _ _).mp inRing
      obtain ⟨parent, under, ofRing⟩ := (Cell.mem_forestNodes_members (host.withRing value ring) child).mp among
      have laid := lays_arena afterDistinct (Cell.forestNodes_subset _ _ present _ under) child ofRing
      exact (below parent under child ofRing).trans laid.symm
    by_cases isHost : id = host.id
    · subst isHost
      have before : store.arena.slots host.id = _ := fields?_of_mem distinct inside
      have after := fields?_of_mem afterDistinct present
      rw [Cell.id_withRing, kin_replace distinct inside afterDistinct inRing (Or.inl rfl)] at after
      rw [own, after, before]
      rfl
    by_cases wasBelow : id ∈ host.ids
    · rw [Cell.ids_eq, List.mem_cons] at wasBelow
      rw [gone id (wasBelow.resolve_left isHost) inRing]
      refine (fields?_eq_none ?_).symm
      intro live
      obtain ⟨entry, has⟩ := exists_has live
      rcases (told id entry).mp has with ⟨same, _⟩ | later | ⟨_, outside⟩
      · exact isHost same
      · exact inRing later.mem_ids
      · exact outside (by rw [Cell.ids_eq]; exact List.mem_cons.mpr wasBelow)
    · rw [elsewhere id wasBelow inRing]
      by_cases live : id ∈ store.ids
      · obtain ⟨entry, has⟩ := exists_has live
        exact (fields?_congr distinct afterDistinct has ((told id entry).mpr (Or.inr (Or.inr ⟨has, wasBelow⟩)))
          (kin_replace distinct inside afterDistinct inRing (Or.inr wasBelow))).symm
      · refine (fields?_eq_none live).trans (fields?_eq_none ?_).symm
        intro later
        obtain ⟨entry, has⟩ := exists_has later
        rcases (told id entry).mp has with ⟨same, _⟩ | new | ⟨was, _⟩
        · exact isHost same
        · exact inRing new.mem_ids
        · exact live was.mem_ids
  exact Arena.eq_mk slots sameSlots

end Replacing

end Store

end RingTape
