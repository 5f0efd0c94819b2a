import RingTape.Proofs.Sound
import Mathlib.Logic.Relation

/-!
The links between the cells of a store, and what it means that they are well-formed. Each cell has a parent,
two neighbours and an anchor among its children, any of which may be missing; walking along these links from
the anchor gives the materialised children of a cell. `WellFormed` says everything about the links and the free
slots that users of a store rely on, and `wellFormed_iff_sound` reduces it to the two conditions of `Sound`.
-/

namespace RingTape

set_option autoImplicit false

namespace Ring

variable {α : Type}

/-- The place after a place, if a member stands there. -/
def placeAfter? (value : Num) (ring : Ring α) (place : Nat) : Option Nat :=
  if place + 1 < ring.size then some (place + 1)
  else if ring.isClosed value then some 0
  else none

/-- The place before a place, if a member stands there. -/
def placeBefore? (value : Num) (ring : Ring α) (place : Nat) : Option Nat :=
  if 0 < place then some (place - 1)
  else if ring.isClosed value then some (ring.size - 1)
  else none

theorem after?_eq (value : Num) (ring : Ring α) (place : Nat) :
    ring.after? value place = (ring.placeAfter? value place).bind fun other => ring.line[other]? := by
  unfold after? placeAfter?
  split_ifs <;> simp [List.head?_eq_getElem?]

theorem before?_eq (value : Num) (ring : Ring α) (place : Nat) :
    ring.before? value place = (ring.placeBefore? value place).bind fun other => ring.line[other]? := by
  unfold before? placeBefore?
  split_ifs <;> simp [List.getLast?_eq_getElem?, size_eq_length_line]

theorem placeAfter?_lt {value : Num} {ring : Ring α} {place other : Nat} (bounded : place < ring.size)
    (after : ring.placeAfter? value place = some other) : other < ring.size := by
  unfold placeAfter? at after
  split_ifs at after <;> simp at after <;> omega

theorem placeBefore?_lt {value : Num} {ring : Ring α} {place other : Nat} (bounded : place < ring.size)
    (before : ring.placeBefore? value place = some other) : other < ring.size := by
  unfold placeBefore? at before
  split_ifs at before <;> simp at before <;> omega

/-- The two steps undo each other. -/
theorem placeAfter?_eq_some_iff (value : Num) (ring : Ring α) (place other : Nat)
    (placeBound : place < ring.size) (otherBound : other < ring.size) :
    ring.placeAfter? value place = some other ↔ ring.placeBefore? value other = some place := by
  unfold placeAfter? placeBefore?
  split_ifs <;> simp <;> omega

end Ring

namespace Cell

theorem line_ids_nodup {cells : List Cell} (distinct : (forestIds cells).Nodup) {host : Cell}
    (inside : host ∈ forestNodes cells) : (host.ring.line.map Cell.id).Nodup := by
  have spread := (forestIds_perm_children cells).nodup_iff.mp distinct
  have members := (List.nodup_flatMap.mp (List.nodup_append.mp spread).2.1).1 host inside
  have rearranged : (host.ring.line.map Cell.id).Perm (host.ring.members.map Cell.id) := by
    apply List.Perm.map
    exact (List.perm_append_comm).trans ((List.reverse_perm _).append_left _)
  exact rearranged.nodup_iff.mpr members

theorem placeOf_eq {host member : Cell} {place : Nat} (distinct : (host.ring.line.map Cell.id).Nodup)
    (there : host.ring.line[place]? = some member) : host.placeOf member.id = place := by
  obtain ⟨bounded, same⟩ := List.getElem?_eq_some_iff.mp there
  unfold placeOf
  rw [List.findIdx_eq bounded]
  constructor
  · simp [same]
  · intro earlier less
    have earlierBound : earlier < (host.ring.line.map Cell.id).length := by
      rw [List.length_map]
      omega
    have different : (host.ring.line.map Cell.id)[earlier]? ≠ (host.ring.line.map Cell.id)[place]? := by
      intro equal
      have := (List.getElem?_inj earlierBound distinct).mp equal
      omega
    rw [List.getElem?_map, List.getElem?_map, there] at different
    simpa [List.getElem?_eq_getElem (Nat.lt_trans less bounded)] using different

end Cell

namespace Store

def parentLink (store : Store) (id : CellId) : Option CellId :=
  (store.parent? id).map Cell.id

def nextLink (store : Store) (id : CellId) : Option CellId :=
  (store.parent? id).bind fun parent =>
    (parent.ring.after? parent.value (parent.placeOf id)).map Cell.id

def prevLink (store : Store) (id : CellId) : Option CellId :=
  (store.parent? id).bind fun parent =>
    (parent.ring.before? parent.value (parent.placeOf id)).map Cell.id

/-- The child at which the ring of a cell is entered. -/
def anchorLink (store : Store) (id : CellId) : Option CellId :=
  (store.cell? id).bind fun cell => cell.ring.forward.head?.map Cell.id

/-- The cells met from a cell on along `next`, up to a free end or back to the anchor. -/
inductive ForwardWalk (store : Store) (anchor : CellId) : CellId → List CellId → Bool → Prop where
  | free {cell : CellId} : store.nextLink cell = none → ForwardWalk store anchor cell [cell] false
  | wrap {cell : CellId} : store.nextLink cell = some anchor → ForwardWalk store anchor cell [cell] true
  | step {cell following : CellId} {rest : List CellId} {closed : Bool} :
      store.nextLink cell = some following → following ≠ anchor →
        ForwardWalk store anchor following rest closed →
          ForwardWalk store anchor cell (cell :: rest) closed

/-- The cells met before a cell along `prev`, up to a free end. -/
inductive BackwardWalk (store : Store) : CellId → List CellId → Prop where
  | free {cell : CellId} : store.prevLink cell = none → BackwardWalk store cell []
  | step {cell preceding : CellId} {rest : List CellId} :
      store.prevLink cell = some preceding → BackwardWalk store preceding rest →
        BackwardWalk store cell (preceding :: rest)

/-- The children of a cell as the links list them: forward from the anchor, then, if the walk does not come
back to the anchor, backward from it. -/
inductive Lists (store : Store) (parent : CellId) : List CellId → List CellId → Bool → Prop where
  | childless : store.anchorLink parent = none → Lists store parent [] [] false
  | ring {anchor : CellId} {forward : List CellId} :
      store.anchorLink parent = some anchor → ForwardWalk store anchor anchor forward true →
        Lists store parent forward [] true
  | arc {anchor : CellId} {forward backward : List CellId} :
      store.anchorLink parent = some anchor → ForwardWalk store anchor anchor forward false →
        BackwardWalk store anchor backward → Lists store parent forward backward false

theorem Lists.backward_eq_nil {store : Store} {parent : CellId} {forward backward : List CellId}
    {closed : Bool} (lists : Lists store parent forward backward closed) (whole : closed = true) :
    backward = [] := by
  cases lists with
  | childless => rfl
  | ring => rfl
  | arc => simp at whole

/-- The links and the free slots of a store are in order. -/
structure WellFormed (store : Store) : Prop where
  /-- No two cells share a slot. -/
  distinct : store.ids.Nodup
  /-- The free list holds the empty slots, each once. -/
  free_once : store.pool.free.Nodup
  free_iff : ∀ id, id ∈ store.pool.free ↔ id.slot < store.pool.slots ∧ store.contains id = false
  occupied : ∀ id, store.contains id = true → id.slot < store.pool.slots
  live_eq : store.live = store.ids.length
  /-- Every link leads to a cell. -/
  parent_live : ∀ id other, store.parentLink id = some other → store.contains other = true
  prev_live : ∀ id other, store.prevLink id = some other → store.contains other = true
  next_live : ∀ id other, store.nextLink id = some other → store.contains other = true
  anchor_live : ∀ id other, store.anchorLink id = some other → store.contains other = true
  /-- Neighbours agree, and are children of one parent; a cell without parent has none. -/
  next_iff_prev : ∀ id other, store.nextLink id = some other ↔ store.prevLink other = some id
  same_parent : ∀ id other, store.nextLink id = some other →
    store.parentLink id = store.parentLink other
  top_alone : ∀ id, store.parentLink id = none → store.prevLink id = none ∧ store.nextLink id = none
  /-- No cell lies above itself. -/
  acyclic : ∀ id, ¬ Relation.TransGen (fun child parent => store.parentLink child = some parent) id id
  /-- The anchor is one of the children, and missing only if there are none. -/
  anchor_none_iff : ∀ id, store.contains id = true →
    (store.anchorLink id = none ↔ ∀ child, store.parentLink child ≠ some id)
  anchor_child : ∀ id anchor, store.anchorLink id = some anchor → store.parentLink anchor = some id
  /-- The arcs of a cell are what the links list, they hold its children, each once, and they are closed to a
  ring just when all children are there; otherwise both ends are free. -/
  listed : ∀ id cell, store.cell? id = some cell →
    ∃ closed, Lists store id (cell.ring.forward.map Cell.id) (cell.ring.backward.map Cell.id) closed ∧
      (closed = true ↔ (cell.instantiated : Int) = cell.value.toInt ∧ 0 < cell.value.toInt)
  children_iff : ∀ id cell, store.cell? id = some cell → ∀ child,
    child ∈ cell.ring.members.map Cell.id ↔
      store.contains child = true ∧ store.parentLink child = some id
  children_once : ∀ id cell, store.cell? id = some cell → (cell.ring.members.map Cell.id).Nodup
  counted : ∀ id cell, store.cell? id = some cell →
    cell.instantiated = (cell.ring.members.map Cell.id).length
  bounded : ∀ id cell, store.cell? id = some cell → (cell.instantiated : Int) ≤ max cell.value.toInt 0

section Sound

variable {store : Store} (sound : store.Sound)

include sound

theorem exists_place {id : CellId} {parent : Cell} (found : store.parent? id = some parent) :
    ∃ place member, parent ∈ store.nodes ∧ parent.ring.line[place]? = some member ∧ member.id = id ∧
      place < parent.ring.size ∧ parent.placeOf id = place := by
  have ⟨inside, child⟩ := mem_nodes_of_parent? found
  obtain ⟨member, ofRing, same⟩ := List.mem_map.mp child
  obtain ⟨place, bounded, there⟩ := List.getElem_of_mem ((Ring.mem_members_iff _ _).mp ofRing)
  have atPlace : parent.ring.line[place]? = some member := by
    rw [List.getElem?_eq_getElem bounded, there]
  refine ⟨place, member, inside, atPlace, same, ?_, ?_⟩
  · rw [Ring.size_eq_length_line]
    exact bounded
  · rw [← same]
    exact Cell.placeOf_eq (Cell.line_ids_nodup sound.distinct inside) atPlace

theorem parent?_of_line {parent member : Cell} {place : Nat} (inside : parent ∈ store.nodes)
    (there : parent.ring.line[place]? = some member) : store.parent? member.id = some parent := by
  apply parent?_of_mem sound.distinct inside
  apply List.mem_map.mpr
  exact ⟨member, (Ring.mem_members_iff _ _).mpr (List.mem_of_getElem? there), rfl⟩

theorem nextLink_of_line {parent member : Cell} {place : Nat} (inside : parent ∈ store.nodes)
    (there : parent.ring.line[place]? = some member) :
    store.nextLink member.id =
      (parent.ring.placeAfter? parent.value place).bind fun other =>
        parent.ring.line[other]?.map Cell.id := by
  rw [nextLink, parent?_of_line sound inside there, Option.bind_some,
    Cell.placeOf_eq (Cell.line_ids_nodup sound.distinct inside) there, Ring.after?_eq, Option.map_bind]
  rfl

theorem prevLink_of_line {parent member : Cell} {place : Nat} (inside : parent ∈ store.nodes)
    (there : parent.ring.line[place]? = some member) :
    store.prevLink member.id =
      (parent.ring.placeBefore? parent.value place).bind fun other =>
        parent.ring.line[other]?.map Cell.id := by
  rw [prevLink, parent?_of_line sound inside there, Option.bind_some,
    Cell.placeOf_eq (Cell.line_ids_nodup sound.distinct inside) there, Ring.before?_eq, Option.map_bind]
  rfl

/-- A next link joins two places of one ring, one after the other. -/
theorem nextLink_eq_some_iff (id other : CellId) :
    store.nextLink id = some other ↔
      ∃ parent place later member following, parent ∈ store.nodes ∧ place < parent.ring.size ∧
        later < parent.ring.size ∧ parent.ring.line[place]? = some member ∧ member.id = id ∧
        parent.ring.line[later]? = some following ∧ following.id = other ∧
        parent.ring.placeAfter? parent.value place = some later := by
  constructor
  · intro linked
    cases found : store.parent? id with
    | none => simp [nextLink, found] at linked
    | some parent =>
        obtain ⟨place, member, inside, there, same, bounded, _⟩ := exists_place sound found
        rw [← same, nextLink_of_line sound inside there] at linked
        obtain ⟨later, after, target⟩ := Option.bind_eq_some_iff.mp linked
        obtain ⟨following, thereLater, sameLater⟩ := Option.map_eq_some_iff.mp target
        exact ⟨parent, place, later, member, following, inside, bounded,
          Ring.placeAfter?_lt bounded after, there, same, thereLater, sameLater, after⟩
  · rintro ⟨parent, place, later, member, following, inside, _, _, there, same, thereLater, sameLater, after⟩
    rw [← same, nextLink_of_line sound inside there, after, Option.bind_some, thereLater, Option.map_some,
      sameLater]

theorem prevLink_eq_some_iff (id other : CellId) :
    store.prevLink other = some id ↔
      ∃ parent place later member following, parent ∈ store.nodes ∧ place < parent.ring.size ∧
        later < parent.ring.size ∧ parent.ring.line[place]? = some member ∧ member.id = id ∧
        parent.ring.line[later]? = some following ∧ following.id = other ∧
        parent.ring.placeBefore? parent.value later = some place := by
  constructor
  · intro linked
    cases found : store.parent? other with
    | none => simp [prevLink, found] at linked
    | some parent =>
        obtain ⟨later, following, inside, thereLater, sameLater, bounded, _⟩ := exists_place sound found
        rw [← sameLater, prevLink_of_line sound inside thereLater] at linked
        obtain ⟨place, before, target⟩ := Option.bind_eq_some_iff.mp linked
        obtain ⟨member, there, same⟩ := Option.map_eq_some_iff.mp target
        exact ⟨parent, place, later, member, following, inside, Ring.placeBefore?_lt bounded before,
          bounded, there, same, thereLater, sameLater, before⟩
  · rintro ⟨parent, place, later, member, following, inside, _, _, there, same, thereLater, sameLater, before⟩
    rw [← sameLater, prevLink_of_line sound inside thereLater, before, Option.bind_some, there,
      Option.map_some, same]

theorem next_iff_prev_of_sound (id other : CellId) :
    store.nextLink id = some other ↔ store.prevLink other = some id := by
  rw [nextLink_eq_some_iff sound, prevLink_eq_some_iff sound]
  constructor
  · rintro ⟨parent, place, later, member, following, inside, bounded, laterBounded, there, same,
      thereLater, sameLater, after⟩
    exact ⟨parent, place, later, member, following, inside, bounded, laterBounded, there, same,
      thereLater, sameLater, (Ring.placeAfter?_eq_some_iff _ _ _ _ bounded laterBounded).mp after⟩
  · rintro ⟨parent, place, later, member, following, inside, bounded, laterBounded, there, same,
      thereLater, sameLater, before⟩
    exact ⟨parent, place, later, member, following, inside, bounded, laterBounded, there, same,
      thereLater, sameLater, (Ring.placeAfter?_eq_some_iff _ _ _ _ bounded laterBounded).mpr before⟩

theorem parentLink_eq_some_iff (id other : CellId) :
    store.parentLink id = some other ↔
      ∃ parent ∈ store.nodes, parent.id = other ∧ id ∈ parent.ring.members.map Cell.id := by
  constructor
  · intro linked
    obtain ⟨parent, found, same⟩ := Option.map_eq_some_iff.mp linked
    have ⟨inside, child⟩ := mem_nodes_of_parent? found
    exact ⟨parent, inside, same, child⟩
  · rintro ⟨parent, inside, same, child⟩
    rw [parentLink, parent?_of_mem sound.distinct inside child, Option.map_some, same]

theorem parent_larger {child parent : CellId} (linked : store.parentLink child = some parent) :
    ∃ lower upper, store.cell? child = some lower ∧ store.cell? parent = some upper ∧
      lower.nodes.length < upper.nodes.length := by
  obtain ⟨upper, inside, same, ofRing⟩ := (parentLink_eq_some_iff sound _ _).mp linked
  obtain ⟨lower, member, sameChild⟩ := List.mem_map.mp ofRing
  refine ⟨lower, upper, ?_, ?_, Cell.nodes_length_lt_of_member upper lower member⟩
  · rw [← sameChild]
    exact cell?_of_mem sound.distinct (member_mem_nodes inside member)
  · rw [← same]
    exact cell?_of_mem sound.distinct inside

-- The number of cells below a cell grows along every chain of parents.
theorem acyclic_of_sound (id : CellId) :
    ¬ Relation.TransGen (fun child parent => store.parentLink child = some parent) id id := by
  have grows (first last : CellId)
      (chain : Relation.TransGen (fun child parent => store.parentLink child = some parent) first last) :
      ∃ lower upper, store.cell? first = some lower ∧ store.cell? last = some upper ∧
        lower.nodes.length < upper.nodes.length := by
    induction chain with
    | single linked => exact parent_larger sound linked
    | tail _ linked induction =>
        obtain ⟨lower, middle, foundLower, foundMiddle, less⟩ := induction
        obtain ⟨also, upper, foundAlso, foundUpper, more⟩ := parent_larger sound linked
        rw [foundMiddle] at foundAlso
        cases foundAlso
        exact ⟨lower, upper, foundLower, foundUpper, Nat.lt_trans less more⟩
  intro cycle
  obtain ⟨lower, upper, foundLower, foundUpper, less⟩ := grows id id cycle
  rw [foundLower] at foundUpper
  cases foundUpper
  exact Nat.lt_irrefl _ less

/-- From any place at or after the anchor the walk forward lists the rest of the line. -/
theorem forwardWalk_of_line {parent first : Cell} (inside : parent ∈ store.nodes)
    (anchored : parent.ring.line[parent.ring.anchor]? = some first) (count place : Nat)
    (rest : place + count + 1 = parent.ring.size) (later : parent.ring.anchor ≤ place) (member : Cell)
    (there : parent.ring.line[place]? = some member) :
    ForwardWalk store first.id member.id ((parent.ring.line.drop place).map Cell.id) parent.isClosed := by
  have fits := sound.rings parent inside
  have distinct := Cell.line_ids_nodup sound.distinct inside
  have length := Ring.size_eq_length_line parent.ring
  have linked := nextLink_of_line sound inside there
  have split : parent.ring.line.drop place = member :: parent.ring.line.drop (place + 1) := by
    obtain ⟨bounded, same⟩ := List.getElem?_eq_some_iff.mp there
    rw [List.drop_eq_getElem_cons bounded, same]
  induction count generalizing place member with
  | zero =>
      have finished : parent.ring.line.drop (place + 1) = [] := List.drop_eq_nil_of_le (by omega)
      rw [split, finished, List.map_cons, List.map_nil]
      have ending : ¬ place + 1 < parent.ring.size := by omega
      cases closed : parent.isClosed with
      | false =>
          apply ForwardWalk.free
          have open_ : parent.ring.isClosed parent.value = false := closed
          rw [linked]
          simp [Ring.placeAfter?, ending, open_]
      | true =>
          have full : parent.ring.isClosed parent.value = true := closed
          have start : parent.ring.anchor = 0 := by
            have := fits.sealed (by simp [Ring.isClosed] at full; exact full.2)
            simp [Ring.anchor, this]
          apply ForwardWalk.wrap
          rw [linked]
          rw [start] at anchored
          simp [Ring.placeAfter?, ending, full, anchored]
  | succ count induction =>
      have more : place + 1 < parent.ring.size := by omega
      obtain ⟨following, thereNext⟩ : ∃ following, parent.ring.line[place + 1]? = some following :=
        ⟨_, List.getElem?_eq_getElem (by omega)⟩
      have different : following.id ≠ first.id := by
        intro same
        have equal : (parent.ring.line.map Cell.id)[place + 1]? =
            (parent.ring.line.map Cell.id)[parent.ring.anchor]? := by
          rw [List.getElem?_map, List.getElem?_map, thereNext, anchored, Option.map_some, Option.map_some,
            same]
        have := (List.getElem?_inj (by rw [List.length_map]; omega) distinct).mp equal
        omega
      rw [split, List.map_cons]
      refine ForwardWalk.step ?_ different ?_
      · rw [linked]
        simp [Ring.placeAfter?, more, thereNext]
      · apply induction (place + 1) (by omega) (by omega) following thereNext
        · exact nextLink_of_line sound inside thereNext
        · obtain ⟨bounded, same⟩ := List.getElem?_eq_some_iff.mp thereNext
          rw [List.drop_eq_getElem_cons bounded, same]

/-- From any place of an open arc the walk backward lists the line before it. -/
theorem backwardWalk_of_line {parent : Cell} (inside : parent ∈ store.nodes)
    (opened : parent.isClosed = false) (place : Nat) (member : Cell)
    (there : parent.ring.line[place]? = some member) :
    BackwardWalk store member.id ((parent.ring.line.take place).reverse.map Cell.id) := by
  have open_ : parent.ring.isClosed parent.value = false := opened
  induction place generalizing member with
  | zero =>
      apply BackwardWalk.free
      rw [prevLink_of_line sound inside there]
      simp [Ring.placeBefore?, open_]
  | succ place induction =>
      obtain ⟨bounded, _⟩ := List.getElem?_eq_some_iff.mp there
      obtain ⟨preceding, therePrev⟩ : ∃ preceding, parent.ring.line[place]? = some preceding :=
        ⟨_, List.getElem?_eq_getElem (by omega)⟩
      have split : parent.ring.line.take (place + 1) = parent.ring.line.take place ++ [preceding] := by
        rw [List.take_add_one, therePrev]
        rfl
      rw [split, List.reverse_append, List.map_append]
      have linked : store.prevLink member.id = some preceding.id := by
        rw [prevLink_of_line sound inside there]
        simp [Ring.placeBefore?, therePrev]
      exact BackwardWalk.step linked (induction preceding therePrev)

theorem lists_of_sound {cell : Cell} (inside : cell ∈ store.nodes) :
    Lists store cell.id (cell.ring.forward.map Cell.id) (cell.ring.backward.map Cell.id)
      cell.isClosed := by
  have fits := sound.rings cell inside
  have found := cell?_of_mem sound.distinct inside
  have dropped : cell.ring.line.drop cell.ring.anchor = cell.ring.forward := by
    simp [Ring.line, Ring.anchor]
  have taken : (cell.ring.line.take cell.ring.anchor).reverse = cell.ring.backward := by
    simp [Ring.line, Ring.anchor]
  cases arc : cell.ring.forward with
  | nil =>
      have closed : cell.isClosed = false := by simp [Cell.isClosed, Ring.isClosed, arc]
      rw [fits.anchored arc, closed]
      apply Lists.childless
      simp [anchorLink, found, arc]
  | cons first others =>
      have linked : store.anchorLink cell.id = some first.id := by simp [anchorLink, found, arc]
      have anchored : cell.ring.line[cell.ring.anchor]? = some first := by
        rw [← List.head?_drop, dropped, arc, List.head?_cons]
      have positive : cell.ring.anchor < cell.ring.size := by
        simp [Ring.anchor, Ring.size, arc]
      have walk := forwardWalk_of_line sound inside anchored (cell.ring.size - cell.ring.anchor - 1)
        cell.ring.anchor (by omega) (Nat.le_refl _) first anchored
      rw [dropped, arc] at walk
      cases closed : cell.isClosed with
      | true =>
          rw [closed] at walk
          have sealed : cell.ring.backward = [] := by
            apply fits.sealed
            have both := closed
            simp only [Cell.isClosed, Ring.isClosed, Bool.and_eq_true] at both
            exact both.2
          rw [sealed]
          exact Lists.ring linked walk
      | false =>
          rw [closed] at walk
          have back := backwardWalk_of_line sound inside closed cell.ring.anchor first anchored
          rw [taken] at back
          exact Lists.arc linked walk back

theorem ids_perm_of_sound :
    (store.ids ++ store.pool.free).Perm ((List.range store.pool.slots).map CellId.mk) := by
  rw [List.perm_iff_count]
  intro id
  have used := sound.slots id
  have range : ((List.range store.pool.slots).map CellId.mk).count id =
      if id.slot < store.pool.slots then 1 else 0 := by
    have once : ((List.range store.pool.slots).map CellId.mk).Nodup :=
      List.nodup_range.map fun _ _ same => congrArg CellId.slot same
    split
    case isTrue less =>
      exact List.count_eq_one_of_mem once (List.mem_map.mpr ⟨id.slot, List.mem_range.mpr less, rfl⟩)
    case isFalse more =>
      apply List.count_eq_zero_of_not_mem
      intro member
      obtain ⟨slot, less, same⟩ := List.mem_map.mp member
      rw [← same] at more
      exact more (List.mem_range.mp less)
  rw [List.count_append, range]
  simp only [ids, Pool.usage] at used ⊢
  split_ifs at used ⊢ <;> omega

theorem wellFormed_of_sound : store.WellFormed := by
  have distinct := sound.distinct
  have every := ids_perm_of_sound sound
  have spread : (store.ids ++ store.pool.free).Nodup := by
    apply every.nodup_iff.mpr
    exact List.nodup_range.map fun _ _ same => congrArg CellId.slot same
  have bound (id : CellId) : id ∈ store.ids ++ store.pool.free ↔ id.slot < store.pool.slots := by
    rw [every.mem_iff, List.mem_map]
    constructor
    · rintro ⟨slot, less, same⟩
      rw [← same]
      exact List.mem_range.mp less
    · intro less
      exact ⟨id.slot, List.mem_range.mpr less, rfl⟩
  have linkLive (id other : CellId) (linked : store.nextLink id = some other) :
      store.contains id = true ∧ store.contains other = true := by
    obtain ⟨parent, place, later, member, following, inside, _, _, there, same, thereLater, sameLater, _⟩ :=
      (nextLink_eq_some_iff sound _ _).mp linked
    rw [← same, ← sameLater]
    exact ⟨contains_of_mem (line_mem_nodes inside there), contains_of_mem (line_mem_nodes inside thereLater)⟩
  refine ⟨distinct, (List.nodup_append.mp spread).2.1, ?_, ?_, ?_, ?_, ?_, ?_, ?_,
    next_iff_prev_of_sound sound, ?_, ?_, acyclic_of_sound sound, ?_, ?_, ?_, ?_, ?_, ?_, ?_⟩
  case refine_1 =>
    intro id
    rw [← Bool.not_eq_true, contains_iff, ← bound, List.mem_append]
    constructor
    · intro free
      exact ⟨Or.inr free, fun used => (List.nodup_append.mp spread).2.2 id used id free rfl⟩
    · rintro ⟨used | free, unused⟩
      · exact absurd used unused
      · exact free
  case refine_2 =>
    intro id live
    rw [← bound]
    exact List.mem_append_left _ ((contains_iff id).mp live)
  case refine_3 =>
    have total := every.length_eq
    simp only [List.length_append, List.length_map, List.length_range] at total
    rw [live, Pool.used]
    omega
  case refine_4 =>
    intro id other linked
    obtain ⟨parent, inside, same, _⟩ := (parentLink_eq_some_iff sound _ _).mp linked
    rw [← same]
    exact contains_of_mem inside
  case refine_5 =>
    intro id other linked
    exact (linkLive other id ((next_iff_prev_of_sound sound other id).mpr linked)).1
  case refine_6 =>
    intro id other linked
    exact (linkLive id other linked).2
  case refine_7 =>
    intro id other linked
    obtain ⟨cell, found, anchored⟩ := Option.bind_eq_some_iff.mp linked
    obtain ⟨anchor, first, same⟩ := Option.map_eq_some_iff.mp anchored
    have member : anchor ∈ cell.ring.members := List.mem_append_left _ (List.mem_of_mem_head? first)
    rw [← same]
    exact contains_of_mem (member_mem_nodes (mem_nodes_of_cell? found).1 member)
  case refine_8 =>
    intro id other linked
    obtain ⟨parent, place, later, member, following, inside, _, _, there, same, thereLater, sameLater, _⟩ :=
      (nextLink_eq_some_iff sound _ _).mp linked
    rw [← same, ← sameLater, parentLink, parentLink, parent?_of_line sound inside there,
      parent?_of_line sound inside thereLater]
  case refine_9 =>
    intro id top
    have none : store.parent? id = none := Option.map_eq_none_iff.mp top
    simp [prevLink, nextLink, none]
  case refine_10 =>
    intro id live
    obtain ⟨cell, inside, same⟩ := (Cell.mem_forestIds _ _).mp ((contains_iff id).mp live)
    have found : store.cell? id = some cell := by
      rw [← same]
      exact cell?_of_mem distinct inside
    have fits := sound.rings cell inside
    constructor
    · intro none child linked
      obtain ⟨parent, parentInside, parentSame, ofRing⟩ := (parentLink_eq_some_iff sound _ _).mp linked
      have same : parent = cell := node_unique distinct parentInside inside (parentSame.trans same.symm)
      have noForward : cell.ring.forward = [] := by
        simpa [anchorLink, found, List.head?_eq_none_iff] using none
      rw [same] at ofRing
      simp [Ring.members, noForward, fits.anchored noForward] at ofRing
    · intro none
      cases arc : cell.ring.forward with
      | nil => simp [anchorLink, found, arc]
      | cons first others =>
          have linked : store.parentLink first.id = some id := by
            rw [parentLink_eq_some_iff sound]
            exact ⟨cell, inside, same, List.mem_map.mpr ⟨first, by simp [Ring.members, arc], rfl⟩⟩
          exact absurd linked (none first.id)
  case refine_11 =>
    intro id anchor linked
    obtain ⟨cell, found, anchored⟩ := Option.bind_eq_some_iff.mp linked
    obtain ⟨first, atHead, same⟩ := Option.map_eq_some_iff.mp anchored
    rw [parentLink_eq_some_iff sound]
    obtain ⟨inside, sameId⟩ := mem_nodes_of_cell? found
    exact ⟨cell, inside, sameId,
      List.mem_map.mpr ⟨first, List.mem_append_left _ (List.mem_of_mem_head? atHead), same⟩⟩
  case refine_12 =>
    intro id cell found
    obtain ⟨inside, same⟩ := mem_nodes_of_cell? found
    refine ⟨cell.isClosed, same ▸ lists_of_sound sound inside, ?_⟩
    simp only [Cell.isClosed, Ring.isClosed, Ring.isFull, Cell.instantiated, Bool.and_eq_true, beq_iff_eq,
      Bool.not_eq_true', List.isEmpty_eq_false_iff]
    have fits := sound.rings cell inside
    constructor
    · rintro ⟨some, full⟩
      have positive : 0 < cell.ring.forward.length := List.length_pos_of_ne_nil some
      refine ⟨full, ?_⟩
      rw [← full, Ring.size]
      omega
    · rintro ⟨full, positive⟩
      refine ⟨?_, full⟩
      intro none
      rw [Ring.size, none, fits.anchored none] at full
      simp at full
      omega
  case refine_13 =>
    intro id cell found child
    obtain ⟨inside, same⟩ := mem_nodes_of_cell? found
    constructor
    · intro ofRing
      obtain ⟨member, inRing, sameChild⟩ := List.mem_map.mp ofRing
      refine ⟨?_, (parentLink_eq_some_iff sound _ _).mpr ⟨cell, inside, same, ofRing⟩⟩
      rw [← sameChild]
      exact contains_of_mem (member_mem_nodes inside inRing)
    · rintro ⟨_, linked⟩
      obtain ⟨parent, parentInside, parentSame, ofRing⟩ := (parentLink_eq_some_iff sound _ _).mp linked
      rwa [← node_unique distinct parentInside inside (parentSame.trans same.symm)]
  case refine_14 =>
    intro id cell found
    have inside := (mem_nodes_of_cell? found).1
    have spreadChildren := (Cell.forestIds_perm_children store.trees).nodup_iff.mp distinct
    exact (List.nodup_flatMap.mp (List.nodup_append.mp spreadChildren).2.1).1 cell inside
  case refine_15 =>
    intro id cell _
    rw [Cell.instantiated, Ring.size_eq_length_members, List.length_map]
  case refine_16 =>
    intro id cell found
    exact (sound.rings cell (mem_nodes_of_cell? found).1).bounded

end Sound

/-- The conditions on the links hold just when the slots add up and the rings fit. -/
theorem wellFormed_iff_sound (store : Store) : store.WellFormed ↔ store.Sound := by
  refine ⟨fun formed => ⟨?_, Pool.usage_le_one _, ?_⟩, wellFormed_of_sound⟩
  · intro id
    have freeOnce := List.nodup_iff_count_le_one.mp formed.free_once id
    have usedOnce := List.nodup_iff_count_le_one.mp formed.distinct id
    have free := formed.free_iff id
    have occupied := formed.occupied id
    have used : store.contains id = true ↔ id ∈ store.ids := contains_iff id
    rw [← List.count_pos_iff, ← Bool.not_eq_true, used, ← List.count_pos_iff] at free
    rw [used, ← List.count_pos_iff] at occupied
    simp only [ids, Pool.usage] at *
    split_ifs <;> omega
  · intro cell inside
    have found := cell?_of_mem formed.distinct inside
    obtain ⟨closed, lists, closedIff⟩ := formed.listed cell.id cell found
    constructor
    · intro noForward
      have none : store.anchorLink cell.id = none := by simp [anchorLink, found, noForward]
      cases behind : cell.ring.backward with
      | nil => rfl
      | cons last others =>
          have child := (formed.children_iff cell.id cell found last.id).mp
            (List.mem_map.mpr ⟨last, by simp [Ring.members, behind], rfl⟩)
          have live : store.contains cell.id = true := contains_of_mem inside
          exact absurd child.2 ((formed.anchor_none_iff cell.id live).mp none last.id)
    · exact formed.bounded cell.id cell found
    · intro full
      have size : (cell.instantiated : Int) = cell.value.toInt := by
        simpa [Ring.isFull, Cell.instantiated] using full
      by_cases positive : 0 < cell.value.toInt
      · exact List.map_eq_nil_iff.mp (lists.backward_eq_nil (closedIff.mpr ⟨size, positive⟩))
      · have nothing : cell.ring.backward.length = 0 := by
          rw [Cell.instantiated, Ring.size] at size
          omega
        exact List.length_eq_zero_iff.mp nothing

end Store

end RingTape
