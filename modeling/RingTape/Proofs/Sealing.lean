import RingTape.Proofs.Clearing
import RingTape.Proofs.RingWalk

/-!
Steps along a ring in an arena. A neighbour that does not exist yet is put at the end of the arc, and if that makes the
ring complete, the loop goes to the other end of the arc to close the ring there. The two directions are one program
with a parameter. Its loop ends because an arc has an end, and the index of that end in the roster is next to the index
that was filled.
-/

namespace RingTape

set_option autoImplicit false

/-- The two directions along a ring. -/
inductive Side where
  | before
  | after
deriving DecidableEq, Repr

namespace Side

def opposite : Side → Side
  | before => after
  | after => before

def unit : Side → Int
  | before => -1
  | after => 1

def link : Side → Fields → Option CellId
  | before => Fields.prev
  | after => Fields.next

def setLink (side : Side) (other : Option CellId) (fields : Fields) : Fields :=
  match side with
  | before => { fields with prev := other }
  | after => { fields with next := other }

/-- The step of the store in a direction. -/
def walk : Side → CellId → StoreM CellId
  | before => Store.prev
  | after => Store.next

def push {α : Type} : Side → Ring α → α → Ring α
  | before => Ring.pushBackward
  | after => Ring.pushForward

def neighbour? {α : Type} : Side → Num → Ring α → Nat → Option α
  | before => Ring.before?
  | after => Ring.after?

/-- The index of the roster at which the arc goes on. -/
def gap {α : Type} (side : Side) (value : Num) (ring : Ring α) : Nat :=
  match side with
  | before => value.places - 1 - ring.backward.length
  | after => ring.forward.length

/-- The members of an arc from its end in the given direction to the other one. -/
def arc {α : Type} : Side → Ring α → List α
  | before => Ring.line
  | after => fun ring => ring.line.reverse

@[simp]
theorem opposite_opposite (side : Side) : side.opposite.opposite = side := by
  cases side <;> rfl

@[simp]
theorem link_setLink (side : Side) (other : Option CellId) (fields : Fields) :
    side.link (side.setLink other fields) = other := by
  cases side <;> rfl

@[simp]
theorem opposite_link_setLink (side : Side) (other : Option CellId) (fields : Fields) :
    side.opposite.link (side.setLink other fields) = side.opposite.link fields := by
  cases side <;> rfl

@[simp]
theorem link_opposite_setLink (side : Side) (other : Option CellId) (fields : Fields) :
    side.link (side.opposite.setLink other fields) = side.link fields := by
  cases side <;> rfl

@[simp]
theorem setLink_setLink (side : Side) (first second : Option CellId) (fields : Fields) :
    side.setLink second (side.setLink first fields) = side.setLink second fields := by
  cases side <;> rfl

@[simp]
theorem setLink_link (side : Side) (fields : Fields) : side.setLink (side.link fields) fields = fields := by
  cases side <;> rfl

/-- Two records of fields are the same if they are the same in both directions and in the rest. -/
theorem fields_ext (side : Side) {left right : Fields} (links : side.link left = side.link right)
    (others : side.opposite.link left = side.opposite.link right)
    (rest : (left.value, left.instantiated, left.firstChild, left.parent) =
      (right.value, right.instantiated, right.firstChild, right.parent)) : left = right := by
  rcases left with ⟨value, count, first, prev, next, parent⟩
  rcases right with ⟨value', count', first', prev', next', parent'⟩
  cases side <;> simp_all [link, opposite]

end Side

namespace Arena

/-- Make a cell the neighbour of another one in a direction. -/
def join (arena : Arena) (side : Side) (id neighbour : CellId) : Option Arena :=
  match side with
  | .before => arena.link neighbour id
  | .after => arena.link id neighbour

/-- Close a ring that is complete, from the other end of the arc to the new cell. -/
noncomputable def sealRing (arena : Arena) (side : Side) (parent id fresh : CellId) : Option Arena := do
  let host ← arena.slots parent
  if host.isFull then
    let (arc, _) ← arena.chase side.opposite.link none (some id)
    let last ← arc.getLast?
    arena.join side.opposite last fresh
  else
    return arena

/-- The neighbour of a cell, made if it is missing. -/
noncomputable def neighbour (arena : Arena) (side : Side) (id : CellId) : Option (Except Fault CellId × Arena) := do
  let fields ← arena.slots id
  match side.link fields, fields.parent with
  | some found, _ => return (.ok found, arena)
  | none, none => return (.error (.detached id), arena)
  | none, some parent =>
      let (fresh, arena) := arena.alloc parent
      let arena ← arena.join side id fresh
      let arena ← arena.edit parent fun fields => { fields with instantiated := fields.instantiated + 1 }
      let arena ← arena.sealRing side parent id fresh
      return (.ok fresh, arena)

theorem amend_comm (arena : Arena) (first second : CellId) {left right : Fields → Fields}
    (commute : ∀ fields, left (right fields) = right (left fields)) :
    (arena.amend first left).amend second right = (arena.amend second right).amend first left := by
  refine Arena.eq_mk (funext fun id => ?_) rfl
  simp only [amend]
  split_ifs <;> simp [commute, Function.comp_def]

theorem slots_amend_ne_none (arena : Arena) (id other : CellId) (change : Fields → Fields) :
    (arena.amend id change).slots other ≠ none ↔ arena.slots other ≠ none := by
  simp only [amend]
  split_ifs <;> simp

theorem link_eq {arena : Arena} {before after : CellId} (live : arena.slots before ≠ none)
    (live' : arena.slots after ≠ none) :
    arena.link before after = some ((arena.amend before (Side.after.setLink (some after))).amend after
      (Side.before.setLink (some before))) := by
  rw [link, arena.edit_eq live]
  exact edit_eq _ ((slots_amend_ne_none _ _ _ _).mpr live') _

theorem join_eq {arena : Arena} (side : Side) {id neighbour : CellId} (live : arena.slots id ≠ none)
    (live' : arena.slots neighbour ≠ none) :
    arena.join side id neighbour = some ((arena.amend id (side.setLink (some neighbour))).amend neighbour
      (side.opposite.setLink (some id))) := by
  cases side with
  | after => exact link_eq live live'
  | before => exact (link_eq live' live).trans (congrArg some (arena.amend_comm neighbour id fun _ => rfl))

end Arena

/-- Steps from two indices lead to the same index if the ways differ as the indices do. -/
theorem Ring.turn_eq_iff {size other : Nat} (bound : other < size) (index : Nat) (unit distance : Int) :
    turn size other unit = turn size index distance ↔ other = turn size index (distance - unit) := by
  have positive : 0 < size := by omega
  constructor
  · intro same
    have back := congrArg (turn size · (-unit)) same
    simp only [turn_turn _ _ _ _ positive, Int.add_right_neg, turn_zero _ _ bound] at back
    exact back
  · intro same
    rw [same, turn_turn _ _ _ _ positive, Int.sub_add_cancel]

namespace Side

section Rings

variable {α : Type} (side : Side) {value : Num} {ring : Ring α}

theorem neighbour?_eq_roster (fits : ring.Fits value) {index : Nat} {member : α}
    (seated : (ring.roster value)[index]? = some (some member)) :
    side.neighbour? value ring (ring.placeAt value index) =
      (ring.roster value)[Ring.turn value.places index side.unit]?.join := by
  cases side with
  | before => exact Ring.before?_eq_roster fits seated
  | after => exact Ring.after?_eq_roster fits seated

/-- Where a member has no neighbour, the arc goes on beside it. -/
theorem turn_eq_gap (fits : ring.Fits value) {index : Nat} {member : α}
    (seated : (ring.roster value)[index]? = some (some member))
    (missing : side.neighbour? value ring (ring.placeAt value index) = none) :
    ring.size < value.places ∧ Ring.turn value.places index side.unit = side.gap value ring := by
  cases side with
  | before => exact Ring.roster_before?_none fits seated missing
  | after => exact Ring.roster_after?_none fits seated missing

theorem roster_gap (short : ring.size < value.places) : (ring.roster value)[side.gap value ring]? = some none := by
  unfold Ring.size at short
  cases side with
  | before => exact Ring.roster_gap (by simp only [gap]; omega) (by simp only [gap]; omega)
  | after => exact Ring.roster_gap (Nat.le_refl _) (by simp only [gap]; omega)

/-- The arc goes on at one and the same index in both directions just if one member is missing. -/
theorem gap_opposite (short : ring.size < value.places) :
    side.opposite.gap value ring = side.gap value ring ↔ ring.size + 1 = value.places := by
  unfold Ring.size at *
  cases side <;> simp only [gap, opposite] <;> omega

theorem roster_push (member : α) (short : ring.size < value.places) :
    ((side.push ring member).settle value).roster value =
      (ring.roster value).set (side.gap value ring) (some member) := by
  rw [Ring.roster_settle]
  cases side with
  | before => exact Ring.roster_pushBackward value ring member short
  | after => exact Ring.roster_pushForward value ring member short

theorem fits_push (fits : ring.Fits value) (member : α) (some : 0 < ring.size) (short : ring.size < value.places) :
    ((side.push ring member).settle value).Fits value := by
  cases side with
  | before => exact Ring.fits_pushBackward fits member some short
  | after => exact Ring.fits_pushForward member short

theorem size_push (member : α) : ((side.push ring member).settle value).size = ring.size + 1 := by
  rw [Ring.size_settle]
  cases side <;> simp [push, Ring.pushBackward, Ring.pushForward, Ring.size] <;> omega

theorem members_push_perm (member : α) :
    ((side.push ring member).settle value).members.Perm (member :: ring.members) := by
  refine (Ring.members_settle_perm value _).trans ?_
  cases side with
  | before =>
      simp only [push, Ring.pushBackward, Ring.members, ← List.append_assoc]
      exact List.perm_append_singleton _ _
  | after =>
      simp only [push, Ring.pushForward, Ring.members, List.append_assoc, List.singleton_append]
      exact List.perm_middle

theorem head_push (member : α) (front : ring.forward ≠ []) :
    ((side.push ring member).settle value).forward.head? = ring.forward.head? := by
  have settled (wide : Ring α) (some : wide.forward ≠ []) : (wide.settle value).forward.head? = wide.forward.head? := by
    unfold Ring.settle
    split
    · exact List.head?_append_of_ne_nil _ some
    · rfl
  cases side with
  | before => exact settled _ front
  | after => exact (settled _ (by simp [push, Ring.pushForward])).trans (List.head?_append_of_ne_nil _ front)

/-- A member without a neighbour is at the end of an arc. -/
theorem head_arc {place : Nat} {member : α} (there : ring.line[place]? = some member)
    (missing : side.neighbour? value ring place = none) :
    ring.isClosed value = false ∧ (side.arc ring).head? = some member := by
  obtain ⟨bounded, _⟩ := List.getElem?_eq_some_iff.mp there
  have nonempty : ring.line ≠ [] := fun none => by simp [none] at bounded
  cases side with
  | before =>
      simp only [neighbour?, Ring.before?] at missing
      split at missing
      case isTrue more =>
        rw [List.getElem?_eq_getElem (by omega)] at missing
        cases missing
      case isFalse first =>
        obtain rfl : place = 0 := by omega
        split at missing
        case isTrue => exact absurd (List.getLast?_eq_none_iff.mp missing) nonempty
        case isFalse opened => exact ⟨Bool.eq_false_iff.mpr opened, by rw [arc, List.head?_eq_getElem?, there]⟩
  | after =>
      simp only [neighbour?, Ring.after?, Ring.size_eq_length_line] at missing
      split at missing
      case isTrue more =>
        rw [List.getElem?_eq_getElem more] at missing
        cases missing
      case isFalse last =>
        split at missing
        case isTrue => exact absurd (List.head?_eq_none_iff.mp missing) nonempty
        case isFalse opened =>
          refine ⟨Bool.eq_false_iff.mpr opened, ?_⟩
          rw [arc, List.head?_reverse, List.getLast?_eq_getElem?, ← there]
          congr 1
          omega

/-- The last member of an arc has no neighbour on its other side. -/
theorem neighbour?_last (isOpen : ring.isClosed value = false) {last : α}
    (ends : (side.arc ring).getLast? = some last) :
    ∃ place, ring.line[place]? = some last ∧ side.opposite.neighbour? value ring place = none := by
  cases side with
  | before =>
      refine ⟨ring.line.length - 1, by rw [← List.getLast?_eq_getElem?]; exact ends, ?_⟩
      simp only [opposite, neighbour?, Ring.after?, isOpen, Ring.size_eq_length_line]
      rw [if_neg (by omega)]
      rfl
  | after =>
      simp only [arc, List.getLast?_reverse] at ends
      refine ⟨0, by rw [← List.head?_eq_getElem?]; exact ends, ?_⟩
      simp [opposite, neighbour?, Ring.before?, isOpen]

end Rings

/-- The ring of a cell with a new member where its arc goes on. -/
def widen (side : Side) (host : Cell) (fresh : CellId) : Ring Cell :=
  (side.push host.ring (Cell.leaf fresh 0)).settle host.value

/-- The member two places from an index. -/
def across? (side : Side) (host : Cell) (index : Nat) : Option CellId :=
  ((host.ring.roster host.value)[Ring.turn host.value.places index (side.unit + side.unit)]?.join).map Cell.id

theorem unit_opposite (side : Side) : side.opposite.unit = -side.unit := by
  cases side <;> rfl

theorem unit_sign (side : Side) : side.unit = 1 ∨ side.unit = -1 := by
  cases side <;> simp [unit]

end Side

/-- What a step to a missing neighbour does to the slots of an arena. -/
structure Arena.Extended (before later : Arena) (side : Side) (host : Cell) (id fresh : CellId)
    (last : Option CellId) : Prop where
  pool : later.pool = before.pool.take.2
  own : later.slots host.id =
    (before.slots host.id).map fun fields => { fields with instantiated := fields.instantiated + 1 }
  made : later.slots fresh =
    some (side.setLink last (side.opposite.setLink (some id) (Fields.blank host.id)))
  members : ∀ child ∈ host.ring.members, ∃ fields fields', before.slots child.id = some fields ∧
    later.slots child.id = some fields' ∧
    side.link fields' = (if child.id = id then some fresh else side.link fields) ∧
    side.opposite.link fields' = (if last = some child.id then some fresh else side.opposite.link fields) ∧
    (fields'.value, fields'.instantiated, fields'.firstChild, fields'.parent) =
      (fields.value, fields.instantiated, fields.firstChild, fields.parent)
  elsewhere : ∀ other, other ≠ host.id → other ≠ fresh → other ∉ host.ring.members.map Cell.id →
    later.slots other = before.slots other

namespace Arena

/-- In an arc, the links away from an end lead to the other end. -/
theorem Lays.chains_arc {arena : Arena} {parent : Cell} (lays : arena.Lays parent)
    (distinct : (parent.ring.line.map Cell.id).Nodup) (opened : parent.isClosed = false) (side : Side) :
    arena.Chains side.opposite.link ((side.arc parent.ring).map Cell.id) none := by
  cases side with
  | before => exact lays.chains_line distinct opened
  | after => exact lays.chains_line_reverse distinct opened

/-- A new cell beside another one, and one more child of the parent. -/
def attach (arena : Arena) (side : Side) (parent id : CellId) : Arena :=
  (((arena.alloc parent).2.amend id (side.setLink (some arena.pool.take.1))).amend arena.pool.take.1
    (side.opposite.setLink (some id))).amend parent fun fields =>
      { fields with instantiated := fields.instantiated + 1 }

theorem attach_eq {arena : Arena} (side : Side) {parent id : CellId} (live : arena.slots id ≠ none)
    (parentLive : arena.slots parent ≠ none) (newcomer : arena.slots arena.pool.take.1 = none) :
    ∃ between, (arena.alloc parent).2.join side id arena.pool.take.1 = some between ∧
      (between.edit parent fun fields => { fields with instantiated := fields.instantiated + 1 }) =
        some (arena.attach side parent id) := by
  have kept {other : CellId} (there : arena.slots other ≠ none) : (arena.alloc parent).2.slots other ≠ none := by
    have apart : other ≠ arena.pool.take.1 := fun same => there (same ▸ newcomer)
    exact (arena.slots_put_of_ne _ apart).symm ▸ there
  have made : (arena.alloc parent).2.slots arena.pool.take.1 ≠ none := by simp [alloc, put]
  refine ⟨_, join_eq side (kept live) made, edit_eq _ ?_ _⟩
  rw [slots_amend_ne_none, slots_amend_ne_none]
  exact kept parentLive

/-- The ring is not closed yet when the new cell is at its place. -/
theorem Lays.extended {arena : Arena} {host : Cell} (lays : arena.Lays host) (live : arena.slots host.id ≠ none)
    (newcomer : arena.slots arena.pool.take.1 = none) (apart : ∀ child ∈ host.ring.members, child.id ≠ host.id)
    (side : Side) {id : CellId} (ofRing : id ∈ host.ring.members.map Cell.id) :
    arena.Extended (arena.attach side host.id id) side host id arena.pool.take.1 none := by
  have freshHost : host.id ≠ arena.pool.take.1 := fun same => live (same ▸ newcomer)
  have freshChild (child : Cell) (among : child ∈ host.ring.members) : child.id ≠ arena.pool.take.1 := by
    intro same
    have found := lays child among
    rw [same, newcomer] at found
    cases found
  obtain ⟨cell, isChild, rfl⟩ := List.mem_map.mp ofRing
  have hostCell : host.id ≠ cell.id := fun same => apart cell isChild same.symm
  refine ⟨rfl, ?_, ?_, ?_, ?_⟩
  · simp [attach, amend, alloc, put, freshHost, hostCell]
  · have set : side.setLink none (side.opposite.setLink (some cell.id) (Fields.blank host.id)) =
        side.opposite.setLink (some cell.id) (Fields.blank host.id) := by
      cases side <;> rfl
    simp [attach, amend, alloc, put, set, freshHost.symm, (freshChild cell isChild).symm]
  · intro child among
    have slot : (arena.attach side host.id cell.id).slots child.id =
        some (if child.id = cell.id then side.setLink (some arena.pool.take.1) (host.childFields child)
          else host.childFields child) := by
      by_cases same : child.id = cell.id
      · have found := lays child among
        rw [same] at found
        simp [attach, amend, alloc, put, same, found, apart cell isChild, freshChild cell isChild]
      · simp [attach, amend, alloc, put, same, lays child among, apart child among, freshChild child among]
    refine ⟨_, _, lays child among, slot, ?_, ?_, ?_⟩
    · split <;> simp
    · split <;> simp
    · split
      · cases side <;> rfl
      · rfl
  · intro other notHost notFresh outside
    have notCell : other ≠ cell.id := fun same => outside (same ▸ ofRing)
    simp [attach, amend, alloc, put, notHost, notFresh, notCell]

/-- Closing the ring links the new cell and the member across, and nothing else. -/
theorem Extended.close {before later : Arena} {side : Side} {host : Cell} {id fresh : CellId}
    (extended : before.Extended later side host id fresh none)
    (newcomer : ∀ child ∈ host.ring.members, child.id ≠ fresh)
    (apart : ∀ child ∈ host.ring.members, child.id ≠ host.id) (freshHost : host.id ≠ fresh) {last : Cell}
    (ofRing : last ∈ host.ring.members) :
    ∃ closed, later.join side.opposite last.id fresh = some closed ∧
      before.Extended closed side host id fresh (some last.id) := by
  obtain ⟨fields, fields', _, found, _⟩ := extended.members last ofRing
  have joined : later.join side.opposite last.id fresh = _ :=
    join_eq side.opposite (by rw [found]; exact Option.some_ne_none _)
      (by rw [extended.made]; exact Option.some_ne_none _)
  rw [side.opposite_opposite] at joined
  have hostLast : host.id ≠ last.id := fun same => apart last ofRing same.symm
  have freshLast := (newcomer last ofRing).symm
  refine ⟨_, joined, extended.pool, ?_, ?_, ?_, ?_⟩
  · rw [slots_amend_of_ne _ _ freshHost, slots_amend_of_ne _ _ hostLast, extended.own]
  · rw [slots_amend_self, slots_amend_of_ne _ _ freshLast, extended.made]
    cases side <;> rfl
  · intro child among
    obtain ⟨was, now, before, after, link, opposite, rest⟩ := extended.members child among
    rw [if_neg (Option.some_ne_none _).symm] at opposite
    by_cases same : last.id = child.id
    · refine ⟨was, side.opposite.setLink (some fresh) now, before, ?_, ?_, ?_, ?_⟩
      · rw [slots_amend_of_ne _ _ (newcomer child among), same, slots_amend_self, after]
        rfl
      · rw [side.link_opposite_setLink, link]
      · rw [if_pos (congrArg some same)]
        exact side.opposite.link_setLink _ _
      · rw [← rest]
        cases side <;> rfl
    · refine ⟨was, now, before, ?_, link, ?_, rest⟩
      · rw [slots_amend_of_ne _ _ (newcomer child among), slots_amend_of_ne _ _ (Ne.symm same), after]
      · rw [if_neg fun equal => same (Option.some.inj equal), opposite]
  · intro other notHost notFresh outside
    have notLast : other ≠ last.id := fun equal => outside (equal ▸ List.mem_map.mpr ⟨last, ofRing, rfl⟩)
    rw [slots_amend_of_ne _ _ notFresh, slots_amend_of_ne _ _ notLast,
      extended.elsewhere other notHost notFresh outside]

end Arena

namespace Store

theorem link_childFields (side : Side) {store : Store} (sound : store.Sound) {host member : Cell} {index : Nat}
    (inside : host ∈ store.nodes) (seated : host.Seats index member) :
    side.link (host.childFields member) =
      ((host.ring.roster host.value)[Ring.turn host.value.places index side.unit]?.join).map Cell.id := by
  obtain ⟨_, place⟩ := parent?_of_seat sound inside seated
  rw [← side.neighbour?_eq_roster (sound.rings host inside) seated, ← place]
  cases side with
  | before => exact Cell.prev?_entry _ _
  | after => exact Cell.next?_entry _ _

section Slots

variable {store : Store} (sound : store.Sound) {host : Cell} (inside : host ∈ store.nodes)

include sound inside

theorem id_ne_fresh : host.id ≠ store.pool.take.1 := by
  intro same
  apply sound.not_mem_of_taken (Pool.usage_take store.pool) List.mem_cons_self
  exact same ▸ (Cell.mem_forestIds _ _).mpr ⟨host, inside, rfl⟩

theorem child_ne_fresh : ∀ child ∈ host.ring.members, child.id ≠ store.pool.take.1 :=
  fun _ ofRing => id_ne_fresh sound (member_mem_nodes inside ofRing)

theorem child_ne_host : ∀ child ∈ host.ring.members, child.id ≠ host.id := by
  intro child ofRing same
  exact Cell.id_not_mem_of_below sound.distinct inside ofRing (Cell.mem_nodes_self child) (same ▸ child.id_mem_ids)

end Slots

section Extending

variable {store : Store} (sound : store.Sound) {host member : Cell} {index : Nat} (inside : host ∈ store.nodes)
  (seated : host.Seats index member) (side : Side)
  (missing : side.neighbour? host.value host.ring (host.ring.placeAt host.value index) = none)

/-- The store after a step to a missing neighbour. -/
def extend (store : Store) (side : Side) (host : Cell) : Store :=
  store.replace host.id host.value (side.widen host store.pool.take.1) store.pool.take.2

include sound inside seated missing

theorem grown_widen : host.Grown (side.widen host store.pool.take.1) store.pool store.pool.take.2 := by
  have fits := sound.rings host inside
  obtain ⟨short, _⟩ := side.turn_eq_gap fits seated missing
  have some : 0 < host.ring.size := by
    obtain ⟨_, less, _⟩ := Ring.placeAt_lt_of_mem (Ring.Fits.size_le fits) seated
    omega
  exact Cell.grown_of_set (side.fits_push fits _ some short) (side.roster_gap short) (side.roster_push _ short)
    (side.members_push_perm _) (Pool.usage_take store.pool)

theorem sound_extend : (store.extend side host).Sound :=
  sound.grow inside (grown_widen sound inside seated side missing)

/-- What is next to the new member, and to all others, after a step to a missing neighbour. -/
theorem roster_widen (other : Nat) :
    ((side.widen host store.pool.take.1).roster host.value)[other]? =
      if other = Ring.turn host.value.places index side.unit then some (some (Cell.leaf store.pool.take.1 0))
      else (host.ring.roster host.value)[other]? := by
  obtain ⟨short, beyond⟩ := side.turn_eq_gap (sound.rings host inside) seated missing
  have empty := side.roster_gap short
  rw [Side.widen, side.roster_push _ short, beyond]
  split
  case isTrue same => rw [same, List.getElem?_set_self (List.getElem?_eq_some_iff.mp empty).1]
  case isFalse other => rw [List.getElem?_set_ne (Ne.symm other)]

theorem two_le_places : 2 ≤ host.value.places := by
  have fits := sound.rings host inside
  obtain ⟨_, less, _⟩ := Ring.placeAt_lt_of_mem (Ring.Fits.size_le fits) seated
  obtain ⟨short, _⟩ := side.turn_eq_gap fits seated missing
  omega

/-- The links that the program sets are those that the wider ring demands. -/
theorem link_widen {other : Nat} {child : Cell} (otherSeated : host.Seats other child) :
    side.link ((host.withRing host.value (side.widen host store.pool.take.1)).childFields child) =
        (if child.id = member.id then some store.pool.take.1 else side.link (host.childFields child)) ∧
      side.opposite.link ((host.withRing host.value (side.widen host store.pool.take.1)).childFields child) =
        (if side.across? host index = some child.id then some store.pool.take.1
          else side.opposite.link (host.childFields child)) := by
  have grown := grown_widen sound inside seated side missing
  have afterSound := sound_extend sound inside seated side missing
  have present := host_mem_replace sound.distinct inside host.value (side.widen host store.pool.take.1)
    store.pool.take.2
  have seatedLater := grown.kept other child otherSeated
  obtain ⟨_, bound⟩ := value_pos_of_seat sound inside otherSeated
  obtain ⟨_, less⟩ := value_pos_of_seat sound inside seated
  have widened (toward : Side) := link_childFields toward afterSound present seatedLater
  simp only [Cell.value_withRing, Cell.ring_withRing, roster_widen sound inside seated side missing] at widened
  constructor
  · have same : Ring.turn host.value.places other side.unit = Ring.turn host.value.places index side.unit ↔
        child.id = member.id := by
      rw [Ring.turn_eq_iff bound, Int.sub_self, Ring.turn_zero _ _ less, seat_id_eq_iff sound inside otherSeated seated]
    rw [widened side, link_childFields side sound inside otherSeated]
    simp only [same]
    split <;> rfl
  · have same : Ring.turn host.value.places other side.opposite.unit = Ring.turn host.value.places index side.unit ↔
        side.across? host index = some child.id := by
      rw [Ring.turn_eq_iff bound, side.unit_opposite, Int.sub_neg, Side.across?, Option.map_eq_some_iff]
      constructor
      · intro equal
        exact ⟨child, by rw [← equal, otherSeated]; rfl, rfl⟩
      · rintro ⟨found, there, sameId⟩
        exact (seat_id_eq_iff sound inside otherSeated (Option.join_eq_some_iff.mp there)).mp sameId.symm
    rw [widened side.opposite, link_childFields side.opposite sound inside otherSeated]
    simp only [same]
    split <;> rfl

/-- The new member stands between the cell that the step came from and the member across. -/
theorem link_fresh :
    side.opposite.link ((host.withRing host.value (side.widen host store.pool.take.1)).childFields
        (Cell.leaf store.pool.take.1 0)) = some member.id ∧
      side.link ((host.withRing host.value (side.widen host store.pool.take.1)).childFields
        (Cell.leaf store.pool.take.1 0)) = side.across? host index := by
  have afterSound := sound_extend sound inside seated side missing
  have present := host_mem_replace sound.distinct inside host.value (side.widen host store.pool.take.1)
    store.pool.take.2
  have several := two_le_places sound inside seated side missing
  have fresh : (host.withRing host.value (side.widen host store.pool.take.1)).Seats
      (Ring.turn host.value.places index side.unit) (Cell.leaf store.pool.take.1 0) :=
    (roster_widen sound inside seated side missing _).trans (if_pos rfl)
  obtain ⟨_, less⟩ := value_pos_of_seat sound inside seated
  have widened (toward : Side) := link_childFields toward afterSound present fresh
  simp only [Cell.value_withRing, Cell.ring_withRing, roster_widen sound inside seated side missing,
    Ring.turn_turn _ _ _ _ (show 0 < host.value.places by omega)] at widened
  constructor
  · have back : index ≠ Ring.turn host.value.places index side.unit := by
      obtain ⟨short, beyond⟩ := side.turn_eq_gap (sound.rings host inside) seated missing
      intro same
      have empty := side.roster_gap short
      rw [← beyond, ← same, seated] at empty
      cases empty
    rw [widened side.opposite, side.unit_opposite, Int.add_right_neg, Ring.turn_zero _ _ less, if_neg back, seated]
    rfl
  · rw [widened side, if_neg (Ring.turn_twice_ne _ _ side.unit_sign several)]
    rfl

section Extended

variable {later : Arena}
  (extended : store.arena.Extended later side host member.id store.pool.take.1 (side.across? host index))

include extended

/-- The ring with the new member is linked up. -/
theorem lays_widened : later.Lays (host.withRing host.value (side.widen host store.pool.take.1)) := by
  have fits := sound.rings host inside
  intro child ofWide
  rcases List.mem_cons.mp ((side.members_push_perm _).mem_iff.mp ofWide) with rfl | old
  · obtain ⟨back, onward⟩ := link_fresh sound inside seated side missing
    refine extended.made.trans (congrArg some (side.fields_ext ?_ ?_ ?_))
    · rw [side.link_setLink, onward]
    · rw [side.opposite_link_setLink, side.opposite.link_setLink, back]
    · cases side <;> rfl
  · obtain ⟨other, otherSeated⟩ := Cell.exists_seat fits old
    obtain ⟨onward, back⟩ := link_widen sound inside seated side missing otherSeated
    obtain ⟨fields, fields', before, after, link, opposite, rest⟩ := extended.members child old
    rw [lays_arena sound.distinct inside child old] at before
    obtain rfl := Option.some.inj before
    refine after.trans (congrArg some (side.fields_ext ?_ ?_ ?_))
    · rw [link, onward]
    · rw [opposite, back]
    · rw [rest]
      rfl

omit seated missing in
/-- What lies below the old members stays linked up. -/
theorem lays_below_member {old node : Cell} (ofRing : old ∈ host.ring.members) (under : node ∈ old.nodes) :
    later.Lays node := by
  have present := Cell.forestNodes_subset _ _ (member_mem_nodes inside ofRing) _ under
  have lower := Cell.id_not_mem_of_below sound.distinct inside ofRing under
  have newcomer : store.pool.take.1 ∉ store.ids :=
    sound.not_mem_of_taken (Pool.usage_take store.pool) List.mem_cons_self
  refine (lays_arena sound.distinct present).congr fun child ofNode => extended.elsewhere _ ?_ ?_ ?_
  · intro same
    exact lower ((Cell.mem_ids _ _).mpr
      ⟨child, Cell.mem_nodes_of_member node child child ofNode (Cell.mem_nodes_self child), same⟩)
  · intro same
    exact newcomer (same ▸ (Cell.mem_forestIds _ _).mpr ⟨child, member_mem_nodes present ofNode, rfl⟩)
  · intro ofHost
    have same := Cell.parent_unique _ sound.distinct node host present inside child.id
      (List.mem_map.mpr ⟨child, ofNode, rfl⟩) ofHost
    exact lower (same ▸ node.id_mem_ids)

/-- The arena that the program leaves is the arena of the store after the step. -/
theorem arena_extend : later = (store.extend side host).arena := by
  have fits := sound.rings host inside
  have members : (side.widen host store.pool.take.1).members.Perm
      (Cell.leaf store.pool.take.1 0 :: host.ring.members) :=
    side.members_push_perm _
  have ids : (Cell.forestIds (side.widen host store.pool.take.1).members).Perm
      (store.pool.take.1 :: Cell.forestIds host.ring.members) := by
    refine (Cell.forestIds_perm members).trans ?_
    rw [Cell.forestIds_cons, Cell.ids_leaf]
    exact List.Perm.refl _
  refine arena_replace sound.distinct inside (sound_extend sound inside seated side missing).distinct extended.pool
    ?_ ?_ ?_ ?_
  · have found : store.arena.slots host.id = _ := fields?_of_mem sound.distinct inside
    have front : host.ring.forward ≠ [] := by
      intro none
      have child := Cell.Seats.member fits seated
      simp [Ring.members, none, Ring.Fits.anchored fits none] at child
    have size : (side.widen host store.pool.take.1).size = host.instantiated + 1 := side.size_push _
    have head : (side.widen host store.pool.take.1).forward.head? = host.ring.forward.head? := side.head_push _ front
    rw [extended.own, found, size, head]
    rfl
  · intro node among
    rw [Cell.nodes_eq, List.mem_cons, List.mem_flatMap] at among
    rcases among with rfl | ⟨top, ofRing, under⟩
    · exact lays_widened sound inside seated side missing extended
    · rcases List.mem_cons.mp (members.mem_iff.mp ofRing) with rfl | old
      · exact Arena.lays_of_bare rfl under
      · exact lays_below_member sound inside side extended old under
  · intro id below outside
    exact absurd (ids.mem_iff.mpr (List.mem_cons_of_mem _ below)) outside
  · intro id outside notWide
    rw [Cell.ids_eq, List.mem_cons, not_or] at outside
    refine extended.elsewhere id outside.1 (fun same => notWide (ids.mem_iff.mpr (List.mem_cons.mpr (Or.inl same)))) ?_
    intro ofRing
    obtain ⟨child, among, rfl⟩ := List.mem_map.mp ofRing
    exact outside.2 (Cell.id_mem_forestIds among)

end Extended

/-- Where only one member was missing, the other end of the arc is across from the cell. -/
theorem across?_of_sealed (whole : host.ring.size + 1 = host.value.places) :
    ∃ last, (side.arc host.ring).getLast? = some last ∧ side.across? host index = some last.id := by
  have fits := sound.rings host inside
  obtain ⟨_, _, there⟩ := Ring.placeAt_lt_of_mem (Ring.Fits.size_le fits) seated
  obtain ⟨short, beyond⟩ := side.turn_eq_gap fits seated missing
  obtain ⟨isOpen, starts⟩ := side.head_arc there missing
  obtain ⟨last, ends⟩ : ∃ last, (side.arc host.ring).getLast? = some last := by
    apply Option.ne_none_iff_exists'.mp
    intro none
    rw [List.getLast?_eq_none_iff.mp none] at starts
    cases starts
  obtain ⟨place, atPlace, alone⟩ := side.neighbour?_last isOpen ends
  obtain ⟨other, otherSeated, placed⟩ := Ring.exists_index (Ring.Fits.size_le fits) atPlace
  obtain ⟨_, bound⟩ := value_pos_of_seat sound inside otherSeated
  -- Both ends go on at the one index that was empty.
  obtain ⟨_, meets⟩ := side.opposite.turn_eq_gap fits otherSeated (placed ▸ alone)
  rw [(side.gap_opposite short).mpr whole, ← beyond, Ring.turn_eq_iff bound, side.unit_opposite, Int.sub_neg] at meets
  refine ⟨last, ends, ?_⟩
  rw [Side.across?, ← meets, otherSeated]
  rfl

theorem across?_of_short (short : host.ring.size + 1 ≠ host.value.places) : side.across? host index = none := by
  have fits := sound.rings host inside
  have several := two_le_places sound inside seated side missing
  obtain ⟨shorter, beyond⟩ := side.turn_eq_gap fits seated missing
  cases there : (host.ring.roster host.value)[Ring.turn host.value.places index (side.unit + side.unit)]?.join with
  | none => rw [Side.across?, there]; rfl
  | some found =>
      -- A member across would have the index that was empty next to it, as the only one of the ring.
      have otherSeated := Option.join_eq_some_iff.mp there
      have back : Ring.turn host.value.places (Ring.turn host.value.places index (side.unit + side.unit))
          side.opposite.unit = side.gap host.value host.ring := by
        rw [Ring.turn_turn _ _ _ _ (by omega), side.unit_opposite, Int.add_assoc, Int.add_right_neg, Int.add_zero,
          beyond]
      have alone : side.opposite.neighbour? host.value host.ring (host.ring.placeAt host.value
          (Ring.turn host.value.places index (side.unit + side.unit))) = none := by
        rw [side.opposite.neighbour?_eq_roster fits otherSeated, back, side.roster_gap shorter]
        rfl
      obtain ⟨_, meets⟩ := side.opposite.turn_eq_gap fits otherSeated alone
      exact absurd ((side.gap_opposite shorter).mp (meets.symm.trans back)) short

/-- The loop that closes a complete ring ends at the other end of the arc. -/
theorem sealRing_arena {attached : Arena}
    (extended : store.arena.Extended attached side host member.id store.pool.take.1 none) :
    ∃ later, attached.sealRing side host.id member.id store.pool.take.1 = some later ∧
      store.arena.Extended later side host member.id store.pool.take.1 (side.across? host index) := by
  have fits := sound.rings host inside
  have lays := lays_arena sound.distinct inside
  obtain ⟨positive, _⟩ := value_pos_of_seat sound inside seated
  obtain ⟨fields, found, full⟩ : ∃ fields, attached.slots host.id = some fields ∧
      (fields.isFull = true ↔ host.ring.size + 1 = host.value.places) := by
    have before : store.arena.slots host.id = _ := fields?_of_mem sound.distinct inside
    refine ⟨_, by rw [extended.own, before]; rfl, ?_⟩
    rw [Fields.isFull, beq_iff_eq]
    show ((host.ring.size + 1 : Nat) : Int) = host.value.toInt ↔ _
    unfold Num.places
    omega
  rw [Arena.sealRing, found]
  simp only [Option.bind_eq_bind, Option.bind_some]
  by_cases whole : host.ring.size + 1 = host.value.places
  · obtain ⟨last, ends, across⟩ := across?_of_sealed sound inside seated side missing whole
    obtain ⟨_, _, there⟩ := Ring.placeAt_lt_of_mem (Ring.Fits.size_le fits) seated
    obtain ⟨isOpen, starts⟩ := side.head_arc there missing
    have ofArc (child : Cell) (among : child ∈ side.arc host.ring) : child ∈ host.ring.members := by
      rw [Ring.mem_members_iff]
      cases side with
      | before => exact among
      | after => exact List.mem_reverse.mp among
    have chains : attached.Chains side.opposite.link ((side.arc host.ring).map Cell.id) none := by
      refine (lays.chains_arc (Cell.line_ids_nodup sound.distinct inside) isOpen side).congr fun id among => ?_
      obtain ⟨child, isMember, rfl⟩ := List.mem_map.mp among
      obtain ⟨was, now, before, after, _, opposite, _⟩ := extended.members child (ofArc child isMember)
      rw [before, after, Option.map_some, Option.map_some, opposite, if_neg (Option.some_ne_none _).symm]
    have walked : attached.chase side.opposite.link none ((side.arc host.ring).map Cell.id).head? = _ :=
      Arena.chase_to_end chains (by simp)
    rw [List.head?_map, starts, Option.map_some] at walked
    obtain ⟨closed, joined, extendedToo⟩ := extended.close (child_ne_fresh sound inside)
      (child_ne_host sound inside) (id_ne_fresh sound inside) (ofArc last (List.mem_of_getLast? ends))
    rw [if_pos (full.mpr whole), walked, across]
    refine ⟨closed, ?_, extendedToo⟩
    simp only [Option.bind_some, List.getLast?_map, ends, Option.map_some]
    exact joined
  · rw [if_neg fun isFull => whole (full.mp isFull), across?_of_short sound inside seated side missing whole]
    exact ⟨attached, rfl, extended⟩

theorem neighbour_missing :
    store.arena.neighbour side member.id = some (.ok store.pool.take.1, (store.extend side host).arena) := by
  have fits := sound.rings host inside
  have lays := lays_arena sound.distinct inside
  have ofRing := Cell.Seats.member fits seated
  have found := lays member ofRing
  have alone : side.link (host.childFields member) = none := by
    rw [link_childFields side sound inside seated, ← side.neighbour?_eq_roster fits seated, missing]
    rfl
  have newcomer : store.arena.slots store.arena.pool.take.1 = none :=
    fields?_eq_none (sound.not_mem_of_taken (Pool.usage_take store.pool) List.mem_cons_self)
  have live : store.arena.slots host.id ≠ none := by
    have before : store.arena.slots host.id = _ := fields?_of_mem sound.distinct inside
    rw [before]
    exact Option.some_ne_none _
  have extended := lays.extended live newcomer (child_ne_host sound inside) side
    (List.mem_map.mpr ⟨member, ofRing, rfl⟩)
  obtain ⟨later, sealing, whole⟩ := sealRing_arena sound inside seated side missing extended
  obtain ⟨between, joined, edited⟩ := Arena.attach_eq side (by rw [found]; exact Option.some_ne_none _) live newcomer
  rw [Arena.neighbour, found]
  simp only [Option.bind_eq_bind, Option.bind_some, alone]
  rw [arena_extend sound inside seated side missing whole] at sealing
  show ((store.arena.alloc host.id).2.join side member.id store.arena.pool.take.1).bind _ = _
  rw [joined, Option.bind_some, edited, Option.bind_some]
  show ((store.arena.attach side host.id member.id).sealRing side host.id member.id store.pool.take.1).bind _ = _
  rw [sealing]
  rfl

end Extending

/-- The outcome of a program on a store, with the store that it leaves as an arena. -/
def report {α : Type} : EStateM.Result Fault Store α → Except Fault α × Arena
  | .ok result after => (.ok result, after.arena)
  | .error fault after => (.error fault, after.arena)

theorem run_walk_of_parent (side : Side) {store : Store} (distinct : store.ids.Nodup) {id : CellId} {host : Cell}
    (found : store.parent? id = some host) :
    side.walk id store = match side.neighbour? host.value host.ring (host.placeOf id) with
      | some sibling => .ok sibling.id store
      | none => .ok store.pool.take.1 (store.extend side host) := by
  have ran := run_parentOf_of_some found
  have filled := run_fill distinct (mem_nodes_of_parent? found).1 (side.widen host)
  cases side with
  | before =>
      rw [Side.walk, prev, run_bind_ok ran]
      simp only [Side.neighbour?]
      cases host.ring.before? host.value (host.placeOf id) with
      | some sibling => rfl
      | none => exact filled
  | after =>
      rw [Side.walk, next, run_bind_ok ran]
      simp only [Side.neighbour?]
      cases host.ring.after? host.value (host.placeOf id) with
      | some sibling => rfl
      | none => exact filled

/-- A step along a ring ends, and does to the arena what it does to the store. -/
theorem neighbour_arena {store : Store} (sound : store.Sound) {id : CellId} (live : id ∈ store.ids) (side : Side) :
    store.arena.neighbour side id = some (report (side.walk id store)) := by
  cases found : store.parent? id with
  | none =>
      obtain ⟨node, inside, rfl⟩ := (Cell.mem_forestIds _ _).mp live
      have refused : side.walk node.id store = .error (.detached node.id) store := by
        have detached := run_parentOf_detached (cell?_of_mem sound.distinct inside) found
        cases side with
        | before => exact run_bind_error detached
        | after => exact run_bind_error detached
      have slot : store.arena.slots node.id = _ := fields?_of_mem sound.distinct inside
      have top : store.kin node.id = (none, none, none) := by
        simp [kin, prevLink, nextLink, parentLink, found]
      rw [top] at slot
      rw [Arena.neighbour, slot, refused]
      cases side <;> rfl
  | some host =>
      obtain ⟨inside, index, member, seated, rfl⟩ := seat_of_parent? sound found
      obtain ⟨_, place⟩ := parent?_of_seat sound inside seated
      rw [run_walk_of_parent side sound.distinct found, place]
      cases sibling : side.neighbour? host.value host.ring (host.ring.placeAt host.value index) with
      | none => exact neighbour_missing sound inside seated side sibling
      | some there =>
          have fits := sound.rings host inside
          have linked : side.link (host.childFields member) = some there.id := by
            rw [link_childFields side sound inside seated, ← side.neighbour?_eq_roster fits seated, sibling]
            rfl
          rw [Arena.neighbour, lays_arena sound.distinct inside member (Cell.Seats.member fits seated)]
          simp only [Option.bind_eq_bind, Option.bind_some, linked]
          rfl

end Store

end RingTape
