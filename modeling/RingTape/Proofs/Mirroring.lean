import RingTape.Proofs.Sealing

/-!
New children for a cell without children, linked up like given ones: a row on from the first of them, and then either a
link that closes the row or a second row on the other side. A row is laid cell by cell, from what one cell beside
another one does. What becomes of every slot is told by `Mirrored`, with the ring that the new cells form.
-/

namespace RingTape

set_option autoImplicit false

namespace Ring

section Neighbours

variable {α : Type} {value : Num} {ring : Ring α}

/-- In a closed ring nothing lies behind the anchor. -/
def Sealed (value : Num) (ring : Ring α) : Prop :=
  ring.isClosed value = true → ring.backward = []

theorem after?_forward (whole : ring.Sealed value) {place : Nat} (bounded : place < ring.forward.length) :
    ring.after? value (ring.anchor + place) =
      ring.forward[place + 1]?.or (if ring.isClosed value then ring.forward.head? else none) := by
  unfold after? anchor size line
  by_cases more : place + 1 < ring.forward.length
  · rw [if_pos (by omega), List.getElem?_append_right (by rw [List.length_reverse]; omega), List.length_reverse,
      show ring.backward.length + place + 1 - ring.backward.length = place + 1 by omega, List.getElem?_eq_getElem more]
    rfl
  · rw [if_neg (by omega), List.getElem?_eq_none (by omega), Option.none_or]
    split
    case isTrue closed => rw [whole closed]; rfl
    case isFalse => rfl

theorem before?_forward (whole : ring.Sealed value) {place : Nat} (bounded : place < ring.forward.length) :
    ring.before? value (ring.anchor + place) =
      if place = 0 then (if ring.isClosed value then ring.forward.getLast? else ring.backward.head?)
      else ring.forward[place - 1]? := by
  unfold before? anchor line
  cases place with
  | succ place =>
      rw [if_pos (by omega), if_neg (by omega), List.getElem?_append_right (by rw [List.length_reverse]; omega),
        List.length_reverse]
      congr 1
      omega
  | zero =>
      rw [if_pos rfl, Nat.add_zero]
      cases behind : ring.backward with
      | nil => simp
      | cons nearest rest =>
          have opened : ring.isClosed value = false := by
            rw [Bool.eq_false_iff]
            intro closed
            simp [whole closed] at behind
          simp [opened]

theorem after?_backward {first : α} {rest : List α} (front : ring.forward = first :: rest) {place : Nat}
    (bounded : place < ring.backward.length) :
    ring.after? value (ring.anchor - 1 - place) = (first :: ring.backward)[place]? := by
  have size : ring.size = rest.length + 1 + ring.backward.length := by simp [Ring.size, front]
  unfold after? anchor line
  rw [if_pos (by omega)]
  cases place with
  | zero =>
      rw [List.getElem?_append_right (by rw [List.length_reverse]; omega), List.length_reverse, front,
        show ring.backward.length - 1 - 0 + 1 - ring.backward.length = 0 by omega]
      rfl
  | succ place =>
      rw [List.getElem?_append_left (by rw [List.length_reverse]; omega), List.getElem?_reverse (by omega),
        List.getElem?_cons_succ]
      congr 1
      omega

theorem before?_backward (whole : ring.Sealed value) {place : Nat} (bounded : place < ring.backward.length) :
    ring.before? value (ring.anchor - 1 - place) = ring.backward[place + 1]? := by
  have opened : ring.isClosed value = false := by
    rw [Bool.eq_false_iff]
    intro closed
    simp [whole closed] at bounded
  unfold before? anchor line
  rw [opened]
  by_cases more : place + 1 < ring.backward.length
  · rw [if_pos (by omega), List.getElem?_append_left (by rw [List.length_reverse]; omega),
      List.getElem?_reverse (by omega)]
    congr 1
    omega
  · rw [if_neg (by omega), List.getElem?_eq_none (by omega)]
    simp

theorem Fits.isSealed (fits : ring.Fits value) : ring.Sealed value := by
  intro closed
  rw [isClosed, Bool.and_eq_true] at closed
  exact fits.sealed closed.2

theorem isClosed_of_lengths {other : Ring α} (forward : other.forward.length = ring.forward.length)
    (backward : other.backward.length = ring.backward.length) : other.isClosed value = ring.isClosed value := by
  have same : other.forward.isEmpty = ring.forward.isEmpty := by
    rw [Bool.eq_iff_iff, List.isEmpty_iff_length_eq_zero, List.isEmpty_iff_length_eq_zero, forward]
  simp only [isClosed, isFull, size, forward, backward, same]

end Neighbours

end Ring

namespace Pool

variable {α β : Type}

/-- Slots for a ring of the shape of a given one. -/
def takeRing (ring : Ring α) (pool : Pool) : Ring CellId × Pool :=
  let (near, pool) := pool.takeMany ring.forward.length
  let (far, pool) := pool.takeMany ring.backward.length
  (⟨near, far⟩, pool)

theorem takeRing_map (change : α → β) (ring : Ring α) (pool : Pool) :
    pool.takeRing (ring.map change) = pool.takeRing ring := by
  simp only [takeRing, Ring.map, List.length_map]

end Pool

namespace Arena

/-- New cells, as many as are given, each beside the one before it. -/
def spread (side : Side) (owner : CellId) : CellId → List CellId → Arena → Option (List CellId × Arena)
  | _, [], arena => some ([], arena)
  | last, _ :: rest, arena => do
      let (copy, arena) := arena.alloc owner
      let arena ← arena.join side last copy
      let (copies, arena) ← spread side owner copy rest arena
      return (copy :: copies, arena)

/-- Finish a row of new children: link its ends, or lay another row on the other side of its first cell. -/
def complete (arena : Arena) (owner anchor : CellId) (ahead backward : List CellId) (closed : Bool) :
    Option (List CellId × Arena) :=
  if closed then
    (arena.link (ahead.getLastD anchor) anchor).map fun arena => ([], arena)
  else
    spread .before owner anchor backward arena

/-- New children for a cell, as many and linked up in the same way as the given ones. -/
def mirror (arena : Arena) (owner : CellId) (count : Nat) (originals : Ring CellId) (closed : Bool) :
    Option (Ring CellId × Arena) :=
  match originals.forward with
  | [] => some (Ring.empty, arena)
  | _ :: rest => do
      let (anchor, arena) := arena.alloc owner
      let (ahead, arena) ← spread .after owner anchor rest arena
      let (behind, arena) ← arena.complete owner anchor ahead originals.backward closed
      let arena ← arena.edit owner fun fields => { fields with instantiated := count, firstChild := some anchor }
      return (⟨anchor :: ahead, behind⟩, arena)

/-- The slots that are in use are those that hold a cell. -/
def Accounted (arena : Arena) : Prop :=
  ∀ id, arena.pool.usage id = if (arena.slots id).isSome then 1 else 0

section Accounting

variable {arena : Arena} (accounted : arena.Accounted)

include accounted

theorem Accounted.amend (id : CellId) (change : Fields → Fields) : (arena.amend id change).Accounted := by
  intro other
  have same : ((arena.amend id change).slots other).isSome = (arena.slots other).isSome := by
    simp only [Arena.amend]
    split <;> simp
  rw [same]
  exact accounted other

theorem Accounted.fresh : arena.slots arena.pool.take.1 = none := by
  have most := Pool.usage_le_one arena.pool.take.2 arena.pool.take.1
  have used := accounted arena.pool.take.1
  rw [Pool.usage_take, List.count_singleton_self] at most
  cases found : arena.slots arena.pool.take.1 with
  | none => rfl
  | some fields =>
      rw [found] at used
      simp at used
      omega

theorem Accounted.alloc (owner : CellId) : (arena.alloc owner).2.Accounted := by
  intro id
  have used := accounted id
  have taken := Pool.usage_take arena.pool id
  have fresh := accounted.fresh
  show arena.pool.take.2.usage id = _
  by_cases same : id = arena.pool.take.1
  · subst same
    rw [fresh] at used
    simp [Arena.alloc, put, taken, used]
  · have slot : (arena.alloc owner).2.slots id = arena.slots id := arena.slots_put_of_ne _ same
    rw [slot, taken, used, List.count_eq_zero_of_not_mem (by simpa using same)]
    simp

end Accounting

/-- The slots after two cells were made neighbours. -/
theorem slots_linked (arena : Arena) (before after id : CellId) :
    ((arena.amend before (Side.after.setLink (some after))).amend after (Side.before.setLink (some before))).slots id =
      (arena.slots id).map fun fields =>
        { fields with
          prev := if id = after then some before else fields.prev
          next := if id = before then some after else fields.next } := by
  cases found : arena.slots id with
  | none => simp [Arena.amend, found]
  | some fields =>
      simp only [Arena.amend, found]
      split_ifs <;> rfl

/-- What spreading leaves: a row of new cells beside the one it starts from. -/
structure Spread (before after : Arena) (side : Side) (owner start : CellId) (copies : List CellId) : Prop where
  accounted : after.Accounted
  fresh : ∀ copy ∈ copies, before.slots copy = none
  once : copies.Nodup
  first : ∃ fields, before.slots start = some fields ∧
    after.slots start = some (side.setLink (copies.head?.or (side.link fields)) fields)
  made : ∀ place copy, copies[place]? = some copy → after.slots copy =
    some (side.setLink copies[place + 1]? (side.opposite.setLink (start :: copies)[place]? (Fields.blank owner)))
  elsewhere : ∀ id, id ≠ start → id ∉ copies → after.slots id = before.slots id

/-- One new cell beside another one is the shortest row. -/
theorem spread_single (side : Side) (owner : CellId) {start : CellId} {arena : Arena} (accounted : arena.Accounted)
    (live : arena.slots start ≠ none) :
    ∃ later, (arena.alloc owner).2.join side start arena.pool.take.1 = some later ∧ later.pool = arena.pool.take.2 ∧
      Spread arena later side owner start [arena.pool.take.1] := by
  have newcomer := accounted.fresh
  have apart : start ≠ arena.pool.take.1 := fun same => live (same ▸ newcomer)
  have startSlot : (arena.alloc owner).2.slots start = arena.slots start := arena.slots_put_of_ne _ apart
  have copySlot : (arena.alloc owner).2.slots arena.pool.take.1 = some (Fields.blank owner) := if_pos rfl
  refine ⟨_, join_eq side (startSlot.symm ▸ live) (copySlot.symm ▸ Option.some_ne_none _), rfl,
    ((accounted.alloc owner).amend _ _).amend _ _, ?_, List.nodup_singleton _, ?_, ?_, ?_⟩
  · intro copy among
    rw [List.mem_singleton.mp among, newcomer]
  · obtain ⟨fields, found⟩ := Option.ne_none_iff_exists'.mp live
    refine ⟨fields, found, ?_⟩
    rw [slots_amend_of_ne _ _ apart, slots_amend_self, startSlot, found]
    rfl
  · intro place copy there
    cases place with
    | succ place => simp at there
    | zero =>
        obtain rfl := Option.some.inj there
        rw [slots_amend_self, slots_amend_of_ne _ _ apart.symm, copySlot]
        cases side <;> rfl
  · intro id notStart notCopy
    rw [List.mem_singleton] at notCopy
    rw [slots_amend_of_ne _ _ notCopy, slots_amend_of_ne _ _ notStart]
    exact arena.slots_put_of_ne _ notCopy

/-- A row that goes on from the end of another one. -/
theorem Spread.cons {before between after : Arena} {side : Side} {owner start copy : CellId} {copies : List CellId}
    (step : Spread before between side owner start [copy]) (onward : Spread between after side owner copy copies) :
    Spread before after side owner start (copy :: copies) := by
  obtain ⟨fields, found, linked⟩ := step.first
  have copySlot := step.made 0 copy rfl
  have apart : start ≠ copy := by
    rintro rfl
    rw [step.fresh start (List.mem_singleton.mpr rfl)] at found
    cases found
  have notLater {id : CellId} {fields : Fields} (there : between.slots id = some fields) : id ∉ copies := by
    intro later
    rw [onward.fresh id later] at there
    cases there
  refine ⟨onward.accounted, ?_, List.nodup_cons.mpr ⟨notLater copySlot, onward.once⟩, ⟨fields, found, ?_⟩, ?_, ?_⟩
  · intro id among
    rcases List.mem_cons.mp among with rfl | later
    · exact step.fresh id (List.mem_singleton.mpr rfl)
    · have absent := onward.fresh id later
      have notStart : id ≠ start := fun same => notLater linked (same ▸ later)
      have notCopy : id ∉ [copy] := fun same => notLater copySlot (List.mem_singleton.mp same ▸ later)
      rw [← step.elsewhere id notStart notCopy, absent]
  · rw [onward.elsewhere start apart (notLater linked), linked]
    rfl
  · intro place id there
    cases place with
    | succ place => exact onward.made place id there
    | zero =>
        obtain rfl := Option.some.inj there
        obtain ⟨was, slot, now⟩ := onward.first
        rw [copySlot] at slot
        obtain rfl := Option.some.inj slot
        rw [now, side.setLink_setLink, List.head?_eq_getElem?]
        cases copies <;> cases side <;> rfl
  · intro id notStart notCopies
    rw [List.mem_cons, not_or] at notCopies
    rw [onward.elsewhere id notCopies.1 notCopies.2, step.elsewhere id notStart fun same =>
      notCopies.1 (List.mem_singleton.mp same)]

theorem spread_spec (side : Side) (owner : CellId) (originals : List CellId) {start : CellId} {arena : Arena}
    (accounted : arena.Accounted) (live : arena.slots start ≠ none) :
    ∃ later, spread side owner start originals arena =
        some ((arena.pool.takeMany originals.length).1, later) ∧
      later.pool = (arena.pool.takeMany originals.length).2 ∧
      Spread arena later side owner start (arena.pool.takeMany originals.length).1 := by
  induction originals generalizing start arena with
  | nil =>
      obtain ⟨fields, found⟩ := Option.ne_none_iff_exists'.mp live
      refine ⟨arena, rfl, rfl, accounted, by simp [Pool.takeMany], List.nodup_nil, ⟨fields, found, ?_⟩, ?_,
        fun _ _ _ => rfl⟩
      · rw [found]
        exact congrArg some (side.setLink_link fields).symm
      · intro place copy there
        simp [Pool.takeMany] at there
  | cons original rest induction =>
      obtain ⟨between, joined, taken, step⟩ := spread_single side owner accounted live
      have copyLive : between.slots arena.pool.take.1 ≠ none := by
        rw [step.made 0 _ rfl]
        exact Option.some_ne_none _
      obtain ⟨later, ran, pool, onward⟩ := induction step.accounted copyLive
      rw [taken] at ran pool onward
      refine ⟨later, ?_, pool, step.cons onward⟩
      rw [spread]
      show ((arena.alloc owner).2.join side start arena.pool.take.1).bind _ = _
      rw [joined, Option.bind_some]
      show (spread side owner arena.pool.take.1 rest between).bind _ = _
      rw [ran]
      rfl

end Arena

namespace Entry

/-- The fields of a new child in the ring that an entry describes. -/
def newborn (entry : Entry) (owner id : CellId) : Fields :=
  ⟨0, 0, none, entry.prev? id, entry.next? id, some owner⟩

variable (entry : Entry) (once : entry.ring.members.Nodup) {place : Nat} {id : CellId}

include once

theorem findIdx_line (there : entry.ring.line[place]? = some id) :
    entry.ring.line.findIdx (fun member => member = id) = place := by
  have distinct : entry.ring.line.Nodup := (Ring.line_perm_members entry.ring).nodup_iff.mpr once
  obtain ⟨bounded, same⟩ := List.getElem?_eq_some_iff.mp there
  rw [List.findIdx_eq bounded]
  refine ⟨by simp [same], ?_⟩
  intro earlier less
  rw [decide_eq_false_iff_not, ← same]
  intro equal
  exact absurd (distinct.getElem_inj_iff.mp equal) (Nat.ne_of_lt less)

theorem newborn_of_place (there : entry.ring.line[place]? = some id) (owner : CellId) :
    entry.newborn owner id = ⟨0, 0, none, entry.ring.before? entry.value place, entry.ring.after? entry.value place,
      some owner⟩ := by
  rw [newborn, prev?, next?, findIdx_line entry once there]

theorem newborn_forward (whole : entry.ring.Sealed entry.value) (there : entry.ring.forward[place]? = some id)
    (owner : CellId) :
    entry.newborn owner id = ⟨0, 0, none,
      if place = 0 then
        (if entry.ring.isClosed entry.value then entry.ring.forward.getLast? else entry.ring.backward.head?)
      else entry.ring.forward[place - 1]?,
      entry.ring.forward[place + 1]?.or (if entry.ring.isClosed entry.value then entry.ring.forward.head? else none),
      some owner⟩ := by
  obtain ⟨bounded, _⟩ := List.getElem?_eq_some_iff.mp there
  have inLine : entry.ring.line[entry.ring.anchor + place]? = some id := by
    rw [← there, Ring.line, Ring.anchor, List.getElem?_append_right (by rw [List.length_reverse]; omega)]
    simp
  rw [newborn_of_place entry once inLine, Ring.before?_forward whole bounded, Ring.after?_forward whole bounded]

theorem newborn_backward (whole : entry.ring.Sealed entry.value) {first : CellId} {rest : List CellId}
    (front : entry.ring.forward = first :: rest) (there : entry.ring.backward[place]? = some id) (owner : CellId) :
    entry.newborn owner id = ⟨0, 0, none, entry.ring.backward[place + 1]?, (first :: entry.ring.backward)[place]?,
      some owner⟩ := by
  obtain ⟨bounded, _⟩ := List.getElem?_eq_some_iff.mp there
  have inLine : entry.ring.line[entry.ring.anchor - 1 - place]? = some id := by
    rw [← there, Ring.line, Ring.anchor, List.getElem?_append_left (by rw [List.length_reverse]; omega),
      List.getElem?_reverse (by omega)]
    congr 1
    omega
  rw [newborn_of_place entry once inLine, Ring.before?_backward whole bounded, Ring.after?_backward front bounded]

end Entry

namespace Arena

/-- A ring of new cells, which their owner does not know yet. -/
structure Furnished (before after : Arena) (owner : CellId) (entry : Entry) : Prop where
  accounted : after.Accounted
  fresh : ∀ id ∈ entry.ring.members, before.slots id = none
  once : entry.ring.members.Nodup
  made : ∀ id ∈ entry.ring.members, after.slots id = some (entry.newborn owner id)
  elsewhere : ∀ id ∉ entry.ring.members, after.slots id = before.slots id

/-- What making new children for a cell without children does to an arena. -/
structure Mirrored (before after : Arena) (owner : CellId) (entry : Entry) : Prop where
  accounted : after.Accounted
  once : entry.ring.members.Nodup
  own : after.slots owner = (before.slots owner).map fun fields =>
    { fields with instantiated := entry.ring.size, firstChild := entry.ring.forward.head? }
  made : ∀ id ∈ entry.ring.members, after.slots id = some (entry.newborn owner id)
  elsewhere : ∀ id, id ≠ owner → id ∉ entry.ring.members → after.slots id = before.slots id

/-- The new cells become children when their owner is told the first one. -/
theorem Furnished.own {before after : Arena} {owner : CellId} {entry : Entry}
    (furnished : Furnished before after owner entry) (live : before.slots owner ≠ none) {first : CellId}
    (starts : entry.ring.forward.head? = some first) :
    ∃ later, after.edit owner (fun fields =>
        { fields with instantiated := entry.ring.size, firstChild := some first }) = some later ∧
      later.pool = after.pool ∧ Mirrored before later owner entry := by
  have outside : owner ∉ entry.ring.members := fun among => live (furnished.fresh owner among)
  have same := furnished.elsewhere owner outside
  refine ⟨_, after.edit_eq (same.symm ▸ live) _, rfl, furnished.accounted.amend _ _, furnished.once,
    ?_, ?_, ?_⟩
  · rw [slots_amend_self, same, starts]
  · intro id among
    have other : id ≠ owner := fun equal => outside (equal ▸ among)
    rw [slots_amend_of_ne _ _ other, furnished.made id among]
  · intro id other notAmong
    rw [slots_amend_of_ne _ _ other, furnished.elsewhere id notAmong]

/-- A cell that has no children. -/
def Blank (arena : Arena) (id : CellId) : Prop :=
  ∃ fields, arena.slots id = some fields ∧ fields.instantiated = 0 ∧ fields.firstChild = none

theorem Blank.live {arena : Arena} {id : CellId} (blank : arena.Blank id) : arena.slots id ≠ none := by
  obtain ⟨fields, found, _⟩ := blank
  rw [found]
  exact Option.some_ne_none _

/-- A new cell and a row after it. -/
structure Row (before after : Arena) (owner : CellId) (ids : List CellId) : Prop where
  accounted : after.Accounted
  fresh : ∀ id ∈ ids, before.slots id = none
  once : ids.Nodup
  made : ∀ place id, ids[place]? = some id → after.slots id =
    some ⟨0, 0, none, if place = 0 then none else ids[place - 1]?, ids[place + 1]?, some owner⟩
  elsewhere : ∀ id ∉ ids, after.slots id = before.slots id

theorem row_spec {arena : Arena} (accounted : arena.Accounted) (owner : CellId) (rest : List CellId) :
    ∃ later, spread .after owner arena.pool.take.1 rest (arena.alloc owner).2 =
        some ((arena.pool.take.2.takeMany rest.length).1, later) ∧
      later.pool = (arena.pool.take.2.takeMany rest.length).2 ∧
      Row arena later owner (arena.pool.takeMany (rest.length + 1)).1 := by
  have newcomer := accounted.fresh
  have anchorSlot : (arena.alloc owner).2.slots arena.pool.take.1 = some (Fields.blank owner) := if_pos rfl
  obtain ⟨later, ran, pool, row⟩ := spread_spec .after owner rest (accounted.alloc owner)
    (anchorSlot.symm ▸ Option.some_ne_none _)
  have whole : (arena.pool.takeMany (rest.length + 1)).1 =
      arena.pool.take.1 :: (arena.pool.take.2.takeMany rest.length).1 := rfl
  have allocated {id : CellId} (other : id ≠ arena.pool.take.1) : (arena.alloc owner).2.slots id = arena.slots id :=
    arena.slots_put_of_ne _ other
  have notAhead : arena.pool.take.1 ∉ (arena.pool.take.2.takeMany rest.length).1 := by
    intro later
    have absent := row.fresh _ later
    rw [anchorSlot] at absent
    cases absent
  rw [whole]
  refine ⟨later, ran, pool, row.accounted, ?_, List.nodup_cons.mpr ⟨notAhead, row.once⟩, ?_, ?_⟩
  · intro id among
    rcases List.mem_cons.mp among with rfl | ahead
    · exact newcomer
    · rw [← allocated fun same => notAhead (same ▸ ahead)]
      exact row.fresh id ahead
  · intro place id there
    cases place with
    | zero =>
        obtain rfl := Option.some.inj there
        obtain ⟨fields, found, linked⟩ := row.first
        rw [anchorSlot] at found
        obtain rfl := Option.some.inj found
        have unlinked : Side.after.link (Fields.blank owner) = none := rfl
        rw [linked, unlinked, Option.or_none, List.head?_eq_getElem?]
        rfl
    | succ place => exact row.made place id there
  · intro id outside
    rw [List.mem_cons, not_or] at outside
    rw [row.elsewhere id outside.1 outside.2, allocated outside.1]

/-- A row whose last cell is linked to its first one is a closed ring. -/
theorem Row.close {before after : Arena} {owner first : CellId} {rest : List CellId}
    (row : Row before after owner (first :: rest)) {value : Num}
    (closed : (⟨first :: rest, []⟩ : Ring CellId).isClosed value = true) :
    ∃ later, after.link (rest.getLastD first) first = some later ∧ later.pool = after.pool ∧
      Furnished before later owner ⟨value, ⟨first :: rest, []⟩⟩ := by
  have members : (⟨first :: rest, []⟩ : Ring CellId).members = first :: rest := List.append_nil _
  have ends : (first :: rest)[rest.length]? = some (rest.getLastD first) := by
    rw [List.getLastD_eq_getLast?, ← List.getLast?_cons, List.getLast?_eq_getElem?]
    rfl
  have starts : (first :: rest)[0]? = some first := rfl
  have live {place : Nat} {id : CellId} (there : (first :: rest)[place]? = some id) : after.slots id ≠ none := by
    rw [row.made place id there]
    exact Option.some_ne_none _
  have atPlace {place other : Nat} {id : CellId} (there : (first :: rest)[place]? = some id)
      (also : (first :: rest)[other]? = some id) : place = other :=
    (List.getElem?_inj (List.getElem?_eq_some_iff.mp there).1 row.once).mp (there.trans also.symm)
  refine ⟨_, link_eq (live ends) (live starts), rfl, (row.accounted.amend _ _).amend _ _,
    by rw [members]; exact row.fresh, by rw [members]; exact row.once, ?_, ?_⟩
  · intro id among
    rw [members] at among
    obtain ⟨place, there⟩ := List.mem_iff_getElem?.mp among
    obtain ⟨bounded, _⟩ := List.getElem?_eq_some_iff.mp there
    have isFirst : id = first ↔ place = 0 :=
      ⟨fun equal => atPlace there (equal ▸ starts), fun equal => by subst equal; exact (Option.some.inj there).symm⟩
    have isLast : id = rest.getLastD first ↔ place = rest.length := by
      constructor
      · intro equal
        exact atPlace there (equal ▸ ends)
      · intro equal
        rw [equal, ends] at there
        exact (Option.some.inj there).symm
    have newborn := Entry.newborn_forward ⟨value, ⟨first :: rest, []⟩⟩ (members.symm ▸ row.once)
      (fun _ => rfl) there owner
    have onward : (if place = rest.length then some first else (first :: rest)[place + 1]?) =
        (first :: rest)[place + 1]?.or (some first) := by
      split
      case isTrue last => rw [last, List.getElem?_eq_none (by rw [List.length_cons])]; rfl
      case isFalse more =>
        rw [List.length_cons] at bounded
        rw [List.getElem?_eq_getElem (by rw [List.length_cons]; omega)]
        rfl
    rw [slots_linked, row.made place id there, newborn]
    simp only [isFirst, isLast, closed, Option.map_some, if_true, onward, List.head?_cons]
    rw [List.getLast?_cons, ← List.getLastD_eq_getLast?]
    congr 2
    split <;> rfl
  · intro id outside
    rw [members] at outside
    have notFirst : id ≠ first := fun same => outside (same ▸ List.mem_cons_self)
    have notLast : id ≠ rest.getLastD first := fun same => outside (same ▸ List.mem_of_getElem? ends)
    rw [slots_amend_of_ne _ _ notFirst, slots_amend_of_ne _ _ notLast, row.elsewhere id outside]

section Widening

variable {before between after : Arena} {owner first : CellId} {rest far : List CellId}
  (row : Row before between owner (first :: rest)) (behind : Spread between after .before owner first far)

include row behind

/-- The new cells on the other side of a row are not in the row. -/
theorem Row.not_mem_spread {id : CellId} (near : id ∈ first :: rest) : id ∉ far := by
  intro later
  obtain ⟨place, there⟩ := List.mem_iff_getElem?.mp near
  have slot := row.made place id there
  rw [behind.fresh id later] at slot
  cases slot

theorem Row.nodup_widened : (first :: rest ++ far).Nodup := by
  refine List.nodup_append.mpr ⟨row.once, behind.once, ?_⟩
  intro id near other later equal
  exact row.not_mem_spread behind near (equal ▸ later)

/-- A row and another one on the other side of its first cell are an arc. -/
theorem Row.widen {value : Num} (opened : (⟨first :: rest, far⟩ : Ring CellId).isClosed value = false) :
    Furnished before after owner ⟨value, ⟨first :: rest, far⟩⟩ := by
  have apart {id : CellId} (near : id ∈ first :: rest) : id ∉ far := row.not_mem_spread behind near
  have once := row.nodup_widened behind
  refine ⟨behind.accounted, ?_, once, ?_, ?_⟩
  · intro id among
    rcases List.mem_append.mp among with near | later
    · exact row.fresh id near
    · rw [← row.elsewhere id fun near => apart near later]
      exact behind.fresh id later
  · intro id among
    have whole : (⟨first :: rest, far⟩ : Ring CellId).Sealed value := by
      intro closed
      rw [opened] at closed
      cases closed
    rcases List.mem_append.mp among with near | later
    · obtain ⟨place, there⟩ := List.mem_iff_getElem?.mp near
      have newborn := Entry.newborn_forward ⟨value, ⟨first :: rest, far⟩⟩ once whole there owner
      rw [newborn]
      simp only [opened, Bool.false_eq_true, if_false, Option.or_none]
      have slot := row.made place id there
      cases place with
      | zero =>
          obtain rfl := Option.some.inj there
          obtain ⟨fields, found, linked⟩ := behind.first
          rw [slot] at found
          obtain rfl := Option.some.inj found
          rw [linked]
          simp [Side.setLink, Side.link]
      | succ place =>
          have other : id ≠ first := by
            rintro rfl
            exact (List.nodup_cons.mp row.once).1 (List.mem_of_getElem? there)
          rw [behind.elsewhere id other (apart near), slot]
          rfl
    · obtain ⟨place, there⟩ := List.mem_iff_getElem?.mp later
      have newborn := Entry.newborn_backward ⟨value, ⟨first :: rest, far⟩⟩ once whole rfl there owner
      rw [newborn, behind.made place id there]
      rfl
  · intro id outside
    change id ∉ first :: rest ++ far at outside
    rw [List.mem_append, not_or] at outside
    rw [behind.elsewhere id (fun same => outside.1 (same ▸ List.mem_cons_self)) outside.2, row.elsewhere id outside.1]

end Widening

theorem Row.complete {before after : Arena} {owner first : CellId} {rest : List CellId}
    (row : Row before after owner (first :: rest)) {backward : List CellId} {value : Num} {closed : Bool}
    (same : (⟨first :: rest, (after.pool.takeMany backward.length).1⟩ : Ring CellId).isClosed value = closed)
    (whole : closed = true → backward = []) :
    ∃ later, after.complete owner first rest backward closed = some ((after.pool.takeMany backward.length).1, later) ∧
      later.pool = (after.pool.takeMany backward.length).2 ∧
      Furnished before later owner ⟨value, ⟨first :: rest, (after.pool.takeMany backward.length).1⟩⟩ := by
  cases closed with
  | true =>
      rw [whole rfl] at same ⊢
      obtain ⟨later, linked, kept, furnished⟩ := row.close same
      refine ⟨later, ?_, kept, furnished⟩
      rw [Arena.complete, if_pos rfl, linked]
      rfl
  | false =>
      have live : after.slots first ≠ none := by
        rw [row.made 0 first rfl]
        exact Option.some_ne_none _
      obtain ⟨later, ran, kept, behind⟩ := spread_spec .before owner backward row.accounted live
      exact ⟨later, ran, kept, row.widen behind same⟩

/-- A cell without children has those of an empty ring. -/
theorem Blank.mirrored {arena : Arena} (accounted : arena.Accounted) {owner : CellId} (blank : arena.Blank owner)
    (value : Num) : Mirrored arena arena owner ⟨value, Ring.empty⟩ := by
  obtain ⟨⟨_, _, _, _, _, _⟩, found, rfl, rfl⟩ := blank
  refine ⟨accounted, List.nodup_nil, ?_, ?_, fun _ _ _ => rfl⟩
  · rw [found]
    rfl
  · intro id listed
    exact absurd listed List.not_mem_nil

/-- The new children take the slots of a ring of the same shape. -/
theorem mirror_spec {arena : Arena} (accounted : arena.Accounted) {owner : CellId} (blank : arena.Blank owner)
    {originals : Ring CellId} {value : Num} (fits : originals.Fits value) :
    ∃ later, arena.mirror owner originals.size originals (originals.isClosed value) =
        some ((arena.pool.takeRing originals).1, later) ∧
      later.pool = (arena.pool.takeRing originals).2 ∧
      Mirrored arena later owner ⟨value, (arena.pool.takeRing originals).1⟩ := by
  rcases originals with ⟨forward, backward⟩
  cases forward with
  | nil =>
      obtain rfl : backward = [] := fits.anchored rfl
      exact ⟨arena, rfl, rfl, blank.mirrored accounted value⟩
  | cons original rest =>
      obtain ⟨between, ran, pool, row⟩ := row_spec accounted owner rest
      change Row arena between owner (arena.pool.take.1 :: (arena.pool.take.2.takeMany rest.length).1) at row
      have ring : (arena.pool.takeRing (⟨original :: rest, backward⟩ : Ring CellId)).1 =
          ⟨arena.pool.take.1 :: (arena.pool.take.2.takeMany rest.length).1,
            (between.pool.takeMany backward.length).1⟩ := by
        rw [pool]
        rfl
      have ahead : (arena.pool.take.1 :: (arena.pool.take.2.takeMany rest.length).1).length =
          (original :: rest).length :=
        Pool.length_takeMany (rest.length + 1) arena.pool
      have behind := Pool.length_takeMany backward.length between.pool
      have closed : (⟨arena.pool.take.1 :: (arena.pool.take.2.takeMany rest.length).1,
          (between.pool.takeMany backward.length).1⟩ : Ring CellId).isClosed value =
            (⟨original :: rest, backward⟩ : Ring CellId).isClosed value :=
        Ring.isClosed_of_lengths ahead behind
      obtain ⟨linked, completed, kept, furnished⟩ := row.complete closed fits.isSealed
      obtain ⟨later, told, final, mirrored⟩ := furnished.own blank.live rfl
      refine ⟨later, ?_, ?_, ring ▸ mirrored⟩
      · rw [mirror, ring]
        show (spread .after owner arena.pool.take.1 rest (arena.alloc owner).2).bind _ = _
        rw [ran, Option.bind_some]
        show (between.complete owner arena.pool.take.1 (arena.pool.take.2.takeMany rest.length).1 backward
          ((⟨original :: rest, backward⟩ : Ring CellId).isClosed value)).bind _ = _
        rw [completed, Option.bind_some]
        simp only [Ring.size, ahead, behind] at told
        show (linked.edit owner fun fields =>
          { fields with
            instantiated := (original :: rest).length + backward.length
            firstChild := some arena.pool.take.1 }).bind _ = _
        rw [told]
        rfl
      · rw [final, kept, pool]
        rfl

end Arena

end RingTape
