import RingTape.Proofs.Links
import RingTape.Proofs.Outcome
import RingTape.Proofs.Roster

/-!
Walking. A step in a ring does nothing but fill indices of the roster that were empty, with blank cells; the
cell it leads to is the one at the neighbouring index of the roster afterwards. `Strides` says so of any
program that leads from one member of a ring to another, and composes.
-/

namespace RingTape

set_option autoImplicit false

namespace Store

section Runs

variable {store : Store}

theorem run_cell_of_some {id : CellId} {node : Cell} (found : store.cell? id = some node) :
    cell id store = .ok node store := by
  rw [cell, run_bind_ok (run_get store), found]
  rfl

theorem run_cell_of_none {id : CellId} (found : store.cell? id = none) :
    cell id store = .error (.stale id) store := by
  rw [cell, run_bind_ok (run_get store), found]
  rfl

theorem run_parentOf_of_some {id : CellId} {parent : Cell} (found : store.parent? id = some parent) :
    parentOf id store = .ok parent store := by
  rw [parentOf, run_bind_ok (run_get store), found]
  rfl

/-- The top of a tree has no siblings. -/
theorem run_parentOf_detached {node : Cell} (present : store.cell? node.id = some node)
    (found : store.parent? node.id = none) : parentOf node.id store = .error (.detached node.id) store := by
  rw [parentOf, run_bind_ok (run_get store), found]
  exact run_bind_ok (run_cell_of_some present)

/-- Without a parent there is no sibling: the cell is the top of a tree, or there is no such cell. -/
theorem run_parentOf_of_none {id : CellId} (found : store.parent? id = none) :
    ∃ fault, parentOf id store = .error fault store := by
  cases present : store.cell? id with
  | none =>
      refine ⟨.stale id, ?_⟩
      rw [parentOf, run_bind_ok (run_get store), found]
      exact run_bind_error (run_cell_of_none present)
  | some node =>
      obtain ⟨_, rfl⟩ := mem_nodes_of_cell? present
      exact ⟨.detached node.id, run_parentOf_detached present found⟩

theorem run_takeSlot (store : Store) :
    takeSlot store = .ok store.pool.take.1 { store with pool := store.pool.take.2 } := rfl

theorem run_giveSlots (ids : List CellId) (store : Store) :
    giveSlots ids store = .ok () { store with pool := store.pool.give ids } := rfl

/-- A change in place is a replacement under the slot it changes. -/
theorem run_change {host : Cell} (distinct : store.ids.Nodup) (inside : host ∈ store.nodes)
    (edit : Cell → Cell) (value : Num) (ring : Ring Cell) (same : edit host = host.withRing value ring) :
    change host.id edit store = .ok () (store.replace host.id value ring store.pool) := by
  have amended := forestAmend_eq_replace distinct inside edit value ring same
  show EStateM.Result.ok () _ = _
  rw [replace, ← amended]

theorem run_setRing {host : Cell} (distinct : store.ids.Nodup) (inside : host ∈ store.nodes) (ring : Ring Cell) :
    setRing host.id ring store = .ok () (store.replace host.id host.value ring store.pool) :=
  run_change distinct inside _ _ _ rfl

theorem run_install {host : Cell} (distinct : store.ids.Nodup) (inside : host ∈ store.nodes) (value : Num)
    (ring : Ring Cell) :
    install host.id value ring store =
      .ok () (store.replace host.id value (ring.settle value) store.pool) :=
  run_change distinct inside _ _ _ rfl

end Runs

end Store

/-- What stands at an index of the roster of a cell: a child in the store. -/
def Cell.Seats (host : Cell) (index : Nat) (member : Cell) : Prop :=
  (host.ring.roster host.value)[index]? = some (some member)

theorem Cell.Seats.member {host member : Cell} {index : Nat} (fits : host.Fits)
    (seated : host.Seats index member) : member ∈ host.ring.members := by
  have ⟨_, _, there⟩ := Ring.placeAt_lt_of_mem (Ring.Fits.size_le fits) seated
  exact (Ring.mem_members_iff _ _).mpr (List.mem_of_getElem? there)

theorem Cell.exists_seat {host member : Cell} (fits : host.Fits) (child : member ∈ host.ring.members) :
    ∃ index, host.Seats index member := by
  obtain ⟨place, bounded, there⟩ := List.getElem_of_mem ((Ring.mem_members_iff _ _).mp child)
  have atPlace : host.ring.line[place]? = some member := by
    rw [List.getElem?_eq_getElem bounded, there]
  obtain ⟨index, seated, _⟩ := Ring.exists_index (Ring.Fits.size_le fits) atPlace
  exact ⟨index, seated⟩

namespace Cell

/-- A ring that differs from a cell's own by blank cells at empty indices, in slots taken from the pool. -/
structure Grown (host : Cell) (ring : Ring Cell) (before after : Pool) : Prop where
  fits : ring.Fits host.value
  kept : ∀ index member, host.Seats index member → (host.withRing host.value ring).Seats index member
  blank : ∀ index member, (host.withRing host.value ring).Seats index member →
    host.Seats index member ∨
      (host.ring.roster host.value)[index]? = some none ∧ member = leaf member.id 0
  extra : ∃ fresh : List CellId,
    ring.members.Perm (fresh.map (fun id => leaf id 0) ++ host.ring.members) ∧
      ∀ id, after.usage id = before.usage id + fresh.count id

theorem forestIds_leaves (ids : List CellId) (value : Num) :
    forestIds (ids.map fun id => leaf id value) = ids := by
  induction ids with
  | nil => rfl
  | cons id rest induction => simp [induction, ids_leaf]

theorem Grown.counted {host : Cell} {ring : Ring Cell} {before after : Pool}
    (grown : host.Grown ring before after) (id : CellId) :
    after.usage id + (forestIds host.ring.members).count id =
      before.usage id + (forestIds ring.members).count id := by
  obtain ⟨fresh, members, taken⟩ := grown.extra
  have count := (forestIds_perm members).count_eq id
  have used := taken id
  rw [forestIds_append, forestIds_leaves, List.count_append] at count
  omega

theorem Grown.usage_le {host : Cell} {ring : Ring Cell} {before after : Pool}
    (grown : host.Grown ring before after) (id : CellId) : before.usage id ≤ after.usage id := by
  obtain ⟨fresh, _, taken⟩ := grown.extra
  rw [taken id]
  omega

theorem Grown.refl {host : Cell} (fits : host.Fits) (pool : Pool) : host.Grown host.ring pool pool := by
  refine ⟨fits, ?_, ?_, [], List.Perm.refl _, ?_⟩
  · intro index member seated
    exact seated
  · intro index member seated
    exact Or.inl seated
  · intro id
    simp

theorem Grown.trans {host : Cell} {ring wider : Ring Cell} {before between after : Pool} (hostFits : host.Fits)
    (first : host.Grown ring before between)
    (second : (host.withRing host.value ring).Grown wider between after) :
    host.Grown wider before after := by
  refine ⟨second.fits, ?_, ?_, ?_⟩
  · intro index member seated
    exact second.kept index member (first.kept index member seated)
  · intro index member seated
    rcases second.blank index member seated with earlier | ⟨empty, fresh⟩
    · exact first.blank index member earlier
    · right
      refine ⟨?_, fresh⟩
      -- An index still empty after the first growth was empty before it.
      have inside : index < (host.ring.roster host.value).length := by
        have less := (List.getElem?_eq_some_iff.mp empty).1
        rw [value_withRing, ring_withRing, Ring.length_roster _ _ first.fits.size_le] at less
        rw [Ring.length_roster _ _ (Ring.Fits.size_le hostFits)]
        exact less
      cases occupant : (host.ring.roster host.value)[index] with
      | none => rw [List.getElem?_eq_getElem inside, occupant]
      | some other =>
          have seat : host.Seats index other := by
            rw [Seats, List.getElem?_eq_getElem inside, occupant]
          have still := first.kept index other seat
          rw [Seats, empty] at still
          simp at still
  · obtain ⟨early, earlyMembers, earlyTaken⟩ := first.extra
    obtain ⟨late, lateMembers, lateTaken⟩ := second.extra
    refine ⟨late ++ early, ?_, ?_⟩
    · rw [List.map_append, List.append_assoc]
      exact lateMembers.trans (earlyMembers.append_left _)
    · intro id
      have firstCount := earlyTaken id
      have secondCount := lateTaken id
      rw [List.count_append]
      omega

/-- One blank cell at one empty index is a growth. -/
theorem grown_of_set {host : Cell} {ring : Ring Cell} {before after : Pool} {place : Nat} {fresh : CellId}
    (fits : ring.Fits host.value)
    (empty : (host.ring.roster host.value)[place]? = some none)
    (filled : ring.roster host.value = (host.ring.roster host.value).set place (some (leaf fresh 0)))
    (members : ring.members.Perm (leaf fresh 0 :: host.ring.members))
    (taken : ∀ id, after.usage id = before.usage id + [fresh].count id) :
    host.Grown ring before after := by
  have inside := (List.getElem?_eq_some_iff.mp empty).1
  refine ⟨fits, ?_, ?_, ?_⟩
  · intro index member seated
    have other : place ≠ index := by
      intro same
      rw [Seats, ← same, empty] at seated
      simp at seated
    rw [Seats, value_withRing, ring_withRing, filled, List.getElem?_set_ne other]
    exact seated
  · intro index member seated
    rw [Seats, value_withRing, ring_withRing, filled] at seated
    by_cases same : place = index
    · right
      subst same
      rw [List.getElem?_set_self inside] at seated
      simp only [Option.some.injEq] at seated
      exact ⟨empty, by rw [← seated]; rfl⟩
    · left
      rw [List.getElem?_set_ne same] at seated
      exact seated
  · exact ⟨[fresh], members, taken⟩

theorem fits_leaf (id : CellId) (value : Num) : ∀ node ∈ (leaf id value).nodes, node.Fits := by
  intro node inside
  have same : node = leaf id value := by simpa [nodes_eq, leaf, Ring.empty, Ring.members] using inside
  rw [same]
  exact Ring.fits_empty value

end Cell

namespace Store

theorem Sound.grow {store : Store} (sound : store.Sound) {host : Cell} (inside : host ∈ store.nodes)
    {ring : Ring Cell} {pool : Pool} (grown : host.Grown ring store.pool pool) :
    (store.replace host.id host.value ring pool).Sound := by
  refine sound.replace inside grown.fits ?_ grown.counted
  intro member ofRing node below
  have fits : (host.withRing host.value ring).Fits := grown.fits
  obtain ⟨index, seated⟩ := Cell.exists_seat fits ofRing
  rcases grown.blank index member seated with earlier | ⟨_, fresh⟩
  · have child := earlier.member (sound.rings host inside)
    exact sound.rings node (Cell.forestNodes_subset _ _ (member_mem_nodes inside child) _ below)
  · rw [fresh] at below
    exact Cell.fits_leaf _ _ node below

/-- The parent of a seated cell is the cell it is seated under, and its place is that of its index. -/
theorem parent?_of_seat {store : Store} (sound : store.Sound) {host member : Cell} {index : Nat}
    (inside : host ∈ store.nodes) (seated : host.Seats index member) :
    store.parent? member.id = some host ∧
      host.placeOf member.id = host.ring.placeAt host.value index := by
  have ⟨_, _, there⟩ := Ring.placeAt_lt_of_mem (Ring.Fits.size_le (sound.rings host inside)) seated
  exact ⟨parent?_of_line sound inside there,
    Cell.placeOf_eq (Cell.line_ids_nodup sound.distinct inside) there⟩

theorem seat_of_parent? {store : Store} (sound : store.Sound) {host : Cell} {id : CellId}
    (found : store.parent? id = some host) :
    host ∈ store.nodes ∧ ∃ index member, host.Seats index member ∧ member.id = id := by
  have ⟨inside, child⟩ := mem_nodes_of_parent? found
  obtain ⟨member, ofRing, same⟩ := List.mem_map.mp child
  obtain ⟨index, seated⟩ := Cell.exists_seat (sound.rings host inside) ofRing
  exact ⟨inside, index, member, seated, same⟩

/--
A program that leads from each member of a ring to the one so many places further on, and changes nothing
but that the ring may grow.
-/
def Strides (step : CellId → StoreM CellId) (distance : Int) : Prop :=
  ∀ (store : Store) (host member : Cell) (index : Nat), store.Sound → host ∈ store.nodes →
    host.Seats index member → ∃ (reached : Cell) (ring : Ring Cell) (pool : Pool),
      step member.id store = .ok reached.id (store.replace host.id host.value ring pool) ∧
        host.Grown ring store.pool pool ∧
        (host.withRing host.value ring).Seats (Ring.turn host.value.places index distance) reached

theorem strides_pure : Strides (fun id => pure id) 0 := by
  intro store host member index sound inside seated
  have fits := sound.rings host inside
  have ⟨less, _, _⟩ := Ring.placeAt_lt_of_mem (Ring.Fits.size_le fits) seated
  refine ⟨member, host.ring, store.pool, ?_, Cell.Grown.refl fits _, ?_⟩
  · rw [replace_self sound.distinct inside]
    rfl
  · rw [Ring.turn_zero _ _ less]
    exact seated

theorem Strides.comp {first second : CellId → StoreM CellId} {near far : Int} (leads : Strides first near)
    (follows : Strides second far) : Strides (fun id => first id >>= second) (near + far) := by
  intro store host member index sound inside seated
  have fits := sound.rings host inside
  have ⟨less, _, _⟩ := Ring.placeAt_lt_of_mem (Ring.Fits.size_le fits) seated
  obtain ⟨between, ring, pool, ran, grown, there⟩ := leads store host member index sound inside seated
  have present := host_mem_replace sound.distinct inside host.value ring pool
  obtain ⟨reached, wider, rest, goneOn, more, arrived⟩ := follows (store.replace host.id host.value ring pool)
    (host.withRing host.value ring) between _ (sound.grow inside grown) present there
  refine ⟨reached, wider, rest, ?_, grown.trans fits more, ?_⟩
  · show (first member.id >>= second) store = _
    rw [run_bind_ok ran, goneOn, Cell.id_withRing, Cell.value_withRing, replace_replace]
  · rw [Cell.value_withRing, Ring.turn_turn _ _ _ _ (by omega)] at arrived
    exact arrived

theorem strides_steps {step : CellId → StoreM CellId} {distance : Int} (leads : Strides step distance)
    (count : Nat) : Strides (steps step count) (count * distance) := by
  induction count with
  | zero =>
      rw [Int.natCast_zero, Int.zero_mul]
      exact strides_pure
  | succ count induction =>
      have total : ((count + 1 : Nat) : Int) * distance = distance + count * distance := by
        rw [Int.natCast_add, Int.add_mul, Int.add_comm, Int.natCast_one, Int.one_mul]
      rw [total]
      exact leads.comp induction

theorem run_fill {store : Store} (distinct : store.ids.Nodup) {host : Cell} (inside : host ∈ store.nodes)
    (fill : CellId → Ring Cell) :
    (do
        let fresh ← takeSlot
        setRing host.id (fill fresh)
        return fresh : StoreM CellId) store =
      .ok store.pool.take.1
        (store.replace host.id host.value (fill store.pool.take.1) store.pool.take.2) := by
  have taken : ({ store with pool := store.pool.take.2 } : Store).ids.Nodup := distinct
  rw [run_bind_ok (run_takeSlot store), run_bind_ok (run_setRing taken inside _)]
  rfl

theorem strides_next : Strides next 1 := by
  intro store host member index sound inside seated
  have fits := sound.rings host inside
  have ⟨found, place⟩ := parent?_of_seat sound inside seated
  have ran := run_parentOf_of_some found
  cases after : host.ring.after? host.value (host.ring.placeAt host.value index) with
  | some following =>
      refine ⟨following, host.ring, store.pool, ?_, Cell.Grown.refl fits _, ?_⟩
      · rw [next, run_bind_ok ran, place]
        simp only [after]
        rw [replace_self sound.distinct inside]
        rfl
      · exact Ring.roster_after? fits seated after
  | none =>
      have ⟨short, beyond⟩ := Ring.roster_after?_none fits seated after
      have filled := Ring.roster_pushForward host.value host.ring (Cell.leaf store.pool.take.1 0) short
      have empty : (host.ring.roster host.value)[host.ring.forward.length]? = some none :=
        Ring.roster_gap (Nat.le_refl _) (by unfold Ring.size at short; omega)
      have wider := Ring.fits_pushForward (Cell.leaf store.pool.take.1 0) short
      rw [← Ring.roster_settle] at filled
      refine ⟨Cell.leaf store.pool.take.1 0, _, store.pool.take.2, ?_,
        Cell.grown_of_set wider empty filled ?_ (Pool.usage_take store.pool), ?_⟩
      · rw [next, run_bind_ok ran, place]
        simp only [after]
        rw [run_fill sound.distinct inside]
        rfl
      · apply (Ring.members_settle_perm _ _).trans
        simp only [Ring.pushForward, Ring.members, List.append_assoc]
        exact List.perm_middle
      · rw [Cell.Seats, Cell.value_withRing, Cell.ring_withRing, filled, beyond,
          List.getElem?_set_self (List.getElem?_eq_some_iff.mp empty).1]

theorem strides_prev : Strides prev (-1) := by
  intro store host member index sound inside seated
  have fits := sound.rings host inside
  have ⟨found, place⟩ := parent?_of_seat sound inside seated
  have ran := run_parentOf_of_some found
  cases before : host.ring.before? host.value (host.ring.placeAt host.value index) with
  | some preceding =>
      refine ⟨preceding, host.ring, store.pool, ?_, Cell.Grown.refl fits _, ?_⟩
      · rw [prev, run_bind_ok ran, place]
        simp only [before]
        rw [replace_self sound.distinct inside]
        rfl
      · exact Ring.roster_before? fits seated before
  | none =>
      have ⟨short, beyond⟩ := Ring.roster_before?_none fits seated before
      have ⟨_, less, _⟩ := Ring.placeAt_lt_of_mem (Ring.Fits.size_le fits) seated
      have filled := Ring.roster_pushBackward host.value host.ring (Cell.leaf store.pool.take.1 0) short
      have empty : (host.ring.roster host.value)[host.value.places - 1 - host.ring.backward.length]? =
          some none := by
        unfold Ring.size at short
        exact Ring.roster_gap (by omega) (by omega)
      have wider := Ring.fits_pushBackward fits (Cell.leaf store.pool.take.1 0) (by omega) short
      rw [← Ring.roster_settle] at filled
      refine ⟨Cell.leaf store.pool.take.1 0, _, store.pool.take.2, ?_,
        Cell.grown_of_set wider empty filled ?_ (Pool.usage_take store.pool), ?_⟩
      · rw [prev, run_bind_ok ran, place]
        simp only [before]
        rw [run_fill sound.distinct inside]
        rfl
      · apply (Ring.members_settle_perm _ _).trans
        simp only [Ring.pushBackward, Ring.members, ← List.append_assoc]
        exact List.perm_append_singleton _ _
      · rw [Cell.Seats, Cell.value_withRing, Cell.ring_withRing, filled, beyond,
          List.getElem?_set_self (List.getElem?_eq_some_iff.mp empty).1]

/-- A member of a ring is a child of a cell of positive value. -/
theorem value_pos_of_seat {store : Store} (sound : store.Sound) {host member : Cell} {index : Nat}
    (inside : host ∈ store.nodes) (seated : host.Seats index member) :
    0 < host.value.toInt ∧ index < host.value.places := by
  have ⟨less, _, _⟩ := Ring.placeAt_lt_of_mem (Ring.Fits.size_le (sound.rings host inside)) seated
  refine ⟨?_, less⟩
  unfold Num.places at less
  omega

theorem run_ringSize {store : Store} (sound : store.Sound) {host member : Cell} {index : Nat}
    (inside : host ∈ store.nodes) (seated : host.Seats index member) :
    ringSize member.id store = .ok host.value store := by
  have ⟨found, _⟩ := parent?_of_seat sound inside seated
  have ⟨positive, _⟩ := value_pos_of_seat sound inside seated
  have fertile : ¬ host.value ≤ 0 := by
    rw [Int64.le_iff_toInt_le, Int64.toInt_zero]
    omega
  rw [ringSize, run_bind_ok (run_parentOf_of_some found)]
  simp only [fertile, if_false]
  rfl

/-- Going so many steps, reduced modulo the size of the ring, leads as far as going all of them. -/
theorem strides_shift {step : CellId → StoreM CellId} {unit : Int} (leads : Strides step unit)
    (sign : unit = 1 ∨ unit = -1) (count : Num) :
    Strides (fun id => do steps step (count.toInt % (← ringSize id).toInt).toNat id) (unit * count.toInt) := by
  intro store host member index sound inside seated
  have ⟨positive, _⟩ := value_pos_of_seat sound inside seated
  have size : host.value.toInt = host.value.places := by
    unfold Num.places
    omega
  have reduced : ((count.toInt % host.value.toInt).toNat : Int) = count.toInt % host.value.places := by
    have nonnegative := Int.emod_nonneg count.toInt (Int.ne_of_gt positive)
    rw [← size]
    omega
  have way := strides_steps leads (count.toInt % host.value.toInt).toNat store host member index sound inside
    seated
  obtain ⟨reached, ring, pool, ran, grown, there⟩ := way
  refine ⟨reached, ring, pool, ?_, grown, ?_⟩
  · show (ringSize member.id >>= _) store = _
    rw [run_bind_ok (run_ringSize sound inside seated)]
    exact ran
  · rw [reduced] at there
    rcases sign with forward | backward
    · rw [forward, Int.mul_one, Ring.turn_emod] at there
      rw [forward, Int.one_mul]
      exact there
    · rw [backward, Int.mul_neg, Int.mul_one, Ring.turn_neg_emod] at there
      rw [backward, Int.neg_mul, Int.one_mul]
      exact there

theorem strides_shiftForward (count : Num) : Strides (fun id => shiftForward id count) count.toInt := by
  have shift := strides_shift strides_next (Or.inl rfl) count
  rw [Int.one_mul] at shift
  exact shift

theorem strides_shiftBack (count : Num) : Strides (fun id => shiftBack id count) (-count.toInt) := by
  have shift := strides_shift strides_prev (Or.inr rfl) count
  rw [Int.neg_mul, Int.one_mul] at shift
  exact shift

/-- The anchor of a cell of positive value stands at index 0. -/
theorem run_child {store : Store} (sound : store.Sound) {host : Cell} (inside : host ∈ store.nodes)
    (positive : 0 < host.value.places) :
    ∃ (reached : Cell) (ring : Ring Cell) (pool : Pool),
      child host.id store = .ok reached.id (store.replace host.id host.value ring pool) ∧
        host.Grown ring store.pool pool ∧ (host.withRing host.value ring).Seats 0 reached := by
  have fits := sound.rings host inside
  have ran := run_cell_of_some (cell?_of_mem sound.distinct inside)
  cases front : host.ring.forward with
  | cons anchor others =>
      refine ⟨anchor, host.ring, store.pool, ?_, Cell.Grown.refl fits _, ?_⟩
      · rw [child, run_bind_ok ran]
        simp only [front]
        rw [replace_self sound.distinct inside]
        rfl
      · simp [Cell.Seats, Ring.roster, front]
  | nil =>
      have bare : host.ring = Ring.empty := by
        rcases ring : host.ring with ⟨forward, backward⟩
        have behind := fits.anchored
        rw [ring] at front behind
        simp only at front behind
        rw [front, behind front]
        rfl
      have short : host.ring.size < host.value.places := by
        rw [bare]
        exact positive
      have empty : (host.ring.roster host.value)[0]? = some none := by
        apply Ring.roster_gap
        · simp [front]
        · simpa [bare, Ring.empty] using positive
      have filled := Ring.roster_pushForward host.value host.ring (Cell.leaf store.pool.take.1 0) short
      have wider := Ring.fits_pushForward (Cell.leaf store.pool.take.1 0) short
      have alone : (host.ring.pushForward (Cell.leaf store.pool.take.1 0)).settle host.value =
          Ring.single (Cell.leaf store.pool.take.1 0) := by
        rw [bare]
        unfold Ring.settle
        split <;> rfl
      rw [← Ring.roster_settle, front] at filled
      rw [alone] at filled wider
      refine ⟨Cell.leaf store.pool.take.1 0, _, store.pool.take.2, ?_,
        Cell.grown_of_set wider empty filled ?_ (Pool.usage_take store.pool), ?_⟩
      · have fertile : ¬ host.value ≤ 0 := by
          rw [Int64.le_iff_toInt_le, Int64.toInt_zero]
          unfold Num.places at positive
          omega
        rw [child, run_bind_ok ran]
        simp only [front, fertile, if_false]
        exact run_fill sound.distinct inside _
      · rw [bare]
        exact List.Perm.refl _
      · rw [Cell.Seats, Cell.value_withRing, Cell.ring_withRing, filled]
        exact List.getElem?_set_self (List.getElem?_eq_some_iff.mp empty).1

theorem run_child_barren {store : Store} {host : Cell} (distinct : store.ids.Nodup)
    (inside : host ∈ store.nodes) (fits : host.Fits) (barren : host.value.places = 0) :
    child host.id store = .error (.barren host.id host.value) store := by
  have ran := run_cell_of_some (cell?_of_mem distinct inside)
  have none : host.ring.forward = [] := by
    have bounded := Ring.Fits.size_le fits
    simp only [Ring.size, barren] at bounded
    exact List.eq_nil_of_length_eq_zero (by omega)
  have refused : host.value ≤ 0 := by
    rw [Int64.le_iff_toInt_le, Int64.toInt_zero]
    unfold Num.places at barren
    omega
  rw [child, run_bind_ok ran]
  simp only [none, refused, if_true]
  rfl

theorem Sound.rearrange {store : Store} (sound : store.Sound) {host : Cell} (inside : host ∈ store.nodes)
    {ring : Ring Cell} (fits : ring.Fits host.value) (members : ring.members.Perm host.ring.members) :
    (store.replace host.id host.value ring store.pool).Sound := by
  refine sound.replace inside fits ?_ ?_
  · intro member ofRing node below
    have child := members.mem_iff.mp ofRing
    exact sound.rings node (Cell.forestNodes_subset _ _ (member_mem_nodes inside child) _ below)
  · intro id
    rw [(Cell.forestIds_perm members).count_eq id]

/-- Making a cell the anchor of its ring turns the roster until the cell comes first. -/
theorem run_makeFirst {store : Store} (sound : store.Sound) {host member : Cell} {index : Nat}
    (inside : host ∈ store.nodes) (seated : host.Seats index member) :
    ∃ ring : Ring Cell,
      makeFirst member.id store = .ok () (store.replace host.id host.value ring store.pool) ∧
        ring.Fits host.value ∧ ring.members.Perm host.ring.members ∧
        ring.roster host.value = (host.ring.roster host.value).rotate index := by
  have fits := sound.rings host inside
  have bounded := Ring.Fits.size_le fits
  have ⟨found, place⟩ := parent?_of_seat sound inside seated
  have ⟨_, less, _⟩ := Ring.placeAt_lt_of_mem bounded seated
  refine ⟨(host.ring.anchorAt (host.ring.placeAt host.value index)).settle host.value, ?_, ?_, ?_, ?_⟩
  · rw [makeFirst, run_bind_ok (run_parentOf_of_some found), place]
    exact run_setRing sound.distinct inside _
  · apply Ring.fits_settle
    · intro none
      have all : host.ring.line.length ≤ host.ring.placeAt host.value index :=
        List.drop_eq_nil_iff.mp none
      rw [← Ring.size_eq_length_line] at all
      omega
    · rw [Ring.size_eq_length_line, Ring.line_anchorAt, ← Ring.size_eq_length_line]
      exact fits.bounded
  · refine (Ring.members_settle_perm _ _).trans ((Ring.line_perm_members _).symm.trans ?_)
    rw [Ring.line_anchorAt]
    exact Ring.line_perm_members _
  · rw [Ring.roster_settle]
    exact Ring.roster_anchorAt bounded seated

end Store

end RingTape
